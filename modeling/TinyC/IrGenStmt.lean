import TinyC.IrGenExpr

/-!
# Lowering of statements and functions
-/

namespace TinyC

/-! ### The scans before a switch body and a function body -/

def addCase (node : ℕ) (val : BitVec 64) (isDefault : Bool) : Gen Unit := do
  let lbl ← newLabel
  modify fun g => { g with
    swDefaultLbl := if isDefault then lbl else g.swDefaultLbl
    caseEntries := ⟨node, val, isDefault, lbl⟩ :: g.caseEntries }

mutual

def collectSwitchCases : Stmt → Gen Unit
  | .case node _ _ e s => do
      addCase node (evalConstExpr e) false
      collectSwitchCases s
  | .default node _ _ s => do
      addCase node 0 true
      collectSwitchCases s
  | .compound ss => collectSwitchCasesList ss
  | .ifElse _ _ _ t e => do
      collectSwitchCases t
      collectSwitchCasesOpt e
  | .while _ _ _ b | .doWhile _ _ _ b | .for _ _ _ _ _ b => collectSwitchCases b
  | .label _ _ _ s => collectSwitchCases s
  -- nested switches keep their own cases
  | .switch _ _ _ _ => return
  | _ => return

def collectSwitchCasesList : List Stmt → Gen Unit
  | [] => return
  | s :: ss => do
      collectSwitchCases s
      collectSwitchCasesList ss

def collectSwitchCasesOpt : Option Stmt → Gen Unit
  | none => return
  | some s => collectSwitchCases s

end

def addLabel (name : String) : Gen Unit := do
  let lbl ← newLabel
  modify fun g => { g with gotoLabels := (name, lbl) :: g.gotoLabels }

mutual

def collectLabels : Stmt → Gen Unit
  | .label _ _ name s => do
      addLabel name
      collectLabels s
  | .compound ss => collectLabelsList ss
  | .ifElse _ _ _ t e => do
      collectLabels t
      collectLabelsOpt e
  | .while _ _ _ b | .doWhile _ _ _ b | .for _ _ _ _ _ b | .switch _ _ _ b => collectLabels b
  | .case _ _ _ _ s | .default _ _ _ s => collectLabels s
  | _ => return

def collectLabelsList : List Stmt → Gen Unit
  | [] => return
  | s :: ss => do
      collectLabels s
      collectLabelsList ss

def collectLabelsOpt : Option Stmt → Gen Unit
  | none => return
  | some s => collectLabels s

end

/-! ### Statements -/

def pushScope : Gen Unit := modify fun g => { g with scope := g.scope.push }

/-- Runs `m` in a new innermost scope. -/
def withScope (m : Gen Unit) : Gen Unit := do
  let saved ← get
  pushScope
  m
  modify fun g => { g with scope := saved.scope }

/-- Sets other targets for `break` and `continue`. -/
def setTargets (breakLabel contLabel : ℕ) : Gen Unit :=
  modify fun g => { g with breakLabel := breakLabel, contLabel := contLabel }

/-- Runs `m` and restores the targets of `break` and `continue`. -/
def keepTargets (m : Gen Unit) : Gen Unit := do
  let saved ← get
  m
  modify fun g => { g with breakLabel := saved.breakLabel, contLabel := saved.contLabel }

def genVarDecl (Γ : TypeEnv) (v : VarDecl) : Gen Unit := do
  let ty := v.declType.getD typeInt
  let addr ← genAlloca Γ ty
  vscopeDefine v.name addr false
  genInitializer Γ addr ty v.init

def genDecls (Γ : TypeEnv) : List Decl → Gen Unit
  | [] => return
  | .var v :: ds => do
      genVarDecl Γ v
      genDecls Γ ds
  | _ :: ds => genDecls Γ ds

/-- The test of an `if`; returned are the labels of the else part and of the end. -/
def ifHead (cond : Gen IRValue) : Gen (ℕ × ℕ) := do
  let elseLabel ← newLabel
  let endLabel ← newLabel
  let c ← cond
  emitJz c elseLabel
  return (elseLabel, endLabel)

/-- What stands between the two branches of an `if`. -/
def elseHead (ls : ℕ × ℕ) : Gen Unit := do
  emitJmp ls.2
  emitLabel ls.1

def genIf (cond : Gen IRValue) (thenStmt : Gen Unit) (elseStmt : Option (Gen Unit)) :
    Gen Unit := do
  let ls ← ifHead cond
  thenStmt
  match elseStmt with
  | none => emitLabel ls.1
  | some e => do
      elseHead ls
      e
      emitLabel ls.2

/-- The labels of a loop. -/
structure LoopLabels where
  top : ℕ
  body : ℕ
  cont : ℕ
  done : ℕ

/-- The code of a `while` before its body. -/
def whileHead (cond : Gen IRValue) : Gen LoopLabels := do
  let topLabel ← newLabel
  let bodyLabel ← newLabel
  let endLabel ← newLabel
  setTargets endLabel topLabel
  emitLabel topLabel
  let c ← cond
  emitJz c endLabel
  emitLabel bodyLabel
  return ⟨topLabel, bodyLabel, topLabel, endLabel⟩

def genWhile (cond : Gen IRValue) (body : Gen Unit) : Gen Unit := keepTargets do
  let ls ← whileHead cond
  body
  emitJmp ls.top
  emitLabel ls.done

/-- The code of a `do` before its body. -/
def doHead : Gen LoopLabels := do
  let bodyLabel ← newLabel
  let condLabel ← newLabel
  let endLabel ← newLabel
  setTargets endLabel condLabel
  emitLabel bodyLabel
  return ⟨bodyLabel, bodyLabel, condLabel, endLabel⟩

def genDoWhile (cond : Gen IRValue) (body : Gen Unit) : Gen Unit := keepTargets do
  let ls ← doHead
  body
  emitLabel ls.cont
  let c ← cond
  emitJnz c ls.body
  emitLabel ls.done

/-- The labels and the targets of a `for`. -/
def forHead : Gen LoopLabels := do
  let topLabel ← newLabel
  let bodyLabel ← newLabel
  let incrLabel ← newLabel
  let endLabel ← newLabel
  setTargets endLabel incrLabel
  return ⟨topLabel, bodyLabel, incrLabel, endLabel⟩

/-- The test of a loop that may have no condition. -/
def genLoopTest (cond : Option (Gen IRValue)) (endLabel : ℕ) : Gen Unit :=
  match cond with
  | some cond => do
      let c ← cond
      emitJz c endLabel
  | none => return

/-- An expression evaluated for its effect, if there is one. -/
def genEffect : Option (Gen IRValue) → Gen Unit
  | some e => do
      let _ ← e
      return
  | none => return

/-- The code of a `for` between its first clause and its body. -/
def forTest (cond : Option (Gen IRValue)) (ls : LoopLabels) : Gen Unit := do
  emitLabel ls.top
  genLoopTest cond ls.done
  emitLabel ls.body

/-- The code of a `for` after its body. -/
def forTail (incr : Option (Gen IRValue)) (ls : LoopLabels) : Gen Unit := do
  emitLabel ls.cont
  genEffect incr
  emitJmp ls.top
  emitLabel ls.done

def genFor (init : Gen Unit) (cond incr : Option (Gen IRValue)) (body : Gen Unit) : Gen Unit :=
  keepTargets do
    let ls ← forHead
    withScope do
      init
      forTest cond ls
      body
      forTail incr ls

/-- The type `return` goes by: that of the function, or the expression's own. -/
def returnType (funcType : Option CType) (ty : CType) : CType :=
  match funcType with
  | some (.func ret _ _ _) => ret
  | _ => ty

def genReturn : Option (CType × NodeGen) → Gen Unit
  | some (ty, n) => do
      let g ← get
      let rv ← (if isAggregateType (some (returnType g.func.funcType ty)) then n.aggAddr else n.expr)
      emit { op := .ret, src1 := rv }
  | none => emit { op := .ret }

def genCaseTest (sv : IRValue) (ty : CType) (ce : CaseEntry) : Gen Unit :=
  if ce.isDefault then return
  else do
    let cmp ← emitTo typeInt .eq sv (irvInt ce.val ty)
    emitJnz cmp ce.labelId

/-- The comparison chain of a switch, in the order of the entries. -/
def genDispatch (sv : IRValue) (ty : CType) : List CaseEntry → Gen Unit
  | [] => return
  | ce :: rest => do
      genCaseTest sv ty ce
      genDispatch sv ty rest

/-- The code of a `switch` before its body; returned is the label of the end. -/
def switchHead (collect : Gen Unit) (e : Gen IRValue) : Gen ℕ := do
  let endLabel ← newLabel
  modify fun g => { g with breakLabel := endLabel, caseEntries := [], swDefaultLbl := 0 }
  collect
  let sv ← e
  let ty := sv.type.getD typeInt
  let svCopy ← emitTo ty .copy sv
  let g ← get
  genDispatch svCopy ty g.caseEntries
  emitJmp (if g.swDefaultLbl = 0 then endLabel else g.swDefaultLbl)
  return endLabel

/-- Runs `m` and restores what a `switch` changes. -/
def keepSwitch (m : Gen Unit) : Gen Unit := do
  let saved ← get
  m
  modify fun g => { g with
    caseEntries := saved.caseEntries
    swDefaultLbl := saved.swDefaultLbl
    breakLabel := saved.breakLabel }

def genSwitch (collect : Gen Unit) (e : Gen IRValue) (body : Gen Unit) : Gen Unit := keepSwitch do
  let endLabel ← switchHead collect e
  body
  emitLabel endLabel

/-- The label assigned to a `case` or `default` node by the scan. -/
def emitCaseLabel (node : ℕ) (isDefault : Bool) : Gen Unit := do
  match (← get).caseEntries.find? fun ce => ce.node = node && ce.isDefault = isDefault with
  | some ce => emitLabel ce.labelId
  | none => return

/-- The label collected for a name. -/
def emitNamedLabel (name : String) : Gen Unit := do
  match (← get).gotoLabels.lookup name with
  | some l => emitLabel l
  | none => return

def emitGoto (name : String) : Gen Unit := do
  match (← get).gotoLabels.lookup name with
  | some l => emitJmp l
  | none => return

theorem emitCaseLabel_cases (node : ℕ) (isDefault : Bool) (g : IrGen) :
    g.caseEntries.find? (fun ce => ce.node = node && ce.isDefault = isDefault) = none ∧
        emitCaseLabel node isDefault g = ((), g) ∨
      ∃ ce, g.caseEntries.find? (fun ce => ce.node = node && ce.isDefault = isDefault) = some ce ∧
        emitCaseLabel node isDefault g = emitLabel ce.labelId g := by
  cases hce : g.caseEntries.find? (fun ce => ce.node = node && ce.isDefault = isDefault) with
  | none => exact .inl ⟨rfl, by simp only [emitCaseLabel, Gen.run_get_bind, hce, Gen.run_pure]⟩
  | some ce => exact .inr ⟨ce, rfl, by simp only [emitCaseLabel, Gen.run_get_bind, hce]⟩

theorem emitNamedLabel_cases (name : String) (g : IrGen) :
    g.gotoLabels.lookup name = none ∧ emitNamedLabel name g = ((), g) ∨
      ∃ l, g.gotoLabels.lookup name = some l ∧ emitNamedLabel name g = emitLabel l g := by
  cases hl : g.gotoLabels.lookup name with
  | none => exact .inl ⟨rfl, by simp only [emitNamedLabel, Gen.run_get_bind, hl, Gen.run_pure]⟩
  | some l => exact .inr ⟨l, rfl, by simp only [emitNamedLabel, Gen.run_get_bind, hl]⟩

theorem emitGoto_cases (name : String) (g : IrGen) :
    g.gotoLabels.lookup name = none ∧ emitGoto name g = ((), g) ∨
      ∃ l, g.gotoLabels.lookup name = some l ∧ emitGoto name g = emitJmp l g := by
  cases hl : g.gotoLabels.lookup name with
  | none => exact .inl ⟨rfl, by simp only [emitGoto, Gen.run_get_bind, hl, Gen.run_pure]⟩
  | some l => exact .inr ⟨l, rfl, by simp only [emitGoto, Gen.run_get_bind, hl]⟩

def emitBreak : Gen Unit := do
  let g ← get
  if g.breakLabel = 0 then return else emitJmp g.breakLabel

def emitContinue : Gen Unit := do
  let g ← get
  if g.contLabel = 0 then return else emitJmp g.contLabel

mutual

def genStmt (Γ : TypeEnv) : Stmt → Gen Unit
  | .compound ss => withScope (genStmts Γ ss)
  | .expr e => genEffect (e.map (genExpr Γ))
  | .decl ds => genDecls Γ ds
  | .ifElse _ _ c t e => genIf (genExpr Γ c) (genStmt Γ t) (genStmtOpt Γ e)
  | .while _ _ c b => genWhile (genExpr Γ c) (genStmt Γ b)
  | .doWhile _ _ c b => genDoWhile (genExpr Γ c) (genStmt Γ b)
  | .for _ _ init c incr b =>
      genFor ((genStmtOpt Γ init).getD (return)) (c.map (genExpr Γ)) (incr.map (genExpr Γ))
        (genStmt Γ b)
  | .ret _ _ e => genReturn (e.map fun e => (e.typeOrInt, genNode Γ e))
  | .break _ _ => emitBreak
  | .continue _ _ => emitContinue
  | .switch _ _ e b => genSwitch (collectSwitchCases b) (genExpr Γ e) (genStmt Γ b)
  | .case node _ _ _ s => do
      emitCaseLabel node false
      genStmt Γ s
  | .default node _ _ s => do
      emitCaseLabel node true
      genStmt Γ s
  | .goto _ _ name => emitGoto name
  | .label _ _ name s => do
      emitNamedLabel name
      genStmt Γ s

def genStmts (Γ : TypeEnv) : List Stmt → Gen Unit
  | [] => return
  | s :: ss => do
      genStmt Γ s
      genStmts Γ ss

def genStmtOpt (Γ : TypeEnv) : Option Stmt → Option (Gen Unit)
  | none => none
  | some s => some (genStmt Γ s)

end

/-! ### Functions -/

/-- The capture of parameter `idx`, whose storage is temp `addrT`. -/
def genParamCapture (idx : ℕ) (pty : CType) (addrT : ℕ) : Gen (Option IRValue) :=
  if isAggregateType (some pty) then do
    emit (paramCopy idx pty addrT 0)
    return none
  else do
    let t ← newTemp
    emit (paramCopy idx pty addrT t)
    return some (irvTemp t pty)

/-- The storage and the captured value of the named parameters, the value missing for an
aggregate. -/
def genParams (Γ : TypeEnv) : List ParamDecl → ℕ → Gen (List (IRValue × Option IRValue))
  | [], _ => return []
  | p :: ps, idx =>
      match p.name with
      | none => genParams Γ ps (idx + 1)
      | some name => do
          let pty := p.paramType.getD typeInt
          let addr ← genAlloca Γ pty
          let val ← genParamCapture idx pty (match addr.kind with | .temp t => t | _ => 0)
          vscopeDefine name addr false
          let rest ← genParams Γ ps (idx + 1)
          return (addr, val) :: rest

def storeParams : List (IRValue × Option IRValue) → Gen Unit
  | [] => return
  | (addr, some val) :: rest => do
      genStore addr val
      storeParams rest
  | (_, none) :: rest => storeParams rest

/-- The hidden pointer of a function that returns in memory. -/
def genSretParam (Γ : TypeEnv) (retTy : CType) : Gen Unit := do
  if abiInMemory (abiClassify Γ retTy) then
    let t ← newTemp
    emit { op := .copy, dst := irvTemp t (typePointer retTy .none), labelId := -1 }
    modify fun g => { g with func := { g.func with sretTemp := t } }
  else return

/-- What `gen_func` does before the body: the parameters and the labels of the body. -/
def genFuncHead (Γ : TypeEnv) (d : FuncDef) : Gen Unit := do
  genSretParam Γ (← get).func.retType
  let vals ← genParams Γ d.params 0
  storeParams vals
  modify fun g => { g with gotoLabels := [] }
  collectLabels d.body

/-- The state in which a function is begun. -/
def funcInit (module : IRModule) (scope : ScopeChain VarEntry) (d : FuncDef) : IrGen :=
  { module := module
    func := { name := d.name, funcType := d.funcType, isStatic := d.storage = .static }
    scope := scope.push }

/-- The state in which the body of a function is lowered. -/
def funcStart (Γ : TypeEnv) (module : IRModule) (scope : ScopeChain VarEntry) (d : FuncDef) :
    IrGen := ((genFuncHead Γ d).run (funcInit module scope d)).2

def genFunc (Γ : TypeEnv) (module : IRModule) (scope : ScopeChain VarEntry) (d : FuncDef) :
    IRModule :=
  let g := ((genStmt Γ d.body).run (funcStart Γ module scope d)).2
  { g.module with funcs := g.module.funcs ++ [g.func] }

end TinyC
