import TinyC.GenRules
import TinyC.StmtFrame

/-!
# A rule for the generators of statements

What holds of every instruction, of new temps, labels and strings and of any other change of the
state, and of one after the other, holds of every statement and of the head of a function.
-/

namespace TinyC

/-- The rules for generators that add nothing to the module other than strings and take no temp
other than a new one. -/
structure StmtRules (Q : ∀ {α : Type}, Gen α → Prop) : Prop where
  pure : ∀ {α : Type} (a : α), Q (Pure.pure a : Gen α)
  bind : ∀ {α β : Type} {m : Gen α} {k : α → Gen β}, Q m → (∀ a, Q (k a)) → Q (m >>= k)
  get_bind : ∀ {β : Type} {k : IrGen → Gen β}, (∀ g, Q (k g)) → Q (get >>= k)
  newTemp : Q newTemp
  newLabel : Q newLabel
  emit : ∀ ins, Q (emit ins)
  addStringConst : ∀ data, Q (addStringConst data)
  update : ∀ {f : IrGen → IrGen}, (∀ g, (f g).module = g.module) →
    (∀ g, (f g).func.nextTemp = g.func.nextTemp) → Q (modify f : Gen Unit)

namespace StmtRules

variable {Q : ∀ {α : Type}, Gen α → Prop} (R : StmtRules Q)

include R

theorem seq {α β : Type} {m : Gen α} {k : Gen β} (hm : Q m) (hk : Q k) : Q (m >>= fun _ => k) :=
  R.bind hm fun _ => hk

theorem genShortCircuitTest (isAnd : Bool) (lv : IRValue) {right : Gen IRValue} (hr : Q right)
    (f l : ℕ) : Q (genShortCircuitTest isAnd lv right f l) := by
  cases isAnd with
  | true => exact R.seq (R.emit _) (R.bind hr fun _ => R.seq (R.emit _) (R.seq (R.emit _) (R.emit _)))
  | false => exact R.seq (R.emit _) (R.bind hr fun _ => R.emit _)

theorem genShortCircuit (isAnd : Bool) {left right : Gen IRValue} (hl : Q left) (hr : Q right) :
    Q (genShortCircuit isAnd left right) :=
  R.bind R.newTemp fun _ => R.bind R.newLabel fun _ => R.bind R.newLabel fun _ =>
    R.bind R.newLabel fun _ => R.bind hl fun lv => R.seq (R.genShortCircuitTest isAnd lv hr _ _)
      (R.seq (R.emit _) (R.seq (R.emit _) (R.seq (R.emit _) (R.seq (R.emit _)
        (R.seq (R.emit _) (R.pure _))))))

theorem genTernary (ty : Option CType) {cond thenExpr elseExpr : Gen IRValue} (hc : Q cond)
    (ht : Q thenExpr) (he : Q elseExpr) : Q (genTernary ty cond thenExpr elseExpr) :=
  R.bind R.newLabel fun _ => R.bind R.newLabel fun _ => R.bind R.newLabel fun _ =>
    R.bind R.newTemp fun _ => R.bind hc fun _ => R.seq (R.emit _) (R.seq (R.emit _)
      (R.bind ht fun _ => R.seq (R.emit _) (R.seq (R.emit _) (R.seq (R.emit _)
        (R.bind he fun _ => R.seq (R.emit _) (R.seq (R.emit _) (R.pure _)))))))

theorem exprs : GenRules fun _ => Q where
  pure := R.pure
  bind := R.bind
  newTemp_bind := fun hk => R.bind R.newTemp hk
  emit := fun {_ ins} _ _ => R.emit ins
  vscopeLookup := fun _ => R.get_bind fun _ => R.pure _
  addStringConst := R.addStringConst
  genShortCircuit := fun isAnd _ _ hl hr => R.genShortCircuit isAnd (hl ∅) (hr ∅)
  genTernary := fun ty _ _ _ hc ht he => R.genTernary ty (hc ∅) (ht ∅) (he ∅)

theorem emitTo (ty : CType) (op : IROp) (a b : IRValue) : Q (emitTo ty op a b) :=
  R.bind R.newTemp fun _ => R.seq (R.emit _) (R.pure _)

theorem genAlloca (Γ : TypeEnv) (ty : CType) : Q (genAlloca Γ ty) :=
  R.bind R.newTemp fun _ => R.seq (R.emit _) (R.pure _)

theorem vscopeDefine (name : String) (addr : IRValue) (isGlobal : Bool) :
    Q (vscopeDefine name addr isGlobal) := R.update (fun _ => rfl) fun _ => rfl

theorem setTargets (b c : ℕ) : Q (setTargets b c) := R.update (fun _ => rfl) fun _ => rfl

theorem withScope {m : Gen Unit} (hm : Q m) : Q (withScope m) :=
  R.get_bind fun _ => R.seq (R.update (fun _ => rfl) fun _ => rfl) (R.seq hm (R.update (fun _ => rfl) fun _ => rfl))

theorem keepTargets {m : Gen Unit} (hm : Q m) : Q (keepTargets m) :=
  R.get_bind fun _ => R.seq hm (R.update (fun _ => rfl) fun _ => rfl)

theorem keepSwitch {m : Gen Unit} (hm : Q m) : Q (keepSwitch m) :=
  R.get_bind fun _ => R.seq hm (R.update (fun _ => rfl) fun _ => rfl)

theorem genExpr (Γ : TypeEnv) (e : Expr) : Q (genExpr Γ e) := (R.exprs.node_of Γ e).expr

theorem genInitializer (Γ : TypeEnv) (addr : IRValue) (ty : CType) (init : Option Expr) :
    Q (genInitializer Γ addr ty init) := by
  cases init with
  | none => exact R.pure _
  | some e => exact (R.exprs.node_of Γ e).init addr ty

theorem genDecls (Γ : TypeEnv) (ds : List Decl) : Q (genDecls Γ ds) := by
  induction ds with
  | nil => exact R.pure _
  | cons d ds ih =>
    cases d with
    | var v =>
      exact R.seq (R.bind (R.genAlloca Γ _) fun _ => R.seq (R.vscopeDefine _ _ _)
        (R.genInitializer Γ _ _ _)) ih
    | _ => exact ih

theorem genEffect (Γ : TypeEnv) (e : Option Expr) :
    Q (genEffect (e.map (TinyC.genExpr Γ))) := by
  cases e with
  | none => exact R.pure _
  | some e => exact R.bind (R.genExpr Γ e) fun _ => R.pure _

theorem genLoopTest (Γ : TypeEnv) (c : Option Expr) (l : ℕ) :
    Q (genLoopTest (c.map (TinyC.genExpr Γ)) l) := by
  cases c with
  | none => exact R.pure _
  | some c => exact R.bind (R.genExpr Γ c) fun _ => R.emit _

theorem genIf (Γ : TypeEnv) (c : Expr) {t : Gen Unit} {e : Option (Gen Unit)} (ht : Q t)
    (he : ∀ m ∈ e, Q m) : Q (genIf (TinyC.genExpr Γ c) t e) := by
  refine R.bind (R.bind R.newLabel fun _ => R.bind R.newLabel fun _ => R.bind (R.genExpr Γ c)
    fun _ => R.seq (R.emit _) (R.pure _)) fun ls => R.seq ht ?_
  cases e with
  | none => exact R.emit _
  | some m => exact R.seq (R.seq (R.emit _) (R.emit _)) (R.seq (he m rfl) (R.emit _))

theorem genWhile (Γ : TypeEnv) (c : Expr) {b : Gen Unit} (hb : Q b) :
    Q (genWhile (TinyC.genExpr Γ c) b) :=
  R.keepTargets <| R.bind (R.bind R.newLabel fun _ => R.bind R.newLabel fun _ =>
    R.bind R.newLabel fun _ => R.seq (R.setTargets _ _) (R.seq (R.emit _) (R.bind (R.genExpr Γ c)
      fun _ => R.seq (R.emit _) (R.seq (R.emit _) (R.pure _))))) fun _ =>
        R.seq hb (R.seq (R.emit _) (R.emit _))

theorem genDoWhile (Γ : TypeEnv) (c : Expr) {b : Gen Unit} (hb : Q b) :
    Q (genDoWhile (TinyC.genExpr Γ c) b) :=
  R.keepTargets <| R.bind (R.bind R.newLabel fun _ => R.bind R.newLabel fun _ =>
    R.bind R.newLabel fun _ => R.seq (R.setTargets _ _) (R.seq (R.emit _) (R.pure _))) fun _ =>
      R.seq hb (R.seq (R.emit _) (R.bind (R.genExpr Γ c) fun _ => R.seq (R.emit _) (R.emit _)))

theorem genFor (Γ : TypeEnv) {init b : Gen Unit} (c incr : Option Expr) (hi : Q init) (hb : Q b) :
    Q (genFor init (c.map (TinyC.genExpr Γ)) (incr.map (TinyC.genExpr Γ)) b) :=
  R.keepTargets <| R.bind (R.bind R.newLabel fun _ => R.bind R.newLabel fun _ =>
    R.bind R.newLabel fun _ => R.bind R.newLabel fun _ => R.seq (R.setTargets _ _) (R.pure _))
      fun _ => R.withScope <| R.seq hi <|
        R.seq (R.seq (R.emit _) (R.seq (R.genLoopTest Γ c _) (R.emit _))) <| R.seq hb <|
          R.seq (R.emit _) (R.seq (R.genEffect Γ incr) (R.seq (R.emit _) (R.emit _)))

theorem genReturn (Γ : TypeEnv) (e : Option Expr) :
    Q (genReturn (e.map fun e => (e.typeOrInt, genNode Γ e))) := by
  cases e with
  | none => exact R.emit _
  | some e =>
    have he := R.exprs.node_of Γ e
    refine R.get_bind fun g => R.bind ?_ fun _ => R.emit _
    split
    · exact he.aggAddr
    · exact he.expr

theorem genDispatch (sv : IRValue) (ty : CType) (ces : List CaseEntry) :
    Q (genDispatch sv ty ces) := by
  induction ces with
  | nil => exact R.pure _
  | cons ce ces ih =>
    refine R.seq ?_ ih
    unfold genCaseTest
    split
    · exact R.pure _
    · exact R.bind (R.emitTo _ _ _ _) fun _ => R.emit _

theorem genSwitch (Γ : TypeEnv) (e : Expr) {collect b : Gen Unit} (hcol : Q collect) (hb : Q b) :
    Q (genSwitch collect (TinyC.genExpr Γ e) b) := by
  have hhead : Q (switchHead collect (TinyC.genExpr Γ e)) :=
    R.bind R.newLabel fun _ => R.seq (R.update (fun _ => rfl) fun _ => rfl) (R.seq hcol
      (R.bind (R.genExpr Γ e) fun _ => R.bind (R.emitTo _ _ _ _) fun _ => R.get_bind fun _ =>
        R.seq (R.genDispatch _ _ _) (R.seq (R.emit _) (R.pure _))))
  exact R.keepSwitch (R.bind hhead fun _ => R.seq hb (R.emit _))

theorem addCase (node : ℕ) (val : BitVec 64) (isDefault : Bool) : Q (addCase node val isDefault) :=
  R.bind R.newLabel fun _ => R.update (fun _ => rfl) fun _ => rfl

theorem addLabel (name : String) : Q (addLabel name) :=
  R.bind R.newLabel fun _ => R.update (fun _ => rfl) fun _ => rfl

theorem emitCaseLabel (node : ℕ) (isDefault : Bool) : Q (emitCaseLabel node isDefault) :=
  R.get_bind fun _ => by
    split
    · exact R.emit _
    · exact R.pure _

theorem emitNamedLabel (name : String) : Q (emitNamedLabel name) := R.get_bind fun _ => by
  split
  · exact R.emit _
  · exact R.pure _

theorem emitGoto (name : String) : Q (emitGoto name) := R.get_bind fun _ => by
  split
  · exact R.emit _
  · exact R.pure _

theorem emitBreak : Q emitBreak := R.get_bind fun _ => GenRules.ite (R.pure _) (R.emit _)

theorem emitContinue : Q emitContinue := R.get_bind fun _ => GenRules.ite (R.pure _) (R.emit _)

theorem genParams (Γ : TypeEnv) (ps : List ParamDecl) (idx : ℕ) : Q (genParams Γ ps idx) := by
  induction ps generalizing idx with
  | nil => exact R.pure _
  | cons p ps ih =>
    have hcapture : ∀ ty addr, Q (genParamCapture idx ty addr) := fun ty addr =>
      GenRules.ite (R.seq (R.emit _) (R.pure _))
        (R.bind R.newTemp fun _ => R.seq (R.emit _) (R.pure _))
    unfold TinyC.genParams
    split
    · exact ih _
    · exact R.bind (R.genAlloca Γ _) fun _ => R.bind (hcapture _ _) fun _ =>
        R.seq (R.vscopeDefine _ _ _) (R.bind (ih _) fun _ => R.pure _)

theorem storeParams (vs : List (IRValue × Option IRValue)) : Q (storeParams vs) := by
  induction vs with
  | nil => exact R.pure _
  | cons v vs ih =>
    obtain ⟨addr, _ | val⟩ := v
    · exact ih
    · exact R.seq (R.emit _) ih

theorem genSretParam (Γ : TypeEnv) (ty : CType) : Q (genSretParam Γ ty) := by
  unfold TinyC.genSretParam
  split
  · exact R.bind R.newTemp fun _ => R.seq (R.emit _) (R.update (fun _ => rfl) fun _ => rfl)
  · exact R.pure _

end StmtRules

mutual

/-- What the rules give holds of every statement. -/
theorem StmtRules.stmt {Q : ∀ {α : Type}, Gen α → Prop} (R : StmtRules Q) (Γ : TypeEnv) :
    (s : Stmt) → Q (genStmt Γ s)
  | .compound ss => R.withScope (R.stmts Γ ss)
  | .expr e => R.genEffect Γ e
  | .decl ds => R.genDecls Γ ds
  | .ifElse _ _ c t e => R.genIf Γ c (R.stmt Γ t) (R.stmtOpt Γ e)
  | .while _ _ c b => R.genWhile Γ c (R.stmt Γ b)
  | .doWhile _ _ c b => R.genDoWhile Γ c (R.stmt Γ b)
  | .for _ _ init c incr b => by
      have hinit := R.stmtOpt Γ init
      refine R.genFor Γ c incr ?_ (R.stmt Γ b)
      cases init with
      | none => exact R.pure _
      | some s => exact hinit _ rfl
  | .ret _ _ e => R.genReturn Γ e
  | .break _ _ => R.emitBreak
  | .continue _ _ => R.emitContinue
  | .switch _ _ e b =>
      R.genSwitch Γ e (collectSwitchCases_rule (R.pure _) R.seq R.addCase b) (R.stmt Γ b)
  | .case _ _ _ _ s | .default _ _ _ s => R.seq (R.emitCaseLabel _ _) (R.stmt Γ s)
  | .goto _ _ name => R.emitGoto name
  | .label _ _ name s => R.seq (R.emitNamedLabel name) (R.stmt Γ s)

theorem StmtRules.stmts {Q : ∀ {α : Type}, Gen α → Prop} (R : StmtRules Q) (Γ : TypeEnv) :
    (ss : List Stmt) → Q (genStmts Γ ss)
  | [] => R.pure _
  | s :: ss => R.seq (R.stmt Γ s) (R.stmts Γ ss)

theorem StmtRules.stmtOpt {Q : ∀ {α : Type}, Gen α → Prop} (R : StmtRules Q) (Γ : TypeEnv) :
    (s : Option Stmt) → ∀ m ∈ genStmtOpt Γ s, Q m
  | none => fun _ hm => absurd hm (Option.not_mem_none _)
  | some s => by
      have hs := R.stmt Γ s
      intro m hm
      obtain rfl : genStmt Γ s = m := Option.mem_some.mp hm
      exact hs

end

theorem StmtRules.genFuncHead {Q : ∀ {α : Type}, Gen α → Prop} (R : StmtRules Q) (Γ : TypeEnv)
    (d : FuncDef) : Q (genFuncHead Γ d) :=
  R.get_bind fun _ => R.seq (R.genSretParam Γ _) (R.bind (R.genParams Γ _ _) fun _ =>
    R.seq (R.storeParams _) (R.seq (R.update (fun _ => rfl) fun _ => rfl)
      (collectLabels_rule (R.pure _) R.seq R.addLabel d.body)))

end TinyC
