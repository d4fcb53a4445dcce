import TinyC.Lexer
import TinyC.ParseTree
import TinyC.Scope

/-!
# Semantic analysis

Sema gives every expression its type and inserts conversions. It changes the tree in place; here
each function returns the tree it leaves.
-/

namespace TinyC

inductive SSymKind where
  | var | func | typedef | enumConst
  deriving DecidableEq, Repr

structure SSymbol where
  kind : SSymKind
  type : Option TypeRef
  enumVal : ℤ := 0
  deriving DecidableEq, Repr

def sscopeBuckets : ℕ := 64

structure Sema where
  types : TypeTable
  scope : ScopeChain SSymbol
  curFuncRet : Option TypeRef := none
  curFuncBody : Option RawStmt := none
  nErrors : ℕ := 0
  loopDepth : ℕ := 0
  switchDepth : ℕ := 0
  /-- What has been emitted. -/
  diags : List Diag := []

def semaInit (types : TypeTable) : Sema where
  types := types
  scope := ScopeChain.push []

abbrev SemaM := StateT Sema (Except Stuck)

/-! ### Helpers -/

namespace SemaM

/-- `sema_error` and `sema_expr_error`, at a node. -/
def error (line col : ℤ) (msg : String) : SemaM Unit := modify fun s =>
  { s with diags := s.diags ++ [⟨true, line, col, msg⟩], nErrors := s.nErrors + 1 }

def typeCall (c : TypeCall) : SemaM TypeRef := modifyGet fun s =>
  ((s.types.call c).1, { s with types := (s.types.call c).2 })

/-- Dereferences a `Type *`. -/
def nodeOf (r : Option TypeRef) : SemaM TypeNode := do
  match (← get).types.node? r with
  | some n => return n
  | none => throw .null

def define (name : String) (sym : SSymbol) : SemaM Unit := modify fun s =>
  { s with scope := s.scope.define sscopeBuckets name sym }

def lookup (name : String) : SemaM (Option SSymbol) := do
  return (← get).scope.lookup sscopeBuckets name

/-- Runs `m` in a scope of its own and goes back to the saved one. -/
def inNewScope {α : Type} (m : SemaM α) : SemaM α := do
  let saved ← get
  modify fun s => { s with scope := s.scope.push }
  let a ← m
  modify fun s => { s with scope := saved.scope }
  return a

def inLoop {α : Type} (m : SemaM α) : SemaM α := do
  modify fun s => { s with loopDepth := s.loopDepth + 1 }
  let a ← m
  modify fun s => { s with loopDepth := s.loopDepth - 1 }
  return a

def inSwitch {α : Type} (m : SemaM α) : SemaM α := do
  modify fun s => { s with switchDepth := s.switchDepth + 1 }
  let a ← m
  modify fun s => { s with switchDepth := s.switchDepth - 1 }
  return a

end SemaM

/-- `lookup_member` along `n` nested types. -/
def TypeTable.lookupMemberAlong (t : TypeTable) (name : String) :
    ℕ → Option TypeRef → Except Stuck (Option FieldNode)
  | 0, _ => throw .cycle
  | n + 1, ty =>
      match ty with
      | none => return none
      | some _ =>
          match t.node? ty with
          | none => throw .null
          | some ⟨.agg _ a, _⟩ =>
              a.fields.foldlM (fun found f =>
                match found with
                | some f => return some f
                | none =>
                    if f.name = some name then return some f
                    else if f.name.isNone then t.lookupMemberAlong name n f.type
                    else return none) none
          | some _ => return none

/-- `lookup_member`. A walk through more nested types than there are nodes does not end. -/
def lookupMember (ty : Option TypeRef) (name : String) : SemaM (Option FieldNode) := do
  let t := (← get).types
  match t.lookupMemberAlong name (t.nodes.length + 1) ty with
  | .ok f => return f
  | .error e => throw e

/-! ### Types -/

def TypeBody.isInteger : TypeBody → Bool
  | .scalar k => k.isInteger
  | .enum _ => true
  | _ => false

/-- `type_is_arithmetic`. -/
def TypeBody.isArithmetic (b : TypeBody) : Bool :=
  b.isInteger || match b with
    | .scalar .float | .scalar .double | .scalar .ldouble => true
    | _ => false

/-- `type_is_arithmetic` of a node. -/
def isArithmetic (ty : TypeRef) : SemaM Bool := do
  return (← SemaM.nodeOf (some ty)).body.isArithmetic

/-- The kinds that are promoted to `int`. -/
def ScalarKind.isNarrow : ScalarKind → Bool
  | .bool | .char | .schar | .uchar | .short | .ushort => true
  | _ => false

def integerPromote (ty : TypeRef) : SemaM TypeRef := do
  match (← SemaM.nodeOf (some ty)).body with
  | .scalar k => return if k.isNarrow then scalarRef .int else ty
  | _ => return ty

/-- The rank of `usual_arithmetic`; a kind that is not in its list ranks with `int`. -/
def TypeBody.rank : TypeBody → ℕ
  | .scalar .uint => 2
  | .scalar .long => 3
  | .scalar .ulong => 4
  | .scalar .llong => 5
  | .scalar .ullong => 6
  | _ => 1

def usualArithmetic (a b : TypeRef) : SemaM TypeRef := do
  let x := (← SemaM.nodeOf (some a)).body
  let y := (← SemaM.nodeOf (some b)).body
  if x = .scalar .ldouble ∨ y = .scalar .ldouble then return scalarRef .ldouble
  else if x = .scalar .double ∨ y = .scalar .double then return scalarRef .double
  else if x = .scalar .float ∨ y = .scalar .float then return scalarRef .float
  else
    let a ← integerPromote a
    let b ← integerPromote b
    if a = b then return a
    else
      let x := (← SemaM.nodeOf (some a)).body
      let y := (← SemaM.nodeOf (some b)).body
      return if x.rank ≥ y.rank then a else b

/-- Array and function types decay to pointers. -/
def decay (ty : TypeRef) : SemaM TypeRef := do
  match (← SemaM.nodeOf (some ty)).body with
  | .array elem _ | .arrayUnsized elem => SemaM.typeCall (.pointer elem .none)
  | .func _ _ _ => SemaM.typeCall (.pointer (some ty) .none)
  | _ => return ty

/-- `op->type ? decay(op->type) : type_int()`. -/
def decayOrInt (ty : Option TypeRef) : SemaM TypeRef :=
  match ty with
  | some ty => decay ty
  | none => return scalarRef .int

def makeCast (e : RawExpr) (target : TypeRef) : RawExpr :=
  if e.type = some target then e
  else .cast { line := e.info.line, col := e.info.col, type := some target } (some target) e

/-- `is_const_lvalue` of a node of type `ty`. -/
def isConstLvalue (ty : Option TypeRef) : SemaM Bool := do
  match ty with
  | none => return false
  | some _ => return (← SemaM.nodeOf ty).qual.isConst

/-- The error of an assignment at the node `i` to an operand of type `ty`. -/
def refuseConst (i : RawInfo) (ty : Option TypeRef) : SemaM Unit := do
  if ← isConstLvalue ty then SemaM.error i.line i.col "assignment to const-qualified object"

/-! ### Expressions -/

/-- The type of an integer or character literal. -/
def literalKind (suffix : ℕ) : ScalarKind :=
  if suffix &&& intSuffixLL ≠ 0 then if suffix &&& intSuffixU ≠ 0 then .ullong else .llong
  else if suffix &&& intSuffixL ≠ 0 then if suffix &&& intSuffixU ≠ 0 then .ulong else .long
  else if suffix &&& intSuffixU ≠ 0 then .uint
  else .int

def checkIdent (i : RawInfo) (name : String) : SemaM RawExpr := do
  match ← SemaM.lookup name with
  | none => return .ident { i with type := some (scalarRef .int) } name
  | some sym =>
      if sym.kind = .enumConst then
        return .intLit { i with type := some (scalarRef .int) } (BitVec.ofInt 64 sym.enumVal) 0
      else return .ident { i with type := some (sym.type.getD (scalarRef .int)) } name

/-- The type of a unary operator, the operand being checked. -/
def unopType (i : RawInfo) (op : TokenKind) (operand : Option TypeRef) : SemaM (Option TypeRef) := do
  let t ← decayOrInt operand
  match op with
  | .minus | .plus | .tilde => return some (← integerPromote t)
  | .bang => return some (scalarRef .int)
  | .amp =>
      let ty ← SemaM.typeCall (.pointer (some (operand.getD (scalarRef .int))) .none)
      return some ty
  | .star =>
      match (← SemaM.nodeOf (some t)).body with
      | .pointer pointee => return pointee
      | _ => return some (scalarRef .int)
  | .plusplus | .minusminus =>
      refuseConst i operand
      return some t
  | _ => return some (scalarRef .int)

/-- The type of a binary operator and, if there is one, the type its operands are brought to. -/
def binopTypes (op : TokenKind) (lt rt : TypeRef) : SemaM (TypeRef × Option TypeRef) := do
  let lp := match (← SemaM.nodeOf (some lt)).body with | .pointer _ => true | _ => false
  let rp := match (← SemaM.nodeOf (some rt)).body with | .pointer _ => true | _ => false
  match op with
  | .eq | .neq | .lt | .le | .gt | .ge => return (scalarRef .int, some (← usualArithmetic lt rt))
  | .and | .or => return (scalarRef .int, none)
  | .plus =>
      if lp then return (lt, none)
      else if rp then return (rt, none)
      else
        let ty ← usualArithmetic lt rt
        return (ty, some ty)
  | .minus =>
      if lp && rp then return (scalarRef .long, none)
      else if lp then return (lt, none)
      else
        let ty ← usualArithmetic lt rt
        return (ty, some ty)
  | _ =>
      let ty ← usualArithmetic lt rt
      return (ty, some ty)

/-- The conversion of an operand of type `ty` to the common type. -/
def convertOperand (common : Option TypeRef) (ty : TypeRef) (e : RawExpr) : SemaM RawExpr := do
  match common with
  | none => return e
  | some c =>
      let fromArith ← isArithmetic ty
      let toArith ← isArithmetic c
      return if c ≠ ty ∧ fromArith ∧ toArith then makeCast e c else e

def checkBinop (i : RawInfo) (op : TokenKind) (l r : RawExpr) : SemaM RawExpr := do
  let lt ← decayOrInt l.type
  let rt ← decayOrInt r.type
  let (ty, common) ← binopTypes op lt rt
  let l ← convertOperand common lt l
  let r ← convertOperand common rt r
  return .binop { i with type := some ty } op l r

def checkAssign (i : RawInfo) (op : TokenKind) (l r : RawExpr) : SemaM RawExpr := do
  let lt := l.type.getD (scalarRef .int)
  let rt := r.type.getD (scalarRef .int)
  refuseConst i l.type
  let leftArith ← isArithmetic lt
  let rightArith ← isArithmetic rt
  let r ←
    if op ≠ .assign ∧ leftArith ∧ rightArith then do
      let common ← usualArithmetic lt rt
      pure (makeCast r common)
    else pure (if lt ≠ rt then makeCast r lt else r)
  return .assign { i with type := some lt } op l r

def ternaryType (th el : Option TypeRef) : SemaM TypeRef := do
  let tt ← decayOrInt th
  let et ← decayOrInt el
  let thenArith ← isArithmetic tt
  let elseArith ← isArithmetic et
  if thenArith && elseArith then usualArithmetic tt et else return tt

/-- The type of a call of something of type `fn`. -/
def callType (fn : Option TypeRef) : SemaM (Option TypeRef) := do
  match fn with
  | none => return some (scalarRef .int)
  | some fn =>
      match (← SemaM.nodeOf (some (← decay fn))).body with
      | .pointer pointee =>
          match (← SemaM.nodeOf pointee).body with
          | .func ret _ _ => return ret
          | _ => return some (scalarRef .int)
      | .func ret _ _ => return ret
      | _ => return some (scalarRef .int)

def subscriptType (base : Option TypeRef) : SemaM (Option TypeRef) := do
  match base with
  | none => return some (scalarRef .int)
  | some ty =>
      match (← SemaM.nodeOf (some (← decay ty))).body with
      | .pointer pointee => return pointee
      | _ => return some (scalarRef .int)

/-- The type of a member of something of type `base`; a type that the node has stays if there is no
such member. -/
def memberType (i : RawInfo) (base : Option TypeRef) (field : String) : SemaM TypeRef := do
  let found ← match base with
    | none => pure none
    | some _ => do
        if (← SemaM.nodeOf base).body.isAgg then lookupMember base field else pure none
  let ty := match found with
    | some f => f.type
    | none => i.type
  return ty.getD (scalarRef .int)

/-- The same through a pointer. -/
def memberPtrType (i : RawInfo) (base : Option TypeRef) (field : String) : SemaM TypeRef := do
  match base with
  | none => return i.type.getD (scalarRef .int)
  | some ty =>
      match (← SemaM.nodeOf (some (← decay ty))).body with
      | .pointer pointee =>
          let _ ← SemaM.nodeOf pointee
          memberType i pointee field
      | _ => return i.type.getD (scalarRef .int)

def floatKind (suffix : BitVec 8) : ScalarKind :=
  if suffix = ch 'f' then .float else if suffix = ch 'l' then .ldouble else .double

mutual

def checkExpr : RawExpr → SemaM RawExpr
  | .intLit i v s => return .intLit { i with type := some (scalarRef (literalKind s)) } v s
  | .charLit i v => return .charLit { i with type := some (scalarRef .int) } v
  | .floatLit i v s => return .floatLit { i with type := some (scalarRef (floatKind s)) } v s
  | .strLit i s => do
      let ty ← SemaM.typeCall (.pointer (some (scalarRef .char)) { isConst := true })
      return .strLit { i with type := some ty } s
  | .ident i name => checkIdent i name
  | .unop i op e => do
      let e ← checkExpr e
      return .unop { i with type := ← unopType i op e.type } op e
  | .postop i op e => do
      let e ← checkExpr e
      let t ← decayOrInt e.type
      refuseConst i e.type
      return .postop { i with type := some t } op e
  | .binop i op l r => do
      let l ← checkExpr l
      let r ← checkExpr r
      checkBinop i op l r
  | .assign i op l r => do
      let l ← checkExpr l
      let r ← checkExpr r
      checkAssign i op l r
  | .ternary i c th el => do
      let c ← checkExpr c
      let th ← checkExpr th
      let el ← checkExpr el
      return .ternary { i with type := some (← ternaryType th.type el.type) } c th el
  | .call i fn as => do
      let fn ← checkExpr fn
      let ty ← callType fn.type
      let as ← checkExprs as
      return .call { i with type := ty } fn as
  | .subscript i b x => do
      let b ← checkExpr b
      let x ← checkExpr x
      return .subscript { i with type := ← subscriptType b.type } b x
  | .member i b field => do
      let b ← checkExpr b
      return .member { i with type := some (← memberType i b.type field) } b field
  | .memberPtr i b field => do
      let b ← checkExpr b
      return .memberPtr { i with type := some (← memberPtrType i b.type field) } b field
  | .cast i ty e => do
      let e ← checkExpr e
      return .cast { i with type := ty } ty e
  | .sizeofExpr i e => do
      let e ← checkExpr e
      return .sizeofExpr { i with type := some (scalarRef .ulong) } e
  | .sizeofType i ty => return .sizeofType { i with type := some (scalarRef .ulong) } ty
  | .comma i l r => do
      let l ← checkExpr l
      let r ← checkExpr r
      return .comma { i with type := r.type } l r
  | .initList i items => do
      let items ← checkItems items
      return .initList { i with type := some (scalarRef .void) } items
  | .fieldDesig i field v => do
      let v ← checkExpr v
      return .fieldDesig { i with type := v.type } field v
  | .indexDesig i x v => do
      let v ← checkExpr v
      return .indexDesig { i with type := v.type } x v
  | .compoundLit i ty init => do
      let init ← checkExpr init
      return .compoundLit { i with type := ty } ty init

def checkExprs : List RawExpr → SemaM (List RawExpr)
  | [] => return []
  | e :: es => do
      let e ← checkExpr e
      let es ← checkExprs es
      return e :: es

/-- The items of a braced list; of a designator only the value is checked. -/
def checkItems : List RawExpr → SemaM (List RawExpr)
  | [] => return []
  | .fieldDesig i field v :: es => do
      let v ← checkExpr v
      let es ← checkItems es
      return .fieldDesig i field v :: es
  | .indexDesig i x v :: es => do
      let v ← checkExpr v
      let es ← checkItems es
      return .indexDesig i x v :: es
  | e :: es => do
      let e ← checkExpr e
      let es ← checkItems es
      return e :: es

end

def checkExpr? : Option RawExpr → SemaM (Option RawExpr)
  | none => return none
  | some e => do
      let e ← checkExpr e
      return some e

/-! ### Statements -/

namespace RawStmt

mutual

/-- `label_exists` from one statement on. -/
def labelExists (label : String) : RawStmt → Bool
  | .label _ _ l s => l = label || labelExists label s
  | .compound ss => labelExistsIn label ss
  | .ifElse _ _ _ t none => labelExists label t
  | .ifElse _ _ _ t (some e) => labelExists label t || labelExists label e
  | .while _ _ _ b | .doWhile _ _ _ b | .for _ _ _ _ _ b | .switch _ _ _ b
  | .case _ _ _ _ b | .default _ _ _ b => labelExists label b
  | _ => false

def labelExistsIn (label : String) : List RawStmt → Bool
  | [] => false
  | s :: ss => labelExists label s || labelExistsIn label ss

end

end RawStmt

/-- The conversion of a returned value. -/
def convertReturn (e : RawExpr) : SemaM RawExpr := do
  match (← get).curFuncRet, e.type with
  | some ret, some ty =>
      if ty = ret then return e
      else
        let fromArith ← isArithmetic ty
        let toArith ← isArithmetic ret
        return if fromArith ∧ toArith then makeCast e ret else e
  | _, _ => return e

/-- The enumerators of an `AST_ENUM_DECL`. -/
def defineConsts (ty : TypeRef) : SemaM Unit := do
  match (← SemaM.nodeOf (some ty)).body with
  | .enum e =>
      e.consts.forM fun c => SemaM.define c.1 ⟨.enumConst, some (scalarRef .int), c.2⟩
  | _ => return ()

def checkVar (v : RawVar) : SemaM RawVar := do
  let init ← checkExpr? v.init
  SemaM.define v.name ⟨.var, v.declType, 0⟩
  return { v with init := init }

/-- `check_decl` of a declaration that is no function. -/
def checkDecl : RawDecl → SemaM RawDecl
  | .var v => do
      let v ← checkVar v
      return .var v
  | .typedef name aliased => do
      SemaM.define name ⟨.typedef, aliased, 0⟩
      return .typedef name aliased
  | .agg ty => return .agg ty
  | .enum ty => do
      defineConsts ty
      return .enum ty

mutual

def checkStmt : RawStmt → SemaM RawStmt
  | .compound ss => SemaM.inNewScope do
      let ss ← checkStmts ss
      return .compound ss
  | .expr e => do
      let e ← checkExpr e
      return .expr e
  | .decl ds => do
      let ds ← ds.mapM checkDecl
      return .decl ds
  | .ifElse ln cl c t e => do
      let c ← checkExpr c
      let t ← checkStmt t
      let e ← checkStmt? e
      return .ifElse ln cl c t e
  | .while ln cl c b => do
      let c ← checkExpr c
      let b ← SemaM.inLoop (checkStmt b)
      return .while ln cl c b
  | .doWhile ln cl c b => do
      let b ← SemaM.inLoop (checkStmt b)
      let c ← checkExpr c
      return .doWhile ln cl c b
  | .for ln cl init c incr b => do
      let init ← checkStmt? init
      let c ← checkExpr? c
      let incr ← checkExpr? incr
      let b ← SemaM.inLoop (checkStmt b)
      return .for ln cl init c incr b
  | .ret ln cl none => return .ret ln cl none
  | .ret ln cl (some e) => do
      let e ← checkExpr e
      let e ← convertReturn e
      return .ret ln cl (some e)
  | .switch ln cl e b => do
      let e ← checkExpr e
      let b ← SemaM.inSwitch (checkStmt b)
      return .switch ln cl e b
  | .case n ln cl e b => do
      if (← get).switchDepth = 0 then SemaM.error ln cl "'case' outside switch"
      let e ← checkExpr e
      let b ← checkStmt b
      return .case n ln cl e b
  | .default n ln cl b => do
      if (← get).switchDepth = 0 then SemaM.error ln cl "'default' outside switch"
      let b ← checkStmt b
      return .default n ln cl b
  | .label ln cl l b => do
      let b ← checkStmt b
      return .label ln cl l b
  | .break ln cl => do
      let s ← get
      if s.loopDepth = 0 ∧ s.switchDepth = 0 then
        SemaM.error ln cl "'break' outside loop or switch"
      return .break ln cl
  | .continue ln cl => do
      if (← get).loopDepth = 0 then SemaM.error ln cl "'continue' outside loop"
      return .continue ln cl
  | .goto ln cl l => do
      if !((← get).curFuncBody.any (RawStmt.labelExists l)) then
        SemaM.error ln cl "goto target label not found"
      return .goto ln cl l

def checkStmts : List RawStmt → SemaM (List RawStmt)
  | [] => return []
  | s :: ss => do
      let s ← checkStmt s
      let ss ← checkStmts ss
      return s :: ss

def checkStmt? : Option RawStmt → SemaM (Option RawStmt)
  | none => return none
  | some s => do
      let s ← checkStmt s
      return some s

end

/-! ### Translation units -/

/-- The return type of a function type. -/
def funcRet (ty : Option TypeRef) (saved : Option TypeRef) : SemaM (Option TypeRef) := do
  match ty with
  | none => return saved
  | some _ =>
      match (← SemaM.nodeOf ty).body with
      | .func ret _ _ => return ret
      | _ => return saved

def defineParam (p : RawParam) : SemaM Unit :=
  match p.name with
  | some name => SemaM.define name ⟨.var, p.paramType, 0⟩
  | none => return ()

def checkFunc (f : RawFunc) : SemaM RawFunc := do
  SemaM.define f.name ⟨.func, f.funcType, 0⟩
  let saved ← get
  let ret ← funcRet f.funcType saved.curFuncRet
  modify fun s => { s with curFuncRet := ret, curFuncBody := some f.body }
  let body ← SemaM.inNewScope do
    f.params.forM defineParam
    checkStmt f.body
  modify fun s => { s with curFuncRet := saved.curFuncRet, curFuncBody := saved.curFuncBody }
  return { f with body := body }

def checkTop : RawTop → SemaM RawTop
  | .func f => do
      let f ← checkFunc f
      return .func f
  | .decl d => do
      let d ← checkDecl d
      return .decl d

/-- The loop of `sema_check` over a list of length `n`. Each `check_decl` goes on along the list
itself, so that what comes later is checked again and again. -/
def checkTails : ℕ → RawUnit → SemaM RawUnit
  | 0, ds => return ds
  | n + 1, ds => do
      match ← ds.mapM checkTop with
      | [] => return []
      | d :: ds => do
          let ds ← checkTails n ds
          return d :: ds

def semaCheck (u : RawUnit) : SemaM RawUnit := checkTails u.length u

end TinyC
