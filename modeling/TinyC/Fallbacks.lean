import TinyC.IrGenModule

/-!
# The fallbacks of irgen

irgen makes code for whatever tree it is given. Where it cannot make sense of a node it goes on in
a branch of its own. `irgenWith` is irgen with something else done first in each of these branches.
`unitSound` says of a unit, without lowering it, that none of them is taken, the branch for names
that irgen does not find aside where the name has a declaration: irgen has no entry for a function
that is defined or for a typedef.
-/

namespace TinyC

/-- The branches that are taken for what makes no sense. -/
inductive Fallback where
  /-- The base address stands for a member that is not found. -/
  | member (field : String)
  /-- A value is taken for an address. -/
  | value
  /-- A name that the lookup does not find is taken for a symbol. A declaration of it may be in
  scope. -/
  | unknown (name : String) (declared : Bool)
  deriving DecidableEq, Repr

/-- Is it the branch for a name that has a declaration in scope? -/
def Fallback.isDeclared : Fallback → Bool
  | .unknown _ declared => declared
  | _ => false

section

variable (fb : Fallback → Gen Unit) (Γ : TypeEnv)

/-- `m`, after what is done in the fallback `c` unless all is well. -/
def orFallback {α : Type} (c : Fallback) (ok : Bool) (m : Gen α) : Gen α :=
  if ok then m
  else do
    fb c
    m

/-- `m`, after what is done where the lookup of the name fails; `declared` are the names that have
a declaration in scope. -/
def lookingUp {α : Type} (declared : List String) (name : String) (m : Gen α) : Gen α := do
  let e ← vscopeLookup name
  orFallback fb (.unknown name (name ∈ declared)) e.isSome m

/-- Does irgen find the member? -/
def hasMember (aggTy : Option CType) (field : String) : Bool :=
  match aggTy with
  | some t =>
      match findFieldWithOffset Γ t field with
      | some (_ :: _, _) => true
      | _ => false
  | none => false

/-- The types whose values are addresses. -/
def isAddressType : Option CType → Bool
  | some ty => isAggregateType (some ty) || ty.isArray || ty.isFunc
  | none => false

/-! ### Expressions -/

/-- A node that `gen_lvalue` has no case for. -/
def NodeGen.ofExprWith (ty : Option CType) (expr : Gen IRValue) : NodeGen :=
  .ofLvalue Γ (orFallback fb .value (isAddressType ty) expr) expr

/-- The same, where `gen_aggregate_expr_addr` has one. -/
def NodeGen.ofObjectWith (ty : Option CType) (expr : Gen IRValue) : NodeGen :=
  ⟨orFallback fb .value (isAddressType ty) expr, expr, expr, genExprInit Γ expr expr⟩

/-- The address of the base of a member. -/
def memberBase (aggTy : Option CType) (field : String) (base : Gen IRValue) : Gen IRValue := do
  let addr ← base
  orFallback fb (.member field) (hasMember Γ aggTy field) (return addr)

mutual

/-- `genNode` with fallbacks. -/
def genNodeWith (declared : List String) : Expr → NodeGen
  | .intLit i v _ | .charLit i v => .ofExprWith fb Γ i.type (return irvInt v (i.type.getD typeInt))
  | .floatLit i v _ => .ofExprWith fb Γ i.type (return irvFloat v (i.type.getD typeDouble))
  | .strLit i s => .ofExprWith fb Γ i.type do
      let label ← addStringConst s
      return irvGlobal label (i.type.getD (typePointer typeChar .none))
  | .ident i name => .ofLvalue Γ (lookingUp fb declared name (genIdentLvalue name))
      (lookingUp fb declared name (genIdent name i.type))
  | .unop i op e =>
      let e := genNodeWith declared e
      let expr := genUnop Γ op i.type e
      .ofLvalue Γ (if op = .star then e.expr else orFallback fb .value (isAddressType i.type) expr)
        expr
  | .postop i op e => .ofExprWith fb Γ i.type do
      let r ← genStep Γ op i.type (genNodeWith declared e).lvalue
      return r.1
  | .binop i op l r => .ofExprWith fb Γ i.type (genBinop Γ op i.type l.type r.type
      (genNodeWith declared l).expr (genNodeWith declared r).expr)
  | .assign i op l r => .ofObjectWith fb Γ i.type (genAssign Γ op i.type (l.type <|> i.type)
      (memberField Γ l) (genNodeWith declared l) (genNodeWith declared r))
  | .ternary i c t e => .ofExprWith fb Γ i.type (genTernary i.type (genNodeWith declared c).expr
      (genNodeWith declared t).expr (genNodeWith declared e).expr)
  | .call i func args => .ofObjectWith fb Γ i.type (genCall Γ i.type
      -- a call may name a function that is declared nowhere
      (match func with
        | .ident j name => genIdent name j.type
        | _ => (genNodeWith declared func).expr)
      (genNodesWith declared args))
  | .subscript i b x =>
      let lvalue := genSubscriptLvalue Γ i.type (genNodeWith declared b).expr
        (genNodeWith declared x).expr
      .ofLvalue Γ lvalue (lvalue >>= loadUnlessAggregate i.type)
  | .member i b field =>
      let lvalue := genMemberLvalue Γ b.type field
        (memberBase fb Γ b.type field (genNodeWith declared b).lvalue)
      .ofLvalue Γ lvalue (genMemberExpr i.type (findField Γ b.type field).head? lvalue)
  | .memberPtr i b field =>
      let pt := pointeeOrSelf b.type
      let lvalue := genMemberLvalue Γ pt field
        (memberBase fb Γ pt field (genNodeWith declared b).expr)
      .ofLvalue Γ lvalue (genMemberExpr i.type (findField Γ pt field).head? lvalue)
  | .cast i ty e => .ofExprWith fb Γ i.type (genCast Γ e.type ty (genNodeWith declared e).expr)
  | .sizeofExpr i e => .ofExprWith fb Γ i.type (return sizeofValue Γ e.type)
  | .sizeofType i ty => .ofExprWith fb Γ i.type (return sizeofValue Γ (some ty))
  | .comma i l r => .ofExprWith fb Γ i.type do
      let _ ← (genNodeWith declared l).expr
      (genNodeWith declared r).expr
  | .initList i items =>
      let none : Gen IRValue := return irvInt 0 typeInt
      let lvalue := orFallback fb .value (isAddressType i.type) none
      ⟨lvalue, none, lvalue, genListInit Γ (genItemsWith declared items)⟩
  | .fieldDesig i _ _ | .indexDesig i _ _ => .ofExprWith fb Γ i.type (return irvInt 0 typeInt)
  | .compoundLit i ty init =>
      let init := genNodeWith declared init
      let lvalue := genCompoundLitLvalue Γ ty init
      let expr := genCompoundLit i.type lvalue
      ⟨lvalue, expr, expr, fun addr ty =>
        if isAggregateType (some ty) then init.init addr ty
        else do
          let v ← expr
          genStore addr v⟩

def genNodesWith (declared : List String) : List Expr → List (CType × NodeGen)
  | [] => []
  | a :: rest => (a.typeOrInt, genNodeWith declared a) :: genNodesWith declared rest

def genItemsWith (declared : List String) : List Expr → List ItemGen
  | [] => []
  | .fieldDesig _ field value :: rest =>
      ⟨.field field, value.isInitList, genNodeWith declared value⟩ :: genItemsWith declared rest
  | .indexDesig _ index value :: rest =>
      ⟨.index (constIntValue index), value.isInitList, genNodeWith declared value⟩ ::
        genItemsWith declared rest
  | it :: rest => ⟨.plain, it.isInitList, genNodeWith declared it⟩ :: genItemsWith declared rest

end

/-! ### Statements -/

/-- The names that a declaration brings into scope. -/
def Decl.names : Decl → List String
  | .var v => [v.name]
  | .typedef name _ => [name]
  | .agg _ => []
  | .enum (.enum id _) => (Γ.enm id).consts.map Prod.fst
  | .enum _ => []

/-- The names that a statement adds to the block it stands in. The parser reads a declaration also
where C99 has only a statement, and neither sema nor irgen opens a scope for it. -/
def Stmt.names : Stmt → List String
  | .decl ds => ds.flatMap (Decl.names Γ)
  | .label _ _ _ s | .case _ _ _ _ s | .default _ _ _ s => Stmt.names s
  | .while _ _ _ b | .doWhile _ _ _ b | .switch _ _ _ b => Stmt.names b
  | .ifElse _ _ _ t none => Stmt.names t
  | .ifElse _ _ _ t (some e) => Stmt.names e ++ Stmt.names t
  | _ => []

def genVarDeclWith (declared : List String) (v : VarDecl) : Gen Unit := do
  let ty := v.declType.getD typeInt
  let addr ← genAlloca Γ ty
  vscopeDefine v.name addr false
  match v.init with
  | some init => (genNodeWith fb Γ declared init).init addr ty
  | none => return

/-- A name is in scope in its own initializer. -/
def genDeclsWith : List String → List Decl → Gen Unit
  | _, [] => return
  | declared, .var v :: ds => do
      genVarDeclWith fb Γ (v.name :: declared) v
      genDeclsWith (v.name :: declared) ds
  | declared, d :: ds => genDeclsWith (d.names Γ ++ declared) ds

mutual

def genStmtWith (declared : List String) : Stmt → Gen Unit
  | .compound ss => withScope (genStmtsWith declared ss)
  | .expr e => genEffect (e.map fun e => (genNodeWith fb Γ declared e).expr)
  | .decl ds => genDeclsWith fb Γ declared ds
  | .ifElse _ _ c t e => genIf (genNodeWith fb Γ declared c).expr (genStmtWith declared t)
      (genStmtOptWith (t.names Γ ++ declared) e)
  | .while _ _ c b => genWhile (genNodeWith fb Γ declared c).expr (genStmtWith declared b)
  | .doWhile _ _ c b => genDoWhile (genNodeWith fb Γ (b.names Γ ++ declared) c).expr
      (genStmtWith declared b)
  | .for _ _ none c incr b =>
      genFor (return) (c.map fun e => (genNodeWith fb Γ declared e).expr)
        (incr.map fun e => (genNodeWith fb Γ (b.names Γ ++ declared) e).expr)
        (genStmtWith declared b)
  | .for _ _ (some init) c incr b =>
      let inner := init.names Γ ++ declared
      genFor (genStmtWith declared init) (c.map fun e => (genNodeWith fb Γ inner e).expr)
        (incr.map fun e => (genNodeWith fb Γ (b.names Γ ++ inner) e).expr) (genStmtWith inner b)
  | .ret _ _ e => genReturn (e.map fun e => (e.typeOrInt, genNodeWith fb Γ declared e))
  | .break _ _ => emitBreak
  | .continue _ _ => emitContinue
  | .switch _ _ e b => genSwitch (collectSwitchCases b) (genNodeWith fb Γ declared e).expr
      (genStmtWith declared b)
  | .case node _ _ _ s => do
      emitCaseLabel node false
      genStmtWith declared s
  | .default node _ _ s => do
      emitCaseLabel node true
      genStmtWith declared s
  | .goto _ _ name => emitGoto name
  | .label _ _ name s => do
      emitNamedLabel name
      genStmtWith declared s

def genStmtsWith (declared : List String) : List Stmt → Gen Unit
  | [] => return
  | s :: ss => do
      genStmtWith declared s
      genStmtsWith (s.names Γ ++ declared) ss

def genStmtOptWith (declared : List String) : Option Stmt → Option (Gen Unit)
  | none => none
  | some s => some (genStmtWith declared s)

end

/-! ### Units -/

/-- The names in scope at the start of a function's body. -/
def FuncDef.names (d : FuncDef) : List String := d.params.filterMap ParamDecl.name ++ [d.name]

def genFuncWith (declared : List String) (module : IRModule) (scope : ScopeChain VarEntry)
    (d : FuncDef) : IRModule :=
  let g := ((genStmtWith fb Γ (d.names ++ declared) d.body).run (funcStart Γ module scope d)).2
  { g.module with funcs := g.module.funcs ++ [g.func] }

/-- The names that a declaration of the file brings into scope. -/
def TopDecl.names : TopDecl → List String
  | .func d => [d.name]
  | .decl d => d.names Γ

def irgenDeclWith (declared : List String) (s : UnitState) : TopDecl → UnitState
  | .func d => ⟨genFuncWith fb Γ declared s.module s.scope d, s.scope⟩
  | .decl (.var v) => irgenVar Γ v s
  | .decl _ => s

def irgenDeclsWith : List String → UnitState → List TopDecl → UnitState
  | _, s, [] => s
  | declared, s, d :: ds =>
      irgenDeclsWith (d.names Γ ++ declared) (irgenDeclWith fb Γ declared s d) ds

/-- irgen with something done in its fallbacks. -/
def irgenWith (tu : TranslationUnit) : IRModule := (irgenDeclsWith fb Γ [] {} tu).module

end

/-! ### Sound trees -/

/-- What holds where a node is lowered by the functions of irgen. -/
structure NodeSound where
  lvalue : Bool
  expr : Bool
  aggAddr : Bool
  init : CType → Bool

namespace NodeSound

def ofLvalue (lvalue expr : Bool) : NodeSound :=
  ⟨lvalue, expr, lvalue, fun ty => if isAggregateType (some ty) then lvalue else expr⟩

def ofExpr (ty : Option CType) (expr : Bool) : NodeSound :=
  .ofLvalue (isAddressType ty && expr) expr

def ofObject (ty : Option CType) (expr : Bool) : NodeSound :=
  ⟨isAddressType ty && expr, expr, expr, fun _ => expr⟩

end NodeSound

structure ItemSound where
  kind : ItemKind
  isList : Bool
  value : NodeSound

section

variable (Γ : TypeEnv)

def scalarOrNestedSound (it : ItemSound) (ty : CType) : Bool :=
  if it.isList then it.value.init ty
  else if isAggregateType (some ty) then it.value.aggAddr
  else it.value.expr

/-- The items that `gen_array_initializer` lowers. -/
def arrayItemsSound (elem : CType) (count : Option ℤ) : List ItemSound → ℤ → Bool
  | [], _ => true
  | it :: rest, nextIndex =>
      match it.kind with
      | .field _ => arrayItemsSound elem count rest nextIndex
      | kind =>
          let index := match kind with
            | .index v => v.toInt
            | _ => nextIndex
          if count.any fun n => index < 0 || index ≥ n then
            arrayItemsSound elem count rest (index + 1)
          else scalarOrNestedSound it elem && arrayItemsSound elem count rest (index + 1)

/-- The items that `gen_aggregate_initializer` lowers. -/
def aggregateItemsSound (ty : CType) : List ItemSound → List StructField → Bool
  | [], _ => true
  | it :: rest, nextField =>
      match it.kind with
      | .index _ => aggregateItemsSound ty rest nextField
      | kind =>
          let fields := match kind with
            | .field name => findField Γ (some ty) name
            | _ => nextField
          match fields with
          | [] => true
          | field :: after =>
              scalarOrNestedSound it field.type && aggregateItemsSound ty rest after

def listSound (items : List ItemSound) (ty : CType) : Bool :=
  match ty with
  | .array elem count _ => arrayItemsSound elem (some count) items 0
  | .arrayUnsized elem _ => arrayItemsSound elem none items 0
  | .agg _ id _ => aggregateItemsSound Γ ty items (Γ.agg id).fields
  | _ =>
      match items with
      | [] => true
      | first :: _ => scalarOrNestedSound first ty

/-- The mode in which the operand of a unary operator is lowered. -/
def unopSound (op : TokenKind) (e : NodeSound) : Bool :=
  match op with
  | .amp | .plusplus | .minusminus => e.lvalue
  | _ => e.expr

mutual

/-- Every member that is looked for is found, every operand that has to be an lvalue is one or is
of a type whose values are addresses, and every name has a declaration in scope, unless it is
called. -/
def nodeSound (declared : List String) : Expr → NodeSound
  | .intLit i _ _ | .charLit i _ | .floatLit i _ _ | .strLit i _ => .ofExpr i.type true
  | .ident _ name => .ofLvalue (name ∈ declared) (name ∈ declared)
  | .unop i op e =>
      let e := nodeSound declared e
      let expr := unopSound op e
      .ofLvalue (if op = .star then e.expr else isAddressType i.type && expr) expr
  | .postop i _ e => .ofExpr i.type (nodeSound declared e).lvalue
  | .binop i _ l r => .ofExpr i.type ((nodeSound declared l).expr && (nodeSound declared r).expr)
  | .assign i op l r =>
      let r := nodeSound declared r
      .ofObject i.type ((nodeSound declared l).lvalue &&
        if op = .assign && isAggregateType (l.type <|> i.type) then r.aggAddr else r.expr)
  | .ternary i c t e => .ofExpr i.type ((nodeSound declared c).expr &&
      ((nodeSound declared t).expr && (nodeSound declared e).expr))
  | .call i func args => .ofObject i.type (argsSound declared args &&
      match func with
      | .ident _ _ => true
      | _ => (nodeSound declared func).expr)
  | .subscript _ b x =>
      let ok := (nodeSound declared b).expr && (nodeSound declared x).expr
      .ofLvalue ok ok
  | .member _ b field =>
      let ok := (nodeSound declared b).lvalue && hasMember Γ b.type field
      .ofLvalue ok ok
  | .memberPtr _ b field =>
      let ok := (nodeSound declared b).expr && hasMember Γ (pointeeOrSelf b.type) field
      .ofLvalue ok ok
  | .cast i _ e => .ofExpr i.type (nodeSound declared e).expr
  | .sizeofExpr i _ | .sizeofType i _ => .ofExpr i.type true
  | .comma i l r => .ofExpr i.type ((nodeSound declared l).expr && (nodeSound declared r).expr)
  | .initList i items => ⟨isAddressType i.type, true, isAddressType i.type,
      listSound Γ (itemsSound declared items)⟩
  | .fieldDesig i _ _ | .indexDesig i _ _ => .ofExpr i.type true
  | .compoundLit _ ty init =>
      let init := nodeSound declared init
      let ok := init.init ty
      ⟨ok, ok, ok, fun ty => if isAggregateType (some ty) then init.init ty else ok⟩

def argsSound (declared : List String) : List Expr → Bool
  | [] => true
  | a :: rest =>
      let n := nodeSound declared a
      (if isAggregateType (some a.typeOrInt) then n.aggAddr else n.expr) && argsSound declared rest

def itemsSound (declared : List String) : List Expr → List ItemSound
  | [] => []
  | .fieldDesig _ field value :: rest =>
      ⟨.field field, value.isInitList, nodeSound declared value⟩ :: itemsSound declared rest
  | .indexDesig _ index value :: rest =>
      ⟨.index (constIntValue index), value.isInitList, nodeSound declared value⟩ ::
        itemsSound declared rest
  | it :: rest => ⟨.plain, it.isInitList, nodeSound declared it⟩ :: itemsSound declared rest

end

def exprSound (declared : List String) (e : Option Expr) : Bool :=
  e.all fun e => (nodeSound Γ declared e).expr

def declsSound : List String → List Decl → Bool
  | _, [] => true
  | declared, .var v :: ds =>
      (v.init.all fun init =>
        (nodeSound Γ (v.name :: declared) init).init (v.declType.getD typeInt)) &&
        declsSound (v.name :: declared) ds
  | declared, d :: ds => declsSound (d.names Γ ++ declared) ds

/-- The mode in which a returned expression is lowered in a function of type `funcType`. -/
def returnSound (declared : List String) (funcType : Option CType) (e : Option Expr) : Bool :=
  e.all fun e =>
    let n := nodeSound Γ declared e
    if isAggregateType (some (returnType funcType e.typeOrInt)) then n.aggAddr else n.expr

mutual

def stmtSound (funcType : Option CType) (declared : List String) : Stmt → Bool
  | .compound ss => stmtsSound funcType declared ss
  | .expr e => exprSound Γ declared e
  | .decl ds => declsSound Γ declared ds
  | .ifElse _ _ c t e => exprSound Γ declared (some c) && (stmtSound funcType declared t &&
      stmtOptSound funcType (t.names Γ ++ declared) e)
  | .while _ _ c b | .switch _ _ c b =>
      exprSound Γ declared (some c) && stmtSound funcType declared b
  | .doWhile _ _ c b =>
      stmtSound funcType declared b && exprSound Γ (b.names Γ ++ declared) (some c)
  | .for _ _ none c incr b => exprSound Γ declared c && (stmtSound funcType declared b &&
      exprSound Γ (b.names Γ ++ declared) incr)
  | .for _ _ (some init) c incr b =>
      let inner := init.names Γ ++ declared
      stmtSound funcType declared init && (exprSound Γ inner c &&
        (stmtSound funcType inner b && exprSound Γ (b.names Γ ++ inner) incr))
  | .ret _ _ e => returnSound Γ declared funcType e
  | .case _ _ _ _ s | .default _ _ _ s | .label _ _ _ s => stmtSound funcType declared s
  | .break _ _ | .continue _ _ | .goto _ _ _ => true

def stmtsSound (funcType : Option CType) (declared : List String) : List Stmt → Bool
  | [] => true
  | s :: ss => stmtSound funcType declared s && stmtsSound funcType (s.names Γ ++ declared) ss

def stmtOptSound (funcType : Option CType) (declared : List String) : Option Stmt → Bool
  | none => true
  | some s => stmtSound funcType declared s

end

def topSound (declared : List String) : TopDecl → Bool
  | .func d => stmtSound Γ d.funcType (d.names ++ declared) d.body
  | .decl _ => true

def unitSoundFrom : List String → List TopDecl → Bool
  | _, [] => true
  | declared, d :: ds => topSound Γ declared d && unitSoundFrom (d.names Γ ++ declared) ds

def unitSound (tu : TranslationUnit) : Bool := unitSoundFrom Γ [] tu

end

end TinyC
