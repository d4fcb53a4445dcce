import TinyC.IrGenModule
import TinyC.ParseTree

/-!
# The types of a checked tree

irgen follows the pointers between type nodes. Here they are followed all at once: a reference
becomes the type it stands for, unless it leads to `NULL` or round in a cycle, and the structs,
unions and enums of the table become an environment.
-/

namespace TinyC

theorem except_bind_ok {α β : Type} {m : Except Stuck α} {k : α → Except Stuck β} {b : β}
    (h : (m >>= k) = .ok b) : ∃ a, m = .ok a ∧ k a = .ok b := by
  cases m with
  | error e => cases h
  | ok a => exact ⟨a, rfl, h⟩

theorem mapM_ok_forall₂ {α β : Type} {m : α → Except Stuck β} {xs : List α} {ys : List β}
    (h : xs.mapM m = .ok ys) : List.Forall₂ (fun x y => m x = .ok y) xs ys := by
  induction xs generalizing ys with
  | nil =>
    cases h
    exact .nil
  | cons x xs ih =>
    rw [List.mapM_cons] at h
    obtain ⟨y, hy, h⟩ := except_bind_ok h
    obtain ⟨ys', hys, h⟩ := except_bind_ok h
    cases h
    exact .cons hy (ih hys)

theorem forall₂_getElem? {α β : Type} {R : α → β → Prop} {xs : List α} {ys : List β}
    (h : List.Forall₂ R xs ys) {i : ℕ} {x : α} (hx : xs[i]? = some x) :
    ∃ y, ys[i]? = some y ∧ R x y := by
  induction h generalizing i with
  | nil => cases hx
  | cons hxy _ ih =>
    cases i with
    | zero =>
      cases hx
      exact ⟨_, rfl, hxy⟩
    | succ i => exact ih hx

namespace TypeTable

variable (t : TypeTable)

/-! ### Types -/

/-- The type at a reference, along `n` nodes. A struct, union or enum is not entered. -/
def readAlong : ℕ → Option TypeRef → Except Stuck CType
  | _, none => throw .null
  | 0, some _ => throw .cycle
  | n + 1, some r =>
      match t.node? (some r) with
      | none => throw .null
      | some ⟨body, q⟩ =>
          match body with
          | .scalar k => return .scalar k q
          | .pointer p => return .pointer (← readAlong n p) q
          | .array elem count => return .array (← readAlong n elem) count q
          | .arrayUnsized elem => return .arrayUnsized (← readAlong n elem) q
          | .func ret ps variadic => do
              let ret ← readAlong n ret
              let ps ← ps.foldrM (fun p ps => do
                return FuncParams.cons p.name (← readAlong n p.type) ps) .nil
              return .func ret ps variadic q
          | .agg isUnion _ => return .agg isUnion r q
          | .enum _ => return .enum r q

/-- A walk through more nodes than there are goes round in a cycle. -/
def readType (r : Option TypeRef) : Except Stuck CType := t.readAlong (t.nodes.length + 1) r

/-- A type that may be missing. -/
def readType? : Option TypeRef → Except Stuck (Option CType)
  | none => return none
  | some r => return some (← t.readType (some r))

/-! ### The environment -/

def readField (f : FieldNode) : Except Stuck StructField := do
  return { name := f.name, type := ← t.readType f.type, offset := f.offset
           bitWidth := f.bitWidth, bitOffset := f.bitOffset }

/-- What a node holds as a struct or union. -/
def readAgg (n : TypeNode) : Except Stuck AggDef := do
  match n.body with
  | .agg _ a =>
      return { tag := a.tag, fields := ← a.fields.mapM t.readField, size := a.size
               align := a.align }
  | _ => return {}

def enumDef (n : TypeNode) : EnumDef :=
  match n.body with
  | .enum e => e
  | _ => {}

end TypeTable

/-- How deep aggregates contain others by value, as far as `n` levels down. -/
def rankAlong (aggs : List AggDef) : ℕ → ℕ → ℕ
  | 0, _ => 0
  | n + 1, id => ((aggs.getD id {}).fields.map fun f =>
      f.type.depth (rankAlong aggs n) + 1).foldl max 0

/-- No aggregate contains itself by value. -/
def AggsContained (aggs : List AggDef) (rank : ℕ → ℕ) : Prop :=
  ∀ id < aggs.length, ∀ f ∈ (aggs.getD id {}).fields, f.type.depth rank < rank id

instance (aggs : List AggDef) (rank : ℕ → ℕ) : Decidable (AggsContained aggs rank) :=
  inferInstanceAs (Decidable (∀ id < aggs.length, _))

/-- The environment of aggregates that are contained in each other. -/
def TypeEnv.ofAggs (aggs : List AggDef) (enums : List EnumDef) (rank : ℕ → ℕ)
    (h : AggsContained aggs rank) : TypeEnv where
  agg id := aggs.getD id {}
  enm id := enums.getD id {}
  rank := rank
  contained id f hf := by
    by_cases hid : id < aggs.length
    · exact h id hid f hf
    · rw [List.getD_eq_default _ _ (Nat.le_of_not_lt hid)] at hf
      cases hf

namespace TypeTable

variable (t : TypeTable)

/-- The structs, unions and enums of the table. -/
def env : Except Stuck TypeEnv := do
  let aggs ← t.nodes.mapM t.readAgg
  let rank := rankAlong aggs (aggs.length + 1)
  if h : AggsContained aggs rank then return .ofAggs aggs (t.nodes.map enumDef) rank h
  else throw .cycle

/-! ### Expressions -/

def readInfo (i : RawInfo) : Except Stuck Info := do
  return { line := i.line, col := i.col, type := ← t.readType? i.type }

mutual

def readExpr : RawExpr → Except Stuck Expr
  | .intLit i v s => return .intLit (← t.readInfo i) v s
  | .floatLit i v s => return .floatLit (← t.readInfo i) v (Char.ofNat s.toNat)
  | .charLit i v => return .charLit (← t.readInfo i) v
  | .strLit i s => return .strLit (← t.readInfo i) s
  | .ident i name => return .ident (← t.readInfo i) name
  | .unop i op e => return .unop (← t.readInfo i) op (← readExpr e)
  | .postop i op e => return .postop (← t.readInfo i) op (← readExpr e)
  | .binop i op l r => return .binop (← t.readInfo i) op (← readExpr l) (← readExpr r)
  | .assign i op l r => return .assign (← t.readInfo i) op (← readExpr l) (← readExpr r)
  | .ternary i c a b =>
      return .ternary (← t.readInfo i) (← readExpr c) (← readExpr a) (← readExpr b)
  | .call i fn as => return .call (← t.readInfo i) (← readExpr fn) (← readExprs as)
  | .subscript i b x => return .subscript (← t.readInfo i) (← readExpr b) (← readExpr x)
  | .member i b field => return .member (← t.readInfo i) (← readExpr b) field
  | .memberPtr i b field => return .memberPtr (← t.readInfo i) (← readExpr b) field
  | .cast i ty e => return .cast (← t.readInfo i) (← t.readType ty) (← readExpr e)
  | .sizeofExpr i e => return .sizeofExpr (← t.readInfo i) (← readExpr e)
  | .sizeofType i ty => return .sizeofType (← t.readInfo i) (← t.readType ty)
  | .comma i l r => return .comma (← t.readInfo i) (← readExpr l) (← readExpr r)
  | .initList i items => return .initList (← t.readInfo i) (← readExprs items)
  | .fieldDesig i field v => return .fieldDesig (← t.readInfo i) field (← readExpr v)
  | .indexDesig i x v => return .indexDesig (← t.readInfo i) (← readExpr x) (← readExpr v)
  | .compoundLit i ty init =>
      return .compoundLit (← t.readInfo i) (← t.readType ty) (← readExpr init)

def readExprs : List RawExpr → Except Stuck (List Expr)
  | [] => return []
  | e :: es => return (← readExpr e) :: (← readExprs es)

end

def readExpr? : Option RawExpr → Except Stuck (Option Expr)
  | none => return none
  | some e => return some (← t.readExpr e)

/-! ### Statements -/

def readVar (v : RawVar) : Except Stuck VarDecl := do
  return { node := v.node, line := v.line, col := v.col, name := v.name
           declType := ← t.readType? v.declType, init := ← t.readExpr? v.init
           storage := v.storage }

def readDecl : RawDecl → Except Stuck Decl
  | .var v => return .var (← t.readVar v)
  | .typedef name aliased => return .typedef name (← t.readType? aliased)
  | .agg ty => return .agg (← t.readType (some ty))
  | .enum ty => return .enum (← t.readType (some ty))

mutual

def readStmt : RawStmt → Except Stuck Stmt
  | .compound ss => return .compound (← readStmts ss)
  | .expr e => return .expr (some (← t.readExpr e))
  | .decl ds => return .decl (← ds.mapM t.readDecl)
  | .ifElse ln cl c a b =>
      return .ifElse ln cl (← t.readExpr c) (← readStmt a) (← readStmt? b)
  | .while ln cl c b => return .while ln cl (← t.readExpr c) (← readStmt b)
  | .doWhile ln cl c b => return .doWhile ln cl (← t.readExpr c) (← readStmt b)
  | .for ln cl init c incr b =>
      return .for ln cl (← readStmt? init) (← t.readExpr? c) (← t.readExpr? incr) (← readStmt b)
  | .ret ln cl e => return .ret ln cl (← t.readExpr? e)
  | .break ln cl => return .break ln cl
  | .continue ln cl => return .continue ln cl
  | .goto ln cl l => return .goto ln cl l
  | .label ln cl l s => return .label ln cl l (← readStmt s)
  | .switch ln cl e b => return .switch ln cl (← t.readExpr e) (← readStmt b)
  | .case node ln cl e s => return .case node ln cl (← t.readExpr e) (← readStmt s)
  | .default node ln cl s => return .default node ln cl (← readStmt s)

def readStmts : List RawStmt → Except Stuck (List Stmt)
  | [] => return []
  | s :: ss => return (← readStmt s) :: (← readStmts ss)

def readStmt? : Option RawStmt → Except Stuck (Option Stmt)
  | none => return none
  | some s => return some (← readStmt s)

end

/-! ### Translation units -/

def readParam (p : RawParam) : Except Stuck ParamDecl := do
  return { node := p.node, line := p.line, col := p.col, name := p.name
           paramType := ← t.readType? p.paramType }

def readTop : RawTop → Except Stuck TopDecl
  | .func f => do
      return .func { node := f.node, line := f.line, col := f.col, name := f.name
                     funcType := ← t.readType? f.funcType, params := ← f.params.mapM t.readParam
                     body := ← t.readStmt f.body, storage := f.storage }
  | .decl d => return .decl (← t.readDecl d)

def readUnit (u : RawUnit) : Except Stuck TranslationUnit := u.mapM t.readTop

end TypeTable

end TinyC
