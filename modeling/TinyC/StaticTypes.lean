import TinyC.GenFrame

/-!
# The static types of addresses and values

The generators attach a type to every value they return. For an address it decides how wide an
access is. It follows from the form of the expression and from the types of the addresses in
scope.
-/

namespace TinyC

/-- The types of what `gen_lvalue` and `gen_expr` return. -/
structure StaticTypes where
  place : Option CType
  value : Option CType
  deriving DecidableEq, Repr

namespace StaticTypes

/-- A node without an address of its own. -/
def ofValue (ty : Option CType) : StaticTypes := ⟨ty, ty⟩

end StaticTypes

/-- A member keeps the address of its aggregate where it needs no other. -/
def memberPlace (Γ : TypeEnv) (aggTy : Option CType) (field : String) (base : Option CType) :
    Option CType :=
  match aggTy.bind fun t => findFieldWithOffset Γ t field with
  | some (f :: _, offset) =>
      if offset = 0 && pointsTo ⟨.none, base⟩ f.type then base
      else some (typePointer f.type .none)
  | _ => base

/-- What is loaded from a place, unless it is used by its address. -/
def loadedType (byAddress : Bool) (nodeType place : Option CType) : Option CType :=
  if byAddress then place else some (nodeType.getD typeInt)

def memberValue (bf : Option StructField) (nodeType place : Option CType) : Option CType :=
  match bf.filter fun f => f.bitWidth > 0 with
  | some f => some f.type
  | none => loadedType (nodeType.any CType.isArray || isAggregateType nodeType) nodeType place

def identTypes (entry : Option VarEntry) (nodeType : Option CType) : StaticTypes :=
  let ty := nodeType.getD typeInt
  match entry with
  | some e =>
      ⟨e.addr.type, loadedType (ty.isArray || ty.isFunc || isAggregateType (some ty)) nodeType
        e.addr.type⟩
  | none => ⟨some (typePointer typeInt .none), some ty⟩

def unopValue (op : TokenKind) (nodeType : Option CType) (operand : StaticTypes) : Option CType :=
  match op with
  | .amp => operand.place
  | .star => loadedType (isAggregateType nodeType) nodeType operand.value
  | .plus => operand.value
  | _ => some (nodeType.getD typeInt)

def assignValue (op : TokenKind) (nodeType lhsTy : Option CType) (left right : StaticTypes) :
    Option CType :=
  if op = .assign then if isAggregateType lhsTy then left.place else right.value
  else some (nodeType.getD typeInt)

def castValueType (srcTy : Option CType) (dstTy : CType) (operand : Option CType) :
    Option CType :=
  if srcTy.all (· = dstTy) then operand else some dstTy

/-- The types a node's generators attach, the variables of `sc` being in scope. -/
def staticTypes (Γ : TypeEnv) (sc : ScopeChain VarEntry) : Expr → StaticTypes
  | .intLit i _ _ | .charLit i _ => .ofValue (some (i.type.getD typeInt))
  | .floatLit i _ _ => .ofValue (some (i.type.getD typeDouble))
  | .strLit i _ => .ofValue (some (i.type.getD (typePointer typeChar .none)))
  | .ident i name => identTypes (sc.lookup vtabBuckets name) i.type
  | .unop i op e =>
      let operand := staticTypes Γ sc e
      let value := unopValue op i.type operand
      ⟨if op = .star then operand.value else value, value⟩
  | .postop i _ _ => .ofValue (some (i.type.getD typeInt))
  | .binop i op _ _ =>
      .ofValue (some (if op = .and ∨ op = .or then typeInt else i.type.getD typeInt))
  | .assign i op l r =>
      .ofValue (assignValue op i.type (l.type <|> i.type) (staticTypes Γ sc l)
        (staticTypes Γ sc r))
  | .ternary i _ _ _ => .ofValue (some (i.type.getD typeInt))
  | .call i _ _ =>
      let ret := i.type.getD typeInt
      .ofValue (some (if isAggregateType (some ret) then typePointer ret .none else ret))
  | .subscript i _ _ =>
      let place := some (typePointer (i.type.getD typeInt) .none)
      ⟨place, loadedType (isAggregateType i.type) i.type place⟩
  | .member i b field =>
      let place := memberPlace Γ b.type field (staticTypes Γ sc b).place
      ⟨place, memberValue (findField Γ b.type field).head? i.type place⟩
  | .memberPtr i b field =>
      let pt := pointeeOrSelf b.type
      let place := memberPlace Γ pt field (staticTypes Γ sc b).value
      ⟨place, memberValue (findField Γ pt field).head? i.type place⟩
  | .cast _ ty e => .ofValue (castValueType e.type ty (staticTypes Γ sc e).value)
  | .sizeofExpr _ _ | .sizeofType _ _ => .ofValue (some typeUlong)
  | .comma _ _ r => .ofValue (staticTypes Γ sc r).value
  | .initList _ _ | .fieldDesig _ _ _ | .indexDesig _ _ _ => .ofValue (some typeInt)
  | .compoundLit i ty _ =>
      let place := some (typePointer ty .none)
      let nodeTy := i.type.getD typeInt
      ⟨place, loadedType (isAggregateType (some nodeTy) || nodeTy.isArray) i.type place⟩

/-- `m` gives a value of the static type `ty`, whatever is in scope. -/
def AlwaysType (m : Gen IRValue) (ty : Option CType) : Prop := ∀ g, (m g).1.type = ty

/-- The same with the variables of `sc` in scope. -/
def HasType (sc : ScopeChain VarEntry) (m : Gen IRValue) (ty : Option CType) : Prop :=
  ∀ g, g.scope = sc → (m g).1.type = ty

/-- The generators of a node give the types. -/
structure NodeGen.HasTypes (sc : ScopeChain VarEntry) (n : NodeGen) (types : StaticTypes) :
    Prop where
  lvalue : HasType sc n.lvalue types.place
  expr : HasType sc n.expr types.value

namespace AlwaysType

variable {α : Type} {m : Gen IRValue} {ty : Option CType} {Γ : TypeEnv}

theorem pure (v : IRValue) : AlwaysType (Pure.pure v) v.type := fun _ => rfl

theorem last {m : Gen α} {k : α → Gen IRValue} (hk : ∀ a, AlwaysType (k a) ty) :
    AlwaysType (m >>= k) ty := fun g => hk (m g).1 (m g).2

theorem branch {p : Prop} [Decidable p] {k : Gen IRValue} (hm : AlwaysType m ty)
    (hk : AlwaysType k ty) : AlwaysType (if p then m else k) ty := by
  split
  · exact hm
  · exact hk

theorem emitTo (t : CType) (op : IROp) (a b : IRValue) :
    AlwaysType (emitTo t op a b) (some t) := fun _ => rfl

theorem genBinop (op : TokenKind) (nodeType lt rt : Option CType) (left right : Gen IRValue) :
    AlwaysType (genBinop Γ op nodeType lt rt left right)
      (some (if op = .and ∨ op = .or then typeInt else nodeType.getD typeInt)) := by
  unfold TinyC.genBinop
  by_cases hop : op = .and ∨ op = .or
  · rw [if_pos hop, if_pos hop]
    exact fun _ => rfl
  · rw [if_neg hop, if_neg hop]
    refine last fun lv => last fun rv => last fun t => ?_
    have hdone : ∀ a : Unit, AlwaysType (Pure.pure (irvTemp t (nodeType.getD typeInt))) _ :=
      fun _ => pure _
    refine branch (last fun _ => last hdone) (branch (last fun _ => last hdone) (branch ?_
      (branch (last fun _ => last hdone) (last hdone))))
    exact last fun _ => branch (pure _) (emitTo _ _ _ _)

/-- The destination of a call. -/
theorem genCall (nodeType : Option CType) (func : Gen IRValue) (args : List (CType × NodeGen)) :
    AlwaysType (genCall Γ nodeType func args)
      (some (if isAggregateType (some (nodeType.getD typeInt)) then
        typePointer (nodeType.getD typeInt) .none else nodeType.getD typeInt)) := by
  refine last fun vs => last fun callee => fun g => ?_
  unfold genCallDst
  split <;> rfl

end AlwaysType

namespace HasType

variable {sc : ScopeChain VarEntry} {m : Gen IRValue} {ty : Option CType} {Γ : TypeEnv}

theorem always (h : AlwaysType m ty) : HasType sc m ty := fun g _ => h g

theorem pure (v : IRValue) : HasType sc (Pure.pure v) v.type := always (.pure v)

theorem bind {α : Type} {m : Gen α} {k : α → Gen IRValue} (hm : Emits m)
    (hk : ∀ a, HasType sc (k a) ty) : HasType sc (m >>= k) ty :=
  fun g hg => hk (m g).1 (m g).2 ((hm g).scope.trans hg)

/-- The type of the value that the rest goes on with. -/
theorem value_bind {k : IRValue → Gen IRValue} {ty' : Option CType} (hm : Emits m)
    (ht : HasType sc m ty) (hk : ∀ v, v.type = ty → HasType sc (k v) ty') :
    HasType sc (m >>= k) ty' :=
  fun g hg => hk (m g).1 (ht g hg) (m g).2 ((hm g).scope.trans hg)

theorem ite {p : Prop} [Decidable p] {k : Gen IRValue} {ty' : Option CType} (hm : HasType sc m ty)
    (hk : HasType sc k ty') : HasType sc (if p then m else k) (if p then ty else ty') := by
  split
  · exact hm
  · exact hk

theorem genLoad (addr : IRValue) (t : CType) : HasType sc (genLoad addr t) (some t) :=
  always fun _ => rfl

theorem loadUnless {byAddress : Bool} (nodeType : Option CType) {addr : IRValue}
    (h : addr.type = ty) :
    HasType sc (if byAddress then Pure.pure addr else TinyC.genLoad addr (nodeType.getD typeInt))
      (loadedType byAddress nodeType ty) := by
  rw [← h]
  exact ite (pure addr) (genLoad addr _)

theorem genIdentLvalue (name : String) (nodeType : Option CType) :
    HasType sc (genIdentLvalue name)
      (identTypes (sc.lookup vtabBuckets name) nodeType).place := by
  rintro g rfl
  rw [TinyC.genIdentLvalue, Gen.run_vscopeLookup_bind]
  cases g.scope.lookup vtabBuckets name <;> rfl

theorem genIdent (name : String) (nodeType : Option CType) :
    HasType sc (genIdent name nodeType)
      (identTypes (sc.lookup vtabBuckets name) nodeType).value := by
  rintro g rfl
  rw [TinyC.genIdent, Gen.run_vscopeLookup_bind]
  cases g.scope.lookup vtabBuckets name with
  | none => rfl
  | some e => exact loadUnless nodeType rfl g rfl

theorem genUnop (op : TokenKind) (nodeType : Option CType) {n : NodeGen} {types : StaticTypes}
    (hn : n.Emits) (h : n.HasTypes sc types) :
    HasType sc (genUnop Γ op nodeType n) (unopValue op nodeType types) := by
  cases op with
  | amp => exact h.lvalue
  | star => exact value_bind hn.expr h.expr fun _ hv => loadUnless nodeType hv
  | plus =>
    refine value_bind hn.expr h.expr fun v hv => bind .newTemp fun _ => ?_
    rw [unopValue, ← hv]
    exact pure v
  | plusplus => exact always fun _ => rfl
  | minusminus => exact always fun _ => rfl
  | _ => exact always (.last fun _ => fun _ => rfl)

theorem genAssign (op : TokenKind) (nodeType lhsTy : Option CType) (bf : Option StructField)
    {left right : NodeGen} {lt rt : StaticTypes} (hl : left.Emits) (hr : right.Emits)
    (hlt : left.HasTypes sc lt) (hrt : right.HasTypes sc rt) :
    HasType sc (genAssign Γ op nodeType lhsTy bf left right)
      (assignValue op nodeType lhsTy lt rt) := by
  refine value_bind hl.lvalue hlt.lvalue fun addr haddr => ?_
  unfold assignValue
  dsimp only
  by_cases hop : op = .assign
  · rw [if_pos hop, if_pos hop, decide_eq_true hop, Bool.true_and]
    cases isAggregateType lhsTy with
    | true =>
      refine bind hr.aggAddr fun _ => bind (.genMemcpy Γ _ _ _) fun _ => ?_
      rw [if_pos rfl, ← haddr]
      exact pure addr
    | false =>
      refine value_bind hr.expr hrt.expr fun v hv => ?_
      rw [if_neg Bool.false_ne_true, ← hv]
      cases bf.filter fun f => f.bitWidth > 0 with
      | some f => exact always fun _ => rfl
      | none => exact always fun _ => rfl
  · rw [if_neg hop, if_neg hop, decide_eq_false hop, Bool.false_and]
    exact always (.last fun _ => .last fun _ => .last fun _ => .last fun _ => fun _ => rfl)

theorem genMemberLvalue (aggTy : Option CType) (field : String) {base : Gen IRValue}
    (hm : Emits base) (h : HasType sc base ty) :
    HasType sc (genMemberLvalue Γ aggTy field base) (memberPlace Γ aggTy field ty) := by
  refine value_bind hm h fun addr haddr => ?_
  unfold memberPlace
  rw [← haddr]
  cases aggTy with
  | none => exact pure addr
  | some t =>
    rw [Option.bind_some]
    dsimp only
    rcases findFieldWithOffset Γ t field with - | ⟨⟨⟩ | ⟨f, fs⟩, offset⟩
    · exact pure addr
    · exact pure addr
    · exact ite (pure addr) (always (.emitTo _ _ _ _))

theorem genMemberExpr (nodeType : Option CType) (bf : Option StructField) (hm : Emits m)
    (h : HasType sc m ty) :
    HasType sc (genMemberExpr nodeType bf m) (memberValue bf nodeType ty) := by
  refine value_bind hm h fun addr haddr => ?_
  unfold memberValue
  cases bf.filter fun f => f.bitWidth > 0 with
  | some f => exact always (.last fun _ => .last fun _ => .emitTo _ _ _ _)
  | none =>
    cases harr : nodeType.any CType.isArray with
    | true => exact haddr ▸ pure addr
    | false => exact loadUnless nodeType haddr

theorem genCast (srcTy : Option CType) (dstTy : CType) (hm : Emits m) (h : HasType sc m ty) :
    HasType sc (genCast Γ srcTy dstTy m) (castValueType srcTy dstTy ty) := by
  refine value_bind hm h fun v hv => ?_
  rw [← hv]
  cases srcTy with
  | none => exact pure v
  | some t =>
    have hall : (some t).all (fun t => decide (t = dstTy)) = decide (t = dstTy) := rfl
    rw [castValueType, hall]
    simp only [decide_eq_true_eq]
    exact ite (pure v) (always (.emitTo _ _ _ _))

theorem genCompoundLit (nodeType : Option CType) (hm : Emits m) (h : HasType sc m ty) :
    HasType sc (genCompoundLit nodeType m)
      (loadedType (isAggregateType (some (nodeType.getD typeInt)) ||
        (nodeType.getD typeInt).isArray) nodeType ty) :=
  value_bind hm h fun _ haddr => loadUnless nodeType haddr

end HasType

namespace NodeGen.HasTypes

variable {Γ : TypeEnv} {sc : ScopeChain VarEntry} {m : Gen IRValue}

theorem ofExpr {ty : Option CType} (h : HasType sc m ty) :
    (NodeGen.ofExpr Γ m).HasTypes sc (.ofValue ty) := ⟨h, h⟩

end NodeGen.HasTypes

/-- The generators of every node give its static types. -/
theorem genNode_hasTypes (Γ : TypeEnv) (sc : ScopeChain VarEntry) (e : Expr) :
    (genNode Γ e).HasTypes sc (staticTypes Γ sc e) := by
  cases e with
  | intLit _ _ _ | charLit _ _ | floatLit _ _ _ => exact .ofExpr (.pure _)
  | strLit _ _ => exact .ofExpr (.always (.last fun _ => .pure _))
  | ident i name => exact ⟨.genIdentLvalue name i.type, .genIdent name i.type⟩
  | unop i op e =>
    have he := genNode_hasTypes Γ sc e
    have hexpr := HasType.genUnop (Γ := Γ) op i.type (genNode_emits Γ e) he
    refine ⟨?_, hexpr⟩
    change HasType sc (if op = .star then (genNode Γ e).expr
      else genUnop Γ op i.type (genNode Γ e)) _
    exact .ite he.expr hexpr
  | postop _ _ _ => exact .ofExpr (.always fun _ => rfl)
  | binop i op l r => exact .ofExpr (.always (.genBinop op i.type _ _ _ _))
  | assign i op l r =>
    exact .ofExpr (.genAssign op i.type _ _ (genNode_emits Γ l) (genNode_emits Γ r)
        (genNode_hasTypes Γ sc l) (genNode_hasTypes Γ sc r))
  | ternary _ _ _ _ => exact .ofExpr (.always fun _ => rfl)
  | call i _ _ => exact .ofExpr (.always (.genCall i.type _ _))
  | subscript i b x =>
    have hl : Emits (genSubscriptLvalue Γ i.type (genNode Γ b).expr (genNode Γ x).expr) :=
      .genSubscriptLvalue i.type (genNode_emits Γ b).expr (genNode_emits Γ x).expr
    have ht : HasType sc (genSubscriptLvalue Γ i.type (genNode Γ b).expr (genNode Γ x).expr)
        (some (typePointer (i.type.getD typeInt) .none)) :=
      .always (.last fun _ => .last fun _ => .last fun _ => .last fun _ => .last fun _ => .pure _)
    exact ⟨ht, .value_bind hl ht fun _ haddr => .loadUnless i.type haddr⟩
  | member i b field =>
    have hl : Emits (genMemberLvalue Γ b.type field (genNode Γ b).lvalue) :=
      .genMemberLvalue b.type field (genNode_emits Γ b).lvalue
    have ht := HasType.genMemberLvalue (Γ := Γ) b.type field (genNode_emits Γ b).lvalue
      (genNode_hasTypes Γ sc b).lvalue
    exact ⟨ht, .genMemberExpr _ _ hl ht⟩
  | memberPtr i b field =>
    have hl : Emits (genMemberLvalue Γ (pointeeOrSelf b.type) field (genNode Γ b).expr) :=
      .genMemberLvalue _ field (genNode_emits Γ b).expr
    have ht := HasType.genMemberLvalue (Γ := Γ) (pointeeOrSelf b.type) field
      (genNode_emits Γ b).expr (genNode_hasTypes Γ sc b).expr
    exact ⟨ht, .genMemberExpr _ _ hl ht⟩
  | cast _ ty e =>
    exact .ofExpr (.genCast e.type ty (genNode_emits Γ e).expr (genNode_hasTypes Γ sc e).expr)
  | sizeofExpr _ e => exact .ofExpr (.always fun _ => by cases e.type <;> rfl)
  | sizeofType _ _ => exact .ofExpr (.pure _)
  | comma _ l r => exact .ofExpr (.bind (genNode_emits Γ l).expr fun _ => (genNode_hasTypes Γ sc r).expr)
  | initList _ _ => exact ⟨.pure _, .pure _⟩
  | fieldDesig _ _ _ => exact .ofExpr (.pure _)
  | indexDesig _ _ _ => exact .ofExpr (.pure _)
  | compoundLit i ty init =>
    have hi := genNode_emits Γ init
    have hl : Emits (genCompoundLitLvalue Γ ty (genNode Γ init)) := .genCompoundLitLvalue ty hi
    have ht : HasType sc (genCompoundLitLvalue Γ ty (genNode Γ init))
        (some (typePointer ty .none)) := .always fun _ => rfl
    exact ⟨ht, .genCompoundLit i.type hl ht⟩

end TinyC
