import TinyC.OperatorValue
import TinyC.SemaRules
import TinyC.TypeHistory

/-!
# The types of arithmetic expressions

The types that sema gives the nodes of an expression with arithmetic operators, beside those of
C99. Sema has one rule for all binary operators, which goes by a linear rank.
-/

namespace TinyC

/-! ### The table while expressions are checked -/

namespace TypeTable

variable {t t' t'' : TypeTable}

/-- Nodes have been added to `t`, and none changed. -/
def Extends (t t' : TypeTable) : Prop := ∃ ns, t'.nodes = t.nodes ++ ns

theorem Extends.refl (t : TypeTable) : t.Extends t := ⟨[], (List.append_nil _).symm⟩

theorem Extends.trans (h : t.Extends t') (h' : t'.Extends t'') : t.Extends t'' := by
  obtain ⟨ns, hns⟩ := h
  obtain ⟨ns', hns'⟩ := h'
  exact ⟨ns ++ ns', by rw [hns', hns, List.append_assoc]⟩

theorem Extends.node? {r : Option TypeRef} {n : TypeNode} (h : t.Extends t')
    (hr : t.node? r = some n) : t'.node? r = some n := by
  obtain ⟨ns, hns⟩ := h
  obtain ⟨r, rfl, hr⟩ := Option.bind_eq_some_iff.mp hr
  change t'.nodes[r]? = some n
  rw [hns, List.getElem?_append_left (List.getElem?_eq_some_iff.mp hr).1]
  exact hr

theorem extends_pointer (t : TypeTable) (pointee : Option TypeRef) (q : TypeQual) :
    t.Extends (t.call (.pointer pointee q)).2 := by
  change t.Extends (t.intern _ _).2
  unfold intern
  split
  · exact .refl t
  · exact ⟨_, rfl⟩

end TypeTable

/-- `m` does no more to the table than adding nodes. -/
def Extending {α : Type} (m : SemaM α) : Prop :=
  ∀ s a s', m s = .ok (a, s') → s.types.Extends s'.types

/-- Checking an expression does no more to the table than adding nodes. -/
theorem extending_exprRules : ExprRules Extending where
  pure a := by
    intro s b s' h
    cases h
    exact .refl _
  bind hm hk := by
    intro s b s' h
    obtain ⟨a, s₁, hrun, hrest⟩ := SemaM.bind_ok h
    exact (hm s a s₁ hrun).trans (hk a s₁ b s' hrest)
  throw e := by
    intro s b s' h
    cases h
  get := by
    intro s b s' h
    cases h
    exact .refl _
  refuse line col := by
    intro s b s' h
    cases h
    exact .refl _
  pointer pointee q := by
    intro s b s' h
    cases h
    exact s.types.extends_pointer pointee q

/-! ### Arithmetic expressions -/

/-- Expressions with arithmetic operators. An operand comes with the node of its type and, if it is
a bit-field, with its width. -/
inductive ArithExpr where
  | operand (e : RawExpr) (type : TypeNode) (width : Option ℤ)
  | unop (i : RawInfo) (op : TokenKind) (operand : ArithExpr)
  | binop (i : RawInfo) (op : TokenKind) (left right : ArithExpr)
  | ternary (i : RawInfo) (cond thenExpr elseExpr : ArithExpr)

def isShift : TokenKind → Bool
  | .lshift | .rshift => true
  | _ => false

def isLogical : TokenKind → Bool
  | .and | .or => true
  | _ => false

/-- The operators that convert both operands to one type. -/
def isBalanced : TokenKind → Bool
  | .plus | .minus | .star | .slash | .percent | .amp | .pipe | .caret => true
  | _ => false

def isArithUnary : TokenKind → Bool
  | .plus | .minus | .tilde | .bang => true
  | _ => false

def isArithBinary (op : TokenKind) : Bool :=
  isBalanced op || isShift op || isComparison op || isLogical op

namespace ScalarKind

/-- The conversion rank of 6.3.1.1, for promoted types. -/
def convRank : ScalarKind → ℕ
  | .long | .ulong => 2
  | .llong | .ullong => 3
  | _ => 1

/-- The unsigned type that corresponds to a signed one. -/
def toUnsigned : ScalarKind → ScalarKind
  | .int => .uint
  | .long => .ulong
  | .llong => .ullong
  | k => k

end ScalarKind

/-- The promotion of 6.3.1.1. An `int` holds the values of every enum and of a narrow bit-field. -/
def c99Promote (n : TypeNode) (width : Option ℤ) : ScalarKind :=
  match n.body with
  | .scalar k => if k.isNarrow ∨ (k = .uint ∧ width.any (· < 32)) then .int else k
  | _ => .int

/-- The common type of 6.3.1.8, for promoted types. -/
def c99Usual (a b : ScalarKind) : ScalarKind :=
  if a = b then a
  else if a.signed = b.signed then if a.convRank ≥ b.convRank then a else b
  else
    let s := if a.signed then a else b
    let u := if a.signed then b else a
    if u.convRank ≥ s.convRank then u
    else if u.bits < s.bits then s
    else s.toUnsigned

/-- The width of a member that is a bit-field. -/
def fieldWidth (t : TypeTable) : RawExpr → Option ℤ
  | .member _ b field => widthIn b.type field
  | .memberPtr _ b field =>
      match t.node? b.type with
      | some ⟨.pointer pointee, _⟩ => widthIn pointee field
      | some ⟨.array elem _, _⟩ | some ⟨.arrayUnsized elem, _⟩ => widthIn elem field
      | _ => none
  | _ => none
where
  widthIn (ty : Option TypeRef) (field : String) : Option ℤ :=
    match t.lookupMemberAlong field (t.nodes.length + 1) ty with
    | .ok (some f) => if f.bitWidth ≥ 0 then some f.bitWidth else none
    | _ => none

namespace ArithExpr

def toRaw : ArithExpr → RawExpr
  | operand e _ _ => e
  | unop i op a => .unop i op a.toRaw
  | binop i op a b => .binop i op a.toRaw b.toRaw
  | ternary i c a b => .ternary i c.toRaw a.toRaw b.toRaw

/-- The operators are the arithmetic ones, and the operands have integer types. -/
def IsArith : ArithExpr → Prop
  | operand _ n _ => n.body.isInteger = true
  | unop _ op a => isArithUnary op = true ∧ a.IsArith
  | binop _ op a b => isArithBinary op = true ∧ a.IsArith ∧ b.IsArith
  | ternary _ c a b => c.IsArith ∧ a.IsArith ∧ b.IsArith

/-- The operands turn out to be what the expression says. -/
def Fits : ArithExpr → Sema → Prop
  | operand e n w, s =>
      ∃ e' s', checkExpr e s = .ok (e', s') ∧ s'.types.node? e'.type = some n ∧
        fieldWidth s'.types e' = w
  | unop _ _ a, s => a.Fits s
  | binop _ _ a b, s => a.Fits s ∧ ∀ a' s₁, checkExpr a.toRaw s = .ok (a', s₁) → b.Fits s₁
  | ternary _ c a b, s =>
      c.Fits s ∧ ∀ c' s₁, checkExpr c.toRaw s = .ok (c', s₁) →
        a.Fits s₁ ∧ ∀ a' s₂, checkExpr a.toRaw s₁ = .ok (a', s₂) → b.Fits s₂

/-- The C99 type, promoted if it is that of an operand. -/
def c99Kind : ArithExpr → ScalarKind
  | operand _ n w => c99Promote n w
  | unop _ op a => if op = .bang then .int else a.c99Kind
  | binop _ op a b =>
      if isComparison op || isLogical op then .int
      else if isShift op then a.c99Kind
      else c99Usual a.c99Kind b.c99Kind
  | ternary _ _ a b => c99Usual a.c99Kind b.c99Kind

/-- The node of the C99 type of an operator. -/
def c99Type (e : ArithExpr) : TypeNode := { body := .scalar e.c99Kind }

end ArithExpr

/-- What `make_cast` puts in front of an operand, taken away. -/
def uncast : RawExpr → RawExpr
  | .cast _ _ e => e
  | e => e

namespace ArithExpr

/-- In the checked tree `e'` every operator of `e` has the type that `ty` says. -/
def Typed (ty : ArithExpr → TypeNode) (t : TypeTable) : ArithExpr → RawExpr → Prop
  | operand _ _ _, _ => True
  | unop i op a, e' =>
      ∃ i' a', e' = .unop i' op a' ∧ t.node? i'.type = some (ty (unop i op a)) ∧ a.Typed ty t a'
  | binop i op a b, e' =>
      ∃ i' l r, e' = .binop i' op l r ∧ t.node? i'.type = some (ty (binop i op a b)) ∧
        a.Typed ty t (uncast l) ∧ b.Typed ty t (uncast r)
  | ternary i c a b, e' =>
      ∃ i' c' a' b', e' = .ternary i' c' a' b' ∧ t.node? i'.type = some (ty (ternary i c a b)) ∧
        c.Typed ty t c' ∧ a.Typed ty t a' ∧ b.Typed ty t b'

/-! What the rules of sema go by, where the operands have their C99 types. -/

/-- The node of the type as an operand. -/
def operandType : ArithExpr → TypeNode
  | operand _ n _ => n
  | e => e.c99Type

/-- A bit-field that C99 promotes from `unsigned int` to `int`. -/
def isNarrowField : ArithExpr → Bool
  | operand _ n w => n.body = .scalar .uint && w.any (· < 32)
  | _ => false

def rank (e : ArithExpr) : ℕ := e.operandType.body.rank

/-- The type is one that promotion replaces by `int`, or it is a scalar without qualifiers. -/
def IsPlain (e : ArithExpr) : Prop :=
  (∃ k, e.operandType.body = .scalar k ∧ k.isNarrow = true) ∨
    ∃ k, e.operandType = { body := .scalar k }

/-- When the higher rank gives the C99 type: the operand of that rank, the left one if they are
equal, is neither an enum nor qualified, a narrow `unsigned int` bit-field stands beside another
`unsigned int`, and the types are not `unsigned long` and `long long`. -/
def Balances (a b : ArithExpr) : Prop :=
  (if b.rank ≤ a.rank then a else b).IsPlain ∧
    ((if b.rank ≤ a.rank then a else b).isNarrowField = true →
      a.rank = b.rank ∧ (b.isNarrowField = false ∨ a.isNarrowField = false)) ∧
    ¬(a.rank = 4 ∧ b.rank = 5) ∧ ¬(a.rank = 5 ∧ b.rank = 4)

/-- When every operator gets its C99 type. -/
def Agrees : ArithExpr → Prop
  | operand _ _ _ => True
  | unop _ op a => a.Agrees ∧ (op ≠ .bang → a.IsPlain ∧ a.isNarrowField = false)
  | binop _ op a b =>
      a.Agrees ∧ b.Agrees ∧ (isBalanced op = true → a.Balances b) ∧
        (isShift op = true → b.rank ≤ a.rank ∧ a.IsPlain ∧ a.isNarrowField = false)
  | ternary _ c a b => c.Agrees ∧ a.Agrees ∧ b.Agrees ∧ a.Balances b

end ArithExpr

/-! ### When the local conditions hold -/

namespace ArithExpr

def promoteNode (n : TypeNode) : TypeNode :=
  match n.body with
  | .scalar k => if k.isNarrow then { body := .scalar .int } else n
  | _ => n

/-- What the rule of sema makes of two nodes. -/
def usualNode (x y : TypeNode) : TypeNode :=
  if y.body.rank ≤ x.body.rank then promoteNode x else promoteNode y

/-- The nodes of the types that sema gives. -/
def semaType : ArithExpr → TypeNode
  | operand _ n _ => n
  | unop _ op a => if op = .bang then { body := .scalar .int } else promoteNode a.semaType
  | binop _ op a b =>
      if isComparison op || isLogical op then { body := .scalar .int }
      else usualNode a.semaType b.semaType
  | ternary _ _ a b => usualNode a.semaType b.semaType

/-- The kind that an operand is promoted to by sema, an enum counting as `int`. -/
def promotedKind (e : ArithExpr) : ScalarKind :=
  match (promoteNode e.operandType).body with
  | .scalar k => k
  | _ => .int

section

variable {a b : ArithExpr}

theorem c99Usual_mem {k k' : ScalarKind} (h : k ∈ promotedKinds) (h' : k' ∈ promotedKinds) :
    c99Usual k k' ∈ promotedKinds := by
  have hall : ∀ k ∈ promotedKinds, ∀ k' ∈ promotedKinds, c99Usual k k' ∈ promotedKinds := by decide
  exact hall k h k' h'

theorem c99Promote_mem {n : TypeNode} {w : Option ℤ} (h : n.body.isInteger = true) :
    c99Promote n w ∈ promotedKinds := by
  unfold c99Promote
  split
  · rename_i k hk
    rw [hk] at h
    split
    · decide
    · rename_i hno
      revert hno h
      cases k <;> simp [TypeBody.isInteger, ScalarKind.isInteger, ScalarKind.isNarrow, promotedKinds]
  · decide

theorem c99Kind_mem (h : a.IsArith) : a.c99Kind ∈ promotedKinds := by
  induction a with
  | operand e n w => exact c99Promote_mem h
  | unop i op a ih =>
    unfold c99Kind
    split
    · decide
    · exact ih h.2
  | binop i op a b iha ihb =>
    unfold c99Kind
    split
    · decide
    · split
      · exact iha h.2.1
      · exact c99Usual_mem (iha h.2.1) (ihb h.2.2)
  | ternary i c a b _ iha ihb => exact c99Usual_mem (iha h.2.1) (ihb h.2.2)

/-- A node of an operator's type is left alone. -/
theorem promoteNode_c99Type (h : a.IsArith) : promoteNode a.c99Type = a.c99Type := by
  have hmem := c99Kind_mem h
  have hnarrow : ∀ k ∈ promotedKinds, k.isNarrow = false := by decide
  simp [promoteNode, c99Type, hnarrow _ hmem]

theorem promotedKind_operator (h : a.IsArith) (hty : a.operandType = a.c99Type) :
    a.promotedKind = a.c99Kind := by
  rw [promotedKind, hty, promoteNode_c99Type h, c99Type]

/-- How the kind that C99 goes by is related to the one that sema does. -/
theorem c99Kind_eq (h : a.IsArith) :
    a.c99Kind = (if a.isNarrowField then .int else a.promotedKind) ∧
      (a.isNarrowField = true → a.promotedKind = .uint) := by
  cases a with
  | operand e n w =>
    obtain ⟨body, q⟩ := n
    cases body with
    | scalar k =>
      cases k <;>
        simp [c99Kind, c99Promote, isNarrowField, promotedKind, operandType, promoteNode,
          ScalarKind.isNarrow]
    | _ => simp [c99Kind, c99Promote, isNarrowField, promotedKind, operandType, promoteNode]
  | unop i op a => exact ⟨(promotedKind_operator h rfl).symm, fun hf => absurd hf Bool.false_ne_true⟩
  | binop i op a b => exact ⟨(promotedKind_operator h rfl).symm, fun hf => absurd hf Bool.false_ne_true⟩
  | ternary i c a b =>
    exact ⟨(promotedKind_operator h rfl).symm, fun hf => absurd hf Bool.false_ne_true⟩

theorem promotedKind_mem (h : a.IsArith) : a.promotedKind ∈ promotedKinds := by
  obtain ⟨hkind, hfield⟩ := c99Kind_eq h
  cases hf : a.isNarrowField with
  | true =>
    rw [hfield hf]
    decide
  | false =>
    rw [hf, if_neg Bool.false_ne_true] at hkind
    rw [← hkind]
    exact c99Kind_mem h

theorem rank_eq (a : ArithExpr) : a.rank = (TypeBody.scalar a.promotedKind).rank := by
  unfold rank promotedKind promoteNode
  obtain ⟨body, q⟩ := a.operandType
  cases body with
  | scalar k => cases k <;> rfl
  | _ => rfl

theorem isPlain_iff : a.IsPlain ↔ promoteNode a.operandType = { body := .scalar a.promotedKind } := by
  unfold IsPlain promotedKind promoteNode
  obtain ⟨body, q⟩ := a.operandType
  cases body with
  | scalar k =>
    dsimp only
    cases hn : k.isNarrow with
    | true => simp [hn]
    | false => simp [hn]
  | _ => simp

/-- The node that sema keeps has the kind `k`. -/
theorem promoteNode_eq_iff {k : ScalarKind} :
    promoteNode a.operandType = { body := .scalar k } ↔ a.IsPlain ∧ a.promotedKind = k := by
  rw [isPlain_iff]
  constructor
  · intro h
    have hk : a.promotedKind = k := by rw [promotedKind, h]
    rw [hk]
    exact ⟨h, rfl⟩
  · rintro ⟨h, rfl⟩
    exact h

theorem usualNode_eq_iff {k : ScalarKind} :
    usualNode a.operandType b.operandType = { body := .scalar k } ↔
      (if b.rank ≤ a.rank then a else b).IsPlain ∧
        (if b.rank ≤ a.rank then a else b).promotedKind = k := by
  rw [← promoteNode_eq_iff]
  change (if b.rank ≤ a.rank then _ else _) = _ ↔ _
  split
  · rfl
  · rfl

/-- The kinds among which the balance has to be looked at: all pairs of promoted kinds, each of which
may be a narrow bit-field's. -/
theorem balance_kinds : ∀ k ∈ promotedKinds, ∀ k' ∈ promotedKinds, ∀ f f' : Bool,
    (f = true → k = .uint) → (f' = true → k' = .uint) →
    ((if (TypeBody.scalar k').rank ≤ (TypeBody.scalar k).rank then k else k') =
        c99Usual (if f then .int else k) (if f' then .int else k') ↔
      ((if (TypeBody.scalar k').rank ≤ (TypeBody.scalar k).rank then f else f') = true →
        (TypeBody.scalar k).rank = (TypeBody.scalar k').rank ∧ (f' = false ∨ f = false)) ∧
      ¬((TypeBody.scalar k).rank = 4 ∧ (TypeBody.scalar k').rank = 5) ∧
        ¬((TypeBody.scalar k).rank = 5 ∧ (TypeBody.scalar k').rank = 4)) := by
  decide

/-- The same for shifts, where only the left operand counts. -/
theorem shift_kinds : ∀ k ∈ promotedKinds, ∀ k' ∈ promotedKinds, ∀ f : Bool,
    (f = true → k = .uint) →
    ((if (TypeBody.scalar k').rank ≤ (TypeBody.scalar k).rank then k else k') =
        (if f then .int else k) ↔
      (TypeBody.scalar k').rank ≤ (TypeBody.scalar k).rank ∧ f = false) := by
  decide

theorem balances_iff (ha : a.IsArith) (hb : b.IsArith) :
    usualNode a.operandType b.operandType = { body := .scalar (c99Usual a.c99Kind b.c99Kind) } ↔
      a.Balances b := by
  obtain ⟨hka, hfa⟩ := c99Kind_eq ha
  obtain ⟨hkb, hfb⟩ := c99Kind_eq hb
  have hkinds := balance_kinds _ (promotedKind_mem ha) _ (promotedKind_mem hb) a.isNarrowField
    b.isNarrowField hfa hfb
  rw [← rank_eq, ← rank_eq, ← hka, ← hkb, ← apply_ite promotedKind, ← apply_ite isNarrowField]
    at hkinds
  rw [usualNode_eq_iff, hkinds, Balances]

theorem shift_iff (ha : a.IsArith) (hb : b.IsArith) :
    usualNode a.operandType b.operandType = { body := .scalar a.c99Kind } ↔
      b.rank ≤ a.rank ∧ a.IsPlain ∧ a.isNarrowField = false := by
  obtain ⟨hka, hfa⟩ := c99Kind_eq ha
  have hkinds := shift_kinds _ (promotedKind_mem ha) _ (promotedKind_mem hb) a.isNarrowField hfa
  rw [← rank_eq, ← rank_eq, ← hka, ← apply_ite promotedKind] at hkinds
  rw [usualNode_eq_iff, hkinds]
  constructor
  · rintro ⟨hplain, hrank, hf⟩
    rw [if_pos hrank] at hplain
    exact ⟨hrank, hplain, hf⟩
  · rintro ⟨hrank, hplain, hf⟩
    rw [if_pos hrank]
    exact ⟨hplain, hrank, hf⟩

theorem promote_iff (ha : a.IsArith) :
    promoteNode a.operandType = { body := .scalar a.c99Kind } ↔
      a.IsPlain ∧ a.isNarrowField = false := by
  obtain ⟨hka, hfa⟩ := c99Kind_eq ha
  rw [promoteNode_eq_iff, hka]
  cases hf : a.isNarrowField with
  | true => simp [hfa hf]
  | false => simp

end

/-- Sema gives every operator its C99 type. -/
def Right : ArithExpr → Prop
  | operand _ _ _ => True
  | unop i op a => a.Right ∧ (unop i op a).semaType = (unop i op a).c99Type
  | binop i op a b =>
      a.Right ∧ b.Right ∧ (binop i op a b).semaType = (binop i op a b).c99Type
  | ternary i c a b =>
      c.Right ∧ a.Right ∧ b.Right ∧ (ternary i c a b).semaType = (ternary i c a b).c99Type

theorem Right.semaType {a : ArithExpr} (h : a.Right) : a.semaType = a.operandType := by
  cases a with
  | operand e n w => rfl
  | unop i op a => exact h.2
  | binop i op a b => exact h.2.2
  | ternary i c a b => exact h.2.2.2

/-- The operators' kinds exclude each other. -/
theorem arithBinary_cases {op : TokenKind} (h : isArithBinary op = true) :
    (isBalanced op = true ∧ isShift op = false ∧ (isComparison op || isLogical op) = false) ∨
    (isBalanced op = false ∧ isShift op = true ∧ (isComparison op || isLogical op) = false) ∨
    (isBalanced op = false ∧ isShift op = false ∧ (isComparison op || isLogical op) = true) := by
  cases op <;> first
    | exact .inl ⟨rfl, rfl, rfl⟩
    | exact .inr (.inl ⟨rfl, rfl, rfl⟩)
    | exact .inr (.inr ⟨rfl, rfl, rfl⟩)
    | cases h

/-- The local conditions say that every type is right. -/
theorem right_iff_agrees {e : ArithExpr} (he : e.IsArith) : e.Right ↔ e.Agrees := by
  induction e with
  | operand e n w => rfl
  | unop i op a ih =>
    unfold Right Agrees
    rw [ih he.2]
    refine and_congr_right fun hagrees => ?_
    have hright := ((ih he.2).mpr hagrees).semaType
    simp only [semaType, c99Type, c99Kind]
    by_cases hbang : op = .bang
    · simp [hbang]
    · rw [if_neg hbang, if_neg hbang, hright, promote_iff he.2]
      simp [hbang]
  | binop i op a b iha ihb =>
    unfold Right Agrees
    rw [iha he.2.1, ihb he.2.2]
    refine and_congr_right fun hagreesa => and_congr_right fun hagreesb => ?_
    have hrighta := ((iha he.2.1).mpr hagreesa).semaType
    have hrightb := ((ihb he.2.2).mpr hagreesb).semaType
    simp only [semaType, c99Type, c99Kind]
    rcases arithBinary_cases he.1 with ⟨h1, h2, h3⟩ | ⟨h1, h2, h3⟩ | ⟨h1, h2, h3⟩
    · rw [h3, h2, hrighta, hrightb]
      simp only [Bool.false_eq_true, if_false]
      rw [balances_iff he.2.1 he.2.2]
      simp [h1]
    · rw [h3, h2, hrighta, hrightb]
      simp only [Bool.false_eq_true, if_false, if_true]
      rw [shift_iff he.2.1 he.2.2]
      simp [h1]
    · simp [h1, h2, h3]
  | ternary i c a b ihc iha ihb =>
    unfold Right Agrees
    rw [ihc he.1, iha he.2.1, ihb he.2.2]
    refine and_congr_right fun _ => and_congr_right fun hagreesa =>
      and_congr_right fun hagreesb => ?_
    have hrighta := ((iha he.2.1).mpr hagreesa).semaType
    have hrightb := ((ihb he.2.2).mpr hagreesb).semaType
    simp only [semaType, c99Type, c99Kind]
    rw [hrighta, hrightb, balances_iff he.2.1 he.2.2]

/-- In a tree with sema's types, those of C99 are there when they are the same. -/
theorem Typed.iff_right {t : TypeTable} {e : ArithExpr} {e' : RawExpr}
    (h : e.Typed semaType t e') : e.Typed c99Type t e' ↔ e.Right := by
  induction e generalizing e' with
  | operand e n w => rfl
  | unop i op a ih =>
    obtain ⟨i', a', rfl, hty, ha⟩ := h
    unfold Right
    rw [← ih ha]
    constructor
    · rintro ⟨i'', a'', heq, hty', ha'⟩
      cases heq
      exact ⟨ha', Option.some.inj (hty.symm.trans hty')⟩
    · rintro ⟨ha', heq⟩
      exact ⟨i', a', rfl, heq ▸ hty, ha'⟩
  | binop i op a b iha ihb =>
    obtain ⟨i', l, r, rfl, hty, ha, hb⟩ := h
    unfold Right
    rw [← iha ha, ← ihb hb]
    constructor
    · rintro ⟨i'', l', r', heq, hty', ha', hb'⟩
      cases heq
      exact ⟨ha', hb', Option.some.inj (hty.symm.trans hty')⟩
    · rintro ⟨ha', hb', heq⟩
      exact ⟨i', l, r, rfl, heq ▸ hty, ha', hb'⟩
  | ternary i c a b ihc iha ihb =>
    obtain ⟨i', c', a', b', rfl, hty, hc, ha, hb⟩ := h
    unfold Right
    rw [← ihc hc, ← iha ha, ← ihb hb]
    constructor
    · rintro ⟨i'', c'', a'', b'', heq, hty', hc', ha', hb'⟩
      cases heq
      exact ⟨hc', ha', hb', Option.some.inj (hty.symm.trans hty')⟩
    · rintro ⟨hc', ha', hb', heq⟩
      exact ⟨i', c', a', b', rfl, heq ▸ hty, hc', ha', hb'⟩

/-- Only operands are checked to casts. -/
theorem Typed.uncast {ty : ArithExpr → TypeNode} {t : TypeTable} {e : ArithExpr} {e' : RawExpr}
    (h : e.Typed ty t e') : e.Typed ty t (uncast e') := by
  cases e with
  | operand e n w => exact h
  | unop i op a =>
    obtain ⟨i', a', rfl, hty, ha⟩ := h
    exact ⟨i', a', rfl, hty, ha⟩
  | binop i op a b =>
    obtain ⟨i', l, r, rfl, hty, hab⟩ := h
    exact ⟨i', l, r, rfl, hty, hab⟩
  | ternary i c a b =>
    obtain ⟨i', c', a', b', rfl, hty, hcab⟩ := h
    exact ⟨i', c', a', b', rfl, hty, hcab⟩

theorem Typed.mono {ty : ArithExpr → TypeNode} {t t' : TypeTable} (hext : t.Extends t')
    {e : ArithExpr} {e' : RawExpr} (h : e.Typed ty t e') : e.Typed ty t' e' := by
  induction e generalizing e' with
  | operand e n w => exact h
  | unop i op a ih =>
    obtain ⟨i', a', rfl, hty, ha⟩ := h
    exact ⟨i', a', rfl, hext.node? hty, ih ha⟩
  | binop i op a b iha ihb =>
    obtain ⟨i', l, r, rfl, hty, ha, hb⟩ := h
    exact ⟨i', l, r, rfl, hext.node? hty, iha ha, ihb hb⟩
  | ternary i c a b ihc iha ihb =>
    obtain ⟨i', c', a', b', rfl, hty, hc, ha, hb⟩ := h
    exact ⟨i', c', a', b', rfl, hext.node? hty, ihc hc, iha ha, ihb hb⟩

end ArithExpr

/-! ### What sema does at a node -/

/-- The static types are where they were put. -/
def TypeTable.HasStatics (t : TypeTable) : Prop :=
  ∀ k, t.node? (some (scalarRef k)) = some { body := .scalar k }

theorem TypeTable.Extends.hasStatics {t t' : TypeTable} (h : t.Extends t') (ht : t.HasStatics) :
    t'.HasStatics := fun k => h.node? (ht k)

theorem Reached.hasStatics {addr : TypeRef → BitVec 64} {t : TypeTable} (h : Reached addr t) :
    t.HasStatics := by
  intro k
  rw [h.eq_run]
  exact TypeTable.nodes_scalarRef addr _ k

section Runs

open ArithExpr

variable {s : Sema} {n x y : TypeNode} {r a b : TypeRef}

theorem run_nodeOf (h : s.types.node? (some r) = some n) :
    SemaM.nodeOf (some r) s = .ok (n, s) := by
  have hget : (get : SemaM Sema) s = .ok (s, s) := rfl
  unfold SemaM.nodeOf
  rw [SemaM.run_bind hget, h]
  rfl

theorem run_decay (h : s.types.node? (some r) = some n) (hint : n.body.isInteger = true) :
    decay r s = .ok (r, s) := by
  unfold decay
  rw [SemaM.run_bind (run_nodeOf h)]
  obtain ⟨body, q⟩ := n
  cases body with
  | scalar k => rfl
  | enum e => rfl
  | _ => cases hint

theorem run_decayOrInt (h : s.types.node? (some r) = some n) (hint : n.body.isInteger = true) :
    decayOrInt (some r) s = .ok (r, s) := run_decay h hint

theorem run_isArithmetic (h : s.types.node? (some r) = some n) :
    isArithmetic r s = .ok (n.body.isArithmetic, s) := by
  unfold isArithmetic
  rw [SemaM.run_bind (run_nodeOf h)]
  rfl

theorem run_integerPromote (hs : s.types.HasStatics) (h : s.types.node? (some r) = some n) :
    ∃ r', integerPromote r s = .ok (r', s) ∧ s.types.node? (some r') = some (promoteNode n) := by
  unfold integerPromote promoteNode
  rw [SemaM.run_bind (run_nodeOf h)]
  obtain ⟨body, q⟩ := n
  cases body with
  | scalar k =>
    dsimp only
    cases hn : k.isNarrow with
    | true => exact ⟨_, rfl, hs .int⟩
    | false => exact ⟨_, rfl, h⟩
  | _ => exact ⟨_, rfl, h⟩

theorem promoteNode_rank (n : TypeNode) : (promoteNode n).body.rank = n.body.rank := by
  unfold promoteNode
  obtain ⟨body, q⟩ := n
  cases body with
  | scalar k => cases k <;> rfl
  | _ => rfl

theorem promoteNode_isInteger (h : n.body.isInteger = true) :
    (promoteNode n).body.isInteger = true := by
  unfold promoteNode
  obtain ⟨body, q⟩ := n
  cases body with
  | scalar k =>
    dsimp only
    split
    · rfl
    · exact h
  | _ => exact h

theorem usualNode_isInteger (hx : x.body.isInteger = true) (hy : y.body.isInteger = true) :
    (usualNode x y).body.isInteger = true := by
  unfold usualNode
  split
  · exact promoteNode_isInteger hx
  · exact promoteNode_isInteger hy

theorem run_usualArithmetic (hs : s.types.HasStatics) (ha : s.types.node? (some a) = some x)
    (hb : s.types.node? (some b) = some y) (hx : x.body.isInteger = true)
    (hy : y.body.isInteger = true) :
    ∃ r, usualArithmetic a b s = .ok (r, s) ∧ s.types.node? (some r) = some (usualNode x y) := by
  have hno : ∀ n : TypeNode, n.body.isInteger = true → n.body ≠ .scalar .ldouble ∧
      n.body ≠ .scalar .double ∧ n.body ≠ .scalar .float := by
    rintro ⟨body, q⟩ hint
    refine ⟨?_, ?_, ?_⟩ <;> rintro rfl <;> cases hint
  obtain ⟨hx1, hx2, hx3⟩ := hno x hx
  obtain ⟨hy1, hy2, hy3⟩ := hno y hy
  obtain ⟨a', ha', hna'⟩ := run_integerPromote hs ha
  obtain ⟨b', hb', hnb'⟩ := run_integerPromote hs hb
  unfold usualArithmetic
  rw [SemaM.run_bind (run_nodeOf ha), SemaM.run_bind (run_nodeOf hb)]
  dsimp only
  rw [if_neg (by simp [hx1, hy1]), if_neg (by simp [hx2, hy2]), if_neg (by simp [hx3, hy3]),
    SemaM.run_bind ha', SemaM.run_bind hb']
  by_cases heq : a' = b'
  · rw [if_pos heq]
    refine ⟨a', rfl, ?_⟩
    have hsame : promoteNode x = promoteNode y := by
      subst heq
      exact Option.some.inj (hna'.symm.trans hnb')
    unfold usualNode
    split
    · exact hna'
    · rw [← hsame]
      exact hna'
  · rw [if_neg heq, SemaM.run_bind (run_nodeOf hna'), SemaM.run_bind (run_nodeOf hnb')]
    refine ⟨_, rfl, ?_⟩
    rw [promoteNode_rank, promoteNode_rank]
    unfold usualNode
    split
    · exact hna'
    · exact hnb'

/-- The type of a binary operator, and that its operands are brought to some type of the table. -/
theorem run_binopTypes (hs : s.types.HasStatics) {op : TokenKind} (hop : isArithBinary op = true)
    (ha : s.types.node? (some a) = some x) (hb : s.types.node? (some b) = some y)
    (hx : x.body.isInteger = true) (hy : y.body.isInteger = true) :
    ∃ r common, binopTypes op a b s = .ok ((r, common), s) ∧
      s.types.node? (some r) = some (if isComparison op || isLogical op then
        { body := .scalar .int } else usualNode x y) ∧
      ∀ c, common = some c → ∃ n, s.types.node? (some c) = some n := by
  obtain ⟨r, hr, hn⟩ := run_usualArithmetic hs ha hb hx hy
  have hcommon : ∀ c, some r = some c → ∃ n, s.types.node? (some c) = some n := by
    rintro c ⟨⟩
    exact ⟨_, hn⟩
  unfold binopTypes
  rw [SemaM.run_bind (run_nodeOf ha), SemaM.run_bind (run_nodeOf hb)]
  have husual : ∀ k : TypeRef → TypeRef × Option TypeRef,
      (usualArithmetic a b >>= fun ty => (pure (k ty) : SemaM _)) s = .ok (k r, s) :=
    fun k => SemaM.run_bind hr
  have hbodies : ∀ n : TypeNode, n.body.isInteger = true →
      (∃ k, n.body = .scalar k) ∨ ∃ e, n.body = .enum e := by
    rintro ⟨body, q⟩ hint
    cases body with
    | scalar k => exact .inl ⟨k, rfl⟩
    | enum e => exact .inr ⟨e, rfl⟩
    | _ => cases hint
  rcases hbodies x hx with ⟨k, hk⟩ | ⟨e, hk⟩ <;> rcases hbodies y hy with ⟨k', hk'⟩ | ⟨e', hk'⟩ <;>
    rw [hk, hk'] <;> cases op <;> first
      | exact ⟨_, _, husual _, hn, hcommon⟩
      | exact ⟨_, _, husual _, hs .int, hcommon⟩
      | exact ⟨_, _, rfl, hs .int, fun c hc => by cases hc⟩

/-- The conversion of an operand puts nothing but a cast in front of it. -/
theorem run_convertOperand {common : Option TypeRef} (e : RawExpr)
    (h : s.types.node? (some r) = some n)
    (hcommon : ∀ c, common = some c → ∃ n, s.types.node? (some c) = some n) :
    ∃ e', convertOperand common r e s = .ok (e', s) ∧ (e' = e ∨ uncast e' = e) := by
  cases common with
  | none => exact ⟨e, rfl, .inl rfl⟩
  | some c =>
    obtain ⟨nc, hnc⟩ := hcommon c rfl
    unfold convertOperand
    dsimp only
    rw [SemaM.run_bind (run_isArithmetic h), SemaM.run_bind (run_isArithmetic hnc)]
    refine ⟨_, rfl, ?_⟩
    split
    · unfold makeCast
      split
      · exact .inl rfl
      · exact .inr rfl
    · exact .inl rfl

theorem run_checkBinop (hs : s.types.HasStatics) (i : RawInfo) {op : TokenKind}
    (hop : isArithBinary op = true) {l r : RawExpr} (hl : s.types.node? l.type = some x)
    (hr : s.types.node? r.type = some y) (hx : x.body.isInteger = true)
    (hy : y.body.isInteger = true) :
    ∃ i' l' r', checkBinop i op l r s = .ok (.binop i' op l' r', s) ∧
      s.types.node? i'.type = some (if isComparison op || isLogical op then
        { body := .scalar .int } else usualNode x y) ∧
      (l' = l ∨ uncast l' = l) ∧ (r' = r ∨ uncast r' = r) := by
  unfold checkBinop
  obtain ⟨a, ha, -⟩ := Option.bind_eq_some_iff.mp hl
  obtain ⟨b, hb, -⟩ := Option.bind_eq_some_iff.mp hr
  rw [ha] at hl
  rw [hb] at hr
  rw [ha, hb, SemaM.run_bind (run_decayOrInt hl hx), SemaM.run_bind (run_decayOrInt hr hy)]
  obtain ⟨ty, common, hrun, hty, hcommon⟩ := run_binopTypes hs hop hl hr hx hy
  obtain ⟨l', hl', hconvl⟩ := run_convertOperand l hl hcommon
  obtain ⟨r', hr', hconvr⟩ := run_convertOperand r hr hcommon
  rw [SemaM.run_bind hrun]
  dsimp only
  rw [SemaM.run_bind hl', SemaM.run_bind hr']
  exact ⟨_, l', r', rfl, hty, hconvl, hconvr⟩

theorem run_ternaryType (hs : s.types.HasStatics) {th el : Option TypeRef}
    (hth : s.types.node? th = some x) (hel : s.types.node? el = some y)
    (hx : x.body.isInteger = true) (hy : y.body.isInteger = true) :
    ∃ r, ternaryType th el s = .ok (r, s) ∧ s.types.node? (some r) = some (usualNode x y) := by
  obtain ⟨a, rfl, -⟩ := Option.bind_eq_some_iff.mp hth
  obtain ⟨b, rfl, -⟩ := Option.bind_eq_some_iff.mp hel
  have harith : ∀ n : TypeNode, n.body.isInteger = true → n.body.isArithmetic = true := by
    intro n hint
    unfold TypeBody.isArithmetic
    rw [hint]
    exact Bool.true_or _
  obtain ⟨r, hr, hn⟩ := run_usualArithmetic hs hth hel hx hy
  unfold ternaryType
  rw [SemaM.run_bind (run_decayOrInt hth hx), SemaM.run_bind (run_decayOrInt hel hy),
    SemaM.run_bind (run_isArithmetic hth), SemaM.run_bind (run_isArithmetic hel), harith x hx,
    harith y hy]
  exact ⟨r, hr, hn⟩

theorem run_unopType (hs : s.types.HasStatics) (i : RawInfo) {op : TokenKind}
    (hop : isArithUnary op = true) {ty : Option TypeRef} (h : s.types.node? ty = some n)
    (hint : n.body.isInteger = true) :
    ∃ r, unopType i op ty s = .ok (r, s) ∧ s.types.node? r =
      some (if op = .bang then { body := .scalar .int } else promoteNode n) := by
  obtain ⟨a, rfl, -⟩ := Option.bind_eq_some_iff.mp h
  obtain ⟨r, hr, hn⟩ := run_integerPromote hs h
  have hpromote : (integerPromote a >>= fun ty => (pure (some ty) : SemaM _)) s =
      .ok (some r, s) := SemaM.run_bind hr
  unfold unopType
  rw [SemaM.run_bind (run_decayOrInt h hint)]
  cases op <;> first
    | exact ⟨_, hpromote, hn⟩
    | exact ⟨_, rfl, hs .int⟩
    | cases hop

end Runs

namespace ArithExpr

theorem semaType_isInteger {e : ArithExpr} (he : e.IsArith) : e.semaType.body.isInteger = true := by
  induction e with
  | operand e n w => exact he
  | unop i op a ih =>
    unfold semaType
    split
    · rfl
    · exact promoteNode_isInteger (ih he.2)
  | binop i op a b iha ihb =>
    unfold semaType
    split
    · rfl
    · exact usualNode_isInteger (iha he.2.1) (ihb he.2.2)
  | ternary i c a b _ iha ihb => exact usualNode_isInteger (iha he.2.1) (ihb he.2.2)

/-- Sema comes to an end with the types of `semaType`. -/
theorem checkExpr_typed {e : ArithExpr} (he : e.IsArith) {s : Sema} (hs : s.types.HasStatics)
    (hfits : e.Fits s) :
    ∃ e' s', checkExpr e.toRaw s = .ok (e', s') ∧ s'.types.node? e'.type = some e.semaType ∧
      e.Typed semaType s'.types e' := by
  induction e generalizing s with
  | operand e n w =>
    obtain ⟨e', s', hrun, hty, -⟩ := hfits
    exact ⟨e', s', hrun, hty, trivial⟩
  | unop i op a ih =>
    obtain ⟨a', s', hrun, hty, htyped⟩ := ih he.2 hs hfits
    have hs' := (extending_exprRules.checkExpr _ _ _ _ hrun).hasStatics hs
    obtain ⟨r, hr, hn⟩ := run_unopType hs' i he.1 hty (semaType_isInteger he.2)
    refine ⟨.unop { i with type := r } op a', s', ?_, hn, _, a', rfl, hn, htyped⟩
    change (checkExpr a.toRaw >>= fun e => _) s = _
    rw [SemaM.run_bind hrun, SemaM.run_bind hr]
    rfl
  | binop i op a b iha ihb =>
    obtain ⟨a', s₁, hruna, htya, htypeda⟩ := iha he.2.1 hs hfits.1
    have hs₁ := (extending_exprRules.checkExpr _ _ _ _ hruna).hasStatics hs
    obtain ⟨b', s₂, hrunb, htyb, htypedb⟩ := ihb he.2.2 hs₁ (hfits.2 _ _ hruna)
    have hext := extending_exprRules.checkExpr _ _ _ _ hrunb
    obtain ⟨i', l, r, hrun, hn, hl, hr⟩ := run_checkBinop (hext.hasStatics hs₁) i he.1
      (hext.node? htya) htyb (semaType_isInteger he.2.1) (semaType_isInteger he.2.2)
    have hundo : ∀ {e : ArithExpr} {x x' : RawExpr}, e.Typed semaType s₂.types x →
        x' = x ∨ TinyC.uncast x' = x → e.Typed semaType s₂.types (TinyC.uncast x') := by
      rintro e x x' h (rfl | rfl)
      · exact h.uncast
      · exact h
    refine ⟨.binop i' op l r, s₂, ?_, hn, i', l, r, rfl, hn, hundo (htypeda.mono hext) hl, hundo htypedb hr⟩
    change (checkExpr a.toRaw >>= fun e => _) s = _
    rw [SemaM.run_bind hruna, SemaM.run_bind hrunb]
    exact hrun
  | ternary i c a b ihc iha ihb =>
    obtain ⟨c', s₁, hrunc, -, htypedc⟩ := ihc he.1 hs hfits.1
    have hs₁ := (extending_exprRules.checkExpr _ _ _ _ hrunc).hasStatics hs
    obtain ⟨hfitsa, hfitsb⟩ := hfits.2 _ _ hrunc
    obtain ⟨a', s₂, hruna, htya, htypeda⟩ := iha he.2.1 hs₁ hfitsa
    have hexta := extending_exprRules.checkExpr _ _ _ _ hruna
    have hs₂ := hexta.hasStatics hs₁
    obtain ⟨b', s₃, hrunb, htyb, htypedb⟩ := ihb he.2.2 hs₂ (hfitsb _ _ hruna)
    have hextb := extending_exprRules.checkExpr _ _ _ _ hrunb
    obtain ⟨r, hr, hn⟩ := run_ternaryType (hextb.hasStatics hs₂) (hextb.node? htya) htyb
      (semaType_isInteger he.2.1) (semaType_isInteger he.2.2)
    refine ⟨.ternary { i with type := some r } c' a' b', s₃, ?_, hn, _, c', a', b', rfl, hn,
      htypedc.mono (hexta.trans hextb), htypeda.mono hextb, htypedb⟩
    change (checkExpr c.toRaw >>= fun e => _) s = _
    rw [SemaM.run_bind hrunc, SemaM.run_bind hruna, SemaM.run_bind hrunb, SemaM.run_bind hr]
    rfl

end ArithExpr

/-- Sema gives all operators of an arithmetic expression their C99 types exactly when the types of
the operands agree at every one of them. -/
theorem expr_types_iff {addr : TypeRef → BitVec 64} {s : Sema} (hs : Reached addr s.types)
    {e : ArithExpr} (he : e.IsArith) (hfits : e.Fits s) :
    (∃ e' s', checkExpr e.toRaw s = .ok (e', s') ∧ e.Typed ArithExpr.c99Type s'.types e') ↔
      e.Agrees := by
  obtain ⟨e', s', hrun, -, htyped⟩ := ArithExpr.checkExpr_typed he hs.hasStatics hfits
  rw [← ArithExpr.right_iff_agrees he, ← htyped.iff_right]
  constructor
  · rintro ⟨e'', s'', hrun', h⟩
    obtain ⟨rfl, rfl⟩ := Prod.mk.inj (Except.ok.inj (hrun.symm.trans hrun'))
    exact h
  · exact fun h => ⟨e', s', hrun, h⟩

def freshSema : Sema := semaInit (typeTableInit arenaAddr)

/-- An integer constant with its suffix, as an operand. -/
def constOperand (val : BitVec 64) (suffix : ℕ) : ArithExpr :=
  .operand (.intLit {} val suffix) { body := .scalar (literalKind suffix) } none

theorem fits_constOperand {s : Sema} (hs : s.types.HasStatics) (val : BitVec 64) (suffix : ℕ) :
    (constOperand val suffix).Fits s := ⟨_, s, rfl, hs _, rfl⟩

/-- `1L << 1 ? 2 : 3u`. -/
def shiftChoice : ArithExpr :=
  .ternary {} (.binop {} .lshift (constOperand 1 intSuffixL) (constOperand 1 0)) (constOperand 2 0)
    (constOperand 3 intSuffixU)

theorem expr_types_shiftChoice :
    ∃ e' s', checkExpr shiftChoice.toRaw freshSema = .ok (e', s') ∧
      shiftChoice.Typed ArithExpr.c99Type s'.types e' := by
  have hconst : ∀ (val : BitVec 64) (suffix : ℕ), ∀ s : Sema, s.types.HasStatics →
      (constOperand val suffix).Fits s := fun val suffix s hs => fits_constOperand hs val suffix
  have hstatics : freshSema.types.HasStatics := (Reached.init : Reached arenaAddr _).hasStatics
  have hplain : ∀ (val : BitVec 64) (suffix : ℕ), (constOperand val suffix).IsPlain :=
    fun val suffix => .inr ⟨_, rfl⟩
  have hreached : Reached arenaAddr freshSema.types := .init
  refine (expr_types_iff hreached (e := shiftChoice)
    ⟨⟨rfl, rfl, rfl⟩, rfl, rfl⟩ ?_).mpr ?_
  · have hext : ∀ {e : RawExpr} {a : RawExpr} {s s' : Sema}, s.types.HasStatics →
        checkExpr e s = .ok (a, s') → s'.types.HasStatics :=
      fun hs h => (extending_exprRules.checkExpr _ _ _ _ h).hasStatics hs
    exact ⟨⟨hconst _ _ _ hstatics, fun _ _ h => hconst _ _ _ (hext hstatics h)⟩,
      fun _ _ h => ⟨hconst _ _ _ (hext hstatics h),
        fun _ _ h' => hconst _ _ _ (hext (hext hstatics h) h')⟩⟩
  · refine ⟨⟨trivial, trivial, fun h => ?_, fun _ => ⟨?_, hplain _ _, rfl⟩⟩, trivial, trivial,
      hplain _ _, fun h => ?_, ?_, ?_⟩
    · cases h
    · decide
    · cases h
    · decide
    · decide

/-- `1 << 1L`: the result gets the type of the count. -/
theorem shift_by_long :
    ¬∀ (addr : TypeRef → BitVec 64) (s : Sema) (e : ArithExpr), Reached addr s.types → e.IsArith →
      e.Fits s → ∃ e' s', checkExpr e.toRaw s = .ok (e', s') ∧
        e.Typed ArithExpr.c99Type s'.types e' := by
  intro h
  have hstatics : freshSema.types.HasStatics := (Reached.init : Reached arenaAddr _).hasStatics
  have harith : (ArithExpr.binop {} .lshift (constOperand 1 0) (constOperand 1 intSuffixL)).IsArith :=
    ⟨rfl, rfl, rfl⟩
  have hfits : (ArithExpr.binop {} .lshift (constOperand 1 0) (constOperand 1 intSuffixL)).Fits
      freshSema :=
    ⟨fits_constOperand hstatics _ _, fun _ _ h =>
      fits_constOperand ((extending_exprRules.checkExpr _ _ _ _ h).hasStatics hstatics) _ _⟩
  obtain ⟨e', s', hrun, htyped⟩ := h arenaAddr freshSema _ .init harith hfits
  obtain ⟨e'', s'', hrun', -, htyped'⟩ := ArithExpr.checkExpr_typed harith hstatics hfits
  obtain ⟨rfl, rfl⟩ := Prod.mk.inj (Except.ok.inj (hrun.symm.trans hrun'))
  have hagrees := (ArithExpr.right_iff_agrees harith).mp (htyped'.iff_right.mp htyped)
  have hrank := (hagrees.2.2.2 rfl).1
  revert hrank
  decide

end TinyC
