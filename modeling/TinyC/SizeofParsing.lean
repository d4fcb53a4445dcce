import TinyC.PrattParsing
import TinyC.ParserBound

/-!
# Operands of `sizeof` and of casts

A cast takes the whole cast expression after it. After `sizeof (` the parser returns at the
closing parenthesis: postfix operators that follow belong to the `sizeof`.
-/

namespace TinyC

section

variable {L : Type} [TokenSource L]

/-! ### Readings -/

mutual

theorem Derives.asParsed {c : ExprCat} {p q : Parser L} {e : RawExpr} :
    Derives False c p e q → Derives True c p e q
  | .up h => .up h.asParsed
  | .comma hl ho hr => .comma hl.asParsed ho hr.asParsed
  | .assign hl ho hr => .assign hl.asParsed ho hr.asParsed
  | .ternary hc ho ht hr he => .ternary hc.asParsed ho ht.asParsed hr he.asParsed
  | .binop hl ho hr => .binop hl.asParsed ho hr.asParsed
  | .cast hp ht hty hr he => .cast hp ht hty hr he.asParsed
  | .unop hp h => .unop hp h.asParsed
  | .plus hp h => .plus hp h.asParsed
  | .step hp h => .step hp h.asParsed
  | .sizeofUnary hp hparen h => .sizeofUnary hp hparen h.asParsed
  | .sizeofParen hp hparen ht h hr => .sizeofParen hp hparen ht h.asParsed hr
  | .sizeofRead hf _ _ _ _ _ => hf.elim
  | .sizeofType hp hparen ht hty hr => .sizeofType hp hparen ht hty hr
  | .subscript hl ho hx hr => .subscript hl.asParsed ho hx.asParsed hr
  | .callNone hl ho hr => .callNone hl.asParsed ho hr
  | .call hl ho has hr => .call hl.asParsed ho has.asParsed hr
  | .member hl ho hr => .member hl.asParsed ho hr
  | .memberPtr hl ho hr => .memberPtr hl.asParsed ho hr
  | .postop hl ho => .postop hl.asParsed ho
  | .compoundLit hp ht hty hr hb hil => .compoundLit hp ht hty hr hb hil
  | .ident hp => .ident hp
  | .intLit hp => .intLit hp
  | .floatLit hp => .floatLit hp
  | .charLit hp => .charLit hp
  | .strLit hp => .strLit hp
  | .paren hp ht h hr => .paren hp ht h.asParsed hr

theorem DerivesArgs.asParsed {p q : Parser L} {as : List RawExpr} :
    DerivesArgs False p as q → DerivesArgs True p as q
  | .one h => .one h.asParsed
  | .cons h hc hrest => .cons h.asParsed hc hrest.asParsed

end

/-- The categories of what stands after `sizeof`. -/
def IsOperand (c : ExprCat) : Prop := c = .unaryExpr ∨ c = .postfixExpr ∨ c = .primaryExpr

theorem IsOperand.tighter {c : ExprCat} (h : IsOperand c) : IsOperand c.tighter := by
  rcases h with rfl | rfl | rfl
  · exact Or.inr (Or.inl rfl)
  · exact Or.inr (Or.inr rfl)
  · exact Or.inr (Or.inr rfl)

theorem IsOperand.not_binary {c : ExprCat} {k : TokenKind} (h : IsOperand c)
    (hk : binaryCat k = some c) : False := by
  rcases h with rfl | rfl | rfl <;> exact absurd (ExprCat.tokLbp_binary hk).2.2 (by decide)

theorem isUnaryOp_ne_lparen {k : TokenKind} (h : isUnaryOp k = true ∨ isStepOp k = true) :
    k ≠ .lparen := by
  rintro rfl
  rcases h with h | h <;> cases h

/-- Is it `sizeof`, applied to an expression? -/
def RawExpr.isSizeofExpr : RawExpr → Bool
  | .sizeofExpr _ _ => true
  | _ => false

/-- From `p` to `q` there is an expression in parentheses and nothing else. -/
structure Parenthesized (p : Parser L) (u : RawExpr) (q : Parser L) : Prop where
  noType : p.skip.startsType = false
  inner : ∃ r, Derives False .expression p.skip u r ∧ r.kind = .rparen ∧ r.skip = q

section Paren

variable {p : Parser L} (hp : p.kind = .lparen)

include hp

mutual

/-- `(e)` with postfix operators after it, which the parser takes for operators on the `sizeof`
in `s`; or none. -/
theorem Derives.afterSizeof {s : Parser L} (hs : s.kind = .sizeof) (hsp : s.skip = p)
    (ht : p.skip.startsType = false) {c : ExprCat} {u : RawExpr} {q : Parser L} :
    Derives False c p u q → IsOperand c → ∃ w, Derives True .postfixExpr s w q ∧
      (w.isSizeofExpr = false ∨ Parenthesized p u q)
  | .up h, hc => h.afterSizeof hs hsp ht hc.tighter
  | .comma _ _ _, hc | .assign _ _ _, hc | .ternary _ _ _ _ _, hc | .cast _ _ _ _ _, hc => by
    rcases hc with h | h | h <;> cases h
  | .binop _ ho _, hc => (hc.not_binary ho).elim
  | .unop hop _, _ => absurd hp (isUnaryOp_ne_lparen (Or.inl hop))
  | .step hop _, _ => absurd hp (isUnaryOp_ne_lparen (Or.inr hop))
  | .plus hop _, _ | .sizeofUnary hop _ _, _ | .sizeofParen hop _ _ _ _, _
  | .sizeofType hop _ _ _ _, _ | .ident hop, _ | .intLit hop, _ | .floatLit hop, _
  | .charLit hop, _ | .strLit hop, _ => by
    rw [hp] at hop
    cases hop
  | .sizeofRead hf _ _ _ _ _, _ => hf.elim
  | .subscript hl ho hx hr, _ => by
    obtain ⟨w, hw, _⟩ := hl.afterSizeof hs hsp ht (Or.inr (Or.inl rfl))
    exact ⟨_, .subscript hw ho hx.asParsed hr, Or.inl rfl⟩
  | .callNone hl ho hr, _ => by
    obtain ⟨w, hw, _⟩ := hl.afterSizeof hs hsp ht (Or.inr (Or.inl rfl))
    exact ⟨_, .callNone hw ho hr, Or.inl rfl⟩
  | .call hl ho has hr, _ => by
    obtain ⟨w, hw, _⟩ := hl.afterSizeof hs hsp ht (Or.inr (Or.inl rfl))
    exact ⟨_, .call hw ho has.asParsed hr, Or.inl rfl⟩
  | .member hl ho hr, _ => by
    obtain ⟨w, hw, _⟩ := hl.afterSizeof hs hsp ht (Or.inr (Or.inl rfl))
    exact ⟨_, .member hw ho hr, Or.inl rfl⟩
  | .memberPtr hl ho hr, _ => by
    obtain ⟨w, hw, _⟩ := hl.afterSizeof hs hsp ht (Or.inr (Or.inl rfl))
    exact ⟨_, .memberPtr hw ho hr, Or.inl rfl⟩
  | .postop hl ho, _ => by
    obtain ⟨w, hw, _⟩ := hl.afterSizeof hs hsp ht (Or.inr (Or.inl rfl))
    exact ⟨_, .postop hw ho, Or.inl rfl⟩
  | .compoundLit _ htype _ _ _ _, _ => by
    rw [ht] at htype
    cases htype
  | .paren (e := e) (q := r) _ htype h hr, _ => by
    have hparen : s.skip.kind = .lparen := by rw [hsp, hp]
    have htype' : s.skip.skip.startsType = false := by rw [hsp, ht]
    have hinner : Derives True .expression s.skip.skip e r := by
      rw [hsp]
      exact h.asParsed
    exact ⟨_, .sizeofRead trivial hs hparen htype' hinner hr,
      Or.inr ⟨htype, _, h, hr, rfl⟩⟩

/-- A type name in parentheses begins a compound literal. -/
theorem Derives.bracedType (ht : p.skip.startsType = true) {c : ExprCat} {u : RawExpr}
    {q : Parser L} : Derives False c p u q → IsOperand c →
      ∃ ty r, TypeName p.skip ty r ∧ r.kind = .rparen ∧ r.skip.kind = .lbrace
  | .up h, hc => h.bracedType ht hc.tighter
  | .comma _ _ _, hc | .assign _ _ _, hc | .ternary _ _ _ _ _, hc | .cast _ _ _ _ _, hc => by
    rcases hc with h | h | h <;> cases h
  | .binop _ ho _, hc => (hc.not_binary ho).elim
  | .unop hop _, _ => absurd hp (isUnaryOp_ne_lparen (Or.inl hop))
  | .step hop _, _ => absurd hp (isUnaryOp_ne_lparen (Or.inr hop))
  | .plus hop _, _ | .sizeofUnary hop _ _, _ | .sizeofParen hop _ _ _ _, _
  | .sizeofType hop _ _ _ _, _ | .ident hop, _ | .intLit hop, _ | .floatLit hop, _
  | .charLit hop, _ | .strLit hop, _ => by
    rw [hp] at hop
    cases hop
  | .sizeofRead hf _ _ _ _ _, _ => hf.elim
  | .subscript hl _ _ _, _ | .callNone hl _ _, _ | .call hl _ _ _, _ | .member hl _ _, _
  | .memberPtr hl _ _, _ | .postop hl _, _ => hl.bracedType ht (Or.inr (Or.inl rfl))
  | .compoundLit _ _ hty hr hb _, _ => ⟨_, _, hty, hr, hb⟩
  | .paren _ htype _ _, _ => by
    rw [ht] at htype
    cases htype

end

end Paren

variable [LawfulTokenSource L]

/-! ### `sizeof` and casts -/

/-- `sizeof` of an operand with postfix operators on its parenthesis is not what is read. -/
theorem sizeof_not_read {s q : Parser L} {i : RawInfo} {u : RawExpr} {b : ℤ}
    (hs : s.kind = .sizeof) (hparen : s.skip.kind = .lparen)
    (h : Derives False .unaryExpr s.skip u q) (hb : b < 150) (hq : tokLbp q.kind ≤ b)
    (hread : Ends (fun F => F.expr b) s (.sizeofExpr i u) q.look) :
    Parenthesized s.skip u q := by
  cases ht : s.skip.skip.startsType with
  | false =>
    obtain ⟨w, hw, hcase⟩ := h.afterSizeof hparen hs rfl ht (Or.inl rfl)
    rcases hcase with hnot | hprim
    · have heq := (hread.unique (hw.reads hb hq (tokLbp_le _))).1
      rw [← heq] at hnot
      cases hnot
    · exact hprim
  | true =>
    obtain ⟨ty, r, hty, hr, hbrace⟩ := h.bracedType hparen ht (Or.inl rfl)
    have htype : Derives False .unaryExpr s (.sizeofType s.token.info ty) r.skip :=
      .sizeofType hs hparen ht hty hr
    have hstop : tokLbp r.skip.kind = 0 := congrArg tokLbp hbrace
    have hzero := tokLbp_nonneg q.kind
    cases (hread.unique (htype.reads hb (by omega) (hstop.trans_le (by decide)))).1

/-- `sizeof` is applied to the whole operand after it exactly when this does not begin with a
parenthesis, or is no more than the parenthesized expression. A cast is applied to the whole cast
expression after it. -/
theorem sizeof_operand_iff :
    (∀ {s q : Parser L} {u : RawExpr} {b : ℤ}, s.kind = .sizeof →
      Derives False .unaryExpr s.skip u q → b < 150 → tokLbp q.kind ≤ b → tokLbp q.kind ≤ 140 →
      (Ends (fun F => F.expr b) s (.sizeofExpr s.token.info u) q.look ↔
        (s.skip.kind = .lparen → Parenthesized s.skip u q))) ∧
    ∀ {p r q : Parser L} {ty : Option TypeRef} {e : RawExpr} {b : ℤ}, p.kind = .lparen →
      p.skip.startsType = true → TypeName p.skip ty r → r.kind = .rparen →
      Derives False .castExpr r.skip e q → b < 150 → tokLbp q.kind ≤ b → tokLbp q.kind ≤ 140 →
      Ends (fun F => F.expr b) p (.cast p.token.info ty e) q.look := by
  constructor
  · intro s q u b hs h hb hq hfollow
    constructor
    · exact fun hread hparen => sizeof_not_read hs hparen h hb hq hread
    · intro hwhole
      by_cases hparen : s.skip.kind = .lparen
      · obtain ⟨ht, r, hinner, hr, rfl⟩ := hwhole hparen
        have hsizeof : Derives False .unaryExpr s (.sizeofExpr s.token.info u) r.skip :=
          .sizeofParen hs hparen ht hinner hr
        exact hsizeof.reads hb hq hfollow
      · have hsizeof : Derives False .unaryExpr s (.sizeofExpr s.token.info u) q :=
          .sizeofUnary hs hparen h
        exact hsizeof.reads hb hq hfollow
  · intro p r q ty e b hp ht hty hr h hb hq hfollow
    have hcast : Derives False .castExpr p (.cast p.token.info ty e) q := .cast hp ht hty hr h
    exact hcast.reads hb hq hfollow

end

def sizeofText : Parser SourceText := textParser "sizeof (a)[0];"

theorem sizeof_element_misread :
    ¬∀ (s q : Parser SourceText) (u : RawExpr), s.kind = .sizeof →
      Derives False .unaryExpr s.skip u q → continuesExpr q.kind = false →
      Ends (fun F => F.expr 0) s (.sizeofExpr s.token.info u) q.look := by
  intro hall
  have ha : Derives False .expression sizeofText.skip.skip _ sizeofText.skip.skip.skip :=
    .ups 16 (.ident (by decide +kernel))
  have hzero : Derives False .expression sizeofText.skip.skip.skip.skip.skip _
      sizeofText.skip.skip.skip.skip.skip.skip := .ups 16 (.intLit (by decide +kernel))
  have hread := hall sizeofText _ _ (by decide +kernel)
    (.up (.subscript (.up (.paren (by decide +kernel) (by decide +kernel) ha (by decide +kernel)))
      (by decide +kernel) hzero (by decide +kernel))) (by decide +kernel)
  have hparsed : Derives True .postfixExpr sizeofText _ _ :=
    .subscript (.sizeofRead trivial (by decide +kernel) (by decide +kernel) (by decide +kernel)
      ha.asParsed (by decide +kernel)) (by decide +kernel) hzero.asParsed (by decide +kernel)
  cases (hread.unique (hparsed.reads (by decide) (by decide +kernel) (by decide +kernel))).1

def castText : Parser SourceText := textParser "(int)a[0];"

/-- What `typeName` reads in it. -/
def castType : Option TypeRef × Parser SourceText :=
  match typeName (parsers 20) castText.skip.look with
  | .ok r => r
  | .error _ => (none, castText)

theorem castType_read : TypeName castText.skip castType.1 castType.2 := by
  have hok : typeName (parsers 20) castText.skip.look = .ok castType := by
    have hsome : (typeName (parsers 20) castText.skip.look).isOk = true := by decide +kernel
    unfold castType
    cases h : typeName (parsers 20) castText.skip.look with
    | error e =>
      rw [h] at hsome
      cases hsome
    | ok r => rfl
  refine ⟨⟨20, fun k hk => ?_⟩, by decide +kernel⟩
  exact (prolongs_parseRules.typeName (parsers_prolongs hk)).ok hok

def groupText : Parser SourceText := textParser "sizeof (a);"

theorem sizeof_operand_group :
    (∃ u q, Ends (fun F => F.expr 0) groupText (.sizeofExpr groupText.token.info u) q) ∧
      ∃ e q, Ends (fun F => F.expr 0) castText (.cast castText.token.info castType.1 e) q := by
  have ha : Derives False .expression groupText.skip.skip _ groupText.skip.skip.skip :=
    .ups 16 (.ident (by decide +kernel))
  have hgroup : Derives False .unaryExpr groupText.skip _ _ :=
    .ups 2 (.paren (by decide +kernel) (by decide +kernel) ha (by decide +kernel))
  have helem : Derives False .castExpr castType.2.skip _ _ :=
    .ups 2 (.subscript (.up (.ident (by decide +kernel))) (by decide +kernel)
      (.ups 16 (.intLit (by decide +kernel))) (by decide +kernel))
  exact ⟨⟨_, _, (sizeof_operand_iff.1 (by decide +kernel) hgroup (by decide) (by decide +kernel)
      (by decide +kernel)).mpr fun _ => ⟨by decide +kernel, _, ha, by decide +kernel, rfl⟩⟩,
    _, _, sizeof_operand_iff.2 (by decide +kernel) (by decide +kernel) castType_read
      (by decide +kernel) helem (by decide) (by decide +kernel) (by decide +kernel)⟩

end TinyC
