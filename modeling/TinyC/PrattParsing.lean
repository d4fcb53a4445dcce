import TinyC.ExprGrammar
import TinyC.TypeHistory

/-!
# The expression parser reads the grammar

A derived expression is reached by the loop of `parse_expr`, whatever the binding power it was
called with, as long as that is below the operators on the way.
-/

namespace TinyC

namespace ExprCat

/-- The highest binding power of what may follow without being taken in. -/
def follow : ExprCat → ℤ
  | expression => 10
  | assignment => 19
  | conditional => 29
  | logicalOr => 40
  | logicalAnd => 50
  | inclusiveOr => 60
  | exclusiveOr => 70
  | andExpr => 80
  | equality => 90
  | relational => 100
  | shift => 110
  | additive => 120
  | multiplicative => 130
  | castExpr | unaryExpr => 140
  | postfixExpr | primaryExpr => 150

/-- Below this binding power the loop takes the operators on top of the category. -/
def top : ExprCat → ℤ
  | expression => 10
  | assignment => 20
  | conditional => 30
  | logicalOr => 40
  | logicalAnd => 50
  | inclusiveOr => 60
  | exclusiveOr => 70
  | andExpr => 80
  | equality => 90
  | relational => 100
  | shift => 110
  | additive => 120
  | multiplicative => 130
  | castExpr | unaryExpr | postfixExpr | primaryExpr => 150

theorem follow_tighter (c : ExprCat) : c.follow ≤ c.tighter.follow := by
  cases c <;> decide

theorem top_tighter (c : ExprCat) : c.top ≤ c.tighter.top := by
  cases c <;> decide

/-- The binding power of a binary operator is that of its category. -/
theorem tokLbp_binary {k : TokenKind} {c : ExprCat} (h : binaryCat k = some c) :
    tokLbp k = c.top ∧ c.follow = c.top ∧ c.top < c.tighter.top := by
  cases k <;> first | (cases h; decide) | cases h

end ExprCat

theorem tokLbp_assign {k : TokenKind} (h : isAssignOp k = true) : tokLbp k = 20 := by
  cases k <;> first | rfl | cases h

theorem tokLbp_step {k : TokenKind} (h : isStepOp k = true) : tokLbp k = 150 := by
  cases k <;> first | rfl | cases h

theorem startsExpr_unary {k : TokenKind} (h : isUnaryOp k = true) : startsExpr k = true := by
  cases k <;> first | rfl | cases h

theorem startsExpr_step {k : TokenKind} (h : isStepOp k = true) : startsExpr k = true := by
  cases k <;> first | rfl | cases h

theorem startsExpr_ne_lbrace {k : TokenKind} (h : startsExpr k = true) : k ≠ .lbrace := by
  rintro rfl
  cases h

theorem startsExpr_ne_rparen {k : TokenKind} (h : startsExpr k = true) : k ≠ .rparen := by
  rintro rfl
  cases h

theorem tokLbp_le (k : TokenKind) : tokLbp k ≤ 150 := by
  cases k <;> decide

theorem tokLbp_nonneg (k : TokenKind) : 0 ≤ tokLbp k := by
  cases k <;> decide

section

variable {L : Type} [TokenSource L] [LawfulTokenSource L] {asRead : Prop}

/-! ### The loop -/

/-- Once the loop with the left operand `e` ends from `q`, `parse_expr` ends so from `p`. -/
def Reaches (b : ℤ) (p : Parser L) (e : RawExpr) (q : Parser L) : Prop :=
  ∀ x s, Ends (fun F => infixes F b e) q x s → Ends (fun F => F.expr b) p x s

variable {b : ℤ} {p q r s : Parser L} {e l x : RawExpr}

omit [LawfulTokenSource L] in
theorem expr_iff : Ends (fun F => F.expr b) p e q ↔ Ends (fun F => parseExpr F b) p e q :=
  Ends.call_iff fun _ => rfl

omit [LawfulTokenSource L] in
theorem infixes_iff :
    Ends (fun F => F.infixes b l) p e q ↔ Ends (fun F => infixes F b l) p e q :=
  Ends.call_iff fun _ => rfl

/-- A look ahead makes no difference to an expression. -/
theorem run_expr_look (n : ℕ) (b : ℤ) (p : Parser L) :
    (parsers n).expr b p.look = (parsers n).expr b p := by
  cases n with
  | zero => rfl
  | succ n =>
    change parseExpr (parsers n) b p.look = parseExpr (parsers n) b p
    unfold parseExpr
    rw [run_bind (run_advance _), run_bind (run_advance _), Parser.token_look, Parser.skip_look]

theorem run_args_look (n : ℕ) (as : List RawExpr) (p : Parser L) :
    (parsers n).args as p.look = (parsers n).args as p := by
  cases n with
  | zero => rfl
  | succ n =>
    change ((parsers n).expr 10 p.look >>= fun r => _) = ((parsers n).expr 10 p >>= fun r => _)
    rw [run_expr_look]

theorem expr_look : Ends (fun F => F.expr b) p.look e q ↔ Ends (fun F => F.expr b) p e q := by
  simp only [Ends, run_expr_look]

theorem args_look {as bs : List RawExpr} :
    Ends (fun F => F.args as) p.look bs q ↔ Ends (fun F => F.args as) p bs q := by
  simp only [Ends, run_args_look]

theorem infixes_look :
    Ends (fun F => infixes F b e) q.look x s ↔ Ends (fun F => infixes F b e) q x s := by
  have heq : ∀ F : ParseFns L, infixes F b e q.look = infixes F b e q := by
    intro F
    unfold infixes
    rw [run_bind (run_peek q.look), run_bind (run_peek q), Parser.token_look, Parser.look_look]
  exact ⟨fun h => h.of_eq fun F => (heq F).symm, fun h => h.of_eq heq⟩

/-- The loop ends before a token that binds no tighter than it was called for. -/
theorem infixes_stop (h : tokLbp q.kind ≤ b) : Ends (fun F => infixes F b e) q e q.look := by
  refine Ends.of_eq (Ends.of_run (m := Pure.pure e) rfl) (p := q.look) fun F => ?_
  have hle : tokLbp q.token.kind ≤ b := h
  unfold infixes
  rw [run_bind (run_peek q), if_pos hle]

/-- One turn of the loop. -/
theorem infixes_step (h : b < tokLbp q.kind) (hled : Ends (fun F => led F l q.token) q.skip e r)
    (hrest : Ends (fun F => infixes F b e) r x s) : Ends (fun F => infixes F b l) q x s := by
  refine Ends.of_eq (hled.bind (infixes_iff.mpr hrest)) fun F => ?_
  have hlt : ¬tokLbp q.token.kind ≤ b := not_le.mpr h
  unfold infixes
  rw [run_bind (run_peek q), if_neg hlt, run_bind (run_advance _), Parser.skip_look]

namespace Reaches

theorem look_iff : Reaches b p e q.look ↔ Reaches b p e q := by
  unfold Reaches
  simp only [infixes_look]

omit [LawfulTokenSource L] in
/-- What `nud` makes of the first token. -/
theorem nud (h : Ends (fun F => nud F p.token) p.skip e q) : Reaches b p e q := by
  intro x s hrest
  rw [expr_iff]
  exact Ends.of_eq (h.bind (infixes_iff.mpr hrest)) fun F => rfl

/-- The operator after the left operand binds tighter. -/
theorem led (h : Reaches b p l q) (hb : b < tokLbp q.kind)
    (hled : Ends (fun F => led F l q.token) q.skip e r) : Reaches b p e r :=
  fun _ _ hrest => h _ _ (infixes_step hb hled hrest)

/-- The loop stops. -/
theorem ends (h : Reaches b p e q) (hq : tokLbp q.kind ≤ b) :
    Ends (fun F => F.expr b) p e q.look := h _ _ (infixes_stop hq)

end Reaches

/-! ### The first token -/

omit [LawfulTokenSource L] in
mutual

theorem Derives.starts {c : ExprCat} {p q : Parser L} {e : RawExpr} :
    Derives asRead c p e q → startsExpr p.kind = true
  | .up h => h.starts
  | .comma h _ _ => h.starts
  | .assign h _ _ => h.starts
  | .ternary h _ _ _ _ => h.starts
  | .binop h _ _ => h.starts
  | .cast h _ _ _ _ => h ▸ rfl
  | .unop h _ => startsExpr_unary h
  | .plus h _ => h ▸ rfl
  | .step h _ => startsExpr_step h
  | .sizeofUnary h _ _ => h ▸ rfl
  | .sizeofParen h _ _ _ _ => h ▸ rfl
  | .sizeofRead _ h _ _ _ _ => h ▸ rfl
  | .sizeofType h _ _ _ _ => h ▸ rfl
  | .subscript h _ _ _ => h.starts
  | .callNone h _ _ => h.starts
  | .call h _ _ _ => h.starts
  | .member h _ _ => h.starts
  | .memberPtr h _ _ => h.starts
  | .postop h _ => h.starts
  | .compoundLit h _ _ _ _ _ => h ▸ rfl
  | .ident h => h ▸ rfl
  | .intLit h => h ▸ rfl
  | .floatLit h => h ▸ rfl
  | .charLit h => h ▸ rfl
  | .strLit h => h ▸ rfl
  | .paren h _ _ _ => h ▸ rfl

theorem DerivesArgs.starts {p q : Parser L} {as : List RawExpr} :
    DerivesArgs asRead p as q → startsExpr p.kind = true
  | .one h => h.starts
  | .cons h _ _ => h.starts

end

/-! ### What the first token calls for -/

section Nud

omit [LawfulTokenSource L]

theorem nud_unop (hk : isUnaryOp p.kind = true ∨ isStepOp p.kind = true)
    (h : Ends (fun F => F.expr 140) p.skip e q) :
    Ends (fun F => nud F p.token) p.skip (RawExpr.unop p.token.info p.kind e) q := by
  refine (h.map (RawExpr.unop p.token.info p.kind)).of_eq fun F => ?_
  unfold nud Parser.kind
  rw [Parser.kind] at hk
  cases hop : p.token.kind <;> rw [hop] at hk <;>
    first | rfl | (rcases hk with hk | hk <;> cases hk)

theorem nud_plus (hk : p.kind = .plus) (h : Ends (fun F => F.expr 140) p.skip e q) :
    Ends (fun F => nud F p.token) p.skip e q := by
  have ht : p.token.kind = .plus := hk
  refine h.of_eq fun F => ?_
  rw [TinyC.nud, ht]

theorem nud_sizeof (hk : p.kind = .sizeof)
    (h : Ends (fun F => parseSizeof F p.token.info) p.skip e q) :
    Ends (fun F => nud F p.token) p.skip e q := by
  have ht : p.token.kind = .sizeof := hk
  refine h.of_eq fun F => ?_
  rw [nud, ht]
  rfl

theorem nud_paren (hk : p.kind = .lparen)
    (h : Ends (fun F => parseParen F p.token.info) p.skip e q) :
    Ends (fun F => nud F p.token) p.skip e q := by
  have ht : p.token.kind = .lparen := hk
  refine h.of_eq fun F => ?_
  rw [nud, ht]
  rfl

theorem nud_ident (hk : p.kind = .ident) :
    Ends (fun F => nud F p.token) p.skip (.ident p.token.info (p.skip.textOf p.token)) p.skip := by
  have ht : p.token.kind = .ident := hk
  refine (Ends.of_run (run_tokIntern p.token p.skip)).map (RawExpr.ident p.token.info)
    |>.of_eq fun F => ?_
  rw [nud, ht]
  rfl

theorem nud_strLit (hk : p.kind = .strLit) :
    Ends (fun F => nud F p.token) p.skip (.strLit p.token.info (p.skip.textOf p.token)) p.skip := by
  have ht : p.token.kind = .strLit := hk
  refine (Ends.of_run (run_tokIntern p.token p.skip)).map (RawExpr.strLit p.token.info)
    |>.of_eq fun F => ?_
  rw [nud, ht]
  rfl

theorem nud_intLit (hk : p.kind = .intLit) (F : ParseFns L) :
    nud F p.token = pure (.intLit p.token.info p.token.intVal p.token.intSuffix) := by
  have ht : p.token.kind = .intLit := hk
  rw [nud, ht]
  rfl

theorem nud_floatLit (hk : p.kind = .floatLit) (F : ParseFns L) :
    nud F p.token = pure (.floatLit p.token.info p.token.floatVal p.token.floatSuffix) := by
  have ht : p.token.kind = .floatLit := hk
  rw [nud, ht]
  rfl

theorem nud_charLit (hk : p.kind = .charLit) (F : ParseFns L) :
    nud F p.token = pure (.charLit p.token.info p.token.intVal) := by
  have ht : p.token.kind = .charLit := hk
  rw [nud, ht]
  rfl

/-- A number or a character, whose node is in the token. -/
theorem nud_literal (h : ∀ F : ParseFns L, nud F p.token = pure e) :
    Ends (fun F => nud F p.token) p.skip e p.skip :=
  (Ends.of_run (m := Pure.pure e) rfl).of_eq fun F => by rw [h F]

end Nud

/-- An expression in parentheses, whose `(` is read. -/
theorem parseParen_group {i : RawInfo} (ht : p.startsType = false)
    (h : Ends (fun F => F.expr 0) p e q.look) (hq : q.kind = .rparen) :
    Ends (fun F => parseParen F i) p e q.skip := by
  refine Ends.step (run_isTypeStart p) ?_
  simp only [ht, Bool.false_eq_true, if_false]
  refine (expr_look.mpr h).bind (Ends.step (run_expect (by simpa using hq)) ?_)
  rw [Parser.skip_look]
  exact Ends.of_run rfl

theorem parseParen_cast {i : RawInfo} {ty : Option TypeRef} (ht : p.startsType = true)
    (hty : TypeName p ty q) (hq : q.kind = .rparen) (hbrace : q.skip.kind ≠ .lbrace)
    (h : Ends (fun F => F.expr 140) q.skip e r) :
    Ends (fun F => parseParen F i) p (.cast i ty e) r := by
  refine Ends.step (run_isTypeStart p) ?_
  simp only [ht, if_true]
  refine hty.1.bind (Ends.step (run_expect hq) (Ends.step (run_check .lbrace q.skip) ?_))
  simp only [decide_eq_true_eq, if_neg hbrace]
  exact (expr_look.mpr h).map _

theorem parseParen_compound {i : RawInfo} {ty : Option TypeRef} (ht : p.startsType = true)
    (hty : TypeName p ty q) (hq : q.kind = .rparen) (hbrace : q.skip.kind = .lbrace)
    (h : BracedList q.skip e r) :
    Ends (fun F => parseParen F i) p (.compoundLit i ty e) r := by
  refine Ends.step (run_isTypeStart p) ?_
  simp only [ht, if_true]
  refine hty.1.bind (Ends.step (run_expect hq) (Ends.step (run_check .lbrace q.skip) ?_))
  simp only [decide_eq_true_eq, if_pos hbrace]
  exact h.1.map _

theorem parseSizeof_unary {i : RawInfo} (hp : p.kind ≠ .lparen)
    (h : Ends (fun F => F.expr 140) p e q) :
    Ends (fun F => parseSizeof F i) p (.sizeofExpr i e) q := by
  refine Ends.step (run_check .lparen p) ?_
  simp only [decide_eq_true_eq, if_neg hp]
  exact (expr_look.mpr h).map _

theorem parseSizeof_group {i : RawInfo} (hp : p.kind = .lparen) (ht : p.skip.startsType = false)
    (h : Ends (fun F => F.expr 0) p.skip e q.look) (hq : q.kind = .rparen) :
    Ends (fun F => parseSizeof F i) p (.sizeofExpr i e) q.skip := by
  refine Ends.step (run_check .lparen p) ?_
  simp only [decide_eq_true_eq, if_pos hp]
  refine Ends.step (run_advance p.look) (Ends.step (run_isTypeStart _) ?_)
  simp only [Parser.skip_look, ht, Bool.false_eq_true, if_false]
  refine (expr_look.mpr h).bind (Ends.step (run_expect (by simpa using hq)) ?_)
  rw [Parser.skip_look]
  exact Ends.of_run rfl

theorem parseSizeof_type {i : RawInfo} {ty : Option TypeRef} (hp : p.kind = .lparen)
    (ht : p.skip.startsType = true) (hty : TypeName p.skip ty q) (hq : q.kind = .rparen) :
    Ends (fun F => parseSizeof F i) p (.sizeofType i ty) q.skip := by
  refine Ends.step (run_check .lparen p) ?_
  simp only [decide_eq_true_eq, if_pos hp]
  refine Ends.step (run_advance p.look) (Ends.step (run_isTypeStart _) ?_)
  simp only [Parser.skip_look, ht, if_true]
  exact hty.1.bind (Ends.step (run_expect hq) (Ends.of_run rfl))

/-! ### What an operator calls for -/

omit [LawfulTokenSource L] in
theorem led_binop {c : ExprCat} (hk : binaryCat q.kind = some c)
    (h : Ends (fun F => F.expr (tokLbp q.kind)) q.skip e r) :
    Ends (fun F => led F l q.token) q.skip (.binop q.token.info q.kind l e) r := by
  refine (h.map (RawExpr.binop q.token.info q.kind l)).of_eq fun F => ?_
  unfold led Parser.kind
  rw [Parser.kind] at hk
  cases hop : q.token.kind <;> rw [hop] at hk <;> first | rfl | cases hk

omit [LawfulTokenSource L] in
theorem led_assign (hk : isAssignOp q.kind = true) (h : Ends (fun F => F.expr 19) q.skip e r) :
    Ends (fun F => led F l q.token) q.skip (.assign q.token.info q.kind l e) r := by
  refine (h.map (RawExpr.assign q.token.info q.kind l)).of_eq fun F => ?_
  unfold led Parser.kind
  rw [Parser.kind] at hk
  cases hop : q.token.kind <;> rw [hop] at hk <;> first | rfl | cases hk

omit [LawfulTokenSource L] in
theorem led_comma (hk : q.kind = .comma) (h : Ends (fun F => F.expr 10) q.skip e r) :
    Ends (fun F => led F l q.token) q.skip (.comma q.token.info l e) r := by
  have ht : q.token.kind = .comma := hk
  refine (h.map (RawExpr.comma q.token.info l)).of_eq fun F => ?_
  rw [led, ht]
  rfl

theorem led_ternary {t : RawExpr} (hk : q.kind = .question)
    (ht : Ends (fun F => F.expr 0) q.skip t r.look) (hr : r.kind = .colon)
    (h : Ends (fun F => F.expr 29) r.skip e s) :
    Ends (fun F => led F l q.token) q.skip (RawExpr.ternary q.token.info l t e) s := by
  have htk : q.token.kind = .question := hk
  suffices hbody : Ends (fun F => do
      let t ← F.expr 0
      let _ ← expect .colon
      return RawExpr.ternary q.token.info l t (← F.expr 29)) q.skip (RawExpr.ternary q.token.info l t e) s from
    hbody.of_eq fun F => by
      rw [led, htk]
      rfl
  refine ht.bind (Ends.step (run_expect (by simpa using hr)) ?_)
  rw [Parser.skip_look]
  exact h.map _

theorem led_subscript (hk : q.kind = .lbracket) (h : Ends (fun F => F.expr 0) q.skip e r.look)
    (hr : r.kind = .rbracket) :
    Ends (fun F => led F l q.token) q.skip (RawExpr.subscript q.token.info l e) r.skip := by
  have ht : q.token.kind = .lbracket := hk
  suffices hbody : Ends (fun F => do
      let index ← F.expr 0
      let _ ← expect .rbracket
      return RawExpr.subscript q.token.info l index) q.skip (RawExpr.subscript q.token.info l e) r.skip from
    hbody.of_eq fun F => by
      rw [led, ht]
      rfl
  refine h.bind (Ends.step (run_expect (by simpa using hr)) ?_)
  rw [Parser.skip_look]
  exact Ends.of_run rfl

theorem led_callNone (hk : q.kind = .lparen) (hr : q.skip.kind = .rparen) :
    Ends (fun F => led F l q.token) q.skip (RawExpr.call q.token.info l []) q.skip.skip := by
  have ht : q.token.kind = .lparen := hk
  suffices hbody : Ends (fun F => do
      let as ← if ← check .rparen then pure [] else F.args []
      let _ ← expect .rparen
      return RawExpr.call q.token.info l as) q.skip (RawExpr.call q.token.info l []) q.skip.skip from
    hbody.of_eq fun F => by
      rw [led, ht]
      rfl
  refine Ends.step (run_check .rparen q.skip) ?_
  simp only [hr, decide_true, if_true]
  refine Ends.step (m := pure []) rfl (Ends.step (run_expect (by simpa using hr)) ?_)
  rw [Parser.skip_look]
  exact Ends.of_run rfl

theorem led_call {as : List RawExpr} (hk : q.kind = .lparen) (hfirst : q.skip.kind ≠ .rparen)
    (h : Ends (fun F => F.args []) q.skip as r.look) (hr : r.kind = .rparen) :
    Ends (fun F => led F l q.token) q.skip (RawExpr.call q.token.info l as) r.skip := by
  have ht : q.token.kind = .lparen := hk
  suffices hbody : Ends (fun F => do
      let as ← if ← check .rparen then pure [] else F.args []
      let _ ← expect .rparen
      return RawExpr.call q.token.info l as) q.skip (RawExpr.call q.token.info l as) r.skip from
    hbody.of_eq fun F => by
      rw [led, ht]
      rfl
  refine Ends.step (run_check .rparen q.skip) ?_
  simp only [hfirst, decide_false, Bool.false_eq_true, if_false]
  refine (args_look.mpr h).bind (Ends.step (run_expect (by simpa using hr)) ?_)
  rw [Parser.skip_look]
  exact Ends.of_run rfl

/-- `.` or `->`, and the name after it. -/
theorem led_member {f : RawInfo → RawExpr → String → RawExpr} (hr : q.skip.kind = .ident)
    (h : ∀ F : ParseFns L, led F l q.token = (do
      let ft ← expect .ident
      return f q.token.info l (← tokIntern ft))) :
    Ends (fun F => led F l q.token) q.skip
      (f q.token.info l (q.skip.skip.textOf q.skip.token)) q.skip.skip := by
  suffices hbody : Ends (fun _ => do
      let ft ← expect .ident
      return f q.token.info l (← tokIntern ft)) q.skip
        (f q.token.info l (q.skip.skip.textOf q.skip.token)) q.skip.skip from
    hbody.of_eq fun F => by rw [h F]
  exact Ends.step (run_expect hr) (Ends.step (run_tokIntern _ _) (Ends.of_run rfl))

omit [LawfulTokenSource L] in
theorem led_dot (hk : q.kind = .dot) (F : ParseFns L) : led F l q.token = (do
    let ft ← expect .ident
    return .member q.token.info l (← tokIntern ft)) := by
  have ht : q.token.kind = .dot := hk
  rw [led, ht]
  rfl

omit [LawfulTokenSource L] in
theorem led_arrow (hk : q.kind = .arrow) (F : ParseFns L) : led F l q.token = (do
    let ft ← expect .ident
    return .memberPtr q.token.info l (← tokIntern ft)) := by
  have ht : q.token.kind = .arrow := hk
  rw [led, ht]
  rfl

omit [LawfulTokenSource L] in
theorem led_postop (hk : isStepOp q.kind = true) :
    Ends (fun F => led F l q.token) q.skip (RawExpr.postop q.token.info q.kind l) q.skip := by
  refine (Ends.of_run (m := Pure.pure (RawExpr.postop q.token.info q.kind l)) rfl).of_eq fun F => ?_
  unfold led Parser.kind
  rw [Parser.kind] at hk
  cases hop : q.token.kind <;> rw [hop] at hk <;> first | rfl | cases hk

theorem args_last {as : List RawExpr} (h : Ends (fun F => F.expr 10) p e q.look)
    (hq : q.kind ≠ .comma) : Ends (fun F => F.args as) p (as ++ [e]) q.look := by
  refine (Ends.call_iff (m := fun F => args F as) fun _ => rfl).mpr ?_
  refine h.bind (Ends.step (run_accept .comma q.look) ?_)
  simp only [Parser.kind_look, hq, decide_false, Bool.false_eq_true, if_false, Parser.look_look]
  exact Ends.of_run rfl

theorem args_more {as bs : List RawExpr} (h : Ends (fun F => F.expr 10) p e q.look)
    (hq : q.kind = .comma) (hrest : Ends (fun F => F.args (as ++ [e])) q.skip bs r) :
    Ends (fun F => F.args as) p bs r := by
  refine (Ends.call_iff (m := fun F => args F as) fun _ => rfl).mpr ?_
  refine h.bind (Ends.step (run_accept .comma q.look) ?_)
  simp only [Parser.kind_look, hq, decide_true, if_true, Parser.skip_look]
  exact hrest

/-! ### Derived expressions -/

mutual

/-- The loop reaches a derived expression, unless an operator after it belongs to it. -/
theorem Derives.reaches {c : ExprCat} {p q : Parser L} {e : RawExpr} :
    Derives asRead c p e q → tokLbp q.kind ≤ c.follow → ∀ b < c.top, Reaches b p e q
  | .up h, hq, b, hb =>
    h.reaches (hq.trans (ExprCat.follow_tighter _)) b (hb.trans_le (ExprCat.top_tighter _))
  | .comma hl ho hr, hq, b, hb => by
    have hlbp := congrArg tokLbp ho
    have hright := (hr.reaches (le_trans hq (by decide)) 10 (by decide)).ends hq
    exact Reaches.look_iff.mp
      ((hl.reaches (le_of_eq hlbp) b hb).led (hlbp ▸ hb) (led_comma ho hright))
  | .assign hl ho hr, hq, b, hb => by
    have hlbp := tokLbp_assign ho
    have hleft := hl.reaches (hlbp.trans_le (by decide)) b (hb.trans (by decide))
    have hright := (hr.reaches hq 19 (by decide)).ends hq
    exact Reaches.look_iff.mp (hleft.led (hlbp ▸ hb) (led_assign ho hright))
  | .ternary hc ho ht hr he, hq, b, hb => by
    have hlbp := congrArg tokLbp ho
    have hcolon := congrArg tokLbp hr
    have hcond := hc.reaches (hlbp.trans_le (by decide)) b (hb.trans (by decide))
    have hthen :=
      (ht.reaches (hcolon.trans_le (by decide)) 0 (by decide)).ends (le_of_eq hcolon)
    have helse := (he.reaches hq 29 (by decide)).ends hq
    exact Reaches.look_iff.mp (hcond.led (hlbp ▸ hb) (led_ternary ho hthen hr helse))
  | .binop hl ho hr, hq, b, hb => by
    obtain ⟨hlbp, hfollow, hlt⟩ := ExprCat.tokLbp_binary ho
    have hright := (hr.reaches (hq.trans (ExprCat.follow_tighter _)) _ (hlbp ▸ hlt)).ends
      (hq.trans (by omega))
    exact Reaches.look_iff.mp
      ((hl.reaches (by omega) b hb).led (hlbp ▸ hb) (led_binop ho hright))
  | .cast hp ht hty hr he, hq, _, _ => by
    have hoperand := (he.reaches hq 140 (by decide)).ends hq
    have hbrace := startsExpr_ne_lbrace he.starts
    exact Reaches.look_iff.mp
      (Reaches.nud (nud_paren hp (parseParen_cast ht hty hr hbrace hoperand)))
  | .unop hp he, hq, _, _ =>
    Reaches.look_iff.mp
      (Reaches.nud (nud_unop (Or.inl hp) ((he.reaches hq 140 (by decide)).ends hq)))
  | .plus hp he, hq, _, _ =>
    Reaches.look_iff.mp (Reaches.nud (nud_plus hp ((he.reaches hq 140 (by decide)).ends hq)))
  | .step hp he, hq, _, _ =>
    Reaches.look_iff.mp
      (Reaches.nud (nud_unop (Or.inr hp) ((he.reaches hq 140 (by decide)).ends hq)))
  | .sizeofUnary hp hparen he, hq, _, _ =>
    Reaches.look_iff.mp (Reaches.nud (nud_sizeof hp
      (parseSizeof_unary hparen ((he.reaches hq 140 (by decide)).ends hq))))
  | .sizeofParen hp hparen ht he hr, _, _, _ => by
    have hclose := congrArg tokLbp hr
    have hinner := (he.reaches (hclose.trans_le (by decide)) 0 (by decide)).ends (le_of_eq hclose)
    exact Reaches.nud (nud_sizeof hp (parseSizeof_group hparen ht hinner hr))
  | .sizeofRead _ hp hparen ht he hr, _, _, _ => by
    have hclose := congrArg tokLbp hr
    have hinner := (he.reaches (hclose.trans_le (by decide)) 0 (by decide)).ends (le_of_eq hclose)
    exact Reaches.nud (nud_sizeof hp (parseSizeof_group hparen ht hinner hr))
  | .sizeofType hp hparen ht hty hr, _, _, _ =>
    Reaches.nud (nud_sizeof hp (parseSizeof_type hparen ht hty hr))
  | .subscript hl ho hx hr, _, b, hb => by
    have hlbp := congrArg tokLbp ho
    have hclose := congrArg tokLbp hr
    have hindex := (hx.reaches (hclose.trans_le (by decide)) 0 (by decide)).ends (le_of_eq hclose)
    exact (hl.reaches (tokLbp_le _) b hb).led (hlbp ▸ hb) (led_subscript ho hindex hr)
  | .callNone hl ho hr, _, b, hb => by
    have hlbp := congrArg tokLbp ho
    exact (hl.reaches (tokLbp_le _) b hb).led (hlbp ▸ hb) (led_callNone ho hr)
  | .call hl ho has hr, _, b, hb => by
    have hlbp := congrArg tokLbp ho
    exact (hl.reaches (tokLbp_le _) b hb).led (hlbp ▸ hb)
      (led_call ho (startsExpr_ne_rparen has.starts) (has.ends hr []) hr)
  | .member hl ho hr, _, b, hb => by
    have hlbp := congrArg tokLbp ho
    exact (hl.reaches (tokLbp_le _) b hb).led (hlbp ▸ hb) (led_member hr (led_dot ho))
  | .memberPtr hl ho hr, _, b, hb => by
    have hlbp := congrArg tokLbp ho
    exact (hl.reaches (tokLbp_le _) b hb).led (hlbp ▸ hb) (led_member hr (led_arrow ho))
  | .postop hl ho, _, b, hb =>
    (hl.reaches (tokLbp_le _) b hb).led (tokLbp_step ho ▸ hb) (led_postop ho)
  | .compoundLit hp ht hty hr hbrace hil, _, _, _ =>
    Reaches.nud (nud_paren hp (parseParen_compound ht hty hr hbrace hil))
  | .ident hp, _, _, _ => Reaches.nud (nud_ident hp)
  | .intLit hp, _, _, _ => Reaches.nud (nud_literal (nud_intLit hp))
  | .floatLit hp, _, _, _ => Reaches.nud (nud_literal (nud_floatLit hp))
  | .charLit hp, _, _, _ => Reaches.nud (nud_literal (nud_charLit hp))
  | .strLit hp, _, _, _ => Reaches.nud (nud_strLit hp)
  | .paren hp ht he hr, _, _, _ => by
    have hclose := congrArg tokLbp hr
    have hinner := (he.reaches (hclose.trans_le (by decide)) 0 (by decide)).ends (le_of_eq hclose)
    exact Reaches.nud (nud_paren hp (parseParen_group ht hinner hr))

theorem DerivesArgs.ends {p q : Parser L} {as : List RawExpr} :
    DerivesArgs asRead p as q → q.kind = .rparen → ∀ pre,
      Ends (fun F => F.args pre) p (pre ++ as) q.look
  | .one h, hq, pre => by
    have hlbp := congrArg tokLbp hq
    have harg := (h.reaches (hlbp.trans_le (by decide)) 10 (by decide)).ends
      (hlbp.trans_le (by decide))
    exact args_last harg fun hc => by
      rw [hq] at hc
      cases hc
  | .cons (a := a) h hc hrest, hq, pre => by
    have hlbp := congrArg tokLbp hc
    have harg := (h.reaches (hlbp.trans_le (by decide)) 10 (by decide)).ends (le_of_eq hlbp)
    have hrest := hrest.ends hq (pre ++ [a])
    rw [List.append_assoc, List.singleton_append] at hrest
    exact args_more harg hc hrest

end

/-- The parser reads a derived expression whole and stops there. -/
theorem Derives.reads {c : ExprCat} {p q : Parser L} {e : RawExpr} (h : Derives asRead c p e q)
    {b : ℤ} (hb : b < c.top) (hq : tokLbp q.kind ≤ b) (hfollow : tokLbp q.kind ≤ c.follow) :
    Ends (fun F => F.expr b) p e q.look := (h.reaches hfollow b hb).ends hq

/-! ### Expression statements -/

theorem tokLbp_eq_zero {k : TokenKind} (h : continuesExpr k = false) : tokLbp k = 0 := by
  cases k <;> first | rfl | cases h

omit [LawfulTokenSource L] in
/-- The loop that is repeated for statements is that of `parse_expr`. -/
theorem infixes_of_expr (hk : p.kind = .ident) (h : Ends (fun F => F.expr b) p e q) :
    Ends (fun F => F.infixes b (.ident p.token.info (p.skip.textOf p.token))) p.skip e q := by
  have ht : p.token.kind = .ident := hk
  refine (expr_iff.mp h).of_eq fun F => ?_
  unfold parseExpr nud
  rw [run_bind (run_advance p), ht]
  rfl

theorem identStmt_reads (hk : p.kind = .ident) (hcolon : p.skip.kind ≠ .colon)
    (h : Ends (fun F => F.expr 0) p e q.look) (hq : q.kind = .semicolon) :
    Ends (fun F => identStmt F p.token) p.look (.expr e) q.skip := by
  refine Ends.step (run_advance p.look) (Ends.step (run_tokIntern _ _)
    (Ends.step (run_check .colon _) ?_))
  simp only [Parser.skip_look, hcolon, decide_false, Bool.false_eq_true, if_false]
  have hloop := infixes_iff.mpr (infixes_look.mpr (infixes_iff.mp (infixes_of_expr hk h)))
  refine hloop.bind (Ends.step (run_expect (by simpa using hq)) ?_)
  rw [Parser.skip_look]
  exact Ends.of_run rfl

theorem statement_of_ident {st : RawStmt} (hk : p.kind = .ident) (htype : p.startsType = false)
    (h : Ends (fun F => identStmt F p.token) p.look st q) :
    Ends (fun F => F.statement) p st q := by
  have ht : p.token.kind = .ident := hk
  refine (Ends.call_iff (m := fun F => parseStatement F) fun _ => rfl).mpr ?_
  refine Ends.step (run_peek p) ?_
  simp only [ht, reduceCtorEq, if_false]
  refine Ends.step (run_isTypeStart p.look) ?_
  simp only [Parser.startsType_look, htype, Bool.false_eq_true, if_false, Parser.look_look]
  refine h.of_eq fun F => ?_
  rw [plainStmt, ht]

/-- An expression that ends before `;` does not end before `:`. -/
theorem Derives.not_label (h : Derives asRead .expression p e q) (hq : q.kind = .semicolon)
    (hk : p.kind = .ident) : p.skip.kind ≠ .colon := by
  intro hcolon
  have hreads := h.reads (b := 0) (by decide) (le_of_eq (congrArg tokLbp hq))
    (by rw [hq]; decide)
  have hident : Derives asRead .primaryExpr p
    (.ident p.token.info (p.skip.textOf p.token)) p.skip := .ident hk
  have hreads' := hident.reads (b := 0) (by decide) (le_of_eq (congrArg tokLbp hcolon))
    (by rw [hcolon]; decide)
  have hsame := congrArg Parser.kind (hreads.unique hreads').2
  rw [Parser.kind_look, Parser.kind_look, hq, hcolon] at hsame
  cases hsame

/-- A written expression is read whole, without an error and with its own tree; so is a statement
made of it that starts with an identifier. -/
theorem expression_reads (h : Derives False .expression p e q)
    (hq : continuesExpr q.kind = false) :
    Ends (fun F => F.expr 0) p e q.look ∧ q.look.nErrors = p.nErrors ∧
      (p.kind = .ident → p.startsType = false → q.kind = .semicolon →
        Ends (fun F => F.statement) p (.expr e) q.skip ∧ q.skip.nErrors = p.nErrors) := by
  have hlbp := tokLbp_eq_zero hq
  have hreads := h.reads (b := 0) (by decide) (le_of_eq hlbp) (hlbp.trans_le (by decide))
  refine ⟨hreads, h.nErrors_eq, fun hk htype hsemi => ⟨?_, h.nErrors_eq⟩⟩
  exact statement_of_ident hk htype (identStmt_reads hk (h.not_label hsemi hk) hreads hsemi)

end

/-- A statement with two operators. -/
def sumText : Parser SourceText := textParser "a = b + 1;"

theorem expression_reads_sum :
    ∃ e q, Ends (fun F => F.statement) sumText
      (.expr (.assign sumText.skip.token.info .assign (.ident sumText.token.info "a") e)) q ∧ q.nErrors = 0 := by
  have hb : Derives False .additive sumText.skip.skip _ _ :=
    .binop (.ups 7 (.ident (by decide +kernel))) (by decide +kernel)
      (.ups 6 (.intLit (by decide +kernel)))
  have h : Derives False .expression sumText _ _ :=
    .up (.assign (.ups 2 (.ident (by decide +kernel))) (by decide +kernel) (.ups 10 hb))
  obtain ⟨hread, herrors⟩ := (expression_reads h (by decide +kernel)).2.2 (by decide +kernel)
    (by decide +kernel) (by decide +kernel)
  have hop : sumText.skip.kind = .assign := by decide +kernel
  have hname : sumText.skip.textOf sumText.token = "a" := by decide +kernel
  rw [hop, hname] at hread
  exact ⟨_, _, hread, herrors⟩

end TinyC
