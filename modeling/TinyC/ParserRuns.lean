import TinyC.Parser
import TinyC.SourceText
import TinyC.LexerSpans

/-!
# Runs of the parser

What the helpers of the parser do to its state, as equations, for a token source whose peeking
takes nothing away. A function of the parser ends with a value when it does so at every depth of
calls from some depth on.
-/

namespace TinyC

/-- Peeking shows the next token and changes nothing about the tokens to come. -/
class LawfulTokenSource (L : Type) [TokenSource L] : Prop where
  peek_token : ∀ l : L, (TokenSource.peek l).1 = (TokenSource.next l).1
  next_peek : ∀ l : L, TokenSource.next (TokenSource.peek l).2 = TokenSource.next l
  peek_peek : ∀ l : L, (TokenSource.peek (TokenSource.peek l).2).2 = (TokenSource.peek l).2

/-- Scanning leaves the place of a peeked token as it is. -/
theorem scanToken_peeked (strtod : List Byte → BitVec 64) (l : Lexer) :
    (scanToken strtod l).2.peeked = l.peeked := by
  obtain ⟨hend, hmakes⟩ := scanToken_spec strtod l
  have hskip := (skipWs_skipped l).1.peeked
  cases h : (skipWs l).atEnd with
  | true => rw [hend h, hskip]
  | false => rw [(hmakes h).later.peeked, (Lexer.Later.adv (skipWs l)).peeked, hskip]

theorem lexerNext_peek (strtod : List Byte → BitVec 64) (l : Lexer) :
    lexerNext strtod (lexerPeek strtod l).2 = lexerNext strtod l := by
  unfold lexerPeek lexerNext
  cases h : l.peeked with
  | some t =>
    dsimp only
    rw [h]
  | none =>
    have hnone : (scanToken strtod l).2.peeked = none := (scanToken_peeked strtod l).trans h
    have hsame : { (scanToken strtod l).2 with peeked := none } = (scanToken strtod l).2 := by
      rw [← hnone]
    exact congrArg (fun l' => ((scanToken strtod l).1, l')) hsame

theorem lexerPeek_peek (strtod : List Byte → BitVec 64) (l : Lexer) :
    (lexerPeek strtod (lexerPeek strtod l).2).2 = (lexerPeek strtod l).2 := by
  unfold lexerPeek
  cases h : l.peeked with
  | some t =>
    dsimp only
    rw [h]
  | none => rfl

instance : LawfulTokenSource SourceText where
  peek_token s := by
    change (lexerPeek s.lib.strtod s.lexer).1 = (lexerNext s.lib.strtod s.lexer).1
    unfold lexerPeek lexerNext
    cases s.lexer.peeked <;> rfl
  next_peek s := congrArg (fun r : Token × Lexer => (r.1, { s with lexer := r.2 }))
    (lexerNext_peek s.lib.strtod s.lexer)
  peek_peek s := congrArg (fun l => { s with lexer := l }) (lexerPeek_peek s.lib.strtod s.lexer)

section

variable {L : Type} [TokenSource L]

namespace Parser

/-- The next token. -/
def token (p : Parser L) : Token := (TokenSource.next p.lexer).1

def kind (p : Parser L) : TokenKind := p.token.kind

/-- The state after a look at the next token. -/
def look (p : Parser L) : Parser L := { p with lexer := (TokenSource.peek p.lexer).2 }

/-- The state after the next token. -/
def skip (p : Parser L) : Parser L := { p with lexer := (TokenSource.next p.lexer).2 }

/-- The text of a token that has been read. -/
def textOf (p : Parser L) (t : Token) : String :=
  internedText (TokenSource.strings p.lexer) t.strIdx

/-- Does a declaration or a type name begin here? -/
def startsType (p : Parser L) : Bool :=
  if p.kind = .ident then
    (p.scope.lookup scopeBuckets (p.look.textOf p.token)).any fun s => .typedef = s.kind
  else startsSpec p.kind

end Parser

variable [LawfulTokenSource L] {p : Parser L}

namespace Parser

@[simp] theorem token_look (p : Parser L) : p.look.token = p.token := by
  rw [token, look, LawfulTokenSource.next_peek, token]

@[simp] theorem kind_look (p : Parser L) : p.look.kind = p.kind := by rw [kind, token_look, kind]

@[simp] theorem skip_look (p : Parser L) : p.look.skip = p.skip := by
  rw [skip, look, LawfulTokenSource.next_peek, skip]

@[simp] theorem look_look (p : Parser L) : p.look.look = p.look := by
  rw [look, look, LawfulTokenSource.peek_peek]

@[simp] theorem startsType_look (p : Parser L) : p.look.startsType = p.startsType := by
  rw [startsType, kind_look, look_look, token_look, startsType]
  rfl

end Parser

/-! ### The helpers -/

theorem run_peek (p : Parser L) : peek p = .ok (p.token, p.look) := by
  change Except.ok ((TokenSource.peek p.lexer).1, p.look) = _
  rw [LawfulTokenSource.peek_token]
  rfl

omit [LawfulTokenSource L] in
theorem run_advance (p : Parser L) : advance p = .ok (p.token, p.skip) := rfl

omit [TokenSource L] [LawfulTokenSource L] in
theorem run_bind {α β : Type} {m : ParseM L α} {k : α → ParseM L β} {a : α} {q : Parser L}
    (h : m p = .ok (a, q)) : (m >>= k) p = k a q := by
  change (m p >>= fun r => k r.1 r.2) = _
  rw [h]
  rfl

theorem run_check (k : TokenKind) (p : Parser L) :
    check k p = .ok (decide (p.kind = k), p.look) := by
  rw [check, run_bind (run_peek p)]
  rfl

theorem run_accept (k : TokenKind) (p : Parser L) :
    accept k p = .ok (decide (p.kind = k), if p.kind = k then p.skip else p.look) := by
  rw [accept, run_bind (run_peek p)]
  by_cases h : p.token.kind = k
  · have hk : p.kind = k := h
    rw [if_pos h, run_bind (run_advance _), Parser.skip_look, if_pos hk, decide_eq_true hk]
    rfl
  · have hk : ¬p.kind = k := h
    rw [if_neg h, if_neg hk, decide_eq_false hk]
    rfl

theorem run_expect {k : TokenKind} (h : p.kind = k) : expect k p = .ok (p.token, p.skip) := by
  have hk : p.token.kind = k := h
  rw [expect, run_bind (run_peek p), if_pos hk, run_advance, Parser.skip_look, Parser.token_look]

omit [LawfulTokenSource L] in
theorem run_tokIntern (t : Token) (p : Parser L) : tokIntern t p = .ok (p.textOf t, p) := rfl

theorem run_isTypeStart (p : Parser L) : isTypeStart p = .ok (p.startsType, p.look) := by
  rw [isTypeStart, run_bind (run_peek p), Parser.startsType]
  by_cases h : p.token.kind = .ident
  · have hk : p.kind = .ident := h
    rw [if_pos h, if_pos hk, run_bind (run_tokIntern _ _)]
    rfl
  · have hk : ¬p.kind = .ident := h
    rw [if_neg h, if_neg hk]
    rfl

/-! ### Functions of the parser -/

/-- At every depth from some depth on, `m` ends with the value `a` in the state `q`. -/
def Ends {α : Type} (m : ParseFns L → ParseM L α) (p : Parser L) (a : α) (q : Parser L) : Prop :=
  ∃ n, ∀ k ≥ n, m (parsers k) p = .ok (a, q)

namespace Ends

omit [LawfulTokenSource L]

variable {α β : Type} {m : ParseFns L → ParseM L α} {a b : α} {q q' : Parser L}

theorem of_run {m : ParseM L α} (h : m p = .ok (a, q)) : Ends (fun _ => m) p a q :=
  ⟨0, fun _ _ => h⟩

theorem of_eq (h : Ends m p a q) {m' : ParseFns L → ParseM L α} {p' : Parser L}
    (heq : ∀ F, m' F p' = m F p) : Ends m' p' a q := by
  obtain ⟨n, hn⟩ := h
  exact ⟨n, fun k hk => (heq _).trans (hn k hk)⟩

theorem bind {k : ParseFns L → α → ParseM L β} {c : β} {r : Parser L} (h : Ends m p a q)
    (hk : Ends (fun F => k F a) q c r) : Ends (fun F => m F >>= k F) p c r := by
  obtain ⟨n, hn⟩ := h
  obtain ⟨n', hn'⟩ := hk
  refine ⟨max n n', fun i hi => ?_⟩
  exact (run_bind (hn i (le_trans (le_max_left _ _) hi))).trans
    (hn' i (le_trans (le_max_right _ _) hi))

/-- A step that makes no call comes first. -/
theorem step {m : ParseM L α} {k : ParseFns L → α → ParseM L β} {c : β} {r : Parser L}
    (h : m p = .ok (a, q)) (hk : Ends (fun F => k F a) q c r) :
    Ends (fun F => m >>= k F) p c r := (of_run h).bind hk

theorem map (f : α → β) (h : Ends m p a q) :
    Ends (fun F => m F >>= fun x => Pure.pure (f x)) p (f a) q :=
  h.bind (of_run (m := Pure.pure (f a)) rfl)

theorem unique (h : Ends m p a q) (h' : Ends m p b q') : a = b ∧ q = q' := by
  obtain ⟨n, hn⟩ := h
  obtain ⟨n', hn'⟩ := h'
  have heq := (hn _ (le_max_left n n')).symm.trans (hn' _ (le_max_right n n'))
  exact Prod.mk.inj (Except.ok.inj heq)

/-- A function of the record does what its body does one call deeper. -/
theorem call_iff {m' : ParseFns L → ParseM L α} (h : ∀ F, m' F.deeper = m F) :
    Ends m' p a q ↔ Ends m p a q := by
  constructor
  · rintro ⟨n, hn⟩
    refine ⟨n, fun k hk => ?_⟩
    rw [← h]
    exact hn (k + 1) (by omega)
  · rintro ⟨n, hn⟩
    refine ⟨n + 1, fun k hk => ?_⟩
    obtain ⟨k, rfl⟩ : ∃ j, k = j + 1 := ⟨k - 1, by omega⟩
    have hdeeper : m' (parsers (k + 1)) = m (parsers k) := h _
    rw [hdeeper]
    exact hn k (by omega)

end Ends

end

end TinyC
