import TinyC.Lexer
import Mathlib.Data.List.Infix

/-!
# The spans of the tokens

The cursor only goes forward, and its line and column are those of the bytes before it. So the
tokens lie one after the other, and what lies between them was skipped.
-/

namespace TinyC

open Lexer

/-! ### Positions -/

/-- 1 plus the number of newlines. -/
def lineOf (before : List Byte) : ℤ := 1 + before.count (ch '\n')

/-- 1 plus the number of bytes since the last newline. -/
def colOf (before : List Byte) : ℤ := 1 + (before.reverse.takeWhile (· ≠ ch '\n')).length

/-- The cursor is in the buffer and knows its position. -/
structure Lexer.Located (l : Lexer) : Prop where
  le : l.cur ≤ l.src.length
  line : l.line = toInt32 (lineOf (l.src.take l.cur))
  col : l.col = toInt32 (colOf (l.src.take l.cur))

/-- `l'` is `l` after some bytes were read. -/
structure Lexer.Later (l l' : Lexer) : Prop where
  src : l'.src = l.src
  cur : l.cur ≤ l'.cur
  located : l.Located → l'.Located
  peeked : l'.peeked = l.peeked
  diags : l.diags <+: l'.diags

variable {l l' : Lexer} {q : Byte → Bool}

theorem Lexer.Later.refl (l : Lexer) : Later l l :=
  ⟨rfl, le_rfl, id, rfl, List.prefix_rfl⟩

theorem Lexer.Later.trans {l₁ l₂ l₃ : Lexer} (h : Later l₁ l₂) (h' : Later l₂ l₃) : Later l₁ l₃ :=
  ⟨h'.src.trans h.src, h.cur.trans h'.cur, h'.located ∘ h.located, h'.peeked.trans h.peeked,
    h.diags.trans h'.diags⟩

/-- The cursor does not depend on the strings and messages. -/
theorem Lexer.Later.of_cursor (hsrc : l'.src = l.src) (hcur : l'.cur = l.cur)
    (hline : l'.line = l.line) (hcol : l'.col = l.col) (hpeeked : l'.peeked = l.peeked)
    (hdiags : l.diags <+: l'.diags) : Later l l' where
  src := hsrc
  cur := hcur.ge
  located h := ⟨by rw [hsrc, hcur]; exact h.le, by rw [hsrc, hcur, hline]; exact h.line,
    by rw [hsrc, hcur, hcol]; exact h.col⟩
  peeked := hpeeked
  diags := hdiags

theorem toInt32_add_one (x : ℤ) : toInt32 (toInt32 x + 1) = toInt32 (x + 1) :=
  Int.bmod_add_bmod

theorem lt_of_not_atEnd (h : l.atEnd = false) : l.cur < l.src.length := by
  simpa [Lexer.atEnd] using h

theorem take_succ_of_not_atEnd (h : l.atEnd = false) :
    l.src.take (l.cur + 1) = l.src.take l.cur ++ [l.peekc] := by
  have hlt := lt_of_not_atEnd h
  rw [List.take_succ_eq_append_getElem hlt, Lexer.peekc, List.getD_eq_getElem _ _ hlt]

theorem Lexer.Later.adv (l : Lexer) : Later l l.adv := by
  refine ⟨adv_src l, ?_, ?_, ?_, ?_⟩
  · rw [adv_cur]
    split <;> omega
  · intro hl
    cases hend : l.atEnd with
    | true => simpa [Lexer.adv, hend] using hl
    | false =>
      have hlt := lt_of_not_atEnd hend
      have htake := take_succ_of_not_atEnd hend
      by_cases hnl : l.peekc = ch '\n'
      · have hadv : l.adv = { l with cur := l.cur + 1, line := toInt32 (l.line + 1), col := 1 } := by
          simp [Lexer.adv, hend, hnl]
        rw [hadv]
        refine ⟨hlt, ?_, ?_⟩
        · dsimp only
          rw [hl.line, toInt32_add_one, htake, hnl, lineOf, lineOf, List.count_append]
          simp [add_assoc]
        · dsimp only
          rw [htake, hnl, colOf]
          simp [toInt32]
      · have hadv : l.adv = { l with cur := l.cur + 1, col := toInt32 (l.col + 1) } := by
          simp [Lexer.adv, hend, hnl]
        rw [hadv]
        refine ⟨hlt, ?_, ?_⟩
        · dsimp only
          rw [hl.line, htake, lineOf, lineOf, List.count_append,
            List.count_singleton, if_neg (by simpa using hnl), add_zero]
        · dsimp only
          rw [hl.col, toInt32_add_one, htake, colOf, colOf, List.reverse_append]
          simp [hnl, add_assoc]
  · unfold Lexer.adv
    split
    · rfl
    · split <;> rfl
  · unfold Lexer.adv
    split
    · exact List.prefix_rfl
    · split <;> exact List.prefix_rfl

theorem later_advWhile (q : Byte → Bool) (l : Lexer) : Later l (advWhile q l) := by
  fun_induction advWhile q l with
  | case1 l h ih => exact (Later.adv l).trans ih
  | case2 l h => exact .refl l

theorem later_advIf (q : Byte → Bool) (l : Lexer) : Later l (advIf q l) := by
  unfold advIf
  split
  · exact .adv l
  · exact .refl l

theorem later_diagEmit (l : Lexer) (b : Bool) (ln co : ℤ) (msg : String) :
    Later l (diagEmit l b ln co msg) := .of_cursor rfl rfl rfl rfl rfl (List.prefix_append _ _)

/-- Going back to the start of a token undoes reading its first character. -/
theorem rewind (hend : l.atEnd = false) (hnl : l.peekc ≠ ch '\n') :
    { l.adv with cur := l.cur, col := l.col } = l := by
  simp [Lexer.adv, hend, hnl]

/-! ### What is skipped -/

/-- The bytes from the cursor on. -/
def Lexer.rest (l : Lexer) : List Byte := l.src.drop l.cur

theorem rest_adv (h : l.atEnd = false) : l.rest = l.peekc :: l.adv.rest := by
  have hlt := lt_of_not_atEnd h
  rw [Lexer.rest, Lexer.rest, adv_src, adv_cur, h, List.drop_eq_getElem_cons hlt, Lexer.peekc,
    List.getD_eq_getElem _ _ hlt]
  rfl

theorem rest_of_atEnd (h : l.atEnd = true) : l.rest = [] := by
  rw [Lexer.rest, List.drop_eq_nil_iff]
  simpa [Lexer.atEnd] using h

theorem peekc_of_rest {b : Byte} {bs : List Byte} (h : l.rest = b :: bs) :
    l.peekc = b ∧ l.atEnd = false ∧ l.adv.rest = bs := by
  have hend : l.atEnd = false := by
    by_contra hcon
    rw [Bool.not_eq_false] at hcon
    rw [rest_of_atEnd hcon] at h
    cases h
  rw [rest_adv hend] at h
  obtain ⟨hb, hbs⟩ := List.cons.inj h
  exact ⟨hb, hend, hbs⟩

theorem peekc2_eq (h : l.atEnd = false) : l.peekc2 = l.adv.peekc := by
  rw [Lexer.peekc2, Lexer.peekc, adv_src, adv_cur, h]
  rfl

/-- A line comment or directive goes on to the end of the line. -/
def EndsLine (rest : List Byte) : Prop := ∀ b bs, rest = b :: bs → b = ch '\n'

/-- The bytes `gap`, with `rest` after them, are white space, comments and directives. -/
inductive Skipped : List Byte → List Byte → Prop where
  | nil {rest} : Skipped [] rest
  | space {b gap rest} : isSpace b = true → Skipped gap rest → Skipped (b :: gap) rest
  | line {body gap rest} : (∀ b ∈ body, b ≠ ch '\n') → EndsLine (gap ++ rest) →
      Skipped gap rest → Skipped (ch '/' :: ch '/' :: body ++ gap) rest
  | block {body gap rest} : ¬[ch '*', ch '/'] <:+: body ++ [ch '*'] → Skipped gap rest →
      Skipped (ch '/' :: ch '*' :: body ++ ch '*' :: ch '/' :: gap) rest
  /-- A comment that is not closed. -/
  | openBlock {body} : ¬[ch '*', ch '/'] <:+: body → Skipped (ch '/' :: ch '*' :: body) []
  | directive {body gap rest} : (∀ b ∈ body, b ≠ ch '\n') → EndsLine (gap ++ rest) →
      Skipped gap rest → Skipped (ch '#' :: body ++ gap) rest

theorem rest_advWhile (q : Byte → Bool) (l : Lexer) :
    ∃ body, l.rest = body ++ (advWhile q l).rest ∧ (∀ b ∈ body, q b = true) ∧
      ∀ b bs, (advWhile q l).rest = b :: bs → q b = false := by
  fun_induction advWhile q l with
  | case1 l h ih =>
    obtain ⟨body, hrest, hall, hstop⟩ := ih
    refine ⟨l.peekc :: body, ?_, ?_, hstop⟩
    · rw [rest_adv h.1, hrest, List.cons_append]
    · exact List.forall_mem_cons.mpr ⟨h.2, hall⟩
  | case2 l h =>
    refine ⟨[], rfl, by simp, ?_⟩
    intro b bs hrest
    obtain ⟨hb, hend, -⟩ := peekc_of_rest hrest
    rw [← hb]
    simpa [hend] using h

theorem rest_skipBlock (l : Lexer) :
    Later l (skipBlock l).2 ∧
      ((skipBlock l).1 = true → ∃ body, ¬[ch '*', ch '/'] <:+: body ++ [ch '*'] ∧
        l.rest = body ++ ch '*' :: ch '/' :: (skipBlock l).2.rest) ∧
      ((skipBlock l).1 = false → (skipBlock l).2.rest = [] ∧ ¬[ch '*', ch '/'] <:+: l.rest) := by
  fun_induction skipBlock l with
  | case1 l h hclose =>
    refine ⟨(Later.adv l).trans (.adv _), fun _ => ⟨[], ?_, ?_⟩, fun hc => absurd hc (by simp)⟩
    · intro hin
      have hlen := hin.length_le
      simp at hlen
    · have h2 := peekc2_eq h
      rw [hclose.2] at h2
      have hend : l.adv.atEnd = false := atEnd_of_peekc (by rw [← h2]; decide)
      rw [rest_adv h, rest_adv hend, hclose.1, ← h2]
      rfl
  | case2 l h hclose ih =>
    obtain ⟨hlater, hclosed, hopen⟩ := ih
    -- a close that starts here would have been seen
    have hstart : ∀ xs : List Byte, (xs.head? = some (ch '/') → l.adv.peekc = ch '/') →
        ¬[ch '*', ch '/'] <+: l.peekc :: xs := by
      intro xs hxs hpre
      obtain ⟨hstar, zs, hzs⟩ := List.cons_prefix_cons.mp hpre
      have hslash : l.adv.peekc = ch '/' := hxs (by rw [← hzs]; rfl)
      exact hclose ⟨hstar.symm, (peekc2_eq h).trans hslash⟩
    have hhead : l.adv.rest.head? = some (ch '/') → l.adv.peekc = ch '/' := by
      intro hh
      obtain ⟨bs, hbs⟩ := List.head?_eq_some_iff.mp hh
      exact (peekc_of_rest hbs).1
    refine ⟨(Later.adv l).trans hlater, ?_, ?_⟩
    · intro hc
      obtain ⟨body, hno, hrest⟩ := hclosed hc
      refine ⟨l.peekc :: body, ?_, by rw [rest_adv h, hrest, List.cons_append]⟩
      rw [List.cons_append, List.infix_cons_iff, not_or]
      refine ⟨hstart _ fun hh => hhead ?_, hno⟩
      rw [hrest]
      cases body with
      | nil => cases hh
      | cons b bs => exact hh
    · intro hc
      obtain ⟨hend, hno⟩ := hopen hc
      rw [rest_adv h, List.infix_cons_iff, not_or]
      exact ⟨hend, hstart _ hhead, hno⟩
  | case3 l h =>
    have hend : l.atEnd = true := by simpa using h
    exact ⟨.refl l, fun hc => absurd hc (by simp),
      fun _ => ⟨rest_of_atEnd hend, by rw [rest_of_atEnd hend]; simp⟩⟩

/-- `skip_ws` skips nothing but white space, comments and directives. -/
theorem skipWs_skipped (l : Lexer) :
    Later l (skipWs l) ∧ ∃ gap, l.rest = gap ++ (skipWs l).rest ∧
      Skipped gap (skipWs l).rest := by
  fun_induction skipWs l with
  | case1 l h hspace ih =>
    obtain ⟨hlater, gap, hrest, hskip⟩ := ih
    exact ⟨(Later.adv l).trans hlater, _ :: gap, by rw [rest_adv h, hrest, List.cons_append],
      .space hspace hskip⟩
  | case2 l h _ hline ih =>
    obtain ⟨hlater, gap, hrest, hskip⟩ := ih
    have hend : l.adv.atEnd = false :=
      atEnd_of_peekc (by rw [← peekc2_eq h, hline.2]; decide)
    obtain ⟨body, hbody, hall, hstop⟩ := rest_advWhile (· ≠ ch '\n') l.adv.adv
    refine ⟨((Later.adv l).trans (.adv _)).trans ((later_advWhile _ _).trans hlater), _, ?_,
      .line (fun b hb => by simpa using hall b hb) ?_ hskip⟩
    · rw [rest_adv h, rest_adv hend, hline.1, ← peekc2_eq h, hline.2, hbody, hrest]
      simp
    · intro b bs hb
      exact by simpa using hstop b bs (hrest.trans hb)
  | case3 l h _ _ hblock r hclosed ih =>
    obtain ⟨hlater, gap, hrest, hskip⟩ := ih
    have hend : l.adv.atEnd = false :=
      atEnd_of_peekc (by rw [← peekc2_eq h, hblock.2]; decide)
    obtain ⟨hlater', hbody, -⟩ := rest_skipBlock l.adv.adv
    obtain ⟨body, hno, hbody⟩ := hbody hclosed
    refine ⟨((Later.adv l).trans (.adv _)).trans (hlater'.trans hlater), _, ?_, .block hno hskip⟩
    rw [rest_adv h, rest_adv hend, hblock.1, ← peekc2_eq h, hblock.2, hbody, hrest]
    simp
  | case4 l h _ _ hblock r hopen =>
    have hend : l.adv.atEnd = false :=
      atEnd_of_peekc (by rw [← peekc2_eq h, hblock.2]; decide)
    obtain ⟨hlater', -, hbody⟩ := rest_skipBlock l.adv.adv
    obtain ⟨hnil, hno⟩ := hbody (by simpa using hopen)
    have hnil' : (diagEmit r.2 true l.line l.col "unterminated block comment").rest = [] := hnil
    refine ⟨((Later.adv l).trans (.adv _)).trans (hlater'.trans (later_diagEmit _ _ _ _ _)),
      l.rest, ?_, ?_⟩
    · rw [hnil', List.append_nil]
    · rw [hnil', rest_adv h, rest_adv hend, hblock.1, ← peekc2_eq h, hblock.2]
      exact .openBlock hno
  | case5 l h _ _ _ hhash ih =>
    obtain ⟨hlater, gap, hrest, hskip⟩ := ih
    obtain ⟨body, hbody, hall, hstop⟩ := rest_advWhile (· ≠ ch '\n') l.adv
    refine ⟨(Later.adv l).trans ((later_advWhile _ _).trans hlater), _, ?_,
      .directive (fun b hb => by simpa using hall b hb) ?_ hskip⟩
    · rw [rest_adv h, hhash, hbody, hrest]
      simp
    · intro b bs hb
      exact by simpa using hstop b bs (hrest.trans hb)
  | case6 l h => exact ⟨.refl l, [], rfl, .nil⟩
  | case7 l h => exact ⟨.refl l, [], rfl, .nil⟩

/-! ### Tokens -/

/-- The token `r.1` was read from `l` on and starts at `s`, in line `ln` and column `co`. -/
structure Makes (l : Lexer) (s : ℕ) (ln co : ℤ) (r : Token × Lexer) : Prop where
  later : Later l r.2
  start : r.1.start = s
  len : r.1.len = toInt32 (r.2.cur - s)
  line : r.1.line = ln
  col : r.1.col = co
  kind : r.1.kind ≠ .eof

variable {s : ℕ} {ln co : ℤ} {strtod : List Byte → BitVec 64}

theorem Makes.mktok {k : TokenKind} (h : Later l l') (hk : k ≠ .eof) :
    Makes l s ln co (mktok l' k s ln co, l') := ⟨h, rfl, rfl, rfl, rfl, hk⟩

theorem Makes.errtok {msg : String} (h : Later l l') : Makes l s ln co (errtok l' s ln co msg) :=
  ⟨h.trans (later_diagEmit _ _ _ _ _), rfl, rfl, rfl, rfl, by simp [TinyC.errtok, TinyC.mktok]⟩

theorem Makes.after {r : Token × Lexer} (h : Later l l') (hr : Makes l' s ln co r) :
    Makes l s ln co r := { hr with later := h.trans hr.later }

theorem later_scanFraction (digit : Byte → Bool) (l : Lexer) :
    Later l (scanFraction digit l).2 := by
  unfold scanFraction
  split
  · exact (Later.adv l).trans (later_advWhile _ _)
  · exact .refl l

theorem later_scanExponent (lower upper : Byte) (b : Bool) (l : Lexer) :
    Later l (scanExponent lower upper b l).2 := by
  unfold scanExponent
  split
  · exact ((Later.adv l).trans (later_advIf _ _)).trans (later_advWhile _ _)
  · exact .refl l

theorem later_scanSuffix (suffix : ℕ) (l : Lexer) : Later l (scanSuffix suffix l).2 := by
  fun_induction scanSuffix suffix l with
  | case1 suffix l h ih => exact (Later.adv l).trans ih
  | case2 suffix l _ _ h ih => exact ((Later.adv l).trans (.adv _)).trans ih
  | case3 suffix l _ _ _ h ih => exact (Later.adv l).trans ih
  | case4 suffix l => exact .refl l

theorem advWhile_of_true (hend : l.atEnd = false) (hq : q l.peekc = true) :
    advWhile q l = advWhile q l.adv := by
  rw [advWhile, dif_pos ⟨hend, hq⟩]

theorem advWhile_of_false (hq : q l.peekc = false) : advWhile q l = l := by
  rw [advWhile, dif_neg (by simp [hq])]

/-- A number has a first character. -/
theorem later_scanDigits (h : isDigit l.peekc = true ∨ l.peekc = ch '.') :
    Later l.adv (scanDigits l).2.2 := by
  have hend : l.atEnd = false := by
    apply atEnd_of_peekc
    rintro h0
    rw [h0] at h
    revert h
    decide
  unfold scanDigits
  split
  · exact (Later.adv l.adv).trans ((later_advWhile _ _).trans ((later_scanFraction _ _).trans
      (later_scanExponent _ _ _ _)))
  · split
    · rename_i hoct
      have hq : isOctal l.peekc = true := by rw [hoct.1]; decide
      rw [advWhile_of_true hend hq]
      exact later_advWhile _ _
    · by_cases hd : isDigit l.peekc = true
      · rw [advWhile_of_true hend hd]
        exact (later_advWhile _ _).trans ((later_scanFraction _ _).trans
          (later_scanExponent _ _ _ _))
      · have hdot : l.peekc = ch '.' := h.resolve_left hd
        rw [advWhile_of_false (by simpa using hd)]
        have hfrac : scanFraction isDigit l = (true, advWhile isDigit l.adv) := by
          rw [scanFraction, if_pos hdot]
        rw [hfrac]
        exact (later_advWhile _ _).trans (later_scanExponent _ _ _ _)

theorem later_ite_adv (p : Prop) [Decidable p] (l : Lexer) : Later l (if p then l else l.adv) := by
  split
  · exact .refl l
  · exact .adv l

theorem later_scanNum (strtod : List Byte → BitVec 64) (l : Lexer) :
    Later (scanDigits l).2.2 (scanNum strtod l s ln co).2 := by
  unfold scanNum
  dsimp only
  split
  · exact later_ite_adv _ _
  · exact later_scanSuffix _ _

theorem scanNum_makes (h : isDigit l.peekc = true ∨ l.peekc = ch '.') :
    Makes l.adv s ln co (scanNum strtod l s ln co) := by
  have hdigits := later_scanDigits h
  unfold scanNum
  dsimp only
  split
  · exact ⟨hdigits.trans (later_ite_adv _ _), rfl, rfl, rfl, rfl, by simp [TinyC.mktok]⟩
  · exact ⟨hdigits.trans (later_scanSuffix _ _), rfl, rfl, rfl, rfl, by simp [TinyC.mktok]⟩

theorem later_scanHex (v : ℤ) (l : Lexer) : Later l (scanHex v l).2 := by
  fun_induction scanHex v l with
  | case1 v l h ih => exact (Later.adv l).trans ih
  | case2 v l h => exact .refl l

theorem later_scanOctal (n : ℕ) (v : ℤ) (l : Lexer) : Later l (scanOctal n v l).2 := by
  induction n generalizing v l with
  | zero => exact .refl l
  | succ n ih =>
    rw [scanOctal]
    split
    · exact (Later.adv l).trans (ih _ _)
    · exact .refl l

theorem later_scanEsc (l : Lexer) : Later l (scanEsc l).2 := by
  unfold scanEsc
  dsimp only
  apply (Later.adv l).trans
  split
  · exact .refl _
  · split
    · exact later_scanHex _ _
    · split
      · exact later_scanOctal _ _ _
      · exact later_diagEmit _ _ _ _ _

theorem later_scanStrBody (buf : List Byte) (l : Lexer) : Later l (scanStrBody buf l).2.2 := by
  fun_induction scanStrBody buf l with
  | case1 buf l h hnl => exact .refl l
  | case2 buf l h _ hesc hroom ih => exact ((Later.adv l).trans (later_scanEsc _)).trans ih
  | case3 buf l h _ hesc hroom ih => exact (Later.adv l).trans ih
  | case4 buf l h _ hesc ih => exact (Later.adv l).trans ih
  | case5 buf l h => exact .refl l

theorem scanStr_makes (wide : Bool) : Makes l.adv s ln co (scanStr l s ln co wide) := by
  have hbody := later_scanStrBody [] l.adv
  unfold scanStr
  dsimp only
  split
  · exact .errtok hbody
  · exact ⟨hbody.trans ((Later.adv _).trans (.of_cursor rfl rfl rfl rfl rfl List.prefix_rfl)), rfl, rfl, rfl, rfl,
      by simp [TinyC.mktok]⟩

theorem scanChr_makes (wide : Bool) : Makes l.adv s ln co (scanChr l s ln co wide) := by
  unfold scanChr
  dsimp only
  split
  · exact .errtok (.refl _)
  · have hval : Later l.adv (if l.adv.peekc = ch '\\' then scanEsc l.adv.adv
        else ((l.adv.peekc.toNat : ℤ), l.adv.adv)).2 := by
      split
      · exact (Later.adv _).trans (later_scanEsc _)
      · exact .adv _
    generalize (if l.adv.peekc = ch '\\' then scanEsc l.adv.adv
      else ((l.adv.peekc.toNat : ℤ), l.adv.adv)) = r at hval ⊢
    split
    · exact .errtok hval
    · exact ⟨hval.trans (.adv _), rfl, rfl, rfl, rfl, by simp [TinyC.mktok]⟩

theorem scanOp_makes {longer : List (Char × TokenKind)} {k : TokenKind}
    (h : ∀ o ∈ longer, o.2 ≠ .eof) (hk : k ≠ .eof) :
    Makes l s ln co (scanOp l s ln co longer k) := by
  unfold scanOp
  split
  · rename_i o ho
    exact .mktok (.adv l) (h o (List.mem_of_find?_eq_some ho))
  · exact .mktok (.refl l) hk

theorem searchKeyword_ne_eof (text : List Byte) (lo hi : ℤ) :
    searchKeyword text lo hi ≠ .eof := by
  have htable : ∀ i : ℕ, (kwTable.getD i ("", .ident)).2 ≠ .eof := by
    intro i
    rcases lt_or_ge i kwTable.length with hi | hi
    · rw [List.getD_eq_getElem _ _ hi]
      have hall : ∀ e ∈ kwTable, e.2 ≠ .eof := by decide
      exact hall _ (List.getElem_mem hi)
    · rw [List.getD_eq_default _ _ hi]
      decide
  fun_induction searchKeyword text lo hi with
  | case1 => exact htable _
  | case2 => assumption
  | case3 => assumption
  | case4 => decide

theorem scanWord_makes : Makes l s ln co (scanWord l s ln co) := by
  have hlater := later_advWhile isIdent l
  unfold scanWord
  dsimp only
  split
  · exact ⟨hlater.trans (.of_cursor rfl rfl rfl rfl rfl List.prefix_rfl), rfl, rfl, rfl, rfl,
      searchKeyword_ne_eof _ _ _⟩
  · exact .mktok hlater (searchKeyword_ne_eof _ _ _)

theorem byte_of_char {c : Byte} {d : Char} (h : Char.ofNat c.toNat = d) : c = ch d := by
  have hlt := c.isLt
  have hval : (Char.ofNat c.toNat).toNat = c.toNat := by
    rw [Char.ofNat, dif_pos (Or.inl (by omega))]
    rfl
  rw [ch, ← h, hval, BitVec.ofNat_toNat, BitVec.setWidth_eq]

theorem scanPunct_makes (hend : l.atEnd = false) :
    Makes l.adv l.cur ln l.col (scanPunct strtod l.peekc l.adv l.cur ln l.col) := by
  have hop : ∀ {l' : Lexer} {longer k}, Later l.adv l' → (∀ o ∈ longer, o.2 ≠ .eof) → k ≠ .eof →
      Makes l.adv l.cur ln l.col (scanOp l' l.cur ln l.col longer k) :=
    fun hl h hk => (scanOp_makes h hk).after hl
  unfold scanPunct
  split
  case h_23 =>
    split
    · exact hop (.adv _) (by decide) (by decide)
    · exact hop (.refl _) (by decide) (by decide)
  case h_24 =>
    split
    · exact hop (.adv _) (by decide) (by decide)
    · exact hop (.refl _) (by decide) (by decide)
  case h_25 hdot =>
    have hc : l.peekc = ch '.' := byte_of_char hdot
    split
    · exact .mktok ((Later.adv _).trans (.adv _)) (by decide)
    · split
      · rw [rewind hend (by rw [hc]; decide)]
        exact scanNum_makes (.inr hc)
      · exact .mktok (.refl _) (by decide)
  case h_26 => exact .errtok (.refl _)
  all_goals first
    | exact .mktok (.refl _) (by decide)
    | exact hop (.refl _) (by decide) (by decide)

/-- At the end of the text there is the end token; before it, a token is read. -/
theorem scanToken_spec (strtod : List Byte → BitVec 64) (l : Lexer) :
    ((skipWs l).atEnd = true → scanToken strtod l =
      (mktok (skipWs l) .eof (skipWs l).cur (skipWs l).line (skipWs l).col, skipWs l)) ∧
    ((skipWs l).atEnd = false → Makes (skipWs l).adv (skipWs l).cur (skipWs l).line (skipWs l).col
      (scanToken strtod l)) := by
  unfold scanToken
  dsimp only
  generalize skipWs l = l₀
  constructor
  · intro hend
    rw [if_pos hend]
  · intro hend
    rw [if_neg (by simp [hend])]
    have hback : isDigit l₀.peekc = true ∨ l₀.peekc = ch '"' ∨ l₀.peekc = ch '\'' →
        { l₀.adv with cur := l₀.cur, col := l₀.col } = l₀ := by
      intro h
      apply rewind hend
      intro hnl
      rw [hnl] at h
      revert h
      decide
    split
    · split
      · exact (scanStr_makes true).after (.adv _)
      · split
        · exact (scanChr_makes true).after (.adv _)
        · exact scanWord_makes
    · split
      · rename_i hd
        rw [hback (.inl hd)]
        exact scanNum_makes (.inl hd)
      · split
        · rename_i hq
          rw [hback (.inr (.inl hq))]
          exact scanStr_makes false
        · split
          · rename_i hq
            rw [hback (.inr (.inr hq))]
            exact scanChr_makes false
          · exact scanPunct_makes hend

theorem later_scanToken (strtod : List Byte → BitVec 64) (l : Lexer) :
    Later l (scanToken strtod l).2 := by
  have hskip := (skipWs_skipped l).1
  obtain ⟨hend, hmake⟩ := scanToken_spec strtod l
  cases h : (skipWs l).atEnd with
  | true => rwa [hend h]
  | false => exact (hskip.trans (.adv _)).trans (hmake h).later

/-! ### Calls -/

/-- The lexer after `n` calls of `lexer_next`. -/
def afterCalls (strtod : List Byte → BitVec 64) (l : Lexer) : ℕ → Lexer
  | 0 => l
  | n + 1 => (lexerNext strtod (afterCalls strtod l n)).2

/-- The token that call `n` returns. -/
def tokenAt (strtod : List Byte → BitVec 64) (l : Lexer) (n : ℕ) : Token :=
  (lexerNext strtod (afterCalls strtod l n)).1

/-- The end of a span. -/
def Token.stop (t : Token) : ℤ := t.start + t.len

inductive LexerCall where
  | next
  | peek
  deriving DecidableEq

/-- A run of calls and what those of `lexer_next` return. -/
def runCalls (strtod : List Byte → BitVec 64) : List LexerCall → Lexer → List Token
  | [], _ => []
  | .next :: cs, l => (lexerNext strtod l).1 :: runCalls strtod cs (lexerNext strtod l).2
  | .peek :: cs, l => runCalls strtod cs (lexerPeek strtod l).2

/-- The tokens account for every byte of the buffer. -/
structure Accounted (strtod : List Byte → BitVec 64) (src : List Byte) (strings : StringTable) :
    Prop where
  reachesEof : ∃ n ≤ src.length, (tokenAt strtod (lexerInit src strings) n).kind = .eof
  staysAtEof : ∀ n, (tokenAt strtod (lexerInit src strings) n).kind = .eof →
    tokenAt strtod (lexerInit src strings) (n + 1) = tokenAt strtod (lexerInit src strings) n
  nonEmpty : ∀ n, (tokenAt strtod (lexerInit src strings) n).kind ≠ .eof →
    0 < (tokenAt strtod (lexerInit src strings) n).len
  eofSpan : ∀ n, (tokenAt strtod (lexerInit src strings) n).kind = .eof →
    (tokenAt strtod (lexerInit src strings) n).start = src.length ∧
      (tokenAt strtod (lexerInit src strings) n).len = 0
  inside : ∀ n, (tokenAt strtod (lexerInit src strings) n).stop ≤ src.length
  ordered : ∀ m n, m < n → (tokenAt strtod (lexerInit src strings) m).stop ≤
    (tokenAt strtod (lexerInit src strings) n).start
  leading : Skipped (src.take (tokenAt strtod (lexerInit src strings) 0).start)
    (src.drop (tokenAt strtod (lexerInit src strings) 0).start)
  between : ∀ n, Skipped ((src.take (tokenAt strtod (lexerInit src strings) (n + 1)).start).drop
      (tokenAt strtod (lexerInit src strings) n).stop.toNat)
    (src.drop (tokenAt strtod (lexerInit src strings) (n + 1)).start)
  line : ∀ n, (tokenAt strtod (lexerInit src strings) n).line =
    lineOf (src.take (tokenAt strtod (lexerInit src strings) n).start)
  col : ∀ n, (tokenAt strtod (lexerInit src strings) n).col =
    colOf (src.take (tokenAt strtod (lexerInit src strings) n).start)
  peeks : ∀ calls, runCalls strtod calls (lexerInit src strings) =
    (List.range (calls.count .next)).map (tokenAt strtod (lexerInit src strings))

theorem toInt32_of_nonneg {x : ℤ} (h0 : 0 ≤ x) (h : x < 2 ^ 31) : toInt32 x = x := by
  rw [toInt32, Int.bmod_def]
  omega

/-- What one call does from a cursor in the buffer. -/
structure Call (l : Lexer) (t : Token) (l' : Lexer) : Prop where
  located : l'.Located
  src : l'.src = l.src
  peeked : l'.peeked = none
  start : l.cur ≤ t.start
  stop : t.stop = l'.cur
  line : t.line = lineOf (l.src.take t.start)
  col : t.col = colOf (l.src.take t.start)
  gap : Skipped ((l.src.take t.start).drop l.cur) (l.src.drop t.start)
  eof : t.kind = .eof → t.start = l.src.length ∧ t.len = 0
  progress : t.kind ≠ .eof → t.start < l'.cur
  again : t.kind = .eof → lexerNext strtod l' = (t, l')

theorem skipWs_of_atEnd (h : l.atEnd = true) : skipWs l = l := by
  rw [skipWs, dif_neg (by simp [h])]

theorem lineOf_range {bs : List Byte} (h : bs.length + 1 < 2 ^ 31) :
    toInt32 (lineOf bs) = lineOf bs := by
  have hle := List.count_le_length (a := ch '\n') (l := bs)
  apply toInt32_of_nonneg
  · unfold lineOf
    omega
  · unfold lineOf
    omega

theorem colOf_range {bs : List Byte} (h : bs.length + 1 < 2 ^ 31) :
    toInt32 (colOf bs) = colOf bs := by
  have hle : (bs.reverse.takeWhile (· ≠ ch '\n')).length ≤ bs.length :=
    (List.takeWhile_prefix _).length_le.trans List.length_reverse.le
  apply toInt32_of_nonneg
  · unfold colOf
    omega
  · unfold colOf
    omega

theorem lexerNext_call (strtod : List Byte → BitVec 64) (hl : l.Located) (hp : l.peeked = none)
    (hsmall : l.src.length + 1 < 2 ^ 31) :
    @Call strtod l (lexerNext strtod l).1 (lexerNext strtod l).2 := by
  have hnext : lexerNext strtod l = scanToken strtod l := by
    rw [lexerNext, hp]
  obtain ⟨hlater, gap, hrest, hskip⟩ := skipWs_skipped l
  obtain ⟨heof, hmakes⟩ := scanToken_spec strtod l
  have hloc := hlater.located hl
  have hsrc := hlater.src
  have hle : (skipWs l).cur ≤ l.src.length := hsrc ▸ hloc.le
  have hlen : (l.src.take (skipWs l).cur).length + 1 < 2 ^ 31 := by
    rw [List.length_take]
    omega
  have hline : (skipWs l).line = lineOf (l.src.take (skipWs l).cur) := by
    rw [hloc.line, hsrc]
    exact lineOf_range hlen
  have hcol : (skipWs l).col = colOf (l.src.take (skipWs l).cur) := by
    rw [hloc.col, hsrc]
    exact colOf_range hlen
  have hgap : Skipped ((l.src.take (skipWs l).cur).drop l.cur) (l.src.drop (skipWs l).cur) := by
    have hdrop : l.src.drop (skipWs l).cur = (skipWs l).rest := by rw [Lexer.rest, hsrc]
    have htake : (l.src.take (skipWs l).cur).drop l.cur = gap := by
      rw [List.drop_take, ← Lexer.rest, hrest]
      have hlength := congrArg List.length hrest
      rw [List.length_append, Lexer.rest, Lexer.rest, List.length_drop, List.length_drop,
        hsrc] at hlength
      have hcur := hlater.cur
      rw [show (skipWs l).cur - l.cur = gap.length by omega]
      exact List.take_left
    rw [htake, hdrop]
    exact hskip
  rw [hnext]
  cases hend : (skipWs l).atEnd with
  | true =>
    rw [heof hend]
    have hfull : (skipWs l).cur = l.src.length := by
      have hge : l.src.length ≤ (skipWs l).cur := by simpa [Lexer.atEnd, hsrc] using hend
      omega
    have hzero : toInt32 ((skipWs l).cur - (skipWs l).cur) = 0 := by
      rw [sub_self]
      rfl
    refine ⟨hloc, hsrc, hlater.peeked.trans hp, hlater.cur, ?_, hline, hcol, hgap, ?_, ?_, ?_⟩
    · exact (congrArg (fun z => ((skipWs l).cur : ℤ) + z) hzero).trans (add_zero _)
    · intro _
      exact ⟨hfull, hzero⟩
    · intro hkind
      exact absurd rfl hkind
    · intro _
      have hws := skipWs_of_atEnd hend
      rw [lexerNext, hlater.peeked.trans hp]
      have hagain := (scanToken_spec strtod (skipWs l)).1 (by rw [hws]; exact hend)
      rwa [hws] at hagain
  | false =>
    have hm := hmakes hend
    have hlater' := (Later.adv (skipWs l)).trans hm.later
    have hcur := hm.later.cur
    rw [adv_cur, hend] at hcur
    simp only [Bool.false_eq_true, if_false] at hcur
    have hloc' := hlater'.located hloc
    have hle' : (scanToken strtod l).2.cur ≤ l.src.length := by
      have h := hloc'.le
      rwa [hlater'.src, hsrc] at h
    have hlen' : (scanToken strtod l).1.len = (scanToken strtod l).2.cur - (skipWs l).cur := by
      rw [hm.len]
      exact toInt32_of_nonneg (by omega) (by omega)
    refine ⟨hloc', hlater'.src.trans hsrc, (hlater'.peeked.trans hlater.peeked).trans hp, ?_, ?_,
      ?_, ?_, ?_, fun h => absurd h hm.kind, ?_, fun h => absurd h hm.kind⟩
    · rw [hm.start]
      exact hlater.cur
    · rw [Token.stop, hm.start, hlen']
      omega
    · rw [hm.line, hm.start]
      exact hline
    · rw [hm.col, hm.start]
      exact hcol
    · rw [hm.start]
      exact hgap
    · intro _
      rw [hm.start]
      omega

/-! ### All calls -/

section Run

variable {src : List Byte} {strings : StringTable}

theorem lexerInit_located (src : List Byte) (strings : StringTable) :
    (lexerInit src strings).Located := by
  refine ⟨Nat.zero_le _, ?_, ?_⟩
  · simp [lexerInit, lineOf, toInt32]
  · simp [lexerInit, colOf, toInt32]

theorem afterCalls_located (strtod : List Byte → BitVec 64) (strings : StringTable)
    (hsmall : src.length + 1 < 2 ^ 31) (n : ℕ) :
    (afterCalls strtod (lexerInit src strings) n).Located ∧
      (afterCalls strtod (lexerInit src strings) n).src = src ∧
      (afterCalls strtod (lexerInit src strings) n).peeked = none := by
  induction n with
  | zero => exact ⟨lexerInit_located src strings, rfl, rfl⟩
  | succ n ih =>
    obtain ⟨hloc, hsrc, hp⟩ := ih
    have hcall := lexerNext_call strtod hloc hp (by rw [hsrc]; exact hsmall)
    exact ⟨hcall.located, hcall.src.trans hsrc, hcall.peeked⟩

theorem call_at (strtod : List Byte → BitVec 64) (strings : StringTable)
    (hsmall : src.length + 1 < 2 ^ 31) (n : ℕ) :
    @Call strtod (afterCalls strtod (lexerInit src strings) n)
      (tokenAt strtod (lexerInit src strings) n)
      (afterCalls strtod (lexerInit src strings) (n + 1)) := by
  obtain ⟨hloc, hsrc, hp⟩ := afterCalls_located strtod strings hsmall n
  exact lexerNext_call strtod hloc hp (by rw [hsrc]; exact hsmall)

/-- Up to the end token every call reads a byte. -/
theorem le_cur_of_no_eof (hsmall : src.length + 1 < 2 ^ 31) {n : ℕ}
    (h : ∀ m < n, (tokenAt strtod (lexerInit src strings) m).kind ≠ .eof) :
    n ≤ (afterCalls strtod (lexerInit src strings) n).cur := by
  induction n with
  | zero => exact Nat.zero_le _
  | succ n ih =>
    have hprev := ih fun m hm => h m (by omega)
    have hcall := call_at strtod strings hsmall n
    have hstart := hcall.start
    have hprog := hcall.progress (h n (by omega))
    omega

theorem reaches_eof (strtod : List Byte → BitVec 64) (strings : StringTable)
    (hsmall : src.length + 1 < 2 ^ 31) :
    ∃ n ≤ src.length, (tokenAt strtod (lexerInit src strings) n).kind = .eof := by
  by_contra hno
  push Not at hno
  have hcur := le_cur_of_no_eof (n := src.length + 1) hsmall fun m hm => hno m (by omega)
  obtain ⟨hloc, hsrc, -⟩ := afterCalls_located strtod strings hsmall (src.length + 1)
  have hle := hloc.le
  rw [hsrc] at hle
  omega

theorem start_le_stop (hsmall : src.length + 1 < 2 ^ 31) (n : ℕ) :
    ((tokenAt strtod (lexerInit src strings) n).start : ℤ) ≤
      (tokenAt strtod (lexerInit src strings) n).stop := by
  have hcall := call_at strtod strings hsmall n
  by_cases hkind : (tokenAt strtod (lexerInit src strings) n).kind = .eof
  · have hlen := (hcall.eof hkind).2
    unfold Token.stop
    omega
  · have hprog := hcall.progress hkind
    rw [hcall.stop]
    omega

theorem stop_le_start (hsmall : src.length + 1 < 2 ^ 31) {m n : ℕ} (h : m < n) :
    (tokenAt strtod (lexerInit src strings) m).stop ≤
      (tokenAt strtod (lexerInit src strings) n).start := by
  induction n with
  | zero => omega
  | succ n ih =>
    have hstop := (call_at strtod strings hsmall n).stop
    have hstart := (call_at strtod strings hsmall (n + 1)).start
    rcases Nat.lt_succ_iff_lt_or_eq.mp h with hlt | rfl
    · have hprev := ih hlt
      have hmid : ((tokenAt strtod (lexerInit src strings) n).start : ℤ) ≤
          (tokenAt strtod (lexerInit src strings) n).stop := start_le_stop hsmall n
      omega
    · omega

/-- A peeked token is the next one. -/
theorem runCalls_peeked {l : Lexer} {t : Token} {l' : Lexer} (hnext : lexerNext strtod l = (t, l'))
    (hp : l.peeked = none) (calls : List LexerCall) :
    runCalls strtod calls { l' with peeked := some t } = runCalls strtod calls l ∧
      runCalls strtod (.peek :: calls) l = runCalls strtod calls l := by
  have hscan : scanToken strtod l = (t, l') := by
    rw [lexerNext, hp] at hnext
    exact hnext
  have hpeeked : l'.peeked = none := by
    obtain ⟨hlater, -⟩ := skipWs_skipped l
    obtain ⟨heof, hmakes⟩ := scanToken_spec strtod l
    rw [hscan] at heof hmakes
    cases hend : (skipWs l).atEnd with
    | true =>
      rw [(Prod.mk.inj (heof hend)).2]
      exact hlater.peeked.trans hp
    | false =>
      exact (((Later.adv _).trans (hmakes hend).later).peeked.trans hlater.peeked).trans hp
  have hsame : ∀ calls, runCalls strtod calls { l' with peeked := some t } =
      runCalls strtod calls l := by
    intro calls
    induction calls with
    | nil => rfl
    | cons c cs ih =>
      cases c with
      | next =>
        have hback : lexerNext strtod { l' with peeked := some t } = (t, l') := by
          rw [lexerNext]
          dsimp only
          rw [← hpeeked]
        rw [runCalls, runCalls, hback, hnext]
      | peek =>
        have hstay : lexerPeek strtod { l' with peeked := some t } =
            (t, { l' with peeked := some t }) := rfl
        have hpeek : lexerPeek strtod l = (t, { l' with peeked := some t }) := by
          rw [lexerPeek, hp]
          dsimp only
          rw [hscan]
        rw [runCalls, runCalls, hstay, hpeek]
  refine ⟨hsame calls, ?_⟩
  have hpeek : lexerPeek strtod l = (t, { l' with peeked := some t }) := by
    rw [lexerPeek, hp]
    dsimp only
    rw [hscan]
  rw [runCalls, hpeek]
  exact hsame calls

theorem runCalls_eq (strtod : List Byte → BitVec 64) (strings : StringTable)
    (hsmall : src.length + 1 < 2 ^ 31) (calls : List LexerCall) (n : ℕ) :
    runCalls strtod calls (afterCalls strtod (lexerInit src strings) n) =
      (List.range' n (calls.count .next)).map (tokenAt strtod (lexerInit src strings)) := by
  induction calls generalizing n with
  | nil => rfl
  | cons c cs ih =>
    cases c with
    | next =>
      rw [List.count_cons_self, List.range'_succ, List.map_cons, ← ih (n + 1)]
      rfl
    | peek =>
      have hp := (afterCalls_located strtod strings hsmall n).2.2
      rw [(runCalls_peeked rfl hp cs).2, ih n, List.count_cons_of_ne (by decide)]

/-- Every byte of a buffer whose positions fit an `int` is accounted for. -/
theorem lexing_accounts (strtod : List Byte → BitVec 64) (src : List Byte)
    (strings : StringTable) (hsmall : src.length + 1 < 2 ^ 31) :
    Accounted strtod src strings := by
  have hcall := fun n => call_at strtod strings hsmall n
  have hat := fun n => afterCalls_located strtod strings hsmall n
  constructor
  · exact reaches_eof strtod strings hsmall
  · intro n hkind
    have hagain := (hcall n).again hkind
    exact congrArg Prod.fst hagain
  · intro n hkind
    have hprog := (hcall n).progress hkind
    have hstop := (hcall n).stop
    rw [Token.stop] at hstop
    omega
  · intro n hkind
    have h := (hcall n).eof hkind
    rwa [(hat n).2.1] at h
  · intro n
    rw [(hcall n).stop]
    have hle := (hat (n + 1)).1.le
    rw [(hat (n + 1)).2.1] at hle
    exact_mod_cast hle
  · intro m n h
    exact stop_le_start hsmall h
  · have h := (hcall 0).gap
    rwa [(hat 0).2.1] at h
  · intro n
    have h := (hcall (n + 1)).gap
    rw [(hat (n + 1)).2.1] at h
    rw [(hcall n).stop]
    exact h
  · intro n
    have h := (hcall n).line
    rwa [(hat n).2.1] at h
  · intro n
    have h := (hcall n).col
    rwa [(hat n).2.1] at h
  · intro calls
    have h := runCalls_eq strtod strings hsmall calls 0
    rwa [← List.range_eq_range'] at h

end Run

/-- A line with a comment and an unfinished string. -/
theorem lexing_accounts_line :
    Accounted (fun _ => 0) ("int x; // y\n\"z".toList.map ch) [] :=
  lexing_accounts (fun _ => 0) ("int x; // y\n\"z".toList.map ch) [] (by decide)

/-! ### A token that is too long -/

/-- A number of `n` digits. -/
def ones (n : ℕ) : Lexer := lexerInit (List.replicate n (ch '1')) []

theorem advWhile_ones (n : ℕ) : n ≤ (advWhile isDigit (ones n)).cur := by
  obtain ⟨body, hrest, -, hstop⟩ := rest_advWhile isDigit (ones n)
  have hsrc : (advWhile isDigit (ones n)).src = List.replicate n (ch '1') :=
    (later_advWhile isDigit (ones n)).src
  cases hr : (advWhile isDigit (ones n)).rest with
  | nil =>
    rw [Lexer.rest, hsrc, List.drop_eq_nil_iff, List.length_replicate] at hr
    exact hr
  | cons b bs =>
    have hmem : b ∈ (ones n).rest := by
      rw [hrest, hr]
      simp
    have hb : b = ch '1' := List.eq_of_mem_replicate (List.mem_of_mem_drop hmem)
    have hdigit := hstop b bs hr
    rw [hb] at hdigit
    exact absurd hdigit (by decide)

/-- Its token has the length that the `int` holds. -/
theorem tokenAt_ones (strtod : List Byte → BitVec 64) {n : ℕ} (hn : 0 < n) :
    (tokenAt strtod (ones n) 0).kind ≠ .eof ∧ (tokenAt strtod (ones n) 0).len = toInt32 n := by
  have hend : (ones n).atEnd = false := by
    simpa [ones, lexerInit, Lexer.atEnd] using hn.ne'
  have hpeek : (ones n).peekc = ch '1' := by
    simp [ones, lexerInit, Lexer.peekc, hn]
  have hws : skipWs (ones n) = ones n := by
    rw [skipWs, dif_pos hend, hpeek, if_neg (by decide), if_neg (fun h => absurd h.1 (by decide)),
      if_neg (fun h => absurd h.1 (by decide)), if_neg (by decide)]
  have hscan : scanToken strtod (ones n) = scanNum strtod (ones n) 0 1 1 := by
    have hback := rewind hend (by rw [hpeek]; decide)
    rw [scanToken, hws]
    dsimp only
    rw [if_neg (by simp [hend]), hpeek, if_neg (by decide), if_pos (by decide), hback]
    rfl
  have hm := (scanToken_spec strtod (ones n)).2 (by rw [hws]; exact hend)
  rw [hws] at hm
  have hdigits : Later (advWhile isDigit (ones n)) (scanDigits (ones n)).2.2 := by
    have h0 : ¬(ch '1' = ch '0') := by decide
    rw [scanDigits, hpeek, if_neg (fun h => h0 h.1), if_neg (fun h => h0 h.1)]
    exact (later_scanFraction _ _).trans (later_scanExponent _ _ _ _)
  have hnum : Later (scanDigits (ones n)).2.2 (scanNum strtod (ones n) 0 1 1).2 :=
    later_scanNum strtod (ones n)
  have hlater := (hdigits.trans hnum).cur
  have hcur := advWhile_ones n
  have hle := (((Later.adv (ones n)).trans hm.later).located (lexerInit_located _ _)).le
  rw [((Later.adv (ones n)).trans hm.later).src] at hle
  have hlen : (ones n).src.length = n := List.length_replicate
  rw [← hscan] at hlater
  have hfull : (scanToken strtod (ones n)).2.cur = n := by omega
  have hlen' := hm.len
  rw [hfull] at hlen'
  refine ⟨hm.kind, ?_⟩
  rw [show (n : ℤ) = n - (ones n).cur by simp [ones, lexerInit]]
  exact hlen'

/-- The length of a token of `2 ^ 31` bytes is not positive. -/
theorem long_token_unaccounted :
    ¬∀ (strtod : List Byte → BitVec 64) (src : List Byte) (strings : StringTable),
      Accounted strtod src strings := by
  intro h
  obtain ⟨hkind, hlen⟩ := tokenAt_ones (fun _ => 0) (n := 2 ^ 31) (Nat.two_pow_pos 31)
  have hpos := (h (fun _ => 0) (List.replicate (2 ^ 31) (ch '1')) []).nonEmpty 0 hkind
  have hneg : toInt32 ((2 ^ 31 : ℕ) : ℤ) = -2 ^ 31 := by
    rw [toInt32, Int.bmod_def]
    decide
  have hpos' : 0 < (tokenAt (fun _ => 0) (ones (2 ^ 31)) 0).len := hpos
  rw [hlen, hneg] at hpos'
  exact absurd hpos' (by decide)

end TinyC
