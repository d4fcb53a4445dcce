import TinyC.LexerSpans
import TinyC.StringPool
import TinyC.SourceText

/-!
# The names of identifiers

What the scanner interns for an identifier does not begin with a dot.
-/

namespace TinyC

open Lexer

/-- An identifier does not begin with a dot. -/
def IsName (s : String) : Prop := s.toList.head? ≠ some '.'

/-- A token that is an identifier has its name among the strings. -/
def Token.Named (t : Token) (st : StringTable) : Prop :=
  t.kind = .ident → IsName (internedText st t.strIdx)

section

variable {l : Lexer} {s : ℕ} {ln co : ℤ} {strtod : List Byte → BitVec 64}

theorem isName_internedText {st : StringTable} {i : ℕ} {text : List Byte}
    (hget : strtabGet st i = some text) (hdot : text.head? ≠ some (ch '.')) :
    IsName (internedText st i) := by
  rw [IsName, internedText, hget, String.toList_ofList, Option.getD_some, List.head?_map]
  cases hhead : text.head? with
  | none => nofun
  | some c =>
    rw [Option.map_some]
    intro h
    refine hdot (hhead.trans (congrArg some (byte_of_char (Option.some.inj h))))

/-! ### Scanning -/

theorem scanNum_kind (l : Lexer) : (scanNum strtod l s ln co).1.kind ≠ .ident := by
  unfold scanNum
  dsimp only
  split
  · simp [mktok]
  · simp [mktok]

theorem scanStr_kind (wide : Bool) : (scanStr l s ln co wide).1.kind ≠ .ident := by
  unfold scanStr
  dsimp only
  split
  · simp [errtok, mktok]
  · simp [mktok]

theorem scanChr_kind (wide : Bool) : (scanChr l s ln co wide).1.kind ≠ .ident := by
  unfold scanChr
  dsimp only
  split
  · simp [errtok, mktok]
  · generalize (if l.adv.peekc = ch '\\' then scanEsc l.adv.adv
      else ((l.adv.peekc.toNat : ℤ), l.adv.adv)) = r
    split
    · simp [errtok, mktok]
    · simp [mktok]

theorem scanOp_kind {longer : List (Char × TokenKind)} {k : TokenKind}
    (h : ∀ o ∈ longer, o.2 ≠ .ident) (hk : k ≠ .ident) :
    (scanOp l s ln co longer k).1.kind ≠ .ident := by
  unfold scanOp
  split
  · rename_i o ho
    exact h o (List.mem_of_find?_eq_some ho)
  · exact hk

theorem scanPunct_kind (c : Byte) : (scanPunct strtod c l s ln co).1.kind ≠ .ident := by
  unfold scanPunct
  split
  case h_23 => split <;> exact scanOp_kind (by decide) (by decide)
  case h_24 => split <;> exact scanOp_kind (by decide) (by decide)
  case h_25 =>
    split
    · simp [mktok]
    · split
      · exact scanNum_kind _
      · simp [mktok]
  all_goals first
    | exact scanOp_kind (by decide) (by decide)
    | simp [mktok, errtok]

theorem scanWord_named (hend : l.atEnd = false)
    (hc : (isAlpha l.peekc || decide (l.peekc = ch '_')) = true) :
    (scanWord l.adv l.cur ln co).1.Named (scanWord l.adv l.cur ln co).2.strings := by
  have hdot : l.peekc ≠ ch '.' := by
    intro heq
    rw [heq] at hc
    exact absurd hc (by decide)
  have hlater := later_advWhile isIdent l.adv
  have hcur : l.cur + 1 ≤ (advWhile isIdent l.adv).cur := by
    have hle := hlater.cur
    rw [adv_cur, hend] at hle
    exact hle
  have hlt := lt_of_not_atEnd hend
  have hhead : (((advWhile isIdent l.adv).src.drop l.cur).take
      ((advWhile isIdent l.adv).cur - l.cur)).head? = some l.peekc := by
    have hpos : (advWhile isIdent l.adv).cur - l.cur ≠ 0 := by omega
    rw [hlater.src, adv_src, List.head?_take, if_neg hpos, List.head?_drop, Lexer.peekc,
      List.getD_eq_getElem _ _ hlt, List.getElem?_eq_getElem hlt]
  unfold scanWord
  dsimp only
  split
  · intro _
    refine isName_internedText (strtabGet_strtabIntern _ _) ?_
    rw [hhead]
    exact fun h => hdot (Option.some.inj h)
  · rename_i hk
    exact fun h => absurd h hk

theorem scanToken_named (strtod : List Byte → BitVec 64) (l : Lexer) :
    (scanToken strtod l).1.Named (scanToken strtod l).2.strings := by
  unfold scanToken
  dsimp only
  generalize skipWs l = l₀
  split
  · exact nofun
  · rename_i hend
    split
    · rename_i hc
      split
      · exact fun h => absurd h (scanStr_kind true)
      · split
        · exact fun h => absurd h (scanChr_kind true)
        · exact scanWord_named (by simpa using hend) hc
    · split
      · exact fun h => absurd h (scanNum_kind _)
      · split
        · exact fun h => absurd h (scanStr_kind false)
        · split
          · exact fun h => absurd h (scanChr_kind false)
          · exact fun h => absurd h (scanPunct_kind _)

/-! ### Calls -/

/-- The token that was looked at is named. -/
def Lexer.PeekNamed (l : Lexer) : Prop := ∀ t ∈ l.peeked, t.Named l.strings

theorem lexerInit_peekNamed (src : List Byte) (st : StringTable) :
    (lexerInit src st).PeekNamed := by
  intro t ht
  cases ht

theorem lexerPeek_peekNamed (strtod : List Byte → BitVec 64) (h : l.PeekNamed) :
    (lexerPeek strtod l).2.PeekNamed := by
  unfold lexerPeek
  cases hpeek : l.peeked with
  | some t => exact h
  | none =>
    intro t ht
    obtain rfl := Option.some.inj ht
    exact scanToken_named strtod l

theorem lexerNext_peekNamed (strtod : List Byte → BitVec 64) (l : Lexer) :
    (lexerNext strtod l).2.PeekNamed := by
  unfold lexerNext
  cases hpeek : l.peeked with
  | some t =>
    intro t' ht
    cases ht
  | none =>
    intro t ht
    rw [(later_scanToken strtod l).peeked, hpeek] at ht
    cases ht

/-- The next token is the one that was looked at. -/
theorem lexerNext_named (strtod : List Byte → BitVec 64) (h : l.PeekNamed) :
    (lexerNext strtod l).1.Named (lexerNext strtod l).2.strings := by
  unfold lexerNext
  cases hpeek : l.peeked with
  | some t => exact h t hpeek
  | none => exact scanToken_named strtod l

end

end TinyC
