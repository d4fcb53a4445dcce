import TinyC.Token
import TinyC.Types

/-!
# The lexer

The scanner works on the bytes of a buffer. `cur` is an offset into it; lines and columns are
counted in an `int`. What `strtod` makes of a text is a parameter.
-/

namespace TinyC

abbrev Byte := BitVec 8

/-- The byte of a character of the C source character set. -/
def ch (c : Char) : Byte := BitVec.ofNat 8 c.toNat

/-- The flags of `IntSuffix`. -/
def intSuffixU : ℕ := 1
def intSuffixL : ℕ := 2
def intSuffixLL : ℕ := 4

structure Token where
  kind : TokenKind
  /-- The offset of the first byte. -/
  start : ℕ
  len : ℤ
  line : ℤ
  col : ℤ
  intVal : BitVec 64 := 0
  /-- The bits of the `double`. -/
  floatVal : BitVec 64 := 0
  intSuffix : ℕ := 0
  floatSuffix : Byte := 0
  strIdx : ℕ := 0
  isWide : Bool := false
  deriving DecidableEq, Repr

structure Diag where
  isError : Bool
  line : ℤ
  col : ℤ
  msg : String
  deriving DecidableEq, Repr

/-- The interned strings in the order of their indices. -/
abbrev StringTable := List (List Byte)

/-- `strtab_intern`: the hashes only speed the search up. -/
def strtabIntern (st : StringTable) (s : List Byte) : ℕ × StringTable :=
  match st.findIdx? (· == s) with
  | some i => (i, st)
  | none => (st.length, st ++ [s])

def strtabGet (st : StringTable) (i : ℕ) : Option (List Byte) := st[i]?

structure Lexer where
  src : List Byte
  cur : ℕ := 0
  line : ℤ := 1
  col : ℤ := 1
  strings : StringTable := []
  diags : List Diag := []
  peeked : Option Token := none
  deriving DecidableEq, Repr

def lexerInit (src : List Byte) (strings : StringTable) : Lexer := { src := src, strings := strings }

/-! ### Keywords -/

def kwTable : List (String × TokenKind) :=
   [("_Alignof", .alignof), ("_Bool", .bool), ("_Complex", .complex), ("_Imaginary", .imaginary),
    ("_Nonnull", .nonnull), ("_Noreturn", .noreturn), ("_Nullable", .nullable),
    ("_Pragma", .pragma), ("__asm", .asm), ("__asm__", .asm), ("__attribute__", .attribute),
    ("__builtin_va_list", .builtinVaList), ("__const", .const), ("__const__", .const),
    ("__extension__", .extension), ("__inline", .inline), ("__inline__", .inline),
    ("__restrict", .restrict), ("__restrict__", .restrict), ("__signed", .signed),
    ("__signed__", .signed), ("__typeof__", .typeof), ("__volatile", .volatile),
    ("__volatile__", .volatile), ("asm", .asm), ("auto", .auto), ("break", .break),
    ("case", .case), ("char", .char), ("const", .const), ("continue", .continue),
    ("default", .default), ("do", .doKw), ("double", .double), ("else", .elseKw), ("enum", .enum),
    ("extern", .externKw), ("float", .float), ("for", .forKw), ("goto", .goto), ("if", .ifKw),
    ("inline", .inline), ("int", .int), ("long", .long), ("register", .register),
    ("restrict", .restrict), ("return", .return), ("short", .short), ("signed", .signed),
    ("sizeof", .sizeof), ("static", .static), ("struct", .struct), ("switch", .switch),
    ("typedef", .typedef), ("union", .union), ("unsigned", .unsigned), ("void", .void),
    ("volatile", .volatile), ("while", .while)]

/-- `strncmp` of all of `s` with a C string. -/
def strncmp : List Byte → List Byte → ℤ
  | [], _ => 0
  | a :: _, [] => a.toNat
  | a :: s, b :: name =>
      if a ≠ b then (a.toNat : ℤ) - b.toNat else if a = 0 then 0 else strncmp s name

/-- The binary search of `lookup_keyword`. -/
def searchKeyword (s : List Byte) (lo hi : ℤ) : TokenKind :=
  if lo ≤ hi then
    let mid := (lo + hi) / 2
    let entry := kwTable.getD mid.toNat ("", .ident)
    let name := entry.1.toList.map ch
    let cmp := strncmp s name
    if cmp = 0 ∧ name.length = s.length then entry.2
    else if cmp ≤ 0 then searchKeyword s lo (mid - 1)
    else searchKeyword s (mid + 1) hi
  else .ident
termination_by (hi + 1 - lo).toNat

def lookupKeyword (s : List Byte) : TokenKind := searchKeyword s 0 58

/-! ### The cursor -/

namespace Lexer

def atEnd (l : Lexer) : Bool := l.src.length ≤ l.cur

def peekc (l : Lexer) : Byte := l.src.getD l.cur 0

def peekc2 (l : Lexer) : Byte := l.src.getD (l.cur + 1) 0

def adv (l : Lexer) : Lexer :=
  if l.atEnd then l
  else if l.peekc = ch '\n' then { l with cur := l.cur + 1, line := toInt32 (l.line + 1), col := 1 }
  else { l with cur := l.cur + 1, col := toInt32 (l.col + 1) }

/-- The bytes that are left. -/
def left (l : Lexer) : ℕ := l.src.length - l.cur

theorem adv_cur (l : Lexer) : l.adv.cur = if l.atEnd then l.cur else l.cur + 1 := by
  unfold adv
  split
  · rfl
  · split <;> rfl

theorem adv_src (l : Lexer) : l.adv.src = l.src := by
  unfold adv
  split
  · rfl
  · split <;> rfl

theorem left_adv_le (l : Lexer) : l.adv.left ≤ l.left := by
  rw [left, left, adv_src, adv_cur]
  split <;> omega

theorem left_adv_lt {l : Lexer} (h : l.atEnd = false) : l.adv.left < l.left := by
  have hlt : l.cur < l.src.length := by simpa [atEnd] using h
  rw [left, left, adv_src, adv_cur, h]
  simp only [Bool.false_eq_true, if_false]
  omega

theorem atEnd_of_peekc {l : Lexer} (h : l.peekc ≠ 0) : l.atEnd = false := by
  by_contra hend
  have hle : l.src.length ≤ l.cur := by simpa [atEnd] using hend
  exact h (by simp [peekc, List.getElem?_eq_none hle])

end Lexer

open Lexer

/-- `while (!at_end(l) && q(peekc(l))) adv(l);` -/
def advWhile (q : Byte → Bool) (l : Lexer) : Lexer :=
  if h : l.atEnd = false ∧ q l.peekc then advWhile q l.adv else l
termination_by l.left
decreasing_by exact left_adv_lt h.1

theorem left_advWhile_le (q : Byte → Bool) (l : Lexer) : (advWhile q l).left ≤ l.left := by
  fun_induction advWhile q l with
  | case1 l h ih => exact ih.trans (left_adv_le l)
  | case2 l h => exact le_rfl

def diagEmit (l : Lexer) (isError : Bool) (line col : ℤ) (msg : String) : Lexer :=
  { l with diags := l.diags ++ [⟨isError, line, col, msg⟩] }

def mktok (l : Lexer) (k : TokenKind) (s : ℕ) (ln co : ℤ) : Token where
  kind := k
  start := s
  len := toInt32 (l.cur - s)
  line := ln
  col := co

def errtok (l : Lexer) (s : ℕ) (ln co : ℤ) (msg : String) : Token × Lexer :=
  (mktok l .error s ln co, diagEmit l true ln co msg)

/-! ### White space and comments -/

def isSpace (c : Byte) : Bool :=
  c = ch ' ' ∨ c = ch '\t' ∨ c = ch '\r' ∨ c = ch '\n' ∨ c = 12 ∨ c = 11

/-- The inside of a block comment; `false` if it is not closed. -/
def skipBlock (l : Lexer) : Bool × Lexer :=
  if h : l.atEnd = false then
    if l.peekc = ch '*' ∧ l.peekc2 = ch '/' then (true, l.adv.adv) else skipBlock l.adv
  else (false, l)
termination_by l.left
decreasing_by exact left_adv_lt h

theorem left_skipBlock_le (l : Lexer) : (skipBlock l).2.left ≤ l.left := by
  fun_induction skipBlock l with
  | case1 l h hclose => exact (left_adv_le _).trans (left_adv_le l)
  | case2 l h hclose ih => exact ih.trans (left_adv_le l)
  | case3 l h => exact le_rfl

def skipWs (l : Lexer) : Lexer :=
  if h : l.atEnd = false then
    if isSpace l.peekc then skipWs l.adv
    else if l.peekc = ch '/' ∧ l.peekc2 = ch '/' then
      skipWs (advWhile (· ≠ ch '\n') l.adv.adv)
    else if l.peekc = ch '/' ∧ l.peekc2 = ch '*' then
      let r := skipBlock l.adv.adv
      if r.1 then skipWs r.2
      else diagEmit r.2 true l.line l.col "unterminated block comment"
    else if l.peekc = ch '#' then skipWs (advWhile (· ≠ ch '\n') l.adv)
    else l
  else l
termination_by l.left
decreasing_by
  · exact left_adv_lt h
  · exact (left_advWhile_le _ _).trans_lt ((left_adv_le _).trans_lt (left_adv_lt h))
  · exact (left_skipBlock_le _).trans_lt ((left_adv_le _).trans_lt (left_adv_lt h))
  · exact (left_advWhile_le _ _).trans_lt (left_adv_lt h)

/-! ### Numbers -/

def isDigit (c : Byte) : Bool := 48 ≤ c.toNat ∧ c.toNat ≤ 57

def isOctal (c : Byte) : Bool := 48 ≤ c.toNat ∧ c.toNat ≤ 55

def isHex (c : Byte) : Bool :=
  isDigit c ∨ (97 ≤ c.toNat ∧ c.toNat ≤ 102) ∨ (65 ≤ c.toNat ∧ c.toNat ≤ 70)

def isAlpha (c : Byte) : Bool := (97 ≤ c.toNat ∧ c.toNat ≤ 122) ∨ (65 ≤ c.toNat ∧ c.toNat ≤ 90)

def isIdent (c : Byte) : Bool := isAlpha c ∨ isDigit c ∨ c = ch '_'

/-- The value of a digit, `h - '0'` up to `'9'` and `(h | 32) - 'a' + 10` above. -/
def digitVal (h : Byte) : ℤ :=
  if h.toNat ≤ 57 then (h.toNat : ℤ) - 48 else ((h ||| 32).toNat : ℤ) - 97 + 10

/-- `strtoull` of a text that starts with a digit. -/
def strtoull (base : ℕ) (s : List Byte) : BitVec 64 :=
  let digits :=
    if base = 16 ∧ s.head? = some (ch '0') ∧ (s[1]? = some (ch 'x') ∨ s[1]? = some (ch 'X')) ∧
        (s[2]?).any isHex then s.drop 2 else s
  let n := (digits.takeWhile fun c => isHex c && decide (digitVal c < base)).foldl
    (fun n c => n * base + (digitVal c).toNat) 0
  BitVec.ofNat 64 (min n (2 ^ 64 - 1))

/-- `if (q(peekc(l))) adv(l);` -/
def advIf (q : Byte → Bool) (l : Lexer) : Lexer := if q l.peekc then l.adv else l

/-- A fraction, if there is one. -/
def scanFraction (digit : Byte → Bool) (l : Lexer) : Bool × Lexer :=
  if l.peekc = ch '.' then (true, advWhile digit l.adv) else (false, l)

/-- An exponent after `lower` or `upper`, if there is one. -/
def scanExponent (lower upper : Byte) (isFlt : Bool) (l : Lexer) : Bool × Lexer :=
  if l.peekc = lower ∨ l.peekc = upper then
    (true, advWhile isDigit (advIf (fun c => c = ch '+' ∨ c = ch '-') l.adv))
  else (isFlt, l)

/-- The digits of a number: is it a floating one, and its base. -/
def scanDigits (l : Lexer) : Bool × ℕ × Lexer :=
  if l.peekc = ch '0' ∧ (l.peekc2 = ch 'x' ∨ l.peekc2 = ch 'X') then
    let r := scanFraction isHex (advWhile isHex l.adv.adv)
    let r := scanExponent (ch 'p') (ch 'P') r.1 r.2
    (r.1, 16, r.2)
  else if l.peekc = ch '0' ∧ isOctal l.peekc2 then (false, 8, advWhile isOctal l)
  else
    let r := scanFraction isDigit (advWhile isDigit l)
    let r := scanExponent (ch 'e') (ch 'E') r.1 r.2
    (r.1, 10, r.2)

def scanSuffix (suffix : ℕ) (l : Lexer) : ℕ × Lexer :=
  let isL (c : Byte) : Bool := c = ch 'l' ∨ c = ch 'L'
  if h : l.peekc = ch 'u' ∨ l.peekc = ch 'U' then scanSuffix (suffix ||| intSuffixU) l.adv
  else if h : isL l.peekc ∧ isL l.peekc2 then scanSuffix (suffix ||| intSuffixLL) l.adv.adv
  else if h : isL l.peekc then scanSuffix (suffix ||| intSuffixL) l.adv
  else (suffix, l)
termination_by l.left
decreasing_by
  · apply left_adv_lt
    apply atEnd_of_peekc
    rcases h with h | h <;> rw [h] <;> decide
  · apply (left_adv_le _).trans_lt
    apply left_adv_lt
    apply atEnd_of_peekc
    rcases of_decide_eq_true h.1 with h | h <;> rw [h] <;> decide
  · apply left_adv_lt
    apply atEnd_of_peekc
    rcases of_decide_eq_true h with h | h <;> rw [h] <;> decide

def scanNum (strtod : List Byte → BitVec 64) (l : Lexer) (s : ℕ) (ln co : ℤ) : Token × Lexer :=
  let (isFlt, base, l) := scanDigits l
  let text := l.src.drop s
  if isFlt then
    let suffix : Byte :=
      if l.peekc = ch 'f' ∨ l.peekc = ch 'F' then ch 'f'
      else if l.peekc = ch 'l' ∨ l.peekc = ch 'L' then ch 'l'
      else 0
    let l := if suffix = 0 then l else l.adv
    ({ mktok l .floatLit s ln co with floatVal := strtod text, floatSuffix := suffix }, l)
  else
    let (suffix, l) := scanSuffix 0 l
    ({ mktok l .intLit s ln co with intVal := strtoull base text, intSuffix := suffix }, l)

/-! ### Characters and strings -/

def scanHex (v : ℤ) (l : Lexer) : ℤ × Lexer :=
  if h : l.atEnd = false ∧ isHex l.peekc then
    scanHex (toInt32 (v * 16 + digitVal l.peekc)) l.adv
  else (v, l)
termination_by l.left
decreasing_by exact left_adv_lt h.1

/-- At most `n` more octal digits. -/
def scanOctal : ℕ → ℤ → Lexer → ℤ × Lexer
  | 0, v, l => (v, l)
  | n + 1, v, l =>
      if l.atEnd = false ∧ isOctal l.peekc then scanOctal n (v * 8 + digitVal l.peekc) l.adv
      else (v, l)

/-- The escapes of one character, those of `\0` among them. -/
def simpleEscape (c : Byte) : Option ℤ :=
  if c = ch 'n' then some 10
  else if c = ch 't' then some 9
  else if c = ch 'r' then some 13
  else if c = ch '\\' then some 92
  else if c = ch '\'' then some 39
  else if c = ch '"' then some 34
  else if c = ch '0' then some 0
  else if c = ch 'a' then some 7
  else if c = ch 'b' then some 8
  else if c = ch 'f' then some 12
  else if c = ch 'v' then some 11
  else none

/-- The backslash is read already. -/
def scanEsc (l : Lexer) : ℤ × Lexer :=
  let c := l.peekc
  let l := l.adv
  match simpleEscape c with
  | some v => (v, l)
  | none =>
    if c = ch 'x' then scanHex 0 l
    else if isOctal c then scanOctal 2 (digitVal c) l
    else
      (c.toInt, diagEmit l false l.line l.col ("unknown escape '\\" ++ String.singleton (Char.ofNat c.toNat) ++ "'"))

theorem left_scanHex_le (v : ℤ) (l : Lexer) : (scanHex v l).2.left ≤ l.left := by
  fun_induction scanHex v l with
  | case1 v l h ih => exact ih.trans (left_adv_le l)
  | case2 v l h => exact le_rfl

theorem left_scanOctal_le (n : ℕ) (v : ℤ) (l : Lexer) : (scanOctal n v l).2.left ≤ l.left := by
  induction n generalizing v l with
  | zero => exact le_rfl
  | succ n ih =>
    rw [scanOctal]
    split
    · exact (ih _ _).trans (left_adv_le l)
    · exact le_rfl

theorem left_scanEsc_le (l : Lexer) : (scanEsc l).2.left ≤ l.left := by
  have hadv := left_adv_le l
  unfold scanEsc
  dsimp only
  split
  · exact hadv
  · split
    · exact (left_scanHex_le _ _).trans hadv
    · split
      · exact (left_scanOctal_le _ _ _).trans hadv
      · exact hadv

/-- The inside of a string up to the closing quote or the end of the text; `false` if a line
ends in it. `buf` has room for 4095 bytes. -/
def scanStrBody (buf : List Byte) (l : Lexer) : Bool × List Byte × Lexer :=
  if h : l.atEnd = false ∧ l.peekc ≠ ch '"' then
    if l.peekc = ch '\n' then (false, buf, l)
    else if l.peekc = ch '\\' then
      if buf.length < 4095 then
        scanStrBody (buf ++ [BitVec.ofInt 8 (scanEsc l.adv).1]) (scanEsc l.adv).2
      else scanStrBody buf l.adv
    else scanStrBody (if buf.length < 4095 then buf ++ [l.peekc] else buf) l.adv
  else (true, buf, l)
termination_by l.left
decreasing_by
  · exact (left_scanEsc_le _).trans_lt (left_adv_lt h.1)
  · exact left_adv_lt h.1
  · exact left_adv_lt h.1

def scanStr (l : Lexer) (s : ℕ) (ln co : ℤ) (wide : Bool) : Token × Lexer :=
  let (oneLine, buf, l) := scanStrBody [] l.adv
  if !oneLine || l.atEnd then errtok l s ln co "unterminated string literal"
  else
    let l := l.adv
    let (idx, strings) := strtabIntern l.strings buf
    ({ mktok l .strLit s ln co with strIdx := idx, isWide := wide }, { l with strings := strings })

def scanChr (l : Lexer) (s : ℕ) (ln co : ℤ) (wide : Bool) : Token × Lexer :=
  let l := l.adv
  if l.atEnd || l.peekc = ch '\'' then errtok l s ln co "empty character literal"
  else
    let (val, l) := if l.peekc = ch '\\' then scanEsc l.adv else ((l.peekc.toNat : ℤ), l.adv)
    if l.atEnd || l.peekc ≠ ch '\'' then errtok l s ln co "unterminated character literal"
    else
      let l := l.adv
      ({ mktok l .charLit s ln co with intVal := BitVec.ofInt 64 val, isWide := wide }, l)

/-! ### Tokens -/

/-- The operators that go on with one of some characters. -/
def scanOp (l : Lexer) (s : ℕ) (ln co : ℤ) (longer : List (Char × TokenKind)) (k : TokenKind) :
    Token × Lexer :=
  match longer.find? fun o => ch o.1 = l.peekc with
  | some o => (mktok l.adv o.2 s ln co, l.adv)
  | none => (mktok l k s ln co, l)

/-- The `switch` of `scan_token`; the character `c` is read already. -/
def scanPunct (strtod : List Byte → BitVec 64) (c : Byte) (l : Lexer) (s : ℕ) (ln co : ℤ) :
    Token × Lexer :=
  match Char.ofNat c.toNat with
  | '(' => (mktok l .lparen s ln co, l)
  | ')' => (mktok l .rparen s ln co, l)
  | '{' => (mktok l .lbrace s ln co, l)
  | '}' => (mktok l .rbrace s ln co, l)
  | '[' => (mktok l .lbracket s ln co, l)
  | ']' => (mktok l .rbracket s ln co, l)
  | ';' => (mktok l .semicolon s ln co, l)
  | ',' => (mktok l .comma s ln co, l)
  | '~' => (mktok l .tilde s ln co, l)
  | '?' => (mktok l .question s ln co, l)
  | ':' => (mktok l .colon s ln co, l)
  | '#' => (mktok l .hash s ln co, l)
  | '+' => scanOp l s ln co [('+', .plusplus), ('=', .plusAssign)] .plus
  | '-' => scanOp l s ln co [('-', .minusminus), ('=', .minusAssign), ('>', .arrow)] .minus
  | '*' => scanOp l s ln co [('=', .starAssign)] .star
  | '/' => scanOp l s ln co [('=', .slashAssign)] .slash
  | '%' => scanOp l s ln co [('=', .percentAssign)] .percent
  | '&' => scanOp l s ln co [('&', .and), ('=', .ampAssign)] .amp
  | '|' => scanOp l s ln co [('|', .or), ('=', .pipeAssign)] .pipe
  | '^' => scanOp l s ln co [('=', .caretAssign)] .caret
  | '!' => scanOp l s ln co [('=', .neq)] .bang
  | '=' => scanOp l s ln co [('=', .eq)] .assign
  | '<' =>
      if l.peekc = ch '<' then scanOp l.adv s ln co [('=', .lshiftAssign)] .lshift
      else scanOp l s ln co [('=', .le)] .lt
  | '>' =>
      if l.peekc = ch '>' then scanOp l.adv s ln co [('=', .rshiftAssign)] .rshift
      else scanOp l s ln co [('=', .ge)] .gt
  | '.' =>
      if l.peekc = ch '.' ∧ l.peekc2 = ch '.' then
        (mktok l.adv.adv .ellipsis s ln co, l.adv.adv)
      else if isDigit l.peekc then scanNum strtod { l with cur := s, col := co } s ln co
      else (mktok l .dot s ln co, l)
  | _ => errtok l s ln co "unexpected character"

/-- An identifier or keyword whose first character is read already. -/
def scanWord (l : Lexer) (s : ℕ) (ln co : ℤ) : Token × Lexer :=
  let l := advWhile isIdent l
  let text := (l.src.drop s).take (l.cur - s)
  let k := lookupKeyword text
  if k = .ident then
    let (idx, strings) := strtabIntern l.strings text
    ({ mktok l k s ln co with strIdx := idx }, { l with strings := strings })
  else (mktok l k s ln co, l)

def scanToken (strtod : List Byte → BitVec 64) (l : Lexer) : Token × Lexer :=
  let l := skipWs l
  if l.atEnd then (mktok l .eof l.cur l.line l.col, l)
  else
    let s := l.cur
    let ln := l.line
    let co := l.col
    let c := l.peekc
    let l := l.adv
    if isAlpha c || c = ch '_' then
      if c = ch 'L' && l.peekc = ch '"' then scanStr l s ln co true
      else if c = ch 'L' && l.peekc = ch '\'' then scanChr l s ln co true
      else scanWord l s ln co
    -- the cursor goes back to the start of the token
    else if isDigit c then scanNum strtod { l with cur := s, col := co } s ln co
    else if c = ch '"' then scanStr { l with cur := s, col := co } s ln co false
    else if c = ch '\'' then scanChr { l with cur := s, col := co } s ln co false
    else scanPunct strtod c l s ln co

def lexerNext (strtod : List Byte → BitVec 64) (l : Lexer) : Token × Lexer :=
  match l.peeked with
  | some t => (t, { l with peeked := none })
  | none => scanToken strtod l

def lexerPeek (strtod : List Byte → BitVec 64) (l : Lexer) : Token × Lexer :=
  match l.peeked with
  | some t => (t, l)
  | none =>
      let (t, l) := scanToken strtod l
      (t, { l with peeked := some t })

end TinyC
