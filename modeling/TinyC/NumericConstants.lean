import TinyC.IntConstants

/-!
# Numeric constants

The scanner chooses the base of a constant by its first two characters, before it knows whether the
constant is a floating one. A floating constant is scanned whole unless it starts like an octal one.
-/

namespace TinyC

/-! ### Floating constants of C99 -/

/-- The sign and the digits of an exponent, after its mark. -/
structure Exponent where
  upper : Bool
  /-- Is there a sign, and is it a minus? -/
  sign : Option Bool
  digits : List Byte
  wellFormed : digits ≠ [] ∧ ∀ d ∈ digits, isDigit d = true

inductive FloatSuffix where
  | none
  | float (upper : Bool)
  | long (upper : Bool)
  deriving DecidableEq, Repr

/-- A floating constant, decimal or with `0x` or `0X`. -/
structure FloatConstant where
  /-- Is it hexadecimal, and is the `x` a capital? -/
  hex : Option Bool := none
  /-- The digits before the point and, if there is a point, those after it. -/
  whole : List Byte
  fraction : Option (List Byte)
  exponent : Option Exponent
  suffix : FloatSuffix
  digits : ∀ d ∈ whole ++ fraction.getD [], (if hex.isSome then isHex d else isDigit d) = true
  nonempty : whole ++ fraction.getD [] ≠ []
  /-- A decimal constant has a point or an exponent, a hexadecimal one an exponent. -/
  floating : exponent.isSome ∨ hex = none ∧ fraction.isSome

namespace FloatConstant

variable (c : FloatConstant)

def digit : Byte → Bool := if c.hex.isSome then isHex else isDigit

/-- What stands before the digits. -/
def markText : List Byte :=
  match c.hex with
  | none => []
  | some upper => [ch '0', if upper then ch 'X' else ch 'x']

def fractionText : List Byte :=
  match c.fraction with
  | none => []
  | some ds => ch '.' :: ds

def lowerMark : Byte := if c.hex.isSome then ch 'p' else ch 'e'

def upperMark : Byte := if c.hex.isSome then ch 'P' else ch 'E'

def exponentText : List Byte :=
  match c.exponent with
  | none => []
  | some e => (if e.upper then c.upperMark else c.lowerMark) ::
      (e.sign.toList.map fun minus => if minus then ch '-' else ch '+') ++ e.digits

def suffixText : List Byte :=
  match c.suffix with
  | .none => []
  | .float upper => [if upper then ch 'F' else ch 'f']
  | .long upper => [if upper then ch 'L' else ch 'l']

/-- The suffix in the token. -/
def suffixFlag : Byte :=
  match c.suffix with
  | .none => 0
  | .float _ => ch 'f'
  | .long _ => ch 'l'

def text : List Byte :=
  c.markText ++ (c.whole ++ (c.fractionText ++ (c.exponentText ++ c.suffixText)))

/-- A decimal constant whose first two characters are those of an octal one. -/
def LooksOctal : Prop :=
  c.hex = none ∧ ∃ o ds, c.whole = ch '0' :: o :: ds ∧ isOctal o = true

end FloatConstant

/-! ### The parts of a constant -/

section Parts

variable {l : Lexer} {tail : List Byte} {c : FloatConstant}

/-- A point and the digits after it. -/
theorem scanFraction_text {digit : Byte → Bool}
    (hdigits : ∀ d ∈ c.fraction.getD [], digit d = true) (htail : digit (tail.headD 0) = false)
    (hdot : tail.headD 0 ≠ ch '.') (h : l.rest = c.fractionText ++ tail) :
    ∃ l', scanFraction digit l = (c.fraction.isSome, l') ∧ l'.rest = tail := by
  rw [FloatConstant.fractionText] at h
  cases hfraction : c.fraction with
  | none =>
    simp only [hfraction, List.nil_append] at h
    have hpeek : l.peekc = tail.headD 0 := by rw [Lexer.peekc_eq, h]
    exact ⟨l, scanFraction_none digit (by rw [hpeek]; exact hdot), h⟩
  | some ds =>
    simp only [hfraction] at h
    obtain ⟨hpeek, -, hadv⟩ := peekc_of_rest h
    have hds : ∀ d ∈ ds, digit d = true := by simpa [hfraction] using hdigits
    exact ⟨_, by rw [scanFraction, if_pos hpeek]; rfl, advWhile_rest hds htail hadv⟩

theorem sign_char : ∀ minus : Bool, (if minus then ch '-' else ch '+') = ch '+' ∨
    (if minus then ch '-' else ch '+') = ch '-' := by decide

theorem digit_no_sign {d : Byte} (h : isDigit d = true) : ¬(d = ch '+' ∨ d = ch '-') := by
  revert h
  revert d
  decide

/-- An exponent with its sign. -/
theorem scanExponent_text (htail : isDigit (tail.headD 0) = false) (b : Bool)
    (hmark : c.exponent = none → tail.headD 0 ≠ c.lowerMark ∧ tail.headD 0 ≠ c.upperMark)
    (h : l.rest = c.exponentText ++ tail) :
    ∃ l', scanExponent c.lowerMark c.upperMark b l = (b || c.exponent.isSome, l') ∧
      l'.rest = tail := by
  rw [FloatConstant.exponentText] at h
  cases hexp : c.exponent with
  | none =>
    simp only [hexp, List.nil_append] at h
    have hpeek : l.peekc = tail.headD 0 := by rw [Lexer.peekc_eq, h]
    refine ⟨l, ?_, h⟩
    rw [scanExponent_none b (by rw [hpeek]; exact hmark hexp)]
    simp
  | some e =>
    simp only [hexp] at h
    obtain ⟨hpeek, -, hadv⟩ := peekc_of_rest h
    have hletter : l.peekc = c.lowerMark ∨ l.peekc = c.upperMark := by
      rw [hpeek]
      cases e.upper
      · exact .inl rfl
      · exact .inr rfl
    have hsign : (advIf (fun c => c = ch '+' ∨ c = ch '-') l.adv).rest = e.digits ++ tail := by
      obtain ⟨upper, sign, ds, hne, hall⟩ := e
      cases sign with
      | none =>
        obtain ⟨d, ds', rfl⟩ := List.exists_cons_of_ne_nil hne
        have hd : l.adv.peekc = d := (peekc_of_rest hadv).1
        have hno := digit_no_sign (hall d List.mem_cons_self)
        rw [advIf, if_neg (by simpa [hd] using hno)]
        exact hadv
      | some minus =>
        obtain ⟨hd, -, hadv'⟩ := peekc_of_rest hadv
        rw [advIf, if_pos (by rw [hd]; exact decide_eq_true (sign_char minus))]
        exact hadv'
    refine ⟨_, ?_, advWhile_rest e.wellFormed.2 htail hsign⟩
    rw [scanExponent, if_pos hletter]
    simp

/-! ### Floating constants -/

section Floating

variable {rest : List Byte} (hrest : EndsNumber rest)

theorem FloatConstant.digits_whole (c : FloatConstant) : ∀ d ∈ c.whole, c.digit d = true := by
  intro d hd
  have h := c.digits d (List.mem_append_left _ hd)
  unfold FloatConstant.digit
  split at h <;> simp_all

theorem FloatConstant.digits_fraction (c : FloatConstant) :
    ∀ d ∈ c.fraction.getD [], c.digit d = true := by
  intro d hd
  have h := c.digits d (List.mem_append_right _ hd)
  unfold FloatConstant.digit
  split at h <;> simp_all

/-- The marks of an exponent are no digits, and no point. -/
theorem FloatConstant.mark_char (c : FloatConstant) (upper : Bool) :
    c.digit (if upper then c.upperMark else c.lowerMark) = false ∧
      (if upper then c.upperMark else c.lowerMark) ≠ ch '.' := by
  unfold FloatConstant.digit FloatConstant.upperMark FloatConstant.lowerMark
  cases c.hex.isSome <;> cases upper <;> decide

include hrest

/-- What follows the exponent. -/
theorem suffix_head (c : FloatConstant) :
    isDigit ((c.suffixText ++ rest).headD 0) = false ∧
      (c.suffixText ++ rest).headD 0 ≠ ch '.' ∧ (c.suffixText ++ rest).headD 0 ≠ ch 'e' ∧
        (c.suffixText ++ rest).headD 0 ≠ ch 'E' := by
  have hident : ∀ {b : Byte},
      isIdent b = false → isDigit b = false ∧ b ≠ ch 'e' ∧ b ≠ ch 'E' := by decide
  have hletter : ∀ b ∈ [ch 'f', ch 'F', ch 'l', ch 'L'],
      isDigit b = false ∧ b ≠ ch '.' ∧ b ≠ ch 'e' ∧ b ≠ ch 'E' := by decide
  unfold FloatConstant.suffixText
  cases c.suffix with
  | none =>
    obtain ⟨hdigit, hlower, hupper⟩ := hident hrest.headD.1
    exact ⟨hdigit, hrest.headD.2, hlower, hupper⟩
  | float upper => exact hletter _ (by cases upper <;> simp)
  | long upper => exact hletter _ (by cases upper <;> simp)

/-- What follows the fraction. -/
theorem exponent_head (c : FloatConstant) :
    c.digit ((c.exponentText ++ (c.suffixText ++ rest)).headD 0) = false ∧
      (c.exponentText ++ (c.suffixText ++ rest)).headD 0 ≠ ch '.' := by
  unfold FloatConstant.exponentText
  cases hexp : c.exponent with
  | some e => exact c.mark_char e.upper
  | none =>
    have hfloating := c.floating
    rw [hexp] at hfloating
    have hhex : c.hex = none := by simpa using hfloating.resolve_left (by simp) |>.1
    obtain ⟨hdigit, hdot, -⟩ := suffix_head hrest c
    refine ⟨?_, hdot⟩
    rw [FloatConstant.digit, hhex]
    exact hdigit

omit hrest in
/-- What follows the digits before the point. -/
theorem fraction_head (c : FloatConstant) (tail : List Byte) :
    (c.fractionText ++ (c.exponentText ++ tail)).headD 0 = ch '.' ∨
      ∃ upper : Bool, (c.fractionText ++ (c.exponentText ++ tail)).headD 0 =
        if upper then c.upperMark else c.lowerMark := by
  unfold FloatConstant.fractionText
  cases hfraction : c.fraction with
  | some ds => exact .inl rfl
  | none =>
    have hfloating := c.floating
    rw [hfraction] at hfloating
    obtain ⟨e, he⟩ := Option.isSome_iff_exists.mp (hfloating.resolve_right (by simp))
    unfold FloatConstant.exponentText
    rw [he]
    exact .inr ⟨e.upper, rfl⟩

/-- The digits, the fraction and the exponent of a constant, after its mark. -/
theorem scan_parts (c : FloatConstant) {l : Lexer}
    (h : l.rest = c.whole ++ (c.fractionText ++ (c.exponentText ++ (c.suffixText ++ rest)))) :
    ∃ l₁ l₂, scanFraction c.digit (advWhile c.digit l) = (c.fraction.isSome, l₁) ∧
      scanExponent c.lowerMark c.upperMark c.fraction.isSome l₁ = (true, l₂) ∧
        l₂.rest = c.suffixText ++ rest := by
  have hstop : c.digit ((c.fractionText ++ (c.exponentText ++ (c.suffixText ++ rest))).headD 0) =
      false := by
    rcases fraction_head c (c.suffixText ++ rest) with hdot | ⟨upper, hmark⟩
    · rw [hdot, FloatConstant.digit]
      cases c.hex.isSome <;> decide
    · rw [hmark]
      exact (c.mark_char upper).1
  have hwhole := advWhile_rest c.digits_whole hstop h
  obtain ⟨hexp, hexpdot⟩ := exponent_head hrest c
  obtain ⟨l₁, hfraction, hrest₁⟩ := scanFraction_text c.digits_fraction hexp hexpdot hwhole
  obtain ⟨hdigit, -, hlower, hupper⟩ := suffix_head hrest c
  have hmark : c.exponent = none → (c.suffixText ++ rest).headD 0 ≠ c.lowerMark ∧
      (c.suffixText ++ rest).headD 0 ≠ c.upperMark := by
    intro hnone
    have hfloating := c.floating
    rw [hnone] at hfloating
    have hhex : c.hex = none := by simpa using hfloating.resolve_left (by simp) |>.1
    rw [FloatConstant.lowerMark, FloatConstant.upperMark, hhex]
    exact ⟨hlower, hupper⟩
  obtain ⟨l₂, hscan, hrest₂⟩ := scanExponent_text hdigit c.fraction.isSome hmark hrest₁
  refine ⟨l₁, l₂, hfraction, ?_, hrest₂⟩
  rw [hscan]
  rcases c.floating with hsome | ⟨-, hsome⟩ <;> simp [hsome]

omit hrest in
/-- What follows a zero at the start of a decimal constant is neither an `x` nor, if the constant
does not look octal, an octal digit. -/
theorem decimal_start (c : FloatConstant) (hhex : c.hex = none) (hc : ¬c.LooksOctal) {l : Lexer}
    {tail : List Byte} (h : l.rest = c.whole ++ (c.fractionText ++ (c.exponentText ++ tail)))
    (hzero : l.peekc = ch '0') :
    (l.peekc2 ≠ ch 'x' ∧ l.peekc2 ≠ ch 'X') ∧ isOctal l.peekc2 = false := by
  have hupper : ∀ upper : Bool, (if upper then c.upperMark else c.lowerMark) = ch 'e' ∨
      (if upper then c.upperMark else c.lowerMark) = ch 'E' := by
    intro upper
    rw [FloatConstant.upperMark, FloatConstant.lowerMark, hhex]
    cases upper
    · exact .inl rfl
    · exact .inr rfl
  have hnext : ∀ b : Byte, b ∈ [ch '.', ch 'e', ch 'E'] →
      b ≠ ch '0' ∧ (b ≠ ch 'x' ∧ b ≠ ch 'X') ∧ isOctal b = false := by decide
  have hdigit : ∀ {b : Byte}, isDigit b = true → b ≠ ch 'x' ∧ b ≠ ch 'X' := by decide
  have hhead : (c.fractionText ++ (c.exponentText ++ tail)).headD 0 ∈
      [ch '.', ch 'e', ch 'E'] := by
    rcases fraction_head c tail with hdot | ⟨upper, hmark⟩
    · rw [hdot]
      simp
    · rw [hmark]
      rcases hupper upper with he | he <;> simp [he]
  cases hwhole : c.whole with
  | nil =>
    rw [hwhole, List.nil_append] at h
    rw [Lexer.peekc_eq, h] at hzero
    exact absurd hzero (hnext _ hhead).1
  | cons d ds =>
    rw [hwhole, List.cons_append] at h
    have hd : d = ch '0' := (peekc_of_rest h).1.symm.trans hzero
    rw [Lexer.peekc2_of_rest h]
    cases ds with
    | nil => exact (hnext _ hhead).2
    | cons o ds =>
      have ho : isDigit o = true := by
        simpa [FloatConstant.digit, hhex] using c.digits_whole o (by simp [hwhole])
      refine ⟨hdigit ho, ?_⟩
      by_contra hoctal
      rw [Bool.not_eq_false] at hoctal
      exact hc ⟨hhex, o, ds, by rw [hwhole, hd], hoctal⟩

/-- A constant that does not look octal is scanned up to its suffix. -/
theorem scanDigits_float (c : FloatConstant) (hc : ¬c.LooksOctal) {l : Lexer}
    (h : l.rest = c.text ++ rest) :
    ∃ base l', scanDigits l = (true, base, l') ∧ l'.rest = c.suffixText ++ rest := by
  have htext : l.rest = c.markText ++ (c.whole ++ (c.fractionText ++ (c.exponentText ++
      (c.suffixText ++ rest)))) := by
    rw [h, FloatConstant.text]
    simp only [List.append_assoc]
  cases hhex : c.hex with
  | some upper =>
    simp only [FloatConstant.markText, hhex, List.cons_append, List.nil_append] at htext
    obtain ⟨hpeek, -, hadv⟩ := peekc_of_rest htext
    have hpeek2 : l.peekc2 = if upper then ch 'X' else ch 'x' := Lexer.peekc2_of_rest htext
    have hmark : l.peekc2 = ch 'x' ∨ l.peekc2 = ch 'X' := by
      rw [hpeek2]
      cases upper
      · exact .inl rfl
      · exact .inr rfl
    obtain ⟨l₁, l₂, hfraction, hexp, hrest₂⟩ :=
      scan_parts hrest c (peekc_of_rest hadv).2.2
    have hdigit : c.digit = isHex := by simp [FloatConstant.digit, hhex]
    have hlower : c.lowerMark = ch 'p' := by simp [FloatConstant.lowerMark, hhex]
    have hupper : c.upperMark = ch 'P' := by simp [FloatConstant.upperMark, hhex]
    rw [hdigit] at hfraction
    rw [hlower, hupper] at hexp
    refine ⟨16, l₂, ?_, hrest₂⟩
    rw [scanDigits, if_pos ⟨hpeek, hmark⟩]
    dsimp only
    rw [hfraction, hexp]
  | none =>
    simp only [FloatConstant.markText, hhex, List.nil_append] at htext
    obtain ⟨l₁, l₂, hfraction, hexp, hrest₂⟩ := scan_parts hrest c htext
    have hdigit : c.digit = isDigit := by simp [FloatConstant.digit, hhex]
    have hlower : c.lowerMark = ch 'e' := by simp [FloatConstant.lowerMark, hhex]
    have hupper : c.upperMark = ch 'E' := by simp [FloatConstant.upperMark, hhex]
    rw [hdigit] at hfraction
    rw [hlower, hupper] at hexp
    have hstart := decimal_start c hhex hc htext
    refine ⟨10, l₂, ?_, hrest₂⟩
    rw [scanDigits, if_neg (fun hx => by have := hstart hx.1; tauto),
      if_neg (fun hx => by rw [(hstart hx.1).2] at hx; cases hx.2)]
    dsimp only
    rw [hfraction, hexp]

omit hrest in
/-- Of a constant that looks octal only the digits up to the first that is not octal are read. -/
theorem scanDigits_looksOctal (c : FloatConstant) (hc : c.LooksOctal) {l : Lexer}
    (h : l.rest = c.text ++ rest) : (scanDigits l).1 = false := by
  obtain ⟨hhex, o, ds, hwhole, ho⟩ := hc
  have htext : l.rest = ch '0' :: o :: (ds ++ (c.fractionText ++ (c.exponentText ++
      c.suffixText)) ++ rest) := by
    rw [h, FloatConstant.text, FloatConstant.markText, hhex, hwhole]
    simp
  obtain ⟨hpeek, -, -⟩ := peekc_of_rest htext
  have hpeek2 : l.peekc2 = o := Lexer.peekc2_of_rest htext
  have hnox : ∀ {b : Byte}, isOctal b = true → ¬(b = ch 'x' ∨ b = ch 'X') := by decide
  rw [scanDigits, hpeek2, if_neg (fun hx => hnox ho hx.2), if_pos ⟨hpeek, ho⟩]

/-- The letter of a suffix is taken. -/
theorem scanSuffix_float (c : FloatConstant) {l : Lexer} (h : l.rest = c.suffixText ++ rest) :
    (if l.peekc = ch 'f' ∨ l.peekc = ch 'F' then ch 'f'
      else if l.peekc = ch 'l' ∨ l.peekc = ch 'L' then ch 'l' else 0) = c.suffixFlag ∧
    (if c.suffixFlag = 0 then l else l.adv).rest = rest := by
  have hident : ∀ {b : Byte}, isIdent b = false →
      ¬(b = ch 'f' ∨ b = ch 'F') ∧ ¬(b = ch 'l' ∨ b = ch 'L') := by decide
  unfold FloatConstant.suffixText at h
  unfold FloatConstant.suffixFlag
  cases hsuffix : c.suffix with
  | none =>
    simp only [hsuffix, List.nil_append] at h
    obtain ⟨hf, hl⟩ := hident hrest.headD.1
    have hpeek : l.peekc = rest.headD 0 := by rw [Lexer.peekc_eq, h]
    dsimp only
    rw [hpeek, if_neg hf, if_neg hl, if_pos rfl]
    exact ⟨rfl, h⟩
  | float upper =>
    simp only [hsuffix, List.cons_append, List.nil_append] at h
    obtain ⟨hpeek, -, hadv⟩ := peekc_of_rest h
    have hletter : l.peekc = ch 'f' ∨ l.peekc = ch 'F' := by
      rw [hpeek]
      cases upper
      · exact .inl rfl
      · exact .inr rfl
    rw [if_pos hletter]
    exact ⟨rfl, hadv⟩
  | long upper =>
    simp only [hsuffix, List.cons_append, List.nil_append] at h
    obtain ⟨hpeek, -, hadv⟩ := peekc_of_rest h
    have hletter : ¬(l.peekc = ch 'f' ∨ l.peekc = ch 'F') ∧
        (l.peekc = ch 'l' ∨ l.peekc = ch 'L') := by
      rw [hpeek]
      cases upper <;> decide
    rw [if_neg hletter.1, if_pos hletter.2]
    exact ⟨rfl, hadv⟩

end Floating

end Parts

/-! ### Tokens -/

/-- A C99 integer or floating constant. -/
inductive NumericConstant where
  | int (c : IntConstant)
  | float (c : FloatConstant)

namespace NumericConstant

def text : NumericConstant → List Byte
  | .int c => c.text
  | .float c => c.text

/-- The values that an `unsigned long long` can hold; of floating constants all are allowed. -/
def Fits : NumericConstant → Prop
  | .int c => c.value < 2 ^ 64
  | .float _ => True

/-- A floating constant that the scanner takes for an octal one. -/
def LooksOctal : NumericConstant → Prop
  | .int _ => False
  | .float c => c.LooksOctal

/-- Kind, value and flags of the token are those of the constant. -/
def Describes (strtod : List Byte → BitVec 64) (l : Lexer) (t : Token) : NumericConstant → Prop
  | .int c => t.kind = .intLit ∧ t.intVal.toNat = c.value ∧
      t.intSuffix = c.suffix.unsignedFlag ||| c.suffix.longFlag
  | .float c => t.kind = .floatLit ∧ t.floatVal = strtod l.rest ∧ t.floatSuffix = c.suffixFlag

end NumericConstant

/-- The constant at the cursor is one token, which ends where the constant does. -/
structure ScannedWhole (strtod : List Byte → BitVec 64) (l : Lexer) (n : NumericConstant) :
    Prop where
  start : (scanToken strtod l).1.start = l.cur
  len : (scanToken strtod l).1.len = n.text.length
  next : (scanToken strtod l).2.cur = l.cur + n.text.length
  token : n.Describes strtod l (scanToken strtod l).1

section

variable {strtod : List Byte → BitVec 64} {l : Lexer} {n : NumericConstant} {rest : List Byte}

theorem scanToken_point {bs : List Byte} {d : Byte} (h : l.rest = ch '.' :: d :: bs)
    (hd : isDigit d = true) : scanToken strtod l = scanNum strtod l l.cur l.line l.col := by
  have hpoint : isSpace (ch '.') = false ∧ ch '.' ≠ ch '/' ∧ ch '.' ≠ ch '#' ∧
      (isAlpha (ch '.') || decide (ch '.' = ch '_')) = false ∧ isDigit (ch '.') = false ∧
        ch '.' ≠ ch '"' ∧ ch '.' ≠ ch '\'' ∧ ch '.' ≠ ch '\n' := by decide
  obtain ⟨hspace, hslash, hhash, hword, hdigit, hquote, htick, hnl⟩ := hpoint
  obtain ⟨hpeek, hend, hadv⟩ := peekc_of_rest h
  have hnext : l.adv.peekc = d := (peekc_of_rest hadv).1
  have hws : skipWs l = l := by
    rw [skipWs, dif_pos hend, hpeek, if_neg (by simp [hspace]), if_neg (fun hx => hslash hx.1),
      if_neg (fun hx => hslash hx.1), if_neg hhash]
  have hback := rewind hend (by rw [hpeek]; exact hnl)
  have hne : ¬(d = ch '.' ∧ l.adv.peekc2 = ch '.') := by
    rintro ⟨rfl, -⟩
    cases hd
  rw [scanToken, hws]
  dsimp only
  rw [if_neg (by simp [hend]), hpeek, if_neg (by simpa using hword), if_neg (by simp [hdigit]),
    if_neg hquote, if_neg htick]
  change (if l.adv.peekc = ch '.' ∧ l.adv.peekc2 = ch '.' then _ else _) = _
  rw [hnext, if_neg hne, if_pos hd, hback]

/-- A constant begins with a digit, or with a point and a digit. -/
theorem NumericConstant.text_cons (n : NumericConstant) :
    (∃ d bs, isDigit d = true ∧ n.text = d :: bs) ∨
      ∃ d bs, isDigit d = true ∧ n.text = ch '.' :: d :: bs := by
  cases n with
  | int c =>
    obtain ⟨d, bs, hd, hnumeral⟩ := c.numeral_cons
    exact .inl ⟨d, bs ++ c.suffix.text, hd, by rw [text, IntConstant.text, hnumeral]; rfl⟩
  | float c =>
    cases hhex : c.hex with
    | some upper =>
      have hmark : c.markText = [ch '0', if upper then ch 'X' else ch 'x'] := by
        rw [FloatConstant.markText, hhex]
      have htext : text (.float c) = [ch '0', if upper then ch 'X' else ch 'x'] ++ (c.whole ++
          (c.fractionText ++ (c.exponentText ++ c.suffixText))) := by
        rw [text, FloatConstant.text, hmark]
      exact .inl ⟨ch '0', _, by decide, htext⟩
    | none =>
      have hdigit : c.digit = isDigit := by simp [FloatConstant.digit, hhex]
      have hmark : c.markText = [] := by rw [FloatConstant.markText, hhex]
      cases hwhole : c.whole with
      | cons d ds =>
        have hd := c.digits_whole d (by rw [hwhole]; exact List.mem_cons_self)
        rw [hdigit] at hd
        have htext : text (.float c) = d :: ds ++ (c.fractionText ++ (c.exponentText ++
            c.suffixText)) := by
          rw [text, FloatConstant.text, hmark, hwhole, List.nil_append]
        exact .inl ⟨d, _, hd, htext⟩
      | nil =>
        have hnonempty := c.nonempty
        rw [hwhole, List.nil_append] at hnonempty
        obtain ⟨d, ds, hds⟩ := List.exists_cons_of_ne_nil hnonempty
        have hd := c.digits_fraction d (by rw [hds]; exact List.mem_cons_self)
        rw [hdigit] at hd
        have hfraction : c.fraction = some (d :: ds) := by
          cases hf : c.fraction with
          | none => rw [hf] at hds; cases hds
          | some ds' => rw [hf] at hds; exact congrArg some hds
        have htext : text (.float c) = ch '.' :: d :: ds ++ (c.exponentText ++ c.suffixText) := by
          rw [text, FloatConstant.text, FloatConstant.fractionText, hmark, hwhole, hfraction,
            List.nil_append, List.nil_append]
        exact .inr ⟨d, _, hd, htext⟩

/-- The scanner takes the text for a number. -/
theorem scanToken_numeric (strtod : List Byte → BitVec 64) (h : l.rest = n.text ++ rest) :
    scanToken strtod l = scanNum strtod l l.cur l.line l.col ∧
      (isDigit l.peekc = true ∨ l.peekc = ch '.') := by
  rcases n.text_cons with ⟨d, bs, hd, htext⟩ | ⟨d, bs, hd, htext⟩
  · rw [htext, List.cons_append] at h
    exact ⟨scanToken_number strtod h hd, .inl (by rw [(peekc_of_rest h).1]; exact hd)⟩
  · rw [htext, List.cons_append, List.cons_append] at h
    exact ⟨scanToken_point h hd, .inr (peekc_of_rest h).1⟩

/-- The token of a constant that does not look octal. -/
theorem scanToken_describes (strtod : List Byte → BitVec 64) (hfit : n.Fits)
    (hoctal : ¬n.LooksOctal) (h : l.rest = n.text ++ rest) (hrest : EndsNumber rest) :
    n.Describes strtod l (scanToken strtod l).1 ∧ (scanToken strtod l).2.rest = rest := by
  obtain ⟨hscan, hstart⟩ := scanToken_numeric strtod h
  cases n with
  | int c =>
    obtain ⟨hkind, hval, hsuffix, hend⟩ := scanToken_constant strtod hfit h hrest
    have hnat : (scanToken strtod l).1.intVal.toNat = c.value := by
      rw [hval, BitVec.toNat_ofNat]
      exact Nat.mod_eq_of_lt hfit
    exact ⟨⟨hkind, hnat, hsuffix⟩, hend⟩
  | float c =>
    obtain ⟨base, l', hdigits, hrest'⟩ := scanDigits_float hrest c hoctal h
    obtain ⟨hflag, hend⟩ := scanSuffix_float hrest c hrest'
    have hsrc : l'.src = l.src := by
      have hlater := later_scanDigits hstart
      rw [hdigits] at hlater
      exact hlater.src.trans (Lexer.adv_src l)
    have hnum : scanNum strtod l l.cur l.line l.col =
        ({ mktok (if c.suffixFlag = 0 then l' else l'.adv) .floatLit l.cur l.line l.col with
            floatVal := strtod (l'.src.drop l.cur), floatSuffix := c.suffixFlag },
          if c.suffixFlag = 0 then l' else l'.adv) := by
      rw [scanNum, hdigits]
      dsimp only
      rw [hflag]
      rfl
    rw [hscan, hnum, hsrc]
    exact ⟨⟨rfl, rfl, rfl⟩, hend⟩

/-- Where a token ends that leaves the bytes after a text. -/
theorem cur_of_rest {l' : Lexer} (hlater : Lexer.Later l l') (hl : l.Located)
    {text : List Byte} (h : l.rest = text ++ rest) (hrest : l'.rest = rest) :
    l'.cur = l.cur + text.length := by
  have hle := (hlater.located hl).le
  have hle' := hl.le
  have hlen := congrArg List.length h
  have hlen' := congrArg List.length hrest
  rw [Lexer.rest, List.length_drop] at hlen hlen'
  rw [hlater.src] at hlen' hle
  rw [List.length_append] at hlen
  omega

/-- A constant is scanned whole exactly if it does not look octal and its length is an `int`. -/
theorem number_scanned_iff (hl : l.Located) (hfit : n.Fits) (h : l.rest = n.text ++ rest)
    (hrest : EndsNumber rest) :
    ScannedWhole strtod l n ↔ ¬n.LooksOctal ∧ n.text.length < 2 ^ 31 := by
  obtain ⟨hscan, hstart⟩ := scanToken_numeric strtod h
  have hmakes : Makes l.adv l.cur l.line l.col (scanToken strtod l) := by
    rw [hscan]
    exact scanNum_makes hstart
  constructor
  · intro hwhole
    have hoctal : ¬n.LooksOctal := by
      intro hoctal
      cases n with
      | int c => exact hoctal
      | float c =>
        have hkind := hwhole.token.1
        have hfalse := scanDigits_looksOctal c hoctal h
        rw [hscan, scanNum] at hkind
        dsimp only at hkind
        rw [hfalse] at hkind
        cases hkind
    refine ⟨hoctal, ?_⟩
    have hlen := hmakes.len
    rw [hwhole.len, hwhole.next, toInt32, Int.bmod_def] at hlen
    omega
  · rintro ⟨hoctal, hlen⟩
    obtain ⟨htoken, hend⟩ := scanToken_describes strtod hfit hoctal h hrest
    have hnext := cur_of_rest ((Lexer.Later.adv l).trans hmakes.later) hl h hend
    refine ⟨hmakes.start, ?_, hnext, htoken⟩
    rw [hmakes.len, hnext, toInt32, Int.bmod_def]
    omega

end

/-- `0x1.8p+1`. -/
def hexFloat : FloatConstant where
  hex := some false
  whole := [ch '1']
  fraction := some [ch '8']
  exponent := some ⟨false, some false, [ch '1'], by decide⟩
  suffix := .none
  digits := by decide
  nonempty := by decide
  floating := by decide

theorem hex_float_scanned :
    ScannedWhole (fun _ => 0) (lexerInit (hexFloat.text ++ [ch ';']) []) (.float hexFloat) := by
  have hrest : (lexerInit (hexFloat.text ++ [ch ';']) []).rest =
      (NumericConstant.float hexFloat).text ++ [ch ';'] := rfl
  have hoctal : ¬(NumericConstant.float hexFloat).LooksOctal := by
    rintro ⟨hhex, -⟩
    cases hhex
  exact (number_scanned_iff (n := .float hexFloat) (lexerInit_located _ _) trivial hrest
    (by simp [EndsNumber]; decide)).mpr ⟨hoctal, by decide⟩

/-- `00.5`. -/
def zeroFloat : FloatConstant where
  whole := [ch '0', ch '0']
  fraction := some [ch '5']
  exponent := none
  suffix := .none
  digits := by decide
  nonempty := by decide
  floating := by decide

theorem leading_zeros_split :
    ¬∀ (strtod : List Byte → BitVec 64) (l : Lexer) (n : NumericConstant) (rest : List Byte),
      l.Located → n.Fits → l.rest = n.text ++ rest → EndsNumber rest →
        ScannedWhole strtod l n := by
  intro h
  have hwhole := h (fun _ => 0) (lexerInit zeroFloat.text []) (.float zeroFloat) []
    (lexerInit_located _ _) trivial (by decide) (by simp [EndsNumber])
  have hkind := hwhole.token.1
  revert hkind
  decide +kernel

end TinyC
