import TinyC.LexerSpans
import TinyC.OperatorValue
import TinyC.Readback
import TinyC.Sema
import TinyC.TypeHistory

/-!
# The types of integer constants

An integer constant has a base, digits and a suffix. C99 gives it the first type of a list that can
hold its value. The scanner finds value and suffix; sema goes by the suffix alone.
-/

namespace TinyC

open TwosComplement

/-! ### Integer constants of C99 -/

inductive IntBase where
  | decimal | octal
  | hex (upper : Bool)
  deriving DecidableEq, Repr

/-- What a suffix says about the width. -/
inductive LongSuffix where
  | none
  | long (upper : Bool)
  | longLong (upper : Bool)
  deriving DecidableEq, Repr

structure IntSuffix where
  /-- Is there a `u`, and is it a capital? -/
  unsignedMark : Option Bool := none
  long : LongSuffix := .none
  unsignedFirst : Bool := true
  deriving DecidableEq, Repr

def IntBase.radix : IntBase → ℕ
  | .decimal => 10
  | .octal => 8
  | .hex _ => 16

/-- The digits of a constant of this base; those of an octal one start with its `0`. -/
def IntBase.Digits : IntBase → List Byte → Prop
  | .decimal, ds => (∃ d rest, ds = d :: rest ∧ d ≠ ch '0') ∧ ∀ d ∈ ds, isDigit d = true
  | .octal, ds => (∃ rest, ds = ch '0' :: rest) ∧ ∀ d ∈ ds, isOctal d = true
  | .hex _, ds => ds ≠ [] ∧ ∀ d ∈ ds, isHex d = true

structure IntConstant where
  base : IntBase
  digits : List Byte
  suffix : IntSuffix
  wellFormed : base.Digits digits

/-- The value of a digit. -/
def digitOf (d : Byte) : ℕ :=
  if d.toNat ≤ 57 then d.toNat - 48 else if d.toNat ≤ 70 then d.toNat - 55 else d.toNat - 87

namespace IntSuffix

def unsignedText (s : IntSuffix) : List Byte :=
  s.unsignedMark.toList.map fun upper => if upper then ch 'U' else ch 'u'

def longText (s : IntSuffix) : List Byte :=
  match s.long with
  | .none => []
  | .long upper => [if upper then ch 'L' else ch 'l']
  | .longLong upper => List.replicate 2 (if upper then ch 'L' else ch 'l')

def text (s : IntSuffix) : List Byte :=
  if s.unsignedFirst then s.unsignedText ++ s.longText else s.longText ++ s.unsignedText

def isUnsigned (s : IntSuffix) : Bool := s.unsignedMark.isSome

/-- Its flags in the scanner. -/
def unsignedFlag (s : IntSuffix) : ℕ := if s.isUnsigned then intSuffixU else 0

def longFlag (s : IntSuffix) : ℕ :=
  match s.long with
  | .none => 0
  | .long _ => intSuffixL
  | .longLong _ => intSuffixLL

/-- The largest value that the type named by the suffix alone can hold. -/
def limit (s : IntSuffix) : ℕ :=
  match s.long, s.isUnsigned with
  | .none, false => 2 ^ 31 - 1
  | .none, true => 2 ^ 32 - 1
  | _, false => 2 ^ 63 - 1
  | _, true => 2 ^ 64 - 1

end IntSuffix

namespace IntConstant

variable (c : IntConstant)

/-- The text up to the suffix. -/
def numeral : List Byte :=
  (match c.base with
    | .hex upper => [ch '0', if upper then ch 'X' else ch 'x']
    | _ => []) ++ c.digits

def text : List Byte := c.numeral ++ c.suffix.text

def value : ℕ := c.digits.foldl (fun n d => n * c.base.radix + digitOf d) 0

/-- The list of 6.4.4.1. -/
def candidates : List ScalarKind :=
  let decimal : Bool := c.base = .decimal
  match c.suffix.long, c.suffix.isUnsigned with
  | .none, false => if decimal then [.int, .long, .llong]
      else [.int, .uint, .long, .ulong, .llong, .ullong]
  | .none, true => [.uint, .ulong, .ullong]
  | .long _, false => if decimal then [.long, .llong] else [.long, .ulong, .llong, .ullong]
  | .long _, true => [.ulong, .ullong]
  | .longLong _, false => if decimal then [.llong] else [.llong, .ullong]
  | .longLong _, true => [.ullong]

/-- The first type of the list that can hold the value. -/
def c99Kind : Option ScalarKind := c.candidates.find? fun k => InRange k.signed k.bits c.value

end IntConstant

/-- Nothing that could go on with a constant follows. -/
def EndsNumber (rest : List Byte) : Prop :=
  ∀ b bs, rest = b :: bs → isIdent b = false ∧ b ≠ ch '.'

/-! ### The scanner -/

namespace Lexer

variable {l : Lexer}

theorem peekc_eq (l : Lexer) : l.peekc = l.rest.headD 0 := by
  cases hend : l.atEnd with
  | false => rw [rest_adv hend, List.headD_cons]
  | true =>
    have hle : l.src.length ≤ l.cur := by simpa [atEnd] using hend
    rw [rest_of_atEnd hend, peekc, List.getD_eq_default _ _ hle, List.headD_nil]

theorem peekc2_of_rest {b : Byte} {bs : List Byte} (h : l.rest = b :: bs) :
    l.peekc2 = bs.headD 0 := by
  obtain ⟨-, hend, hadv⟩ := peekc_of_rest h
  rw [peekc2_eq hend, peekc_eq, hadv]

end Lexer

/-- A loop over what stands first goes up to what stops it. -/
theorem advWhile_rest {q : Byte → Bool} {ds rest : List Byte} (hds : ∀ d ∈ ds, q d = true)
    (hrest : q (rest.headD 0) = false) {l : Lexer} (h : l.rest = ds ++ rest) :
    (advWhile q l).rest = rest := by
  induction ds generalizing l with
  | nil =>
    have hpeek := Lexer.peekc_eq l
    rw [h, List.nil_append] at hpeek
    rw [advWhile, dif_neg, h, List.nil_append]
    rintro ⟨-, hq⟩
    rw [hpeek, hrest] at hq
    cases hq
  | cons d ds ih =>
    obtain ⟨hpeek, hend, hadv⟩ := peekc_of_rest h
    rw [advWhile, dif_pos ⟨hend, by rw [hpeek]; exact hds d List.mem_cons_self⟩]
    exact ih (fun d hd => hds d (List.mem_cons_of_mem _ hd)) hadv

/-- What follows the digits: nothing that goes on with them or makes a floating constant. -/
structure StopsDigits (rest : List Byte) : Prop where
  hex : isHex (rest.headD 0) = false
  dot : rest.headD 0 ≠ ch '.'
  mark : rest.headD 0 ≠ ch 'x' ∧ rest.headD 0 ≠ ch 'X'
  exponent : rest.headD 0 ≠ ch 'p' ∧ rest.headD 0 ≠ ch 'P'

theorem isDigit_of_isHex {b : Byte} (h : isHex b = false) : isDigit b = false := by
  revert h
  revert b
  decide

theorem isOctal_of_isHex {b : Byte} (h : isHex b = false) : isOctal b = false := by
  revert h
  revert b
  decide

theorem ne_exponent_of_isHex {b : Byte} (h : isHex b = false) : b ≠ ch 'e' ∧ b ≠ ch 'E' := by
  revert h
  revert b
  decide

theorem scanFraction_none (digit : Byte → Bool) {l : Lexer} (h : l.peekc ≠ ch '.') :
    scanFraction digit l = (false, l) := if_neg h

theorem scanExponent_none {lower upper : Byte} (isFlt : Bool) {l : Lexer}
    (h : l.peekc ≠ lower ∧ l.peekc ≠ upper) :
    scanExponent lower upper isFlt l = (isFlt, l) := if_neg (by tauto)

theorem digitVal_eq {b : Byte} (h : isHex b = true) : (digitVal b).toNat = digitOf b := by
  revert h
  revert b
  decide

theorem digitVal_lt_ten {b : Byte} (h : isDigit b = true) : isHex b = true ∧ digitVal b < 10 := by
  revert h
  revert b
  decide

theorem digitVal_lt_eight {b : Byte} (h : isOctal b = true) : isHex b = true ∧ digitVal b < 8 := by
  revert h
  revert b
  decide

theorem digitVal_lt_sixteen {b : Byte} (h : isHex b = true) : digitVal b < 16 := by
  revert h
  revert b
  decide

/-- `strtoull` stops where the digits do. -/
theorem strtoull_digits {base : ℕ} {s ds tail : List Byte} (hs : s = ds ++ tail)
    (hds : ∀ d ∈ ds, isHex d = true ∧ digitVal d < base) (htail : isHex (tail.headD 0) = false) :
    BitVec.ofNat 64 (min ((s.takeWhile fun c => isHex c && decide (digitVal c < base)).foldl
      (fun n c => n * base + (digitVal c).toNat) 0) (2 ^ 64 - 1)) =
    BitVec.ofNat 64 (min (ds.foldl (fun n d => n * base + digitOf d) 0) (2 ^ 64 - 1)) := by
  have htake : (s.takeWhile fun c => isHex c && decide (digitVal c < base)) = ds := by
    rw [hs, List.takeWhile_append_of_pos]
    · cases tail with
      | nil => rw [List.takeWhile_nil, List.append_nil]
      | cons b bs =>
        rw [List.headD_cons] at htail
        rw [List.takeWhile_cons_of_neg (by simp [htail]), List.append_nil]
    · intro d hd
      simp [hds d hd]
  have hfold : ds.foldl (fun n c => n * base + (digitVal c).toNat) 0 =
      ds.foldl (fun n d => n * base + digitOf d) 0 :=
    List.foldl_ext _ _ _ fun n d hd => by rw [digitVal_eq (hds d hd).1]
  rw [htake, hfold]

section Scan

variable {c : IntConstant} {l : Lexer} {tail : List Byte}

theorem scanDigits_decimal {ds : List Byte} (hds : IntBase.Digits .decimal ds)
    (htail : StopsDigits tail) (h : l.rest = ds ++ tail) :
    ∃ l', scanDigits l = (false, 10, l') ∧ l'.rest = tail := by
  obtain ⟨⟨d, rest, rfl, hzero⟩, hall⟩ := hds
  have hpeek : l.peekc = d := (peekc_of_rest h).1
  have hrest := advWhile_rest hall (isDigit_of_isHex htail.hex) h
  have hnext : (advWhile isDigit l).peekc = tail.headD 0 := by rw [Lexer.peekc_eq, hrest]
  refine ⟨advWhile isDigit l, ?_, hrest⟩
  rw [scanDigits, hpeek, if_neg (fun hx => hzero hx.1), if_neg (fun hx => hzero hx.1)]
  dsimp only
  rw [scanFraction_none _ (by rw [hnext]; exact htail.dot), scanExponent_none _
    (by rw [hnext]; exact ne_exponent_of_isHex htail.hex)]

/-- A zero alone is read as a decimal constant. -/
theorem scanDigits_octal {ds : List Byte} (hds : IntBase.Digits .octal ds)
    (htail : StopsDigits tail) (h : l.rest = ds ++ tail) :
    ∃ base l', scanDigits l = (false, base, l') ∧ l'.rest = tail ∧
      (base = 8 ∨ base = 10 ∧ ds = [ch '0']) := by
  obtain ⟨⟨rest, rfl⟩, hall⟩ := hds
  have hpeek : l.peekc = ch '0' := (peekc_of_rest h).1
  have hpeek2 : l.peekc2 = (rest ++ tail).headD 0 := Lexer.peekc2_of_rest h
  cases rest with
  | nil =>
    have hdigit : ∀ d ∈ [ch '0'], isDigit d = true := by decide
    have hrest := advWhile_rest hdigit (isDigit_of_isHex htail.hex) h
    have hnext : (advWhile isDigit l).peekc = tail.headD 0 := by rw [Lexer.peekc_eq, hrest]
    rw [List.nil_append] at hpeek2
    refine ⟨10, advWhile isDigit l, ?_, hrest, .inr ⟨rfl, rfl⟩⟩
    rw [scanDigits, hpeek2, if_neg (fun hx => by have := htail.mark; tauto),
      if_neg (fun hx => by rw [isOctal_of_isHex htail.hex] at hx; cases hx.2)]
    dsimp only
    rw [scanFraction_none _ (by rw [hnext]; exact htail.dot), scanExponent_none _
      (by rw [hnext]; exact ne_exponent_of_isHex htail.hex)]
  | cons o rest =>
    have ho : isOctal o = true := hall o (by simp)
    have hnox : o ≠ ch 'x' ∧ o ≠ ch 'X' := by
      constructor <;> rintro rfl <;> cases ho
    rw [List.cons_append, List.headD_cons] at hpeek2
    refine ⟨8, advWhile isOctal l, ?_, advWhile_rest hall (isOctal_of_isHex htail.hex) h, .inl rfl⟩
    rw [scanDigits, hpeek2, if_neg (fun hx => by tauto), if_pos ⟨hpeek, ho⟩]

theorem scanDigits_hex {upper : Bool} {ds : List Byte} (hds : IntBase.Digits (.hex upper) ds)
    (htail : StopsDigits tail)
    (h : l.rest = ch '0' :: (if upper then ch 'X' else ch 'x') :: (ds ++ tail)) :
    ∃ l', scanDigits l = (false, 16, l') ∧ l'.rest = tail := by
  obtain ⟨hpeek, -, hadv⟩ := peekc_of_rest h
  have hpeek2 : l.peekc2 = if upper then ch 'X' else ch 'x' := Lexer.peekc2_of_rest h
  have hadv2 : l.adv.adv.rest = ds ++ tail := (peekc_of_rest hadv).2.2
  have hrest := advWhile_rest hds.2 htail.hex hadv2
  have hnext : (advWhile isHex l.adv.adv).peekc = tail.headD 0 := by rw [Lexer.peekc_eq, hrest]
  have hmark : l.peekc2 = ch 'x' ∨ l.peekc2 = ch 'X' := by
    rw [hpeek2]
    cases upper
    · exact .inl rfl
    · exact .inr rfl
  refine ⟨advWhile isHex l.adv.adv, ?_, hrest⟩
  rw [scanDigits, if_pos ⟨hpeek, hmark⟩]
  dsimp only
  rw [scanFraction_none _ (by rw [hnext]; exact htail.dot), scanExponent_none _
    (by rw [hnext]; exact htail.exponent)]

/-- The digits are read to their end and give the value. -/
theorem scanDigits_value (htail : StopsDigits tail) (hfit : c.value < 2 ^ 64)
    (h : l.rest = c.numeral ++ tail) :
    ∃ base l', scanDigits l = (false, base, l') ∧ l'.rest = tail ∧
      strtoull base l.rest = BitVec.ofNat 64 c.value := by
  have hmin : ∀ n, n = c.value → BitVec.ofNat 64 (min n (2 ^ 64 - 1)) = BitVec.ofNat 64 c.value := by
    rintro n rfl
    rw [Nat.min_eq_left (by omega)]
  obtain ⟨base, ds, suffix, hwf⟩ := c
  cases base with
  | decimal =>
    obtain ⟨l', hscan, hrest⟩ := scanDigits_decimal hwf htail h
    refine ⟨10, l', hscan, hrest, ?_⟩
    rw [strtoull, if_neg (fun hx => by omega)]
    exact (strtoull_digits h (fun d hd => digitVal_lt_ten (hwf.2 d hd)) htail.hex).trans (hmin _ rfl)
  | octal =>
    obtain ⟨base, l', hscan, hrest, rfl | ⟨rfl, hzero⟩⟩ := scanDigits_octal hwf htail h
    · refine ⟨8, l', hscan, hrest, ?_⟩
      rw [strtoull, if_neg (fun hx => by omega)]
      exact (strtoull_digits h (fun d hd => digitVal_lt_eight (hwf.2 d hd)) htail.hex).trans
        (hmin _ rfl)
    · refine ⟨10, l', hscan, hrest, ?_⟩
      rw [strtoull, if_neg (fun hx => by omega)]
      refine (strtoull_digits h (fun d hd => ?_) htail.hex).trans (hmin _ ?_)
      · have hd' := digitVal_lt_eight (hwf.2 d hd)
        exact ⟨hd'.1, by omega⟩
      · change ds.foldl _ 0 = ds.foldl _ 0
        subst hzero
        rfl
  | hex upper =>
    obtain ⟨l', hscan, hrest⟩ := scanDigits_hex hwf htail h
    refine ⟨16, l', hscan, hrest, ?_⟩
    obtain ⟨d, ds', hds⟩ := List.exists_cons_of_ne_nil hwf.1
    have hd : isHex d = true := hwf.2 d (by rw [hds]; exact List.mem_cons_self)
    have hmark : l.rest[1]? = some (ch 'x') ∨ l.rest[1]? = some (ch 'X') := by
      rw [h]
      cases upper
      · exact .inl rfl
      · exact .inr rfl
    have hdrop : l.rest.drop 2 = ds ++ tail := by
      rw [h]
      rfl
    have hthird : (l.rest[2]?).any isHex = true := by
      have htwo : l.rest[2]? = (ds ++ tail)[0]? := by
        rw [h]
        rfl
      rw [htwo, hds]
      exact hd
    have hfirst : l.rest.head? = some (ch '0') := by
      rw [h]
      rfl
    rw [strtoull, if_pos ⟨rfl, hfirst, hmark, hthird⟩]
    exact (strtoull_digits hdrop (fun d hd => ⟨hwf.2 d hd, digitVal_lt_sixteen (hwf.2 d hd)⟩)
      htail.hex).trans (hmin _ rfl)

/-! #### The suffix -/

variable {s : IntSuffix} {n : ℕ}

theorem scanSuffix_unsigned (h : l.rest = s.unsignedText ++ tail) :
    ∃ l', scanSuffix n l = scanSuffix (n ||| s.unsignedFlag) l' ∧ l'.rest = tail := by
  obtain ⟨mark, long, first⟩ := s
  cases mark with
  | none => exact ⟨l, by rw [show IntSuffix.unsignedFlag ⟨none, long, first⟩ = 0 from rfl,
      Nat.or_zero], h⟩
  | some upper =>
    obtain ⟨hpeek, -, hadv⟩ := peekc_of_rest h
    have hmark : l.peekc = ch 'u' ∨ l.peekc = ch 'U' := by
      rw [hpeek]
      cases upper
      · exact .inl rfl
      · exact .inr rfl
    refine ⟨l.adv, ?_, hadv⟩
    rw [scanSuffix, dif_pos hmark]
    rfl

theorem scanSuffix_long (htail : tail.headD 0 ≠ ch 'l' ∧ tail.headD 0 ≠ ch 'L')
    (h : l.rest = s.longText ++ tail) :
    ∃ l', scanSuffix n l = scanSuffix (n ||| s.longFlag) l' ∧ l'.rest = tail := by
  obtain ⟨mark, long, first⟩ := s
  have hl : ∀ upper : Bool, (if upper then ch 'L' else ch 'l') = ch 'l' ∨
      (if upper then ch 'L' else ch 'l') = ch 'L' := by decide
  have hu : ∀ upper : Bool, ¬((if upper then ch 'L' else ch 'l') = ch 'u' ∨
      (if upper then ch 'L' else ch 'l') = ch 'U') := by decide
  cases long with
  | none => exact ⟨l, by rw [show IntSuffix.longFlag ⟨mark, .none, first⟩ = 0 from rfl,
      Nat.or_zero], h⟩
  | long upper =>
    obtain ⟨hpeek, -, hadv⟩ := peekc_of_rest h
    have hpeek2 : l.peekc2 = tail.headD 0 := Lexer.peekc2_of_rest h
    refine ⟨l.adv, ?_, hadv⟩
    rw [scanSuffix, dif_neg (by rw [hpeek]; exact hu upper), dif_neg (by
      rw [hpeek2]
      rintro ⟨-, h2⟩
      have h2 := of_decide_eq_true h2
      tauto), dif_pos (by rw [hpeek]; exact decide_eq_true (hl upper))]
    rfl
  | longLong upper =>
    obtain ⟨hpeek, -, hadv⟩ := peekc_of_rest h
    have hpeek2 : l.peekc2 = if upper then ch 'L' else ch 'l' := Lexer.peekc2_of_rest h
    refine ⟨l.adv.adv, ?_, (peekc_of_rest hadv).2.2⟩
    rw [scanSuffix, dif_neg (by rw [hpeek]; exact hu upper), dif_pos (by
      rw [hpeek, hpeek2]
      exact ⟨decide_eq_true (hl upper), decide_eq_true (hl upper)⟩)]
    rfl

theorem scanSuffix_stop (hu : l.peekc ≠ ch 'u' ∧ l.peekc ≠ ch 'U')
    (hl : l.peekc ≠ ch 'l' ∧ l.peekc ≠ ch 'L') : scanSuffix n l = (n, l) := by
  rw [scanSuffix, dif_neg (by tauto), dif_neg, dif_neg]
  · intro h
    have h := of_decide_eq_true h
    tauto
  · rintro ⟨h, -⟩
    have h := of_decide_eq_true h
    tauto

end Scan

theorem EndsNumber.headD {rest : List Byte} (h : EndsNumber rest) :
    isIdent (rest.headD 0) = false ∧ rest.headD 0 ≠ ch '.' := by
  cases rest with
  | nil => decide
  | cons b bs => exact h b bs rfl

theorem suffix_chars {b : Byte} (h : isIdent b = false) :
    (b ≠ ch 'u' ∧ b ≠ ch 'U') ∧ b ≠ ch 'l' ∧ b ≠ ch 'L' := by
  revert h
  revert b
  decide

/-- A suffix is read to its end, and as its flags. -/
theorem scanSuffix_text {l : Lexer} {s : IntSuffix} {rest : List Byte} (hrest : EndsNumber rest)
    (h : l.rest = s.text ++ rest) :
    (scanSuffix 0 l).1 = s.unsignedFlag ||| s.longFlag ∧ (scanSuffix 0 l).2.rest = rest := by
  have hstop : ∀ {n : ℕ} {l' : Lexer}, l'.rest = rest → scanSuffix n l' = (n, l') := by
    intro n l' hl'
    obtain ⟨hu, hl⟩ := suffix_chars hrest.headD.1
    have hpeek : l'.peekc = rest.headD 0 := by rw [Lexer.peekc_eq, hl']
    exact scanSuffix_stop (by rw [hpeek]; exact hu) (by rw [hpeek]; exact hl)
  rw [IntSuffix.text] at h
  split at h
  · rw [List.append_assoc] at h
    obtain ⟨l', hu, hrest'⟩ := scanSuffix_unsigned (n := 0) h
    obtain ⟨l'', hl, hrest''⟩ := scanSuffix_long (n := 0 ||| s.unsignedFlag)
      (suffix_chars hrest.headD.1).2 hrest'
    rw [hu, hl, hstop hrest'', Nat.zero_or]
    exact ⟨rfl, hrest''⟩
  · rw [List.append_assoc] at h
    have htail : (s.unsignedText ++ rest).headD 0 ≠ ch 'l' ∧
        (s.unsignedText ++ rest).headD 0 ≠ ch 'L' := by
      obtain ⟨mark, long, first⟩ := s
      rcases mark with _ | _ | _
      · exact (suffix_chars hrest.headD.1).2
      · exact (by decide : ch 'u' ≠ ch 'l' ∧ ch 'u' ≠ ch 'L')
      · exact (by decide : ch 'U' ≠ ch 'l' ∧ ch 'U' ≠ ch 'L')
    obtain ⟨l', hl, hrest'⟩ := scanSuffix_long (n := 0) htail h
    obtain ⟨l'', hu, hrest''⟩ := scanSuffix_unsigned (n := 0 ||| s.longFlag) hrest'
    rw [hl, hu, hstop hrest'', Nat.zero_or, Nat.or_comm]
    exact ⟨rfl, hrest''⟩

/-- The digits end where the suffix begins. -/
theorem stopsDigits_text {s : IntSuffix} {rest : List Byte} (hrest : EndsNumber rest) :
    StopsDigits (s.text ++ rest) := by
  have hident : ∀ {b : Byte}, isIdent b = false → b ≠ ch '.' → isHex b = false ∧ b ≠ ch '.' ∧
      (b ≠ ch 'x' ∧ b ≠ ch 'X') ∧ b ≠ ch 'p' ∧ b ≠ ch 'P' := by decide
  have hhead : (s.text ++ rest).headD 0 = rest.headD 0 ∨
      (s.text ++ rest).headD 0 ∈ [ch 'u', ch 'U', ch 'l', ch 'L'] := by
    obtain ⟨mark, long, first⟩ := s
    rcases mark with _ | _ | _ <;> rcases long with _ | _ | _ <;> cases first <;>
      first
      | exact .inl rfl
      | (rename_i upper; cases upper <;> exact .inr (by simp [IntSuffix.text,
          IntSuffix.unsignedText, IntSuffix.longText]))
      | exact .inr (by simp [IntSuffix.text, IntSuffix.unsignedText, IntSuffix.longText])
  rcases hhead with hhead | hhead
  · obtain ⟨hhex, hdot, hmark, hexp⟩ := hident hrest.headD.1 hrest.headD.2
    rw [← hhead] at hhex hdot hmark hexp
    exact ⟨hhex, hdot, hmark, hexp⟩
  · have hletters : ∀ b ∈ [ch 'u', ch 'U', ch 'l', ch 'L'], isHex b = false ∧ b ≠ ch '.' ∧
        (b ≠ ch 'x' ∧ b ≠ ch 'X') ∧ b ≠ ch 'p' ∧ b ≠ ch 'P' := by decide
    obtain ⟨hhex, hdot, hmark, hexp⟩ := hletters _ hhead
    exact ⟨hhex, hdot, hmark, hexp⟩

theorem digit_char {d : Byte} (h : isDigit d = true) : isSpace d = false ∧ d ≠ ch '/' ∧
    d ≠ ch '#' ∧ (isAlpha d || decide (d = ch '_')) = false ∧ d ≠ ch '\n' := by
  revert h
  revert d
  decide

theorem scanToken_number (strtod : List Byte → BitVec 64) {l : Lexer} {d : Byte} {bs : List Byte}
    (h : l.rest = d :: bs) (hd : isDigit d = true) :
    scanToken strtod l = scanNum strtod l l.cur l.line l.col := by
  obtain ⟨hpeek, hend, -⟩ := peekc_of_rest h
  obtain ⟨hspace, hslash, hhash, hword, hnl⟩ := digit_char hd
  have hws : skipWs l = l := by
    rw [skipWs, dif_pos hend, hpeek, if_neg (by simp [hspace]), if_neg (fun hx => hslash hx.1),
      if_neg (fun hx => hslash hx.1), if_neg hhash]
  have hback := rewind hend (by rw [hpeek]; exact hnl)
  rw [scanToken, hws]
  dsimp only
  rw [if_neg (by simp [hend]), hpeek, if_neg (by simpa using hword), if_pos hd, hback]

theorem IntConstant.numeral_cons (c : IntConstant) :
    ∃ d bs, isDigit d = true ∧ c.numeral = d :: bs := by
  obtain ⟨base, ds, suffix, hwf⟩ := c
  cases base with
  | decimal =>
    obtain ⟨⟨d, bs, rfl, -⟩, hall⟩ := hwf
    exact ⟨d, bs, hall d List.mem_cons_self, rfl⟩
  | octal =>
    obtain ⟨⟨bs, rfl⟩, -⟩ := hwf
    exact ⟨ch '0', bs, by decide, rfl⟩
  | hex upper => exact ⟨ch '0', _, by decide, rfl⟩

/-- The token of a constant ends with it and has its value and its flags. -/
theorem scanToken_constant (strtod : List Byte → BitVec 64) {c : IntConstant}
    (hfit : c.value < 2 ^ 64) {l : Lexer} {rest : List Byte} (h : l.rest = c.text ++ rest)
    (hrest : EndsNumber rest) :
    (scanToken strtod l).1.kind = .intLit ∧
      (scanToken strtod l).1.intVal = BitVec.ofNat 64 c.value ∧
      (scanToken strtod l).1.intSuffix = c.suffix.unsignedFlag ||| c.suffix.longFlag ∧
      (scanToken strtod l).2.rest = rest := by
  obtain ⟨d, bs, hdigit, htext⟩ := c.numeral_cons
  have hnumeral : l.rest = c.numeral ++ (c.suffix.text ++ rest) := by
    rw [h, IntConstant.text, List.append_assoc]
  have hcons : l.rest = d :: (bs ++ (c.suffix.text ++ rest)) := by
    rw [hnumeral, htext, List.cons_append]
  obtain ⟨base, l', hscan, hrest', hvalue⟩ := scanDigits_value (stopsDigits_text hrest) hfit hnumeral
  have hsrc : l'.src = l.src := by
    have hlater := later_scanDigits (l := l) (.inl (by rw [(peekc_of_rest hcons).1]; exact hdigit))
    rw [hscan] at hlater
    exact hlater.src.trans (Lexer.adv_src l)
  have hnum : scanNum strtod l l.cur l.line l.col =
      ({ mktok (scanSuffix 0 l').2 .intLit l.cur l.line l.col with
          intVal := strtoull base (l'.src.drop l.cur), intSuffix := (scanSuffix 0 l').1 },
        (scanSuffix 0 l').2) := by
    rw [scanNum, hscan]
    rfl
  rw [scanToken_number strtod hcons hdigit, hnum, hsrc]
  exact ⟨rfl, hvalue, scanSuffix_text hrest hrest'⟩

/-! ### The type -/

/-- The type that sema reads off a suffix. -/
def IntSuffix.kind (s : IntSuffix) : ScalarKind :=
  match s.long, s.isUnsigned with
  | .none, false => .int
  | .none, true => .uint
  | .long _, false => .long
  | .long _, true => .ulong
  | .longLong _, false => .llong
  | .longLong _, true => .ullong

theorem literalKind_flags (s : IntSuffix) :
    literalKind (s.unsignedFlag ||| s.longFlag) = s.kind := by
  obtain ⟨mark, long, first⟩ := s
  rcases mark with _ | _ <;> cases long <;>
    simp only [IntSuffix.unsignedFlag, IntSuffix.longFlag, IntSuffix.kind, IntSuffix.isUnsigned,
      Option.isSome, if_true, Bool.false_eq_true, if_false] <;> decide

theorem inRange_kind_iff (s : IntSuffix) (n : ℕ) :
    InRange s.kind.signed s.kind.bits n ↔ n ≤ s.limit := by
  obtain ⟨mark, long, first⟩ := s
  rcases mark with _ | _ <;> cases long <;>
    simp [IntSuffix.kind, IntSuffix.isUnsigned, IntSuffix.limit, InRange, ScalarKind.signed,
      typeIsSigned, ScalarKind.bits, ScalarKind.size] <;> omega

/-- The type of the suffix heads the list, and is nowhere else in it. -/
theorem candidates_eq (c : IntConstant) :
    ∃ ks, c.candidates = c.suffix.kind :: ks ∧ c.suffix.kind ∉ ks := by
  obtain ⟨base, ds, ⟨mark, long, first⟩, hwf⟩ := c
  cases base <;> rcases mark with _ | _ <;> cases long <;>
    exact ⟨_, rfl, by simp [IntSuffix.kind, IntSuffix.isUnsigned]⟩

theorem c99Kind_eq_iff (c : IntConstant) :
    c.c99Kind = some c.suffix.kind ↔ c.value ≤ c.suffix.limit := by
  obtain ⟨ks, hlist, hnot⟩ := candidates_eq c
  rw [← inRange_kind_iff, IntConstant.c99Kind, hlist]
  constructor
  · intro h
    have hk := List.find?_some h
    exact of_decide_eq_true hk
  · intro h
    exact List.find?_cons_of_pos (decide_eq_true h)

/-- Sema gives the constant at the cursor its C99 type, and irgen its value as an operand of that
type. -/
def ConstantTyped {L : Type} [TokenSource L] (strtod : List Byte → BitVec 64) (l : Lexer)
    (F : ParseFns L) (p : Parser L) (s : Sema) (Γ : TypeEnv) (c : IntConstant) : Prop :=
  ∃ node typed e k, nud F (scanToken strtod l).1 p = .ok (node, p) ∧
    checkExpr node s = .ok (typed, s) ∧ s.types.readExpr typed = .ok e ∧
      c.c99Kind = some k ∧ e.type = some (.scalar k .none) ∧
        ∀ g, genExpr Γ e g = (irvInt (BitVec.ofInt 64 c.value) (.scalar k .none), g)

section Typed

variable {L : Type} [TokenSource L] (strtod : List Byte → BitVec 64) {l : Lexer} (F : ParseFns L)
  (p : Parser L) {s : Sema} (Γ : TypeEnv) {c : IntConstant}

/-- What becomes of a constant: it has the type of its suffix. -/
theorem constant_passes (hfit : c.value < 2 ^ 64) {rest : List Byte}
    (hl : l.rest = c.text ++ rest) (hrest : EndsNumber rest) {addr : TypeRef → BitVec 64}
    {cs : List TypeCall} (hs : s.types = (typeTableInit addr).run cs) :
    ∃ node typed e, nud F (scanToken strtod l).1 p = .ok (node, p) ∧
      checkExpr node s = .ok (typed, s) ∧ s.types.readExpr typed = .ok e ∧
        e.type = some (.scalar c.suffix.kind .none) ∧
          ∀ g, genExpr Γ e g =
            (irvInt (BitVec.ofInt 64 c.value) (.scalar c.suffix.kind .none), g) := by
  obtain ⟨hkind, hval, hsuffix, -⟩ := scanToken_constant strtod hfit hl hrest
  set t := (scanToken strtod l).1 with ht
  let i : RawInfo := { line := t.line, col := t.col }
  let ty : TypeRef := scalarRef c.suffix.kind
  have hnud : nud F t p = .ok (.intLit i t.intVal t.intSuffix, p) := by
    rw [nud, hkind]
    rfl
  have hcheck : checkExpr (.intLit i t.intVal t.intSuffix) s =
      .ok (.intLit { i with type := some ty } t.intVal t.intSuffix, s) := by
    rw [checkExpr, hsuffix, literalKind_flags]
    rfl
  have hty : s.types.readType (some ty) = .ok (.scalar c.suffix.kind .none) := by
    rw [TypeTable.readType, TypeTable.readAlong, TypeTable.node?, Option.bind_some, hs,
      TypeTable.nodes_scalarRef]
    rfl
  have hread : s.types.readExpr (.intLit { i with type := some ty } t.intVal t.intSuffix) =
      .ok (.intLit ⟨t.line, t.col, some (.scalar c.suffix.kind .none)⟩ t.intVal t.intSuffix) := by
    rw [TypeTable.readExpr, TypeTable.readInfo, TypeTable.readType?, hty]
    rfl
  refine ⟨_, _, _, hnud, hcheck, hread, rfl, fun g => ?_⟩
  have hword : BitVec.ofInt 64 (c.value : ℤ) = t.intVal := by
    rw [hval, BitVec.ofInt_natCast]
  rw [hword]
  rfl

variable {strtod F p Γ} in
theorem ConstantTyped.le_limit (h : ConstantTyped strtod l F p s Γ c) (hfit : c.value < 2 ^ 64)
    (rest : List Byte) (hl : l.rest = c.text ++ rest) (hrest : EndsNumber rest)
    (addr : TypeRef → BitVec 64) (cs : List TypeCall)
    (hs : s.types = (typeTableInit addr).run cs) : c.value ≤ c.suffix.limit := by
  obtain ⟨node, typed, e, hnud, hcheck, hread, htype, -⟩ :=
    constant_passes strtod F p Γ hfit hl hrest hs
  obtain ⟨node', typed', e', k, hnud', hcheck', hread', hc99, htype', -⟩ := h
  obtain ⟨rfl, -⟩ := Prod.mk.inj (Except.ok.inj (hnud.symm.trans hnud'))
  obtain ⟨rfl, -⟩ := Prod.mk.inj (Except.ok.inj (hcheck.symm.trans hcheck'))
  obtain rfl := Except.ok.inj (hread.symm.trans hread')
  have hk : c.suffix.kind = k :=
    (CType.scalar.inj (Option.some.inj (htype.symm.trans htype'))).1
  rw [← c99Kind_eq_iff, hc99, hk]

/-- A constant has its C99 type exactly if the type of its suffix alone can hold it. -/
theorem constant_typed_iff (hfit : c.value < 2 ^ 64) (rest : List Byte)
    (hl : l.rest = c.text ++ rest) (hrest : EndsNumber rest) (addr : TypeRef → BitVec 64)
    (cs : List TypeCall) (hs : s.types = (typeTableInit addr).run cs) :
    ConstantTyped strtod l F p s Γ c ↔ c.value ≤ c.suffix.limit := by
  constructor
  · intro h
    exact h.le_limit hfit rest hl hrest addr cs hs
  · intro hle
    obtain ⟨node, typed, e, hnud, hcheck, hread, htype, hgen⟩ :=
      constant_passes strtod F p Γ hfit hl hrest hs
    exact ⟨node, typed, e, _, hnud, hcheck, hread, (c99Kind_eq_iff c).mpr hle, htype, hgen⟩

/-- `0x7FFFFFFFu` before a semicolon. -/
def hexConstant : IntConstant where
  base := .hex false
  digits := "7FFFFFFF".toList.map ch
  suffix := { unsignedMark := some false }
  wellFormed := ⟨by decide, by decide⟩

theorem hex_constant_typed :
    ConstantTyped (fun _ => 0) (lexerInit (hexConstant.text ++ [ch ';']) []) (parsers 0)
        (parserInit (sourceText ⟨fun _ => 0, fun _ => ""⟩ []) (typeTableInit fun _ => 0))
        (semaInit (typeTableInit fun _ => 0)) .empty hexConstant ↔
      hexConstant.value ≤ hexConstant.suffix.limit :=
  constant_typed_iff (fun _ => 0) (parsers 0) _ .empty (by decide) [ch ';'] rfl
    (by simp [EndsNumber]; decide) (fun _ => 0) [] rfl

end Typed

/-- `2147483648` gets the type `int`, which does not hold it. -/
def decimalTooLarge : IntConstant where
  base := .decimal
  digits := "2147483648".toList.map ch
  suffix := {}
  wellFormed := ⟨⟨_, _, rfl, by decide⟩, by decide⟩

theorem constant_of_int_too_large :
    ¬∀ (strtod : List Byte → BitVec 64) (l : Lexer) (F : ParseFns SourceText)
      (p : Parser SourceText) (s : Sema) (Γ : TypeEnv) (c : IntConstant) (rest : List Byte)
      (addr : TypeRef → BitVec 64) (cs : List TypeCall), c.value < 2 ^ 64 →
        l.rest = c.text ++ rest → EndsNumber rest → s.types = (typeTableInit addr).run cs →
          ConstantTyped strtod l F p s Γ c := by
  intro h
  have hvalue : decimalTooLarge.value = 2147483648 := by decide
  have hfit : decimalTooLarge.value < 2 ^ 64 := by
    rw [hvalue]
    norm_num
  have hrest : EndsNumber [] := by simp [EndsNumber]
  have htyped := h (fun _ => 0) (lexerInit (decimalTooLarge.text ++ []) []) (parsers 0)
    (parserInit (sourceText ⟨fun _ => 0, fun _ => ""⟩ []) (typeTableInit fun _ => 0))
    (semaInit (typeTableInit fun _ => 0)) .empty decimalTooLarge [] (fun _ => 0) [] hfit rfl
    hrest rfl
  have hle := htyped.le_limit hfit [] rfl hrest (fun _ => 0) [] rfl
  rw [hvalue] at hle
  exact absurd hle (by decide)

end TinyC
