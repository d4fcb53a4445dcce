import TinyC.ExprMeaning
import TinyC.IntegerObjects
import TinyC.WordIr

/-!
# The words of numbers

A number stands in a temp as its two's complement word. On the words of their operands the
instructions leave the words of the numbers that the expressions mean.
-/

namespace TinyC

open ByteMemory TwosComplement SignedDivision

abbrev wordOf (v : ℤ) : BitVec 64 := BitVec.ofInt 64 v

section

variable {signed : Bool} {w : ℕ} {v r a b : ℤ} {k : ScalarKind} {tk : TokenKind}

theorem wordOf_add (a b : ℤ) : wordOf (a + b) = wordOf a + wordOf b := BitVec.ofInt_add a b

theorem wordOf_sub (a b : ℤ) : wordOf (a - b) = wordOf a - wordOf b := TwosComplement.ofInt_sub 64 a b

theorem wordOf_mul (a b : ℤ) : wordOf (a * b) = wordOf a * wordOf b := BitVec.ofInt_mul a b

theorem wordOf_land (a b : ℤ) : wordOf (Int.land a b) = wordOf a &&& wordOf b := ofInt_land 64 a b

theorem wordOf_lor (a b : ℤ) : wordOf (Int.lor a b) = wordOf a ||| wordOf b := ofInt_lor 64 a b

theorem wordOf_xor (a b : ℤ) : wordOf (Int.xor a b) = wordOf a ^^^ wordOf b := ofInt_xor 64 a b

theorem wordOf_shl (a : ℤ) (n : ℕ) : wordOf (a * 2 ^ n) = wordOf a <<< n :=
  (ofInt_shiftLeft 64 a n).symm

/-- A result that is not reduced, or that is reduced as a word is. -/
theorem wordOf_reduceTo (h : reduceTo signed w v = some r)
    (hfull : signed = true ∨ w = 64 ∨ r = v) : wordOf v = wordOf r := by
  rcases hfull with rfl | rfl | rfl
  · simp only [reduceTo, if_true, Option.ite_none_right_eq_some, Option.some.injEq] at h
    rw [h.2]
  · exact reduceTo_ofInt h
  · rfl

theorem promoted_width (hk : k ∈ promotedKinds) :
    (k = .uint ∨ k.signed = true ∨ k.bits = 64) ∧ 0 < k.bits ∧ k.bits ≤ 64 := by
  simp only [promotedKinds, List.mem_cons, List.not_mem_nil, or_false] at hk
  rcases hk with rfl | rfl | rfl | rfl | rfl | rfl <;> decide

/-- What is not reduced where it should be is an `unsigned int`. -/
theorem wordOf_arith (hk : k ∈ promotedKinds) (h : reduceTo k.signed k.bits v = some r)
    (hu : k = .uint → r = v) : wordOf v = wordOf r := by
  rcases (promoted_width hk).1 with hk | hs | hw
  · exact wordOf_reduceTo h (.inr (.inr (hu hk)))
  · exact wordOf_reduceTo h (.inl hs)
  · exact wordOf_reduceTo h (.inr (.inl hw))

theorem inRange_low (h : InRange signed w a) (hw : w ≤ 64) : -2 ^ 63 ≤ a ∧ a < 2 ^ 64 := by
  have hwide := h.mono hw
  cases signed <;> simp only [InRange, Bool.false_eq_true, if_true, if_false] at hwide <;> omega

/-- A number that is read as itself. -/
theorem toInt_wordOf (h : InRange signed w a) (hw : w ≤ 64) (hlt : a < 2 ^ 63) :
    (wordOf a).toInt = a := toInt_ofInt_of_range (inRange_low h hw).1 hlt

theorem wordOf_ne_zero (h : InRange signed w a) (hw : w ≤ 64) (hne : a ≠ 0) : wordOf a ≠ 0 := by
  have hrange := inRange_low h hw
  intro hzero
  have hmod := (ofInt_eq_ofInt_iff (w := 64) (a := a) (b := 0)).mp (hzero.trans rfl)
  omega

/-- A quotient of unsigned numbers needs no reduction. -/
theorem quotient_unreduced (ha : InRange false w a) (hb : InRange false w b)
    (hq : reduceTo false w (a.tdiv b) = some r) : r = a.tdiv b := by
  simp only [InRange, Bool.false_eq_true, if_false] at ha hb
  have hquot : a.tdiv b = a / b := Int.tdiv_eq_ediv_of_nonneg ha.1
  have hnonneg : 0 ≤ a / b := Int.ediv_nonneg ha.1 hb.1
  have hle : a / b ≤ a := Int.ediv_le_self b ha.1
  rw [reduceTo, if_neg Bool.false_ne_true, Option.some.injEq, hquot,
    Int.emod_eq_of_lt hnonneg (by omega)] at hq
  rw [hquot, hq]

/-- Division and remainder of numbers that are read as themselves. -/
theorem division_words (hw : w ≤ 64) (ha : InRange signed w a) (hb : InRange signed w b)
    (hlt : a < 2 ^ 63 ∧ b < 2 ^ 63) (hne : b ≠ 0) (hq : reduceTo signed w (a.tdiv b) = some r) :
    idivq (cqtoHigh (wordOf a)) (wordOf a) (wordOf b) =
      some (wordOf (a.tdiv b), wordOf (a.tmod b)) := by
  have hra := toInt_wordOf ha hw hlt.1
  have hrb := toInt_wordOf hb hw hlt.2
  have hle := Int.natAbs_tdiv_le_natAbs a b
  have hlow := inRange_low ha hw
  refine idivq_cqto_eq_some.mpr ⟨wordOf_ne_zero hb hw hne, ?_, by rw [hra, hrb]⟩
  rw [hra, hrb]
  unfold NoOverflow
  cases signed with
  | true =>
    simp only [reduceTo, if_true, Option.ite_none_right_eq_some] at hq
    have hrange := hq.1.mono hw
    simp only [InRange, if_true] at hrange
    omega
  | false =>
    simp only [InRange, Bool.false_eq_true, if_false] at ha
    omega

theorem wordOf_count (hw : w ≤ 64) (hb : 0 ≤ b) (hbw : b < w) :
    (wordOf b).toNat % 64 = b.toNat := by
  have hnat : (wordOf b).toNat = b := toNat_ofInt_of_range hb (by omega)
  omega

/-- The right shift of a number that is read as itself. -/
theorem shift_words (hw : w ≤ 64) (ha : InRange signed w a) (hlt : a < 2 ^ 63) (hb : 0 ≤ b)
    (hbw : b < w) :
    (wordOf a).sshiftRight ((wordOf b).toNat % 64) = wordOf (a / 2 ^ b.toNat) := by
  rw [sshiftRight_eq_ofInt, wordOf_count hw hb hbw, toInt_wordOf ha hw hlt]

/-- A comparison of numbers goes by their words. -/
theorem comparison_word (hw : 0 < w) (hw' : w ≤ 64) (ha : InRange signed w a)
    (hb : InRange signed w b) (htk : isComparison tk = true)
    (hr : c99Binop signed w tk a b = some r) :
    machineBinop (tokToIrBinop tk) (!signed) (wordOf a) (wordOf b) = some (wordOf r) := by
  have heq : (wordOf a == wordOf b) = decide (a = b) := by
    rw [beq_eq_decide]
    exact decide_eq_decide.mpr ⟨ofInt_inj_of_inRange hw hw' ha hb, congrArg _⟩
  have hless : (if signed then (wordOf a).slt (wordOf b) else (wordOf a).ult (wordOf b)) =
      decide (a < b) := by
    have hra := ha.mono hw'
    have hrb := hb.mono hw'
    cases signed with
    | true =>
      simp only [InRange, if_true] at hra hrb
      rw [if_pos rfl, slt_ofInt (by omega) (by omega) (by omega) (by omega)]
    | false =>
      simp only [InRange, Bool.false_eq_true, if_false] at hra hrb ⊢
      rw [ult_ofInt hra.1 hra.2 hrb.1 hrb.2]
  rw [machineBinop_comparison htk, heq]
  cases signed <;> simp only [Bool.false_eq_true, if_false, if_true] at hless <;> rw [hless] <;>
    cases tk <;> simp only [isComparison, Bool.false_eq_true] at htk <;>
    obtain rfl := Option.some.inj hr <;>
    simp only [tokToIrBinop, cmpCond, Cond.holds, Bool.not_false, Bool.not_true, if_true,
      Bool.false_eq_true, if_false, truth] <;>
    congr 1 <;> grind

/-- The word an operator leaves on the words of two numbers of a promoted type. -/
theorem machineBinop_exact (hk : k ∈ promotedKinds) (htk : tk ∈ binaryOperators)
    (ha : InRange k.signed k.bits a) (hb : InRange k.signed k.bits b)
    (hr : exactBinop k tk a b = some r) :
    machineBinop (tokToIrBinop tk) (!k.signed) (wordOf a) (wordOf b) = some (wordOf r) := by
  obtain ⟨hc, hun⟩ := Option.filter_eq_some_iff.mp hr
  replace hun := of_decide_eq_true hun
  obtain ⟨-, hpos, hle⟩ := promoted_width hk
  simp only [binaryOperators, List.mem_cons, List.not_mem_nil, or_false] at htk
  rcases htk with rfl | rfl | rfl | rfl | rfl | rfl | rfl | rfl | rfl | rfl | hcmp
  · rw [← wordOf_arith hk hc hun, wordOf_add]
    rfl
  · rw [← wordOf_arith hk hc hun, wordOf_sub]
    rfl
  · rw [← wordOf_arith hk hc hun, wordOf_mul]
    rfl
  · obtain ⟨hne, hq⟩ := Option.ite_none_left_eq_some.mp hc
    rw [← wordOf_arith hk hq (by rintro rfl; exact quotient_unreduced ha hb hq)]
    simp only [tokToIrBinop, machineBinop, division_words hle ha hb hun hne hq, Option.map_some]
  · obtain ⟨hne, hmap⟩ := Option.ite_none_left_eq_some.mp hc
    obtain ⟨q, hq, rfl⟩ := Option.map_eq_some_iff.mp hmap
    simp only [tokToIrBinop, machineBinop, division_words hle ha hb hun hne hq, Option.map_some]
  · obtain rfl := Option.some.inj hc
    rw [wordOf_land]
    rfl
  · obtain rfl := Option.some.inj hc
    rw [wordOf_lor]
    rfl
  · obtain rfl := Option.some.inj hc
    rw [wordOf_xor]
    rfl
  · obtain ⟨⟨hb₀, hbw, -⟩, hred⟩ := Option.ite_none_right_eq_some.mp hc
    rw [← wordOf_arith hk hred hun, wordOf_shl, ← wordOf_count hle hb₀ hbw]
    rfl
  · obtain ⟨⟨hb₀, hbw⟩, hval⟩ := Option.ite_none_right_eq_some.mp hc
    obtain rfl := Option.some.inj hval
    rw [← shift_words hle ha hun.1 hb₀ hbw]
    rfl
  · refine comparison_word hpos hle ha hb ?_ hc
    rcases hcmp with rfl | rfl | rfl | rfl | rfl | rfl <;> rfl

end

section

variable {Γ : TypeEnv} {ty lt rt src dst tv : CType} {a b r v : ℤ} {tk : TokenKind} {m : Mem}
  {x : Addr}

theorem fits_word (hty : ty.isWord = true) : ty.Fits Γ v ↔ ty.Holds Γ v := by
  rw [CType.Fits, if_pos hty]

theorem promoted_isWord {k : ScalarKind} (hk : k ∈ promotedKinds) (q : TypeQual) :
    (CType.scalar k q).isWord = true ∧ (CType.scalar k q).isBool = false ∧
      typeIsSigned (.scalar k q) = k.signed ∧ (CType.scalar k q).bits Γ = k.bits ∧
      typeIsUnsignedInteger (.scalar k q) = !k.signed := by
  simp only [promotedKinds, List.mem_cons, List.not_mem_nil, or_false] at hk
  rcases hk with rfl | rfl | rfl | rfl | rfl | rfl <;> exact ⟨rfl, rfl, rfl, rfl, rfl⟩

theorem inRange_promoted {k : ScalarKind} (hk : k ∈ promotedKinds) {q : TypeQual}
    (h : (CType.scalar k q).Fits Γ v) : InRange k.signed k.bits v := by
  obtain ⟨hword, hbool, hsigned, hbits, -⟩ := promoted_isWord (Γ := Γ) hk q
  rw [fits_word hword, CType.Holds, hbool, if_neg Bool.false_ne_true, hsigned, hbits] at h
  exact h

theorem arithMeaning_eq_some (h : arithMeaning tk lt rt a b = some r) :
    ∃ k q q', k ∈ promotedKinds ∧ lt = .scalar k q ∧ rt = .scalar k q' ∧
      exactBinop k tk a b = some r := by
  unfold arithMeaning at h
  split at h
  · obtain ⟨⟨hk, rfl⟩, hr⟩ := Option.ite_none_right_eq_some.mp h
    exact ⟨_, _, _, hk, rfl, rfl, hr⟩
  · cases h

theorem arithMeaning_word (htk : tk ∈ binaryOperators) (h : arithMeaning tk lt rt a b = some r)
    (ha : lt.Fits Γ a) (hb : rt.Fits Γ b) :
    machineBinop (tokToIrBinop tk) (typeIsUnsignedInteger lt || typeIsUnsignedInteger rt) (wordOf a)
      (wordOf b) = some (wordOf r) := by
  obtain ⟨k, q, q', hk, rfl, rfl, hr⟩ := arithMeaning_eq_some h
  obtain ⟨-, -, -, -, hu⟩ := promoted_isWord (Γ := Γ) hk q
  obtain ⟨-, -, -, -, hu'⟩ := promoted_isWord (Γ := Γ) hk q'
  rw [hu, hu', Bool.or_self]
  exact machineBinop_exact hk htk (inRange_promoted hk ha) (inRange_promoted hk hb) hr

theorem neg_word (h : arithMeaning .minus ty ty 0 v = some r) (hv : ty.Fits Γ v) :
    -wordOf v = wordOf r := by
  obtain ⟨k, q, q', hk, rfl, -, hr⟩ := arithMeaning_eq_some h
  obtain ⟨-, hpos, hle⟩ := promoted_width hk
  have hzero : InRange k.signed k.bits 0 := by
    simp only [promotedKinds, List.mem_cons, List.not_mem_nil, or_false] at hk
    rcases hk with rfl | rfl | rfl | rfl | rfl | rfl <;> decide
  have hword := machineBinop_exact hk (by decide) hzero (inRange_promoted hk hv) hr
  have hsub : wordOf 0 - wordOf v = wordOf r := Option.some.inj hword
  rw [← hsub, ← BitVec.zero_sub]
  rfl

theorem inRange_lnot {w : ℕ} (h : InRange true w v) : InRange true w (Int.lnot v) := by
  have hneg : Int.lnot v = -v - 1 := by
    cases v <;> simp only [Int.lnot, Int.negSucc_eq, Int.ofNat_eq_natCast] <;> omega
  simp only [InRange, if_true] at h ⊢
  omega

theorem not_word (h : complement ty v = some r) (hv : ty.Fits Γ v) : ~~~wordOf v = wordOf r := by
  cases ty with
  | scalar k q =>
    obtain ⟨⟨hk, hu⟩, hr⟩ := Option.ite_none_right_eq_some.mp h
    obtain rfl := Option.some.inj hr
    have hrange := inRange_promoted hk hv
    obtain ⟨hw, hpos, hle⟩ := promoted_width hk
    have hlnot : wordOf (Int.lnot v) = ~~~wordOf v := ofInt_lnot 64 v
    rw [← hlnot]
    rcases hw.resolve_left hu with hs | hw
    · rw [hs] at hrange ⊢
      rw [wrap_of_inRange hpos hle (inRange_lnot hrange)]
    · rw [hw]
      exact ofInt_wrap_full.symm
  | _ => cases h

theorem sizeOrEight_word (hty : ty.isWord = true) : sizeOrEight Γ (some ty) = typeSizeof Γ ty := by
  have hsize := word_size (Γ := Γ) hty
  rw [sizeOrEight, if_pos (by omega)]

theorem accessBytes_word (hty : ty.isWord = true) :
    accessBytes Γ (some ty) = (typeSizeof Γ ty).toNat := by
  rw [accessBytes, sizeOrEight_word hty]
  rcases word_size (Γ := Γ) hty with h | h | h | h <;> rw [h] <;> rfl

theorem readWord_word (hty : ty.isWord = true) :
    readWord Γ (some ty) m x =
      wordOf (value (typeIsSigned ty) (ty.bits Γ) (load m x (typeSizeof Γ ty).toNat)) := by
  have hall : (some ty).all typeIsSigned = typeIsSigned ty := rfl
  rw [readWord, sizeOrEight_word hty, accessBytes_word hty, hall, extendWord_type hty,
    extend_eq_ofInt _ (word_bits_le hty).2]

end

end TinyC
