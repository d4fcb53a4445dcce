import Mathlib.Data.BitVec
import Mathlib.Data.Int.Bitwise
import Mathlib.Tactic.Linarith

/-!
# Integers held in 64-bit words

A `w`-bit integer, signed or not, is held in a 64-bit word as the sign or zero extension
of its low bits. Such a word is the two's complement pattern of the integer's value, and
the word operations are the integer operations as long as the results fit.
-/

namespace TwosComplement

def InRange (signed : Bool) (w : ℕ) (v : ℤ) : Prop :=
  if signed then -2 ^ (w - 1) ≤ v ∧ v < 2 ^ (w - 1) else 0 ≤ v ∧ v < 2 ^ w

instance (signed : Bool) (w : ℕ) (v : ℤ) : Decidable (InRange signed w v) := by
  unfold InRange
  infer_instance

/-- The integer the low `w` bits stand for. -/
def value (signed : Bool) (w : ℕ) (x : BitVec 64) : ℤ :=
  if signed then (x.setWidth w).toInt else (x.setWidth w).toNat

/-- The low `w` bits, sign- or zero-extended. -/
def extend (signed : Bool) (w : ℕ) (x : BitVec 64) : BitVec 64 :=
  if signed then (x.setWidth w).signExtend 64 else (x.setWidth w).setWidth 64

def Canonical (signed : Bool) (w : ℕ) (x : BitVec 64) : Prop := x = extend signed w x

instance (signed : Bool) (w : ℕ) (x : BitVec 64) : Decidable (Canonical signed w x) :=
  inferInstanceAs (Decidable (x = _))

theorem setWidth_ofInt {w : ℕ} (hw : w ≤ 64) (v : ℤ) :
    (BitVec.ofInt 64 v).setWidth w = BitVec.ofInt w v := by
  apply BitVec.eq_of_toNat_eq
  have hdvd : (2 : ℤ) ^ w ∣ 2 ^ 64 := pow_dvd_pow 2 hw
  have hpos : (0 : ℤ) < 2 ^ w := by positivity
  apply Int.ofNat.inj
  simp only [BitVec.toNat_setWidth, BitVec.toNat_ofInt, Int.ofNat_eq_natCast, Int.natCast_emod]
  push_cast
  rw [Int.toNat_of_nonneg (Int.emod_nonneg _ (by positivity)),
    Int.toNat_of_nonneg (Int.emod_nonneg _ (by positivity))]
  exact Int.emod_emod_of_dvd v hdvd

theorem value_inRange (signed : Bool) {w : ℕ} (hw : 0 < w) (x : BitVec 64) :
    InRange signed w (value signed w x) := by
  cases signed with
  | false =>
    simp only [InRange, value, Bool.false_eq_true, if_false]
    exact ⟨by positivity, mod_cast (x.setWidth w).isLt⟩
  | true =>
    simp only [InRange, value, if_true]
    have hlo := BitVec.le_two_mul_toInt (x := x.setWidth w)
    have hhi := BitVec.two_mul_toInt_lt (x := x.setWidth w)
    obtain ⟨w, rfl⟩ : ∃ k, w = k + 1 := ⟨w - 1, by omega⟩
    simp only [pow_succ, Nat.add_sub_cancel] at hlo hhi ⊢
    omega

theorem extend_eq_ofInt (signed : Bool) {w : ℕ} (hw : w ≤ 64) (x : BitVec 64) :
    extend signed w x = BitVec.ofInt 64 (value signed w x) := by
  cases signed with
  | false =>
    simp only [extend, value, Bool.false_eq_true, if_false]
    rw [BitVec.ofInt_natCast, BitVec.ofNat_toNat]
  | true =>
    simp only [extend, value, if_true]
    rw [← BitVec.toInt_signExtend_of_le hw, BitVec.ofInt_toInt]

theorem canonical_iff_eq_ofInt {signed : Bool} {w : ℕ} (hw : w ≤ 64) {x : BitVec 64} :
    Canonical signed w x ↔ x = BitVec.ofInt 64 (value signed w x) := by
  rw [Canonical, extend_eq_ofInt signed hw]

theorem value_ofInt {signed : Bool} {w : ℕ} (hw : 0 < w) (hw' : w ≤ 64) {v : ℤ}
    (hv : InRange signed w v) : value signed w (BitVec.ofInt 64 v) = v := by
  cases signed with
  | false =>
    simp only [InRange, value, Bool.false_eq_true, if_false] at hv ⊢
    rw [setWidth_ofInt hw', BitVec.toNat_ofInt, Int.toNat_of_nonneg (Int.emod_nonneg _ (by positivity))]
    exact Int.emod_eq_of_lt hv.1 (by exact_mod_cast hv.2)
  | true =>
    simp only [InRange, value, if_true] at hv ⊢
    rw [setWidth_ofInt hw', BitVec.toInt_ofInt]
    obtain ⟨w, rfl⟩ : ∃ k, w = k + 1 := ⟨w - 1, by omega⟩
    simp only [Nat.add_sub_cancel] at hv
    apply Int.bmod_eq_of_le
    · push_cast
      omega
    · push_cast
      omega

/-- A word holds a value canonically when it is the pattern of an integer in range. -/
theorem canonical_ofInt {signed : Bool} {w : ℕ} (hw : 0 < w) (hw' : w ≤ 64) {v : ℤ}
    (hv : InRange signed w v) : Canonical signed w (BitVec.ofInt 64 v) := by
  rw [canonical_iff_eq_ofInt hw', value_ofInt hw hw' hv]

theorem Canonical.eq_ofInt {signed : Bool} {w : ℕ} (hw : w ≤ 64) {x : BitVec 64}
    (h : Canonical signed w x) : x = BitVec.ofInt 64 (value signed w x) :=
  (canonical_iff_eq_ofInt hw).mp h

theorem canonical_extend {signed : Bool} {w : ℕ} (hw : 0 < w) (hw' : w ≤ 64) (x : BitVec 64) :
    Canonical signed w (extend signed w x) := by
  rw [extend_eq_ofInt signed hw']
  exact canonical_ofInt hw hw' (value_inRange signed hw x)

theorem toInt_ofInt_of_range {v : ℤ} (hlo : -2 ^ 63 ≤ v) (hhi : v < 2 ^ 63) :
    (BitVec.ofInt 64 v).toInt = v := by
  rw [BitVec.toInt_ofInt]
  exact Int.bmod_eq_of_le (by norm_num; omega) (by norm_num; omega)

theorem canonical_ofInt_iff {signed : Bool} {w : ℕ} (hw : 0 < w) (hw' : w < 64) {v : ℤ}
    (hlo : -2 ^ 63 ≤ v) (hhi : v < 2 ^ 63) :
    Canonical signed w (BitVec.ofInt 64 v) ↔ InRange signed w v := by
  refine ⟨fun h => ?_, canonical_ofInt hw (by omega)⟩
  have hrange := value_inRange signed hw (BitVec.ofInt 64 v)
  have heq := congrArg BitVec.toInt (h.eq_ofInt (by omega))
  have hbound : -2 ^ 63 ≤ value signed w (BitVec.ofInt 64 v) ∧
      value signed w (BitVec.ofInt 64 v) < 2 ^ 63 := by
    have hpow : (2 : ℤ) ^ w ≤ 2 ^ 63 := pow_le_pow_right₀ (by norm_num) (by omega)
    have hpow' : (2 : ℤ) ^ (w - 1) ≤ 2 ^ 63 := pow_le_pow_right₀ (by norm_num) (by omega)
    cases signed <;> simp only [InRange, Bool.false_eq_true, if_false, if_true] at hrange <;> omega
  rw [toInt_ofInt_of_range hlo hhi, toInt_ofInt_of_range hbound.1 hbound.2] at heq
  rwa [← heq] at hrange

/-! ### Word operations as integer operations -/

theorem getLsbD_ofInt (w : ℕ) (v : ℤ) (i : ℕ) :
    (BitVec.ofInt w v).getLsbD i = (decide (i < w) && v.testBit i) := by
  cases v with
  | ofNat n =>
    rw [Int.ofNat_eq_natCast, BitVec.ofInt_natCast, BitVec.getLsbD_ofNat]
    rfl
  | negSucc n =>
    rw [BitVec.ofInt_negSucc_eq_not_ofNat, BitVec.getLsbD_not, BitVec.getLsbD_ofNat]
    by_cases h : i < w <;> simp [Int.testBit, h]

theorem ofInt_land (w : ℕ) (a b : ℤ) :
    BitVec.ofInt w (Int.land a b) = BitVec.ofInt w a &&& BitVec.ofInt w b := by
  apply BitVec.eq_of_getLsbD_eq
  intro i hi
  simp only [BitVec.getLsbD_and, getLsbD_ofInt, Int.testBit_land, hi, decide_true, Bool.true_and]

theorem ofInt_lor (w : ℕ) (a b : ℤ) :
    BitVec.ofInt w (Int.lor a b) = BitVec.ofInt w a ||| BitVec.ofInt w b := by
  apply BitVec.eq_of_getLsbD_eq
  intro i hi
  simp only [BitVec.getLsbD_or, getLsbD_ofInt, Int.testBit_lor, hi, decide_true, Bool.true_and]

theorem ofInt_xor (w : ℕ) (a b : ℤ) :
    BitVec.ofInt w (Int.xor a b) = BitVec.ofInt w a ^^^ BitVec.ofInt w b := by
  apply BitVec.eq_of_getLsbD_eq
  intro i hi
  simp only [BitVec.getLsbD_xor, getLsbD_ofInt, Int.testBit_lxor, hi, decide_true, Bool.true_and]

theorem ofInt_lnot (w : ℕ) (a : ℤ) : BitVec.ofInt w (Int.lnot a) = ~~~BitVec.ofInt w a := by
  apply BitVec.eq_of_getLsbD_eq
  intro i hi
  simp only [BitVec.getLsbD_not, getLsbD_ofInt, Int.testBit_lnot, hi, decide_true, Bool.true_and]

theorem ofInt_sub (w : ℕ) (a b : ℤ) :
    BitVec.ofInt w (a - b) = BitVec.ofInt w a - BitVec.ofInt w b := by
  rw [sub_eq_add_neg, BitVec.ofInt_add, BitVec.ofInt_neg, ← sub_eq_add_neg]

theorem ofInt_shiftLeft (w : ℕ) (a : ℤ) (n : ℕ) :
    BitVec.ofInt w a <<< n = BitVec.ofInt w (a * 2 ^ n) := by
  rw [BitVec.shiftLeft_eq_mul_twoPow, BitVec.ofInt_mul]
  congr 1
  apply BitVec.eq_of_toNat_eq
  rw [BitVec.toNat_twoPow, BitVec.toNat_ofInt]
  have : ((2 : ℤ) ^ n % (2 ^ w : ℕ)) = ((2 ^ n % 2 ^ w : ℕ) : ℤ) := by push_cast; rfl
  rw [this, Int.toNat_natCast]

theorem sshiftRight_eq_ofInt (x : BitVec 64) (n : ℕ) :
    x.sshiftRight n = BitVec.ofInt 64 (x.toInt / 2 ^ n) := by
  have h := BitVec.toInt_sshiftRight (x := x) (n := n)
  rw [Int.shiftRight_eq_div_pow] at h
  push_cast at h
  rw [← h, BitVec.ofInt_toInt]

theorem slt_ofInt {a b : ℤ} (ha : -2 ^ 63 ≤ a) (ha' : a < 2 ^ 63) (hb : -2 ^ 63 ≤ b)
    (hb' : b < 2 ^ 63) : (BitVec.ofInt 64 a).slt (BitVec.ofInt 64 b) = decide (a < b) := by
  rw [BitVec.slt_eq_decide, toInt_ofInt_of_range ha ha', toInt_ofInt_of_range hb hb']

theorem toNat_ofInt_of_range {v : ℤ} (hlo : 0 ≤ v) (hhi : v < 2 ^ 64) :
    ((BitVec.ofInt 64 v).toNat : ℤ) = v := by
  rw [BitVec.toNat_ofInt, Int.toNat_of_nonneg (Int.emod_nonneg _ (by norm_num))]
  exact Int.emod_eq_of_lt hlo (by norm_num; omega)

theorem ult_ofInt {a b : ℤ} (ha : 0 ≤ a) (ha' : a < 2 ^ 64) (hb : 0 ≤ b) (hb' : b < 2 ^ 64) :
    (BitVec.ofInt 64 a).ult (BitVec.ofInt 64 b) = decide (a < b) := by
  rw [BitVec.ult_eq_decide]
  apply decide_eq_decide.mpr
  rw [← Nat.cast_lt (α := ℤ), toNat_ofInt_of_range ha ha', toNat_ofInt_of_range hb hb']

/-- Two patterns agree on the low `w` bits when the integers agree modulo `2 ^ w`. -/
theorem ofInt_eq_ofInt_iff {w : ℕ} {a b : ℤ} :
    BitVec.ofInt w a = BitVec.ofInt w b ↔ a % 2 ^ w = b % 2 ^ w := by
  constructor
  · intro h
    have := congrArg (fun x : BitVec w => (x.toNat : ℤ)) h
    simp only [BitVec.toNat_ofInt, Int.toNat_of_nonneg (Int.emod_nonneg _
      (by positivity : ((2 ^ w : ℕ) : ℤ) ≠ 0))] at this
    exact_mod_cast this
  · intro h
    apply BitVec.eq_of_toNat_eq
    rw [BitVec.toNat_ofInt, BitVec.toNat_ofInt]
    push_cast
    rw [h]

/-! ### Wrapping -/

/-- The integer in range that agrees with `v` modulo `2 ^ w`. -/
def wrap (signed : Bool) (w : ℕ) (v : ℤ) : ℤ := if signed then v.bmod (2 ^ w) else v % 2 ^ w

section Wrap

variable {signed : Bool} {w : ℕ} {v : ℤ}

theorem value_ofInt_eq_wrap (hw : w ≤ 64) : value signed w (BitVec.ofInt 64 v) = wrap signed w v := by
  cases signed with
  | true =>
    simp only [value, wrap, if_true]
    rw [setWidth_ofInt hw, BitVec.toInt_ofInt]
  | false =>
    simp only [value, wrap, Bool.false_eq_true, if_false]
    rw [setWidth_ofInt hw, BitVec.toNat_ofInt, Int.toNat_of_nonneg (Int.emod_nonneg _ (by positivity))]
    push_cast
    rfl

theorem extend_ofInt (hw : w ≤ 64) :
    extend signed w (BitVec.ofInt 64 v) = BitVec.ofInt 64 (wrap signed w v) := by
  rw [extend_eq_ofInt signed hw, value_ofInt_eq_wrap hw]

theorem wrap_emod : wrap signed w v % 2 ^ w = v % 2 ^ w := by
  cases signed with
  | true =>
    have h := Int.bmod_emod (x := v) (m := 2 ^ w)
    push_cast at h
    exact h
  | false => exact Int.emod_emod_of_dvd v (dvd_refl _)

theorem wrap_congr {v' : ℤ} (h : v % 2 ^ w = v' % 2 ^ w) : wrap signed w v = wrap signed w v' := by
  cases signed with
  | true =>
    have hcast : v % ((2 ^ w : ℕ) : ℤ) = v' % ((2 ^ w : ℕ) : ℤ) := by
      push_cast
      exact h
    exact (Int.emod_bmod v _).symm.trans ((congrArg (Int.bmod · (2 ^ w)) hcast).trans
      (Int.emod_bmod v' _))
  | false => exact h

/-- Wrapping to fewer bits takes no notice of wrapping to more. -/
theorem wrap_wrap {signed' : Bool} {w' : ℕ} (h : w ≤ w') :
    wrap signed w (wrap signed' w' v) = wrap signed w v := by
  apply wrap_congr
  have hdvd : (2 : ℤ) ^ w ∣ 2 ^ w' := pow_dvd_pow 2 h
  rw [← Int.emod_emod_of_dvd _ hdvd, wrap_emod, Int.emod_emod_of_dvd _ hdvd]

theorem wrap_inRange (hw : 0 < w) (hw' : w ≤ 64) : InRange signed w (wrap signed w v) := by
  rw [← value_ofInt_eq_wrap hw']
  exact value_inRange signed hw _

theorem wrap_of_inRange (hw : 0 < w) (hw' : w ≤ 64) (h : InRange signed w v) :
    wrap signed w v = v := by
  rw [← value_ofInt_eq_wrap hw', value_ofInt hw hw' h]

/-- A word is the pattern of one integer in range. -/
theorem ofInt_inj_of_inRange {v' : ℤ} (hw : 0 < w) (hw' : w ≤ 64) (h : InRange signed w v)
    (h' : InRange signed w v') (heq : BitVec.ofInt 64 v = BitVec.ofInt 64 v') : v = v' := by
  rw [← value_ofInt hw hw' h, heq, value_ofInt hw hw' h']

theorem canonical_ofInt_wrap_iff (hw' : w ≤ 64) :
    Canonical signed w (BitVec.ofInt 64 v) ↔
      BitVec.ofInt 64 v = BitVec.ofInt 64 (wrap signed w v) := by
  rw [Canonical, extend_ofInt hw']

theorem wrap_eq_self_iff (hw : 0 < w) (hw' : w ≤ 64) : wrap signed w v = v ↔ InRange signed w v := by
  constructor
  · intro h
    rw [← h]
    exact wrap_inRange hw hw'
  · exact wrap_of_inRange hw hw'

theorem InRange.mono {w' : ℕ} (h : InRange signed w v) (hle : w ≤ w') : InRange signed w' v := by
  have hpow : (2 : ℤ) ^ w ≤ 2 ^ w' := pow_le_pow_right₀ (by norm_num) hle
  have hhalf : (2 : ℤ) ^ (w - 1) ≤ 2 ^ (w' - 1) := pow_le_pow_right₀ (by norm_num) (by omega)
  cases signed <;> simp only [InRange, Bool.false_eq_true, if_false, if_true] at h ⊢ <;> omega

/-- Unsigned numbers fit any wider type. -/
theorem InRange.widen {signed' : Bool} {w' : ℕ} (h : InRange false w v) (hlt : w < w') :
    InRange signed' w' v := by
  cases signed' with
  | false => exact h.mono hlt.le
  | true =>
    have hpow : (2 : ℤ) ^ w ≤ 2 ^ (w' - 1) := pow_le_pow_right₀ (by norm_num) (by omega)
    simp only [InRange, Bool.false_eq_true, if_false, if_true] at h ⊢
    omega

theorem ofInt_wrap_full : BitVec.ofInt 64 (wrap signed 64 v) = BitVec.ofInt 64 v := by
  rw [← extend_ofInt le_rfl]
  cases signed <;> simp [extend]

/-- A word that wraps `v` is the pattern of `v` when `v` fits. -/
theorem ofInt_wrap_eq_iff (hw : 0 < w) (hw' : w ≤ 64) (h : InRange signed 64 v) :
    BitVec.ofInt 64 (wrap signed w v) = BitVec.ofInt 64 v ↔ InRange signed w v := by
  rw [← wrap_eq_self_iff hw hw']
  constructor
  · exact ofInt_inj_of_inRange (by omega) le_rfl ((wrap_inRange hw hw').mono hw') h
  · exact congrArg _

/-- Sign extension from `w` bits against wrapping to `n` bits, for a number of fewer bits. -/
theorem ofInt_wrap_true_iff {k n : ℕ} (hw : 0 < w) (hw' : w ≤ 64) (hn : n ≤ 64) (hkn : k < n)
    (hk : 0 < k) (h : InRange true k v) :
    BitVec.ofInt 64 (wrap true w v) = BitVec.ofInt 64 (wrap signed n v) ↔
      InRange true w v ∧ (signed = false → n < 64 → 0 ≤ v) := by
  have hfit : InRange true 64 v := h.mono (by omega)
  by_cases hsame : signed = false ∧ n < 64
  · obtain ⟨rfl, hn64⟩ := hsame
    have hpos : (0 : ℤ) < 2 ^ n := by positivity
    have hres : InRange true 64 (wrap false n v) :=
      (wrap_inRange (by omega) hn).widen hn64
    have hpow : (2 : ℤ) ^ k < 2 ^ n := pow_lt_pow_right₀ (by norm_num) hkn
    have hhalf : (2 : ℤ) ^ k = 2 * 2 ^ (k - 1) := by
      rw [← pow_succ', Nat.sub_add_cancel hk]
    have hbounds := h
    simp only [InRange, if_true] at hbounds
    constructor
    · intro heq
      have hval := ofInt_inj_of_inRange (by omega) le_rfl ((wrap_inRange hw hw').mono hw') hres heq
      have hmod : wrap false n v = v % 2 ^ n := rfl
      rcases le_or_gt 0 v with hv | hv
      · have hself : v % 2 ^ n = v := Int.emod_eq_of_lt hv (by omega)
        rw [hmod, hself, wrap_eq_self_iff hw hw'] at hval
        exact ⟨hval, fun _ _ => hv⟩
      · -- the extension stays below the numbers that wrapping makes of negative ones
        have hneg : v % 2 ^ n = v + 2 ^ n := by
          rw [← Int.add_emod_right, Int.emod_eq_of_lt (by omega) (by omega)]
        rcases Nat.le_total k w with hkw | hwk
        · rw [(wrap_eq_self_iff hw hw').mpr (h.mono hkw), hmod, hneg] at hval
          omega
        · have hlow : InRange true w (wrap true w v) := wrap_inRange hw hw'
          have hpow' : (2 : ℤ) ^ (w - 1) ≤ 2 ^ (k - 1) :=
            pow_le_pow_right₀ (by norm_num) (by omega)
          simp only [InRange, if_true] at hlow
          omega
    · rintro ⟨hrange, hv⟩
      have hself : wrap false n v = v :=
        Int.emod_eq_of_lt (hv rfl hn64) (by omega)
      rw [hself, wrap_of_inRange hw hw' hrange]
  · have hself : BitVec.ofInt 64 (wrap signed n v) = BitVec.ofInt 64 v := by
      rcases Nat.lt_or_ge n 64 with hlt | hge
      · have hs : signed = true := by
          cases signed with
          | true => rfl
          | false => exact absurd ⟨rfl, hlt⟩ hsame
        rw [hs, wrap_of_inRange (by omega) hn (h.mono hkn.le)]
      · obtain rfl : n = 64 := by omega
        exact ofInt_wrap_full
    rw [hself, ofInt_wrap_eq_iff hw hw' hfit]
    exact (and_iff_left fun hs hlt => absurd ⟨hs, hlt⟩ hsame).symm

/-- Zero extension from `w` bits against wrapping to `n` bits, for a number of fewer bits. -/
theorem ofInt_wrap_false_iff {k n : ℕ} (hw : 0 < w) (hw' : w ≤ 64) (hn : n ≤ 64) (hkn : k < n)
    (h : InRange false k v) :
    BitVec.ofInt 64 (wrap false w v) = BitVec.ofInt 64 (wrap signed n v) ↔ v < 2 ^ w := by
  have hself : wrap signed n v = v := wrap_of_inRange (by omega) hn (h.widen hkn)
  rw [hself, ofInt_wrap_eq_iff hw hw' (h.mono (by omega))]
  simp only [InRange, Bool.false_eq_true, if_false] at h ⊢
  omega

end Wrap

/-! ### Bits -/

section Bits

variable {b i : ℕ} {x y : BitVec 64}

theorem getLsbD_extend_false (hi : i < 64) :
    (extend false b x).getLsbD i = (decide (i < b) && x.getLsbD i) := by
  by_cases h : i < b
  · simp [extend, h, hi]
  · simp [extend, h]

theorem getLsbD_extend_true (hb : 0 < b) (hi : i < 64) :
    (extend true b x).getLsbD i = x.getLsbD (if i < b then i else b - 1) := by
  rw [extend, if_pos rfl, BitVec.getLsbD_signExtend, decide_eq_true hi, Bool.true_and,
    BitVec.msb_eq_getLsbD_last, BitVec.getLsbD_setWidth, BitVec.getLsbD_setWidth]
  by_cases hib : i < b
  · rw [if_pos hib, if_pos hib, decide_eq_true hib, Bool.true_and]
  · rw [if_neg hib, if_neg hib, decide_eq_true (by omega), Bool.true_and]

theorem getLsbD_extend_low {signed : Bool} (hb : b ≤ 64) (hi : i < b) :
    (extend signed b x).getLsbD i = x.getLsbD i := by
  cases signed with
  | false => rw [getLsbD_extend_false (by omega), decide_eq_true hi, Bool.true_and]
  | true => rw [getLsbD_extend_true (by omega) (by omega), if_pos hi]

theorem extend_congr {signed : Bool}
    (h : ∀ i < b, x.getLsbD i = y.getLsbD i) : extend signed b x = extend signed b y := by
  have hlow : x.setWidth b = y.setWidth b := by
    apply BitVec.eq_of_getLsbD_eq
    intro i hi
    simp [hi, h i hi]
  unfold extend
  rw [hlow]

end Bits

end TwosComplement
