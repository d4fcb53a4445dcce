import Mathlib.Data.Int.Bitwise
import Mathlib.Data.Nat.Bitwise
import Mathlib.Tactic.Ring
import Mathlib.Tactic.Linarith

/-!
# Rounding up to a multiple

The least multiple of `a` from `x` on, and the mask by which programs compute it.
-/

namespace Rounding

/-- `x` rounded up to a multiple of `a`. -/
def up (x a : ℤ) : ℤ := (x + a - 1) / a * a

variable {x y a : ℤ}

theorem dvd_up (x a : ℤ) : a ∣ up x a := Dvd.intro_left _ rfl

theorem up_eq (x a : ℤ) : up x a = x + a - 1 - (x + a - 1) % a := by
  have h := Int.mul_ediv_add_emod (x + a - 1) a
  rw [up, mul_comm]
  omega

theorem le_up (ha : 0 < a) (x : ℤ) : x ≤ up x a := by
  have h := Int.emod_lt_of_pos (x + a - 1) ha
  rw [up_eq]
  omega

theorem up_lt (ha : 0 < a) (x : ℤ) : up x a < x + a := by
  have h := Int.emod_nonneg (x + a - 1) ha.ne'
  rw [up_eq]
  omega

/-- It is the least such multiple. -/
theorem up_le (ha : 0 < a) (hxy : x ≤ y) (hy : a ∣ y) : up x a ≤ y := by
  obtain ⟨k, rfl⟩ := hy
  have hq : (x + a - 1) / a < k + 1 := by
    refine Int.ediv_lt_of_lt_mul ha ?_
    rw [add_mul, one_mul, mul_comm k]
    omega
  rw [up, mul_comm a]
  exact Int.mul_le_mul_of_nonneg_right (Int.lt_add_one_iff.mp hq) ha.le

theorem up_of_dvd (ha : 0 < a) (h : a ∣ x) : up x a = x :=
  (up_le ha le_rfl h).antisymm (le_up ha x)

/-- Clearing the low bits. -/
theorem ldiff_two_pow_sub_one (m k : ℕ) : Nat.ldiff m (2 ^ k - 1) = m / 2 ^ k * 2 ^ k := by
  refine Nat.eq_of_testBit_eq fun i => ?_
  rw [Nat.testBit_ldiff, Nat.testBit_two_pow_sub_one, Nat.testBit_mul_two_pow]
  rcases lt_or_ge i k with hi | hi
  · simp [hi, Nat.not_le.mpr hi]
  · simp [hi, Nat.testBit_div_two_pow]

theorem lor_two_pow_sub_one (m k : ℕ) : m ||| (2 ^ k - 1) = m / 2 ^ k * 2 ^ k + (2 ^ k - 1) := by
  have hlt : 2 ^ k - 1 < 2 ^ k := Nat.sub_lt Nat.one_le_two_pow Nat.one_pos
  rw [mul_comm, Nat.two_pow_add_eq_or_of_lt hlt, mul_comm]
  refine Nat.eq_of_testBit_eq fun i => ?_
  rw [Nat.testBit_lor, Nat.testBit_lor, Nat.testBit_two_pow_sub_one, Nat.testBit_mul_two_pow]
  rcases lt_or_ge i k with hi | hi
  · simp [hi]
  · simp [hi, Nat.testBit_div_two_pow]

/-- Masking the low bits rounds down. -/
theorem land_lnot_two_pow (x : ℤ) (k : ℕ) :
    Int.land x (Int.lnot (2 ^ k - 1)) = x / 2 ^ k * 2 ^ k := by
  have hpos := Nat.one_le_two_pow (n := k)
  have hmask : ((2 : ℤ) ^ k - 1) = ((2 ^ k - 1 : ℕ) : ℤ) := by
    push_cast [hpos]
    rfl
  rw [hmask]
  cases x with
  | ofNat m =>
    change ((Nat.ldiff m (2 ^ k - 1) : ℕ) : ℤ) = (m : ℤ) / 2 ^ k * 2 ^ k
    rw [ldiff_two_pow_sub_one]
    push_cast
    rfl
  | negSucc m =>
    change Int.negSucc (m ||| (2 ^ k - 1)) = Int.negSucc m / 2 ^ k * 2 ^ k
    rw [lor_two_pow_sub_one, Int.negSucc_ediv m (by positivity), Int.negSucc_eq]
    push_cast [hpos]
    rw [show (m : ℤ) / 2 ^ k = (m : ℤ).ediv (2 ^ k) from rfl]
    ring

theorem dvd_land_lnot (x : ℤ) (k : ℕ) : (2 : ℤ) ^ k ∣ Int.land x (Int.lnot (2 ^ k - 1)) :=
  land_lnot_two_pow x k ▸ Dvd.intro_left _ rfl

/-- Programs round up to a power of two by adding and masking. -/
theorem land_lnot_eq_up (x : ℤ) (k : ℕ) :
    Int.land (x + 2 ^ k - 1) (Int.lnot (2 ^ k - 1)) = up x (2 ^ k) :=
  land_lnot_two_pow _ k

/-! ### Machine words -/

theorem toNat_and_not {w : ℕ} (x m : BitVec w) : (x &&& ~~~m).toNat = Nat.ldiff x.toNat m.toNat := by
  apply Nat.eq_of_testBit_eq
  intro i
  rw [Nat.testBit_ldiff, BitVec.testBit_toNat, BitVec.testBit_toNat, BitVec.testBit_toNat,
    BitVec.getLsbD_and, BitVec.getLsbD_not]
  by_cases hi : i < w
  · simp [hi]
  · simp [hi, BitVec.getLsbD_of_ge x i (Nat.not_lt.mp hi)]

theorem toNat_add_and_not {w : ℕ} {x a : BitVec w} {k : ℕ} (ha : a.toNat = 2 ^ k)
    (hfit : x.toNat + a.toNat ≤ 2 ^ w) :
    (((x + a - 1#w) &&& ~~~(a - 1#w)).toNat : ℤ) = up x.toNat a.toNat := by
  have hpos := Nat.one_le_two_pow (n := k)
  have hlt := a.isLt
  have hw : 1 < 2 ^ w := lt_of_le_of_lt (ha ▸ hpos) hlt
  have hone : (1#w).toNat = 1 := by rw [BitVec.toNat_ofNat, Nat.mod_eq_of_lt hw]
  have hmask : (a - 1#w).toNat = 2 ^ k - 1 := by
    rw [BitVec.toNat_sub_of_le (by rw [BitVec.le_def, hone]; omega), hone, ha]
  have hsum : (x + a - 1#w).toNat = x.toNat + 2 ^ k - 1 := by
    rw [BitVec.sub_eq_add_neg, BitVec.add_assoc, ← BitVec.sub_eq_add_neg, BitVec.toNat_add, hmask,
      Nat.mod_eq_of_lt (by omega)]
    omega
  rw [toNat_and_not, hmask, hsum, ldiff_two_pow_sub_one, ha, up]
  push_cast [show 1 ≤ x.toNat + 2 ^ k by omega]
  rfl

end Rounding
