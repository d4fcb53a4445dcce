import TinyC.Lib.TwosComplement

/-!
# Signed operations on unsigned numbers

An unsigned 64-bit number read as a signed one is itself below `2 ^ 63` and is off by
`2 ^ 64` from there on. For quotient, remainder and right shift this tells exactly when
the signed operation gives the unsigned result modulo `2 ^ 64`.
-/

namespace SignedDivision

open TwosComplement

/-- The signed reading of an unsigned number. -/
def reread (a : ℤ) : ℤ := if a < 2 ^ 63 then a else a - 2 ^ 64

/-- When the signed quotient is the unsigned one. -/
def QuotAgrees (a b : ℤ) : Prop :=
  (a < 2 ^ 63 ∧ b < 2 ^ 63) ∨ b = 1 ∨ (a < 2 ^ 63 ∧ 2 ^ 63 ≤ b ∧ a < 2 ^ 64 - b) ∨ a = b

/-- When the signed remainder is the unsigned one. -/
def RemAgrees (a b : ℤ) : Prop :=
  (a < 2 ^ 63 ∧ b < 2 ^ 63) ∨ (2 ^ 63 ≤ a ∧ b < 2 ^ 63 ∧ b ∣ a ∧ b ∣ 2 ^ 64 - a) ∨
    (a < 2 ^ 63 ∧ 2 ^ 63 ≤ b ∧ a < 2 ^ 64 - b) ∨ a = b

/-- When the arithmetic right shift is the logical one. -/
def ShiftAgrees (a b : ℤ) : Prop := a < 2 ^ 63 ∨ b = 0

theorem toInt_ofInt {a : ℤ} (ha : 0 ≤ a) (ha' : a < 2 ^ 64) :
    (BitVec.ofInt 64 a).toInt = reread a := by
  unfold reread
  split
  · exact toInt_ofInt_of_range (by omega) (by omega)
  · have hshift : BitVec.ofInt 64 a = BitVec.ofInt 64 (a - 2 ^ 64) :=
      ofInt_eq_ofInt_iff.mpr (by omega)
    rw [hshift]
    exact toInt_ofInt_of_range (by omega) (by omega)

/-- No quotient outside the signed range, which is the divide error. -/
def NoOverflow (q : ℤ) : Prop := -2 ^ 63 ≤ q ∧ q < 2 ^ 63

section Cases

variable {a b : ℤ}

private theorem quot_le (ha : 0 ≤ a) (hb : 0 < b) : 0 ≤ a / b ∧ a / b ≤ a := by
  have hq := Int.ediv_nonneg ha hb.le
  have hmul := Int.ediv_mul_le a hb.ne'
  exact ⟨hq, by nlinarith⟩

private theorem tdiv_neg_left (x b : ℤ) (hx : 0 ≤ x) : (-x).tdiv b = -(x / b) := by
  rw [Int.neg_tdiv, Int.tdiv_eq_ediv_of_nonneg hx]

private theorem quot_high_low (ha : 2 ^ 63 ≤ a) (ha' : a < 2 ^ 64) (hb : 0 < b)
    (hb' : b < 2 ^ 63) :
    (NoOverflow ((a - 2 ^ 64).tdiv b) ∧ (a - 2 ^ 64).tdiv b % 2 ^ 64 = a / b % 2 ^ 64) ↔ b = 1 := by
  obtain ⟨x, hx⟩ : ∃ x, x = 2 ^ 64 - a := ⟨_, rfl⟩
  have hneg : a - 2 ^ 64 = -x := by omega
  rw [hneg, tdiv_neg_left x b (by omega)]
  constructor
  · rintro ⟨-, hmod⟩
    by_contra hne
    have hqa := Int.ediv_mul_le a hb.ne'
    have hqx := Int.ediv_mul_le x hb.ne'
    have hqx₀ := quot_le (a := x) (by omega) hb
    have hqa₁ : 1 ≤ a / b := (Int.le_ediv_iff_mul_le hb).mpr (by omega)
    have htwo : 2 ≤ b := by omega
    have hhalf : 2 * (a / b) ≤ a := by nlinarith
    have hhalf' : 2 * (x / b) ≤ x := by nlinarith
    omega
  · rintro rfl
    simp only [Int.ediv_one]
    exact ⟨⟨by omega, by omega⟩, by omega⟩

private theorem quot_low_high (ha : 0 ≤ a) (ha' : a < 2 ^ 63) (hb : 2 ^ 63 ≤ b) (hb' : b < 2 ^ 64) :
    (NoOverflow (a.tdiv (b - 2 ^ 64)) ∧ a.tdiv (b - 2 ^ 64) % 2 ^ 64 = a / b % 2 ^ 64) ↔
      a < 2 ^ 64 - b := by
  obtain ⟨y, hy⟩ : ∃ y, y = 2 ^ 64 - b := ⟨_, rfl⟩
  have hneg : b - 2 ^ 64 = -y := by omega
  have hzero : a / b = 0 := Int.ediv_eq_zero_of_lt ha (by omega)
  have hq := quot_le (a := a) (b := y) ha (by omega)
  rw [hneg, Int.tdiv_neg, Int.tdiv_eq_ediv_of_nonneg ha, hzero, ← hy]
  constructor
  · rintro ⟨-, hmod⟩
    have hquot : a / y = 0 := by omega
    by_contra hle
    have hone : 1 ≤ a / y := (Int.le_ediv_iff_mul_le (by omega)).mpr (by omega)
    omega
  · intro hlt
    rw [Int.ediv_eq_zero_of_lt ha hlt]
    exact ⟨⟨by omega, by omega⟩, rfl⟩

private theorem quot_high_high (ha : 2 ^ 63 ≤ a) (ha' : a < 2 ^ 64) (hb : 2 ^ 63 ≤ b)
    (hb' : b < 2 ^ 64) :
    (NoOverflow ((a - 2 ^ 64).tdiv (b - 2 ^ 64)) ∧
      (a - 2 ^ 64).tdiv (b - 2 ^ 64) % 2 ^ 64 = a / b % 2 ^ 64) ↔ a = b := by
  obtain ⟨x, hx⟩ : ∃ x, x = 2 ^ 64 - a := ⟨_, rfl⟩
  obtain ⟨y, hy⟩ : ∃ y, y = 2 ^ 64 - b := ⟨_, rfl⟩
  have hnega : a - 2 ^ 64 = -x := by omega
  have hnegb : b - 2 ^ 64 = -y := by omega
  have hq := quot_le (a := x) (b := y) (by omega) (by omega)
  rw [hnega, hnegb, tdiv_neg_left _ _ (by omega), Int.ediv_neg, neg_neg]
  constructor
  · rintro ⟨hno, hmod⟩
    unfold NoOverflow at hno
    rcases lt_trichotomy a b with hlt | heq | hgt
    · have hzero : a / b = 0 := Int.ediv_eq_zero_of_lt (by omega) hlt
      have hone : 1 ≤ x / y := (Int.le_ediv_iff_mul_le (by omega)).mpr (by omega)
      omega
    · exact heq
    · have hone : a / b = 1 := by
        have hlo : 1 ≤ a / b := (Int.le_ediv_iff_mul_le (by omega)).mpr (by omega)
        have hhi : a / b < 2 := Int.ediv_lt_of_lt_mul (by omega) (by omega)
        omega
      have hzero : x / y = 0 := Int.ediv_eq_zero_of_lt (by omega) (by omega)
      omega
  · intro heq
    have hxy : x = y := by omega
    rw [hxy, heq, Int.ediv_self (by omega), Int.ediv_self (by omega)]
    exact ⟨⟨by omega, by omega⟩, rfl⟩

theorem quot_agrees_iff (ha : 0 ≤ a) (ha' : a < 2 ^ 64) (hb : 0 < b) (hb' : b < 2 ^ 64) :
    (NoOverflow ((reread a).tdiv (reread b)) ∧
      (reread a).tdiv (reread b) % 2 ^ 64 = a / b % 2 ^ 64) ↔ QuotAgrees a b := by
  unfold reread QuotAgrees
  by_cases hla : a < 2 ^ 63 <;> by_cases hlb : b < 2 ^ 63
  · rw [if_pos hla, if_pos hlb, Int.tdiv_eq_ediv_of_nonneg ha]
    have hq := quot_le ha hb
    exact ⟨fun _ => Or.inl ⟨hla, hlb⟩, fun _ => ⟨⟨by omega, by omega⟩, rfl⟩⟩
  · rw [if_pos hla, if_neg hlb, quot_low_high ha hla (by omega) hb']
    omega
  · rw [if_neg hla, if_pos hlb, quot_high_low (by omega) ha' hb hlb]
    omega
  · rw [if_neg hla, if_neg hlb, quot_high_high (by omega) ha' (by omega) hb']
    omega

private theorem tmod_neg_left (x b : ℤ) (hx : 0 ≤ x) : (-x).tmod b = -(x % b) := by
  rw [Int.neg_tmod, Int.tmod_eq_emod_of_nonneg hx]

private theorem rem_high_low (ha : 2 ^ 63 ≤ a) (ha' : a < 2 ^ 64) (hb : 0 < b)
    (hb' : b < 2 ^ 63) :
    (NoOverflow ((a - 2 ^ 64).tdiv b) ∧ (a - 2 ^ 64).tmod b % 2 ^ 64 = a % b % 2 ^ 64) ↔
      b ∣ a ∧ b ∣ 2 ^ 64 - a := by
  obtain ⟨x, hx⟩ : ∃ x, x = 2 ^ 64 - a := ⟨_, rfl⟩
  have hneg : a - 2 ^ 64 = -x := by omega
  have hra := Int.emod_nonneg a hb.ne'
  have hra' := Int.emod_lt_of_pos a hb
  have hrx := Int.emod_nonneg x hb.ne'
  have hrx' := Int.emod_lt_of_pos x hb
  have hq := quot_le (a := x) (by omega) hb
  rw [hneg, tmod_neg_left _ _ (by omega), tdiv_neg_left _ _ (by omega), ← hx,
    Int.dvd_iff_emod_eq_zero, Int.dvd_iff_emod_eq_zero]
  constructor
  · rintro ⟨-, hmod⟩
    omega
  · rintro ⟨hza, hzx⟩
    rw [hza, hzx]
    exact ⟨⟨by omega, by omega⟩, rfl⟩

private theorem rem_low_high (ha : 0 ≤ a) (ha' : a < 2 ^ 63) (hb : 2 ^ 63 ≤ b) (hb' : b < 2 ^ 64) :
    (NoOverflow (a.tdiv (b - 2 ^ 64)) ∧ a.tmod (b - 2 ^ 64) % 2 ^ 64 = a % b % 2 ^ 64) ↔
      a < 2 ^ 64 - b := by
  obtain ⟨y, hy⟩ : ∃ y, y = 2 ^ 64 - b := ⟨_, rfl⟩
  have hneg : b - 2 ^ 64 = -y := by omega
  have hmod : a % b = a := Int.emod_eq_of_lt ha (by omega)
  have hr := Int.emod_nonneg a (show y ≠ 0 by omega)
  have hr' := Int.emod_lt_of_pos a (show 0 < y by omega)
  have hq := quot_le (a := a) (b := y) ha (by omega)
  rw [hneg, Int.tmod_neg, Int.tmod_eq_emod_of_nonneg ha, Int.tdiv_neg,
    Int.tdiv_eq_ediv_of_nonneg ha, hmod, ← hy]
  constructor
  · rintro ⟨-, heq⟩
    omega
  · intro hlt
    rw [Int.emod_eq_of_lt ha hlt]
    exact ⟨⟨by omega, by omega⟩, rfl⟩

private theorem rem_high_high (ha : 2 ^ 63 ≤ a) (ha' : a < 2 ^ 64) (hb : 2 ^ 63 ≤ b)
    (hb' : b < 2 ^ 64) :
    (NoOverflow ((a - 2 ^ 64).tdiv (b - 2 ^ 64)) ∧
      (a - 2 ^ 64).tmod (b - 2 ^ 64) % 2 ^ 64 = a % b % 2 ^ 64) ↔ a = b := by
  obtain ⟨x, hx⟩ : ∃ x, x = 2 ^ 64 - a := ⟨_, rfl⟩
  obtain ⟨y, hy⟩ : ∃ y, y = 2 ^ 64 - b := ⟨_, rfl⟩
  have hnega : a - 2 ^ 64 = -x := by omega
  have hnegb : b - 2 ^ 64 = -y := by omega
  have hr := Int.emod_nonneg x (show y ≠ 0 by omega)
  have hr' := Int.emod_lt_of_pos x (show 0 < y by omega)
  rw [hnega, hnegb, Int.tmod_neg, tmod_neg_left _ _ (by omega), tdiv_neg_left _ _ (by omega),
    Int.ediv_neg, neg_neg]
  constructor
  · rintro ⟨-, hmod⟩
    rcases lt_trichotomy a b with hlt | heq | hgt
    · have ha₀ : a % b = a := Int.emod_eq_of_lt (by omega) hlt
      omega
    · exact heq
    · have hx₀ : x % y = x := Int.emod_eq_of_lt (by omega) (by omega)
      have ha₀ : a % b = a - b := by
        rw [← Int.sub_emod_right, Int.emod_eq_of_lt (by omega) (by omega)]
      omega
  · intro heq
    have hxy : x = y := by omega
    rw [hxy, heq, Int.emod_self, Int.emod_self, Int.ediv_self (by omega)]
    exact ⟨⟨by omega, by omega⟩, rfl⟩

theorem rem_agrees_iff (ha : 0 ≤ a) (ha' : a < 2 ^ 64) (hb : 0 < b) (hb' : b < 2 ^ 64) :
    (NoOverflow ((reread a).tdiv (reread b)) ∧
      (reread a).tmod (reread b) % 2 ^ 64 = a % b % 2 ^ 64) ↔ RemAgrees a b := by
  unfold reread RemAgrees
  by_cases hla : a < 2 ^ 63 <;> by_cases hlb : b < 2 ^ 63
  · rw [if_pos hla, if_pos hlb, Int.tmod_eq_emod_of_nonneg ha, Int.tdiv_eq_ediv_of_nonneg ha]
    have hq := quot_le ha hb
    exact ⟨fun _ => Or.inl ⟨hla, hlb⟩, fun _ => ⟨⟨by omega, by omega⟩, rfl⟩⟩
  · rw [if_pos hla, if_neg hlb, rem_low_high ha hla (by omega) hb']
    omega
  · rw [if_neg hla, if_pos hlb, rem_high_low (by omega) ha' hb hlb]
    constructor
    · rintro ⟨h, h'⟩
      exact Or.inr (Or.inl ⟨by omega, hlb, h, h'⟩)
    · rintro (h | ⟨-, -, h, h'⟩ | h | h)
      · omega
      · exact ⟨h, h'⟩
      · omega
      · omega
  · rw [if_neg hla, if_neg hlb, rem_high_high (by omega) ha' (by omega) hb']
    omega

theorem shift_agrees_iff {n : ℕ} (hn : n < 64) :
    reread a / 2 ^ n % 2 ^ 64 = a / 2 ^ n % 2 ^ 64 ↔ ShiftAgrees a n := by
  unfold reread ShiftAgrees
  by_cases hla : a < 2 ^ 63
  · rw [if_pos hla]
    exact ⟨fun _ => Or.inl hla, fun _ => rfl⟩
  · have hsplit : (2 : ℤ) ^ 64 = 2 ^ (64 - n) * 2 ^ n := by
      rw [← pow_add]
      congr 1
      omega
    have hquot : (a - 2 ^ 64) / 2 ^ n = a / 2 ^ n - 2 ^ (64 - n) := by
      rw [hsplit, Int.sub_mul_ediv_right _ _ (by positivity)]
    rw [if_neg hla, hquot]
    constructor
    · intro h
      right
      by_contra hne
      have hlt : (2 : ℤ) ^ (64 - n) < 2 ^ 64 := pow_lt_pow_right₀ (by norm_num) (by omega)
      have hpos : (0 : ℤ) < 2 ^ (64 - n) := by positivity
      omega
    · rintro (h | h)
      · exact absurd h hla
      · obtain rfl : n = 0 := by omega
        simp

end Cases

end SignedDivision
