import Mathlib.Data.Nat.Basic
import Mathlib.Order.Basic

/-!
# Bisection

Halving a range of indices finds the one index at which a probe says `eq`, if the probe says `gt`
before it and `lt` after it.
-/

namespace Bisection

/-- `probe i` tells how what is looked for compares to the entry `i`. -/
def bisect (probe : ℕ → Ordering) (lo hi : ℤ) : Option ℕ :=
  if lo ≤ hi then
    match probe ((lo + hi) / 2).toNat with
    | .eq => some ((lo + hi) / 2).toNat
    | .lt => bisect probe lo ((lo + hi) / 2 - 1)
    | .gt => bisect probe ((lo + hi) / 2 + 1) hi
  else none
termination_by (hi + 1 - lo).toNat

/-- From the first entry that is not too small on, all entries are too big. -/
def Ordered (probe : ℕ → Ordering) (n : ℕ) : Prop :=
  ∀ i j, i < j → j < n → probe i ≠ .gt → probe j = .lt

variable {probe : ℕ → Ordering} {n k : ℕ} {lo hi : ℤ}

theorem bisect_eq_some_iff (h : Ordered probe n) (hlo : 0 ≤ lo) (hhi : hi < n) :
    bisect probe lo hi = some k ↔ lo ≤ k ∧ (k : ℤ) ≤ hi ∧ probe k = .eq := by
  fun_induction bisect probe lo hi with
  | case1 lo hi hle heq =>
    constructor
    · intro hk
      obtain rfl := Option.some.inj hk
      exact ⟨by omega, by omega, heq⟩
    · rintro ⟨hk, hk', hprobe⟩
      rcases lt_trichotomy k ((lo + hi) / 2).toNat with hlt | rfl | hgt
      · have hafter := h _ _ hlt (by omega) (by simp [hprobe])
        rw [heq] at hafter
        cases hafter
      · rfl
      · have hafter := h _ _ hgt (by omega) (by simp [heq])
        rw [hprobe] at hafter
        cases hafter
  | case2 lo hi hle hlt ih =>
    rw [ih hlo (by omega)]
    refine and_congr_right fun hk => ⟨fun hin => ⟨by omega, hin.2⟩, fun hin => ⟨?_, hin.2⟩⟩
    by_contra hout
    -- an entry from the middle on is too big
    rcases (show ((lo + hi) / 2).toNat ≤ k by omega).eq_or_lt with rfl | hafter
    · rw [hlt] at hin
      cases hin.2
    · have hbig := h _ _ hafter (by omega) (by simp [hlt])
      rw [hbig] at hin
      cases hin.2
  | case3 lo hi hle hgt ih =>
    rw [ih (by omega) hhi]
    refine ⟨fun hin => ⟨by omega, hin.2⟩, fun hin => ⟨?_, hin.2⟩⟩
    by_contra hout
    -- an entry up to the middle is too small
    rcases (show k ≤ ((lo + hi) / 2).toNat by omega).eq_or_lt with rfl | hbefore
    · rw [hgt] at hin
      cases hin.2.2
    · have hbig := h _ _ hbefore (by omega) (by simp [hin.2.2])
      rw [hgt] at hbig
      cases hbig
  | case4 lo hi hle =>
    constructor
    · intro hk
      cases hk
    · rintro ⟨hk, hk', -⟩
      omega

end Bisection
