import Mathlib.Data.BitVec
import Mathlib.Tactic.Ring

/-!
# Byte-addressed little-endian memory

A memory maps every 64-bit address to a byte. Accesses move up to eight bytes between
the memory and a 64-bit word.
-/

namespace ByteMemory

abbrev Addr := BitVec 64

abbrev Mem := Addr → BitVec 8

def byteOf (v : BitVec 64) (k : ℕ) : BitVec 8 := v.extractLsb' (8 * k) 8

/-- The `n` bytes at `a` as a word, zero-extended. -/
def load (m : Mem) (a : Addr) : ℕ → BitVec 64
  | 0 => 0
  | n + 1 => (m a).setWidth 64 ||| (load m (a + 1) n <<< 8)

/-- The low `n` bytes of `v` written at `a`. -/
def store (m : Mem) (a : Addr) (n : ℕ) (v : BitVec 64) : Mem := fun x =>
  if (x - a).toNat < n then byteOf v (x - a).toNat else m x

def zeroExt (n : ℕ) (v : BitVec 64) : BitVec 64 := (v.setWidth (8 * n)).setWidth 64

def signExt (n : ℕ) (v : BitVec 64) : BitVec 64 := (v.setWidth (8 * n)).signExtend 64

/-- The byte ranges `[a, a + n)` and `[b, b + k)` share no address. -/
def Apart (a : Addr) (n : ℕ) (b : Addr) (k : ℕ) : Prop :=
  ∀ x : Addr, (x - a).toNat < n → ¬ (x - b).toNat < k

theorem ofInt_sub (x y : ℤ) :
    BitVec.ofInt 64 (x - y) = BitVec.ofInt 64 x - BitVec.ofInt 64 y := by
  rw [sub_eq_add_neg, BitVec.ofInt_add, BitVec.ofInt_neg, ← sub_eq_add_neg]

theorem add_ofNat_sub_toNat (a : Addr) {i : ℕ} (hi : i < 2 ^ 64) :
    (a + BitVec.ofNat 64 i - a).toNat = i := by
  rw [add_sub_cancel_left, BitVec.toNat_ofNat]
  exact Nat.mod_eq_of_lt hi

theorem add_ofNat_succ (a : Addr) (i : ℕ) :
    a + BitVec.ofNat 64 (i + 1) = a + 1 + BitVec.ofNat 64 i := by
  rw [BitVec.ofNat_add, BitVec.add_assoc, BitVec.add_comm (BitVec.ofNat 64 i)]
  rfl

theorem byteOf_ext {v w : BitVec 64} (h : ∀ k < 8, byteOf v k = byteOf w k) : v = w := by
  apply BitVec.eq_of_getLsbD_eq
  intro i hi
  have hk := congrArg (fun b => b.getLsbD (i % 8)) (h (i / 8) (by omega))
  have hmod : i % 8 < 8 := Nat.mod_lt _ (by omega)
  simp only [byteOf, BitVec.getLsbD_extractLsb', hmod, decide_true, Bool.true_and] at hk
  rwa [show 8 * (i / 8) + i % 8 = i by omega] at hk

theorem byteOf_load (m : Mem) (a : Addr) (n k : ℕ) (hk : k < 8) :
    byteOf (load m a n) k = if k < n then m (a + BitVec.ofNat 64 k) else 0 := by
  induction n generalizing a k with
  | zero => simp [load, byteOf]
  | succ n ih =>
    cases k with
    | zero =>
      apply BitVec.eq_of_getLsbD_eq
      intro i hi
      simp [load, byteOf, hi, show i < 64 by omega]
    | succ k =>
      have hrest := ih (a + 1) k (by omega)
      have hshift : byteOf (load m a (n + 1)) (k + 1) = byteOf (load m (a + 1) n) k := by
        apply BitVec.eq_of_getLsbD_eq
        intro i hi
        have hlt : 8 * (k + 1) + i < 64 := by omega
        have hsub : 8 * (k + 1) + i - 8 = 8 * k + i := by omega
        have hbit : (m a).getLsbD (8 * (k + 1) + i) = false :=
          BitVec.getLsbD_of_ge _ _ (by omega)
        simp only [load, byteOf, BitVec.getLsbD_extractLsb', BitVec.getLsbD_or,
          BitVec.getLsbD_setWidth, BitVec.getLsbD_shiftLeft, hi, hlt, hbit, hsub, decide_true,
          Bool.true_and, Bool.false_or]
        simp
        omega
      rw [hshift, hrest, ← add_ofNat_succ]
      by_cases h : k < n <;> simp [h]

theorem load_congr {m m' : Mem} {a : Addr} {n : ℕ}
    (h : ∀ k < n, m (a + BitVec.ofNat 64 k) = m' (a + BitVec.ofNat 64 k)) :
    load m a n = load m' a n := by
  apply byteOf_ext
  intro k hk
  rw [byteOf_load _ _ _ _ hk, byteOf_load _ _ _ _ hk]
  by_cases hkn : k < n
  · simp only [if_pos hkn, h k hkn]
  · simp only [if_neg hkn]

theorem store_apply_of_not_lt {m : Mem} {a x : Addr} {n : ℕ} {v : BitVec 64}
    (h : ¬ (x - a).toNat < n) : store m a n v x = m x := if_neg h

theorem store_apply_add {m : Mem} {a : Addr} {n k : ℕ} {v : BitVec 64} (hk : k < n)
    (hn : n ≤ 8) : store m a n v (a + BitVec.ofNat 64 k) = byteOf v k := by
  have hto : (a + BitVec.ofNat 64 k - a).toNat = k := add_ofNat_sub_toNat a (by omega)
  unfold store
  rw [hto, if_pos hk]

theorem load_store_apart {m : Mem} {a b : Addr} {n k : ℕ} {v : BitVec 64} (hn : n ≤ 8)
    (h : Apart a n b k) : load (store m b k v) a n = load m a n := by
  apply load_congr
  intro i hi
  apply store_apply_of_not_lt
  exact h _ (by rw [add_ofNat_sub_toNat a (by omega)]; exact hi)

theorem byteOf_zeroExt (v : BitVec 64) (n k : ℕ) (hk : k < 8) :
    byteOf (zeroExt n v) k = if k < n then byteOf v k else 0 := by
  apply BitVec.eq_of_getLsbD_eq
  intro i hi
  by_cases h : k < n
  · simp [byteOf, zeroExt, hi, h, show 8 * k + i < 8 * n by omega, show 8 * k + i < 64 by omega]
  · simp [byteOf, zeroExt, hi, h, show ¬ 8 * k + i < 8 * n by omega]

/-- Reading back what was written gives the bytes that were written. -/
theorem load_store_self (m : Mem) (a : Addr) {n : ℕ} (hn : n ≤ 8) (v : BitVec 64) :
    load (store m a n v) a n = zeroExt n v := by
  apply byteOf_ext
  intro k hk
  rw [byteOf_load _ _ _ _ hk, byteOf_zeroExt _ _ _ hk]
  by_cases h : k < n
  · simp only [if_pos h, store_apply_add h hn]
  · simp only [if_neg h]

theorem zeroExt_eight (v : BitVec 64) : zeroExt 8 v = v := by simp [zeroExt]

theorem setWidth_zeroExt {n : ℕ} (hn : n ≤ 8) (v : BitVec 64) :
    (zeroExt n v).setWidth (8 * n) = v.setWidth (8 * n) := by
  apply BitVec.eq_of_getLsbD_eq
  intro i hi
  simp [zeroExt, hi, show i < 64 by omega]

theorem zeroExt_zeroExt {n : ℕ} (hn : n ≤ 8) (v : BitVec 64) :
    zeroExt n (zeroExt n v) = zeroExt n v := congrArg (·.setWidth 64) (setWidth_zeroExt hn v)

theorem signExt_zeroExt {n : ℕ} (hn : n ≤ 8) (v : BitVec 64) :
    signExt n (zeroExt n v) = signExt n v := congrArg (·.signExtend 64) (setWidth_zeroExt hn v)

theorem load_store_eight (m : Mem) (a : Addr) (v : BitVec 64) :
    load (store m a 8 v) a 8 = v := by
  rw [load_store_self m a (by omega), zeroExt_eight]

/-- The low `k` bytes of `v`, and the others of `u`. -/
def splice (k : ℕ) (v u : BitVec 64) : BitVec 64 :=
  zeroExt k v ||| (u &&& ~~~zeroExt k (BitVec.allOnes 64))

theorem getLsbD_zeroExt (v : BitVec 64) {n i : ℕ} (hi : i < 64) :
    (zeroExt n v).getLsbD i = (decide (i < 8 * n) && v.getLsbD i) := by
  by_cases h : i < 8 * n
  · simp [zeroExt, h, hi]
  · simp [zeroExt, h]

theorem getLsbD_splice (v u : BitVec 64) {k i : ℕ} (hi : i < 64) :
    (splice k v u).getLsbD i = if i < 8 * k then v.getLsbD i else u.getLsbD i := by
  rw [splice, BitVec.getLsbD_or, BitVec.getLsbD_and, BitVec.getLsbD_not, getLsbD_zeroExt v hi,
    getLsbD_zeroExt _ hi, BitVec.getLsbD_allOnes, decide_eq_true hi]
  by_cases h : i < 8 * k
  · simp [h]
  · simp [h]

theorem byteOf_splice (v u : BitVec 64) {k i : ℕ} (hi : i < 8) :
    byteOf (splice k v u) i = if i < k then byteOf v i else byteOf u i := by
  apply BitVec.eq_of_getLsbD_eq
  intro j hj
  have hbit : (byteOf (splice k v u) i).getLsbD j = (splice k v u).getLsbD (8 * i + j) := by
    simp [byteOf, hj]
  rw [hbit, getLsbD_splice v u (by omega)]
  by_cases h : i < k
  · rw [if_pos h, if_pos (by omega)]
    simp [byteOf, hj]
  · rw [if_neg h, if_neg (by omega)]
    simp [byteOf, hj]

/-- A load after a store of another width at the same address. -/
theorem load_store_splice (m : Mem) (a : Addr) {n k : ℕ} (hk : k ≤ 8) (v : BitVec 64) :
    load (store m a k v) a n = zeroExt n (splice k v (load m a n)) := by
  apply byteOf_ext
  intro i hi
  rw [byteOf_load _ _ _ _ hi, byteOf_zeroExt _ _ _ hi]
  by_cases hn : i < n
  · rw [if_pos hn, if_pos hn, byteOf_splice _ _ hi]
    by_cases hik : i < k
    · rw [if_pos hik, store_apply_add hik hk]
    · have hout : ¬(a + BitVec.ofNat 64 i - a).toNat < k := by
        rw [add_ofNat_sub_toNat a (by omega)]
        exact hik
      rw [if_neg hik, store_apply_of_not_lt hout, byteOf_load _ _ _ _ hi, if_pos hn]
  · rw [if_neg hn, if_neg hn]

/-- Ranges at fixed offsets from one base do not meet when the offsets keep them apart. -/
theorem apart_of_offsets (p : Addr) {i j : ℤ} {n k : ℕ} (h : i + n ≤ j ∨ j + k ≤ i)
    (hlo : -(2 ^ 62) ≤ i - j) (hhi : i - j ≤ 2 ^ 62) (hn : n ≤ 2 ^ 62) (hk : k ≤ 2 ^ 62) :
    Apart (p + BitVec.ofInt 64 i) n (p + BitVec.ofInt 64 j) k := by
  intro x hx hy
  generalize hdi : (x - (p + BitVec.ofInt 64 i)).toNat = di at hx
  generalize hdj : (x - (p + BitVec.ofInt 64 j)).toNat = dj at hy
  have hsub : (x - (p + BitVec.ofInt 64 j)) - (x - (p + BitVec.ofInt 64 i)) =
      BitVec.ofInt 64 (i - j) := by
    rw [ofInt_sub]
    ring
  have hdiff : BitVec.ofInt 64 ((dj : ℤ) - di) = BitVec.ofInt 64 (i - j) := by
    rw [← hsub, ← hdi, ← hdj, ofInt_sub]
    simp only [BitVec.ofInt_natCast, BitVec.ofNat_toNat, BitVec.setWidth_eq]
  have hint := congrArg BitVec.toInt hdiff
  rw [BitVec.toInt_ofInt, BitVec.toInt_ofInt, Int.bmod_eq_of_le (by omega) (by omega),
    Int.bmod_eq_of_le (by omega) (by omega)] at hint
  omega

end ByteMemory
