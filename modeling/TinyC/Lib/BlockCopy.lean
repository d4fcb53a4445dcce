import TinyC.Lib.ByteMemory

/-!
# Copying a block piece by piece

A block of bytes is moved in pieces of at most eight bytes, from the first one on, between ranges
that do not overlap.
-/

namespace ByteMemory

/-- The first `k` bytes at `src` are at `dst` as well. -/
def copied (m : Mem) (dst src : Addr) (k : ℕ) : Mem := fun x =>
  if (x - dst).toNat < k then m (src + (x - dst)) else m x

/-- The range `r` is a part of the `n` bytes at `a`. -/
def Inside (a : Addr) (n : ℕ) (r : Addr × ℕ) : Prop :=
  ∀ x : Addr, (x - r.1).toNat < r.2 → (x - a).toNat < n

variable {m : Mem} {dst src : Addr} {n k w : ℕ}

theorem copied_zero : copied m dst src 0 = m := by
  funext x
  exact if_neg (Nat.not_lt_zero _)

theorem copied_apply_add {i : ℕ} (hi : i < k) (hk : k ≤ 2 ^ 64) :
    copied m dst src k (dst + BitVec.ofNat 64 i) = m (src + BitVec.ofNat 64 i) := by
  have hto := add_ofNat_sub_toNat dst (show i < 2 ^ 64 by omega)
  rw [copied, hto, if_pos hi, add_sub_cancel_left]

theorem copied_apply_of_not_lt {x : Addr} (hx : ¬(x - dst).toNat < k) :
    copied m dst src k x = m x := if_neg hx

/-- How far an address of a piece is from the start of the block. -/
theorem sub_add_toNat {a x : Addr} (hk : k + w ≤ 2 ^ 64)
    (hx : (x - (a + BitVec.ofNat 64 k)).toNat < w) :
    (x - a).toNat = k + (x - (a + BitVec.ofNat 64 k)).toNat := by
  have hsplit : x - a = BitVec.ofNat 64 k + (x - (a + BitVec.ofNat 64 k)) := by ring
  rw [hsplit, BitVec.toNat_add, BitVec.toNat_ofNat, Nat.mod_eq_of_lt (show k < 2 ^ 64 by omega)]
  exact Nat.mod_eq_of_lt (by omega)

theorem inside_piece {a : Addr} (hk : k + w ≤ n) (hn : n ≤ 2 ^ 64) :
    Inside a n (a + BitVec.ofNat 64 k, w) := by
  intro x hx
  rw [sub_add_toNat (by omega) hx]
  dsimp only at hx
  omega

/-- Copying has not changed what is still to be read. -/
theorem load_copied (h : Apart src n dst n) (hk : k + w ≤ n) (hn : n ≤ 2 ^ 64) :
    load (copied m dst src k) (src + BitVec.ofNat 64 k) w =
      load m (src + BitVec.ofNat 64 k) w := by
  apply load_congr
  intro i hi
  apply copied_apply_of_not_lt
  have haddr : src + BitVec.ofNat 64 k + BitVec.ofNat 64 i = src + BitVec.ofNat 64 (k + i) := by
    rw [BitVec.ofNat_add, BitVec.add_assoc]
  have hin := add_ofNat_sub_toNat src (show k + i < 2 ^ 64 by omega)
  have hout := h (src + BitVec.ofNat 64 (k + i)) (by omega)
  rw [haddr]
  omega

/-- One more piece. -/
theorem store_copied (h : Apart src n dst n) (hk : k + w ≤ n) (hn : n ≤ 2 ^ 64) (hw : w ≤ 8) :
    store (copied m dst src k) (dst + BitVec.ofNat 64 k) w
      (load (copied m dst src k) (src + BitVec.ofNat 64 k) w) = copied m dst src (k + w) := by
  rw [load_copied h hk hn]
  funext x
  unfold store
  by_cases hx : (x - (dst + BitVec.ofNat 64 k)).toNat < w
  · have hoff := sub_add_toNat (by omega) hx
    have haddr : src + BitVec.ofNat 64 k +
        BitVec.ofNat 64 (x - (dst + BitVec.ofNat 64 k)).toNat = src + (x - dst) := by
      rw [BitVec.ofNat_toNat, BitVec.setWidth_eq]
      ring
    rw [if_pos hx, byteOf_load _ _ _ _ (by omega), if_pos hx, haddr, copied, if_pos (by omega)]
  · rw [if_neg hx]
    unfold copied
    by_cases hlt : (x - dst).toNat < k
    · rw [if_pos hlt, if_pos (by omega)]
    · have hpast : ¬(x - dst).toNat < k + w := by
        intro hin
        apply hx
        have hsplit : x - (dst + BitVec.ofNat 64 k) = (x - dst) - BitVec.ofNat 64 k := by ring
        have hsmall : (BitVec.ofNat 64 k).toNat = k := by
          rw [BitVec.toNat_ofNat]
          exact Nat.mod_eq_of_lt (by omega)
        rw [hsplit, BitVec.toNat_sub_of_le (by rw [BitVec.le_def]; omega)]
        omega
      rw [if_neg hlt, if_neg hpast]

end ByteMemory
