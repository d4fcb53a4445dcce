import TinyC.WordMachine

/-!
# Objects of integer type

What a load gives after a store of the same or another width to the object.
-/

namespace TinyC

open ByteMemory TwosComplement

section

variable {Γ : TypeEnv} {ty : CType} {m : Mem} {a : Addr} {k : ℕ} {w : BitVec 64}

theorem integer_isWord (h : typeIsInteger ty = true) : ty.isWord = true := by
  rw [CType.isWord, h]
  rfl

theorem sizeOrEight_integer (h : typeIsInteger ty = true) :
    sizeOrEight Γ (some ty) = typeSizeof Γ ty := by
  have hsize := word_size (Γ := Γ) (integer_isWord h)
  rw [sizeOrEight, if_pos (by omega)]

/-- An access moves as many bytes as the type has. -/
theorem accessBytes_integer (h : typeIsInteger ty = true) :
    (accessBytes Γ (some ty) : ℤ) = typeSizeof Γ ty ∧ ty.bits Γ = 8 * accessBytes Γ (some ty) := by
  rw [accessBytes, sizeOrEight_integer h, CType.bits]
  rcases word_size (Γ := Γ) (integer_isWord h) with h | h | h | h <;> rw [h] <;> exact ⟨rfl, rfl⟩

theorem readWord_integer (h : typeIsInteger ty = true) :
    readWord Γ (some ty) m a =
      extend (typeIsSigned ty) (ty.bits Γ) (load m a (accessBytes Γ (some ty))) := by
  have hall : (some ty).all typeIsSigned = typeIsSigned ty := rfl
  rw [readWord, sizeOrEight_integer h, hall]
  generalize load m a (accessBytes Γ (some ty)) = x
  unfold extendWord CType.bits
  rcases word_size (Γ := Γ) (integer_isWord h) with h | h | h | h <;> rw [h]
  · rfl
  · rfl
  · rfl
  · cases typeIsSigned ty
    · simp [extend]
    · simp [extend]

/-- What a load gives after `k` bytes of `w` have been written over the object `u`. -/
def reread (Γ : TypeEnv) (ty : CType) (k : ℕ) (w u : BitVec 64) : BitVec 64 :=
  extend (typeIsSigned ty) (ty.bits Γ) (splice k w u)

theorem readWord_store (h : typeIsInteger ty = true) (hk : k ≤ 8) :
    readWord Γ (some ty) (store m a k w) a =
      reread Γ ty k w (load m a (accessBytes Γ (some ty))) := by
  rw [readWord_integer h, load_store_splice m a hk, reread]
  apply extend_congr
  intro i hi
  have hbits := (accessBytes_integer (Γ := Γ) h).2
  have hle := (word_bits_le (Γ := Γ) (integer_isWord h)).2
  rw [getLsbD_zeroExt _ (by omega), decide_eq_true (by omega), Bool.true_and]

/-- A store that covers the object leaves nothing of it. -/
theorem reread_covered (h : typeIsInteger ty = true) (hcover : typeSizeof Γ ty ≤ k)
    (u : BitVec 64) : reread Γ ty k w u = extend (typeIsSigned ty) (ty.bits Γ) w := by
  apply extend_congr
  intro i hi
  obtain ⟨hsize, hbits⟩ := accessBytes_integer (Γ := Γ) h
  have hle := (word_bits_le (Γ := Γ) (integer_isWord h)).2
  rw [getLsbD_splice _ _ (by omega), if_pos (by omega)]

/-- A store that leaves some bytes of the object has to find them as they are in the word. -/
theorem reread_eq_self_iff (h : typeIsInteger ty = true) {u : BitVec 64} :
    reread Γ ty k w u = w ↔ Canonical (typeIsSigned ty) (ty.bits Γ) w ∧
      ∀ i, 8 * k ≤ i → i < ty.bits Γ → w.getLsbD i = u.getLsbD i := by
  have hle := (word_bits_le (Γ := Γ) (integer_isWord h))
  have hlow : ∀ i < ty.bits Γ, (reread Γ ty k w u).getLsbD i =
      if i < 8 * k then w.getLsbD i else u.getLsbD i := by
    intro i hi
    rw [reread, getLsbD_extend_low hle.2 hi, getLsbD_splice _ _ (by omega)]
  constructor
  · intro heq
    have hkept : ∀ i, 8 * k ≤ i → i < ty.bits Γ → w.getLsbD i = u.getLsbD i := by
      intro i hk hi
      have hbit := hlow i hi
      rwa [heq, if_neg (by omega)] at hbit
    refine ⟨?_, hkept⟩
    rw [← heq, reread]
    exact canonical_extend hle.1 hle.2 _
  · rintro ⟨hcanonical, hkept⟩
    have hsame : reread Γ ty k w u = extend (typeIsSigned ty) (ty.bits Γ) w := by
      apply extend_congr
      intro i hi
      rw [getLsbD_splice _ _ (by omega)]
      by_cases hk : i < 8 * k
      · rw [if_pos hk]
      · rw [if_neg hk, hkept i (by omega) hi]
    rw [hsame, ← hcanonical]

end

end TinyC
