import TinyC.StructLayout
import TinyC.IntegerObjects
import TinyC.WordRules

/-!
# Bit-fields in their storage units

What the code of a bit-field access makes of the word in the storage unit, and which bits of the
unit belong to the field.
-/

namespace TinyC

open ByteMemory TwosComplement

/-! ### The words of the code -/

/-- The count of a shift by `bit_offset`. -/
def fieldShift (f : StructField) : ℕ := (BitVec.ofInt 64 f.bitOffset).toNat % 64

/-- The value of the field in a unit that is read as `raw`. -/
def fieldOf (f : StructField) (raw : BitVec 64) : BitVec 64 :=
  (if f.bitOffset > 0 then raw.sshiftRight (fieldShift f) else raw) &&& bitMask f.bitWidth

/-- The unit `current` after `value` is stored to the field. -/
def withField (f : StructField) (current value : BitVec 64) : BitVec 64 :=
  let mask := bitMask f.bitWidth
  let clipped := value &&& mask
  (current &&& ~~~(mask <<< f.bitOffset.toNat)) |||
    (if f.bitOffset > 0 then clipped <<< fieldShift f else clipped)

/-- The temps a shift by `bit_offset` takes. -/
def shiftTemps (f : StructField) : ℕ := if f.bitOffset > 0 then 1 else 0

theorem shiftTemps_le (f : StructField) : shiftTemps f ≤ 1 := by
  unfold shiftTemps
  split <;> decide

namespace Does

variable {F : SlotFrame} {Γ : TypeEnv} {E : Env} {g : IrGen} {σ : WordState} {f : StructField}
  {a v : IRValue} {op : IROp} {w : BitVec 64}

theorem genFieldShift (hop : op = .shl ∨ op = .shr) (hty : isFpType (some f.type) = false)
    (hg : 1 ≤ g.func.nextTemp) (hF : g.func.nextTemp + 1 ≤ F.temps) (hv : v.HasSlot g.func.nextTemp)
    (hw : f.bitOffset > 0 → machineBinop op false (σ.word E v) (BitVec.ofInt 64 f.bitOffset) = some w)
    (hkeep : ¬f.bitOffset > 0 → σ.word E v = w) :
    Does F Γ E (genFieldShift op v f) g σ fun v' g' σ' =>
      Yielded E g σ w v' g' σ' ∧ g'.func.nextTemp = g.func.nextTemp + shiftTemps f := by
  unfold TinyC.genFieldShift shiftTemps
  by_cases hoff : f.bitOffset > 0
  · rw [if_pos hoff, if_pos hoff]
    have harith : op.isArith = true := by rcases hop with rfl | rfl <;> rfl
    exact (emitTo harith hty hg (by omega) hv (.int _ _) (hw hoff)).mono
      fun _ _ _ ⟨y, n, _⟩ => ⟨y, n⟩
  · rw [if_neg hoff, if_neg hoff]
    exact pure ⟨⟨hkeep hoff, hv, le_rfl, .refl _ _⟩, rfl⟩

/-- What a load of the field gives. -/
theorem genBitfieldLoad (hty : isFpType (some f.type) = false) (hg : 1 ≤ g.func.nextTemp)
    (hF : g.func.nextTemp + 3 ≤ F.temps) (ha : a.HasSlot g.func.nextTemp)
    (hclear : F.Clear (σ.word E a) (accessBytes Γ (some f.type))) :
    Does F Γ E (genBitfieldLoad a f) g σ fun v g' σ' =>
      Yielded E g σ (fieldOf f (readWord Γ (some f.type) σ.mem (σ.word E a))) v g' σ' ∧
        g'.func.nextTemp ≤ g.func.nextTemp + 3 := by
  let raw := readWord Γ (some f.type) σ.mem (σ.word E a)
  have hshift := shiftTemps_le f
  refine (genLoad hty hg (by omega) ha hclear).andThen fun v₁ g₁ σ₁ ⟨y₁, n₁⟩ => ?_
  let shifted := if f.bitOffset > 0 then raw.sshiftRight (fieldShift f) else raw
  have hpos : f.bitOffset > 0 → machineBinop .shr false (σ₁.word E v₁)
      (BitVec.ofInt 64 f.bitOffset) = some shifted := by
    intro hoff
    have hshifted : shifted = raw.sshiftRight (fieldShift f) := if_pos hoff
    rw [y₁.word, hshifted]
    rfl
  have hneg : ¬f.bitOffset > 0 → σ₁.word E v₁ = shifted :=
    fun hoff => y₁.word.trans (if_neg hoff).symm
  refine (genFieldShift (.inr rfl) hty (by omega) (by omega) y₁.slot hpos hneg).andThen
    fun v₂ g₂ σ₂ ⟨y₂, n₂⟩ => ?_
  have hand : machineBinop .and false (σ₂.word E v₂)
      (σ₂.word E (irvInt (bitMask f.bitWidth) f.type)) = some (fieldOf f raw) := by
    rw [y₂.word]
    rfl
  refine (emitTo rfl hty (by omega) (by omega) y₂.slot (.int _ _) hand).mono
    fun v₃ g₃ σ₃ ⟨y₃, n₃, _⟩ => ⟨⟨y₃.word, y₃.slot, by omega, ?_⟩, by omega⟩
  exact (y₁.keeps.trans y₂.keeps y₁.temps).trans y₃.keeps (by omega)

/-- What a store to the field does to the unit. -/
theorem genBitfieldStore {n : ℕ} (hn : n = accessBytes Γ (pointeeOrStored a.type (some f.type)))
    (hword : isFpType (pointeeOrStored a.type (some f.type)) = false)
    (hty : isFpType (some f.type) = false) (hg : 1 ≤ g.func.nextTemp)
    (hF : g.func.nextTemp + 5 ≤ F.temps) (ha : a.HasSlot g.func.nextTemp)
    (hv : v.HasSlot g.func.nextTemp)
    (hclear : F.Clear (σ.word E a) (accessBytes Γ (some f.type)))
    (hclear' : F.Clear (σ.word E a) n) :
    Does F Γ E (genBitfieldStore a f v) g σ fun v' g' σ' => v' = v ∧
      g.func.nextTemp ≤ g'.func.nextTemp ∧ g'.func.nextTemp ≤ g.func.nextTemp + 5 ∧
      (∀ t < g.func.nextTemp, σ'.temp t = σ.temp t) ∧
      σ'.mem = store σ.mem (σ.word E a) n
        (withField f (readWord Γ (some f.type) σ.mem (σ.word E a)) (σ.word E v)) := by
  let current := readWord Γ (some f.type) σ.mem (σ.word E a)
  let mask := bitMask f.bitWidth
  let clipped := σ.word E v &&& mask
  have hshift := shiftTemps_le f
  refine (genLoad hty hg (by omega) ha hclear).andThen fun v₁ g₁ σ₁ ⟨y₁, n₁⟩ => ?_
  have hand : machineBinop .and false (σ₁.word E v₁)
      (σ₁.word E (irvInt (~~~(mask <<< f.bitOffset.toNat)) f.type)) =
      some (current &&& ~~~(mask <<< f.bitOffset.toNat)) := by
    rw [y₁.word]
    rfl
  refine (emitTo rfl hty (by omega) (by omega) y₁.slot (.int _ _) hand).andThen
    fun v₂ g₂ σ₂ ⟨y₂, n₂, _⟩ => ?_
  have k₂ : σ.Keeps g.func.nextTemp σ₂ := y₁.keeps.trans y₂.keeps y₁.temps
  have hclip : machineBinop .and false (σ₂.word E v) (σ₂.word E (irvInt mask f.type)) =
      some clipped := by
    rw [k₂.word hv]
    rfl
  refine (emitTo rfl hty (by omega) (by omega) (hv.mono (by omega)) (.int _ _) hclip).andThen
    fun v₃ g₃ σ₃ ⟨y₃, n₃, _⟩ => ?_
  have k₃ : σ.Keeps g.func.nextTemp σ₃ := k₂.trans y₃.keeps (by omega)
  let shifted := if f.bitOffset > 0 then clipped <<< fieldShift f else clipped
  have hpos : f.bitOffset > 0 → machineBinop .shl false (σ₃.word E v₃)
      (BitVec.ofInt 64 f.bitOffset) = some shifted := by
    intro hoff
    have hshifted : shifted = clipped <<< fieldShift f := if_pos hoff
    rw [y₃.word, hshifted]
    rfl
  have hneg : ¬f.bitOffset > 0 → σ₃.word E v₃ = shifted :=
    fun hoff => y₃.word.trans (if_neg hoff).symm
  refine (genFieldShift (.inl rfl) hty (by omega) (by omega) y₃.slot hpos hneg).andThen
    fun v₄ g₄ σ₄ ⟨y₄, n₄⟩ => ?_
  have k₄ : σ.Keeps g.func.nextTemp σ₄ := k₃.trans y₄.keeps (by omega)
  have hcleared : σ₄.word E v₂ = current &&& ~~~(mask <<< f.bitOffset.toNat) := by
    have k₂₄ : σ₂.Keeps g₂.func.nextTemp σ₄ := y₃.keeps.trans y₄.keeps y₃.temps
    rw [k₂₄.word y₂.slot, y₂.word]
  have hor : machineBinop .or false (σ₄.word E v₂) (σ₄.word E v₄) =
      some (withField f current (σ.word E v)) := by
    rw [hcleared, y₄.word]
    rfl
  refine (emitTo rfl hty (by omega) (by omega) (y₂.slot.mono (by omega)) y₄.slot hor).andThen
    fun v₅ g₅ σ₅ ⟨y₅, n₅, hv₅⟩ => ?_
  have k₅ : σ.Keeps g.func.nextTemp σ₅ := k₄.trans y₅.keeps (by omega)
  have ha₅ : σ₅.word E a = σ.word E a := k₅.word ha
  refine (genStore (v := v₅) (n := n) ?_ ?_ (ha.mono (by omega)) y₅.slot (by omega) ?_).andThen
    fun _ g₆ σ₆ ⟨hσ₆, n₆⟩ => pure ⟨rfl, by omega, by omega, ?_, ?_⟩
  · rw [hv₅, hn]
  · rw [hv₅, hword]
  · rwa [ha₅]
  · rw [hσ₆]
    exact k₅.temp
  · rw [hσ₆, ha₅, y₅.word, k₅.mem]

end Does

/-! ### The bits of a field -/

/-- The field lies inside its storage unit, as `type_seal_struct` places it. -/
structure FieldPlaced (Γ : TypeEnv) (f : StructField) : Prop where
  type : typeIsInteger f.type = true
  width : 0 < f.bitWidth
  offset : 0 ≤ f.bitOffset
  fits : f.bitOffset + f.bitWidth ≤ 8 * typeSizeof Γ f.type

section

variable {Γ : TypeEnv} {f : StructField} {raw current v u : BitVec 64} {i k : ℕ}

/-- The numbers of a placed field. -/
theorem FieldPlaced.bounds (hf : FieldPlaced Γ f) :
    f.bitOffset.toNat + f.bitWidth.toNat ≤ f.type.bits Γ ∧ f.type.bits Γ ≤ 64 ∧
      0 < f.bitWidth.toNat := by
  have hbits := (word_bits_le (Γ := Γ) (integer_isWord hf.type)).2
  have hfits := hf.fits
  have hwidth := hf.width
  have hoff := hf.offset
  unfold CType.bits at hbits ⊢
  omega

theorem fieldShift_eq (hf : FieldPlaced Γ f) : fieldShift f = f.bitOffset.toNat := by
  have hbounds := hf.bounds
  have hoff := hf.offset
  obtain ⟨o, ho⟩ := Int.eq_ofNat_of_zero_le hoff
  have hlt : o < 64 := by omega
  rw [fieldShift, ho, BitVec.ofInt_natCast, BitVec.toNat_ofNat, Int.toNat_natCast,
    Nat.mod_eq_of_lt (show o < 2 ^ 64 by omega), Nat.mod_eq_of_lt hlt]

theorem getLsbD_bitMask (hw : f.bitWidth < 63) (hi : i < 64) :
    (bitMask f.bitWidth).getLsbD i = decide (i < f.bitWidth.toNat) := by
  unfold bitMask
  by_cases hpos : f.bitWidth ≤ 0
  · have hzero : f.bitWidth.toNat = 0 := by omega
    rw [if_pos hpos, hzero]
    simp
  · rw [if_neg hpos, if_neg (by omega), BitVec.getLsbD_ofNat, Nat.testBit_two_pow_sub_one,
      decide_eq_true hi, Bool.true_and]

theorem bitMask_wide (hw : 63 ≤ f.bitWidth) : bitMask f.bitWidth = BitVec.allOnes 64 := by
  rw [bitMask, if_neg (by omega), if_pos hw]

/-- The load shifts the field down and cuts it off. -/
theorem getLsbD_fieldOf (hf : FieldPlaced Γ f) (hw : f.bitWidth < 63) (hi : i < 64) :
    (fieldOf f raw).getLsbD i =
      (decide (i < f.bitWidth.toNat) && raw.getLsbD (f.bitOffset.toNat + i)) := by
  have hbounds := hf.bounds
  rw [fieldOf, BitVec.getLsbD_and, getLsbD_bitMask hw hi, fieldShift_eq hf, Bool.and_comm]
  by_cases hin : i < f.bitWidth.toNat
  · rw [decide_eq_true hin, Bool.true_and, Bool.true_and]
    by_cases hoff : f.bitOffset > 0
    · rw [if_pos hoff, BitVec.getLsbD_sshiftRight, if_pos (by omega), decide_eq_false (by omega)]
      simp
    · have hzero : f.bitOffset.toNat = 0 := by omega
      rw [if_neg hoff, hzero, Nat.zero_add]
  · rw [decide_eq_false hin, Bool.false_and, Bool.false_and]

/-- The store replaces the bits of the field and no others. -/
theorem getLsbD_withField (hf : FieldPlaced Γ f) (hw : f.bitWidth < 63) (hi : i < 64) :
    (withField f current v).getLsbD i =
      if f.bitOffset.toNat ≤ i ∧ i < f.bitOffset.toNat + f.bitWidth.toNat then
        v.getLsbD (i - f.bitOffset.toNat)
      else current.getLsbD i := by
  have hbounds := hf.bounds
  have hshifted : (if f.bitOffset > 0 then (v &&& bitMask f.bitWidth) <<< fieldShift f
      else v &&& bitMask f.bitWidth) = (v &&& bitMask f.bitWidth) <<< f.bitOffset.toNat := by
    by_cases hoff : f.bitOffset > 0
    · rw [if_pos hoff, fieldShift_eq hf]
    · have hzero : f.bitOffset.toNat = 0 := by omega
      rw [if_neg hoff, hzero, BitVec.shiftLeft_zero]
  unfold withField
  dsimp only
  rw [hshifted, BitVec.getLsbD_or, BitVec.getLsbD_and, BitVec.getLsbD_not,
    BitVec.getLsbD_shiftLeft, BitVec.getLsbD_shiftLeft, BitVec.getLsbD_and]
  by_cases hlow : i < f.bitOffset.toNat
  · have hout : ¬(f.bitOffset.toNat ≤ i ∧ i < f.bitOffset.toNat + f.bitWidth.toNat) := by omega
    rw [if_neg hout]
    simp [hlow, hi]
  · rw [getLsbD_bitMask hw (by omega)]
    by_cases hin : i - f.bitOffset.toNat < f.bitWidth.toNat
    · rw [if_pos (by omega)]
      simp [hlow, hin, hi]
    · rw [if_neg (by omega)]
      simp [hlow, hin, hi]

/-- What a load of the field gives after `v` has been stored to it. -/
def storedField (f : StructField) (v : BitVec 64) : BitVec 64 :=
  if f.bitWidth < 63 then extend false f.bitWidth.toNat v
  else if f.bitOffset = 0 then v
  else extend true 63 v

/-- A field of 63 or 64 bits takes the whole unit but its lowest bit. -/
theorem FieldPlaced.wide (hf : FieldPlaced Γ f) (hw : 63 ≤ f.bitWidth) :
    f.type.bits Γ = 64 ∧ (f.bitOffset = 0 ∨ f.bitOffset = 1) := by
  have hbounds := hf.bounds
  have hoff := hf.offset
  have hbits := word_bits (Γ := Γ) (integer_isWord hf.type)
  omega

/-- A store that covers the unit. -/
theorem fieldOf_store (hf : FieldPlaced Γ f) (hcover : typeSizeof Γ f.type ≤ k) :
    fieldOf f (reread Γ f.type k (withField f current v) u) = storedField f v := by
  have hbounds := hf.bounds
  rw [reread_covered hf.type hcover, storedField]
  by_cases hw : f.bitWidth < 63
  · rw [if_pos hw]
    apply BitVec.eq_of_getLsbD_eq
    intro i hi
    rw [getLsbD_fieldOf hf hw hi, getLsbD_extend_false hi]
    by_cases hin : i < f.bitWidth.toNat
    · rw [getLsbD_extend_low hbounds.2.1 (by omega), getLsbD_withField hf hw (by omega),
        if_pos (by omega), Nat.add_sub_cancel_left]
    · rw [decide_eq_false hin, Bool.false_and, Bool.false_and]
  · obtain ⟨hbits, hoff⟩ := hf.wide (by omega)
    rw [if_neg hw, hbits, extend_full, fieldOf, withField, bitMask_wide (by omega),
      fieldShift_eq hf]
    rcases hoff with hoff | hoff
    · simp only [hoff, gt_iff_lt, lt_irrefl, if_false, if_true, Int.toNat_zero,
        BitVec.shiftLeft_zero, BitVec.not_allOnes, BitVec.and_zero, BitVec.zero_or,
        BitVec.and_allOnes]
    · have hone : (1 : ℤ).toNat = 1 := rfl
      simp only [hoff, gt_iff_lt, zero_lt_one, if_true, one_ne_zero, if_false, hone,
        BitVec.and_allOnes]
      generalize hunit : current &&& ~~~(BitVec.allOnes 64 <<< 1) ||| v <<< 1 = unit
      have hbit : ∀ j, 1 ≤ j → j < 64 → unit.getLsbD j = v.getLsbD (j - 1) := by
        intro j hj hj64
        rw [← hunit, BitVec.getLsbD_or, BitVec.getLsbD_and, BitVec.getLsbD_not,
          BitVec.getLsbD_shiftLeft, BitVec.getLsbD_shiftLeft, BitVec.getLsbD_allOnes,
          decide_eq_true hj64, decide_eq_false (show ¬j < 1 by omega),
          decide_eq_true (show j - 1 < 64 by omega)]
        simp
      apply BitVec.eq_of_getLsbD_eq
      intro i hi
      rw [getLsbD_extend_true (by omega) hi, BitVec.getLsbD_sshiftRight,
        decide_eq_false (by omega), Bool.not_false, Bool.true_and]
      by_cases hlt : 1 + i < 64
      · rw [if_pos hlt, if_pos (by omega), hbit _ (by omega) hlt, Nat.add_sub_cancel_left]
      · rw [if_neg hlt, if_neg (by omega), BitVec.msb_eq_getLsbD_last, hbit _ (by omega) (by omega)]

/-- The words that a store to the field keeps. -/
def FieldFits (f : StructField) (v : BitVec 64) : Prop :=
  if f.bitWidth < 63 then Canonical false f.bitWidth.toNat v
  else f.bitOffset = 0 ∨ Canonical true 63 v

theorem storedField_eq_iff : storedField f v = v ↔ FieldFits f v := by
  unfold storedField FieldFits
  by_cases hw : f.bitWidth < 63
  · rw [if_pos hw, if_pos hw, Canonical, eq_comm]
  · rw [if_neg hw, if_neg hw]
    by_cases hoff : f.bitOffset = 0
    · simp [hoff]
    · rw [if_neg hoff, Canonical, eq_comm]
      simp [hoff]

/-- The words that, written over the whole unit, the field reads back as they are. -/
def FillsUnit (f : StructField) (w : BitVec 64) : Prop :=
  (f.bitOffset = 0 ∧ FieldFits f w) ∨ w = 0 ∨ (63 ≤ f.bitWidth ∧ w = -1)

/-- A word that is the same after a shift by some bits has no bits. -/
theorem eq_zero_of_shifted {w : BitVec 64} {n o : ℕ} (ho : 0 < o)
    (h : ∀ i < 64, w.getLsbD i = (decide (i < n) && w.getLsbD (o + i))) : w = 0 := by
  have hbits : ∀ d i, n ≤ i + d → i < 64 → w.getLsbD i = false := by
    intro d
    induction d with
    | zero =>
      intro i hi hi64
      rw [h i hi64, decide_eq_false (by omega), Bool.false_and]
    | succ d ih =>
      intro i hi hi64
      rw [h i hi64]
      by_cases hlt : o + i < 64
      · rw [ih (o + i) (by omega) hlt, Bool.and_false]
      · rw [BitVec.getLsbD_of_ge _ _ (by omega), Bool.and_false]
  apply BitVec.eq_of_getLsbD_eq
  intro i hi
  rw [hbits n i (by omega) hi]
  exact BitVec.getLsbD_zero.symm

theorem sshiftRight_one_eq_iff {w : BitVec 64} : w.sshiftRight 1 = w ↔ w = 0 ∨ w = -1 := by
  constructor
  · intro h
    have hint : (w.sshiftRight 1).toInt = w.toInt := by rw [h]
    rw [BitVec.toInt_sshiftRight, Int.shiftRight_eq_div_pow] at hint
    have hcases : w.toInt = 0 ∨ w.toInt = -1 := by omega
    rcases hcases with hw | hw
    · exact .inl (BitVec.eq_of_toInt_eq (by rw [hw]; rfl))
    · exact .inr (BitVec.eq_of_toInt_eq (by rw [hw]; rfl))
  · rintro (rfl | rfl) <;> rfl

theorem fieldOf_extend_eq_iff (hf : FieldPlaced Γ f) :
    fieldOf f (extend (typeIsSigned f.type) (f.type.bits Γ) v) = v ↔ FillsUnit f v := by
  have hbounds := hf.bounds
  have hoffset := hf.offset
  by_cases hw : f.bitWidth < 63
  · have hbit : ∀ i < 64, (fieldOf f (extend (typeIsSigned f.type) (f.type.bits Γ) v)).getLsbD i =
        (decide (i < f.bitWidth.toNat) && v.getLsbD (f.bitOffset.toNat + i)) := by
      intro i hi
      rw [getLsbD_fieldOf hf hw hi]
      by_cases hin : i < f.bitWidth.toNat
      · rw [getLsbD_extend_low hbounds.2.1 (by omega)]
      · rw [decide_eq_false hin, Bool.false_and, Bool.false_and]
    constructor
    · intro h
      rw [h] at hbit
      by_cases hoff : f.bitOffset = 0
      · refine .inl ⟨hoff, ?_⟩
        rw [FieldFits, if_pos hw, Canonical]
        apply BitVec.eq_of_getLsbD_eq
        intro i hi
        rw [getLsbD_extend_false hi, hbit i hi, hoff, Int.toNat_zero, Nat.zero_add,
          ← Bool.and_assoc, Bool.and_self]
      · exact .inr (.inl (eq_zero_of_shifted (by omega) hbit))
    · rintro (⟨hoff, hfits⟩ | rfl | ⟨hwide, -⟩)
      · rw [FieldFits, if_pos hw, Canonical] at hfits
        apply BitVec.eq_of_getLsbD_eq
        intro i hi
        rw [hbit i hi, hoff, Int.toNat_zero, Nat.zero_add, ← getLsbD_extend_false hi, ← hfits]
      · apply BitVec.eq_of_getLsbD_eq
        intro i hi
        have hzero : ∀ j, (0 : BitVec 64).getLsbD j = false := fun j => BitVec.getLsbD_zero
        rw [hbit i hi, hzero, hzero, Bool.and_false]
      · omega
  · obtain ⟨hbits, hoff⟩ := hf.wide (by omega)
    rw [hbits, extend_full, fieldOf, bitMask_wide (by omega), BitVec.and_allOnes, fieldShift_eq hf,
      FillsUnit, FieldFits, if_neg hw]
    rcases hoff with hoff | hoff
    · simp [hoff]
    · have hone : (1 : ℤ).toNat = 1 := rfl
      have hwide : 63 ≤ f.bitWidth := by omega
      rw [hoff, if_pos Int.one_pos, hone, sshiftRight_one_eq_iff]
      simp [hwide]

end

end TinyC
