import TinyC.Types
import TinyC.Lib.RecordLayout
import Mathlib.Data.List.Fold

/-!
# The layout of structs and unions

`type_seal_struct` and `type_seal_union`, in the arithmetic of a 32-bit `int`. As long as the size
stays in its range, the fields are laid out as records are.
-/

namespace TinyC

open RecordLayout

/-! ### Sealing -/

/-- `(x + a - 1) & ~(a - 1)` on `int`. -/
def alignUp32 (x a : ℤ) : ℤ := Int.land (toInt32 (x + a - 1)) (Int.lnot (a - 1))

/-- The locals of `type_seal_struct`. -/
structure SealState where
  offset : ℤ := 0
  maxAlign : ℤ := 1
  bitUnitOff : ℤ := 0
  bitNext : ℤ := 0
  bitUnitSize : ℤ := 0
  bitUnitAlign : ℤ := 1
  deriving DecidableEq, Repr

/-- One turn of the loop of `type_seal_struct`. -/
def sealField (Γ : TypeEnv) (st : SealState) (f : StructField) : StructField × SealState :=
  let fa := typeAlignof Γ f.type
  let fs := typeSizeof Γ f.type
  let st := { st with maxAlign := if fa > st.maxAlign then fa else st.maxAlign }
  if f.bitWidth ≥ 0 then
    let unitBits := if fs > 0 then toInt32 (fs * 8) else 32
    if f.bitWidth = 0 then
      let offset := if st.bitNext > 0 then toInt32 (st.bitUnitOff + st.bitUnitSize) else st.offset
      (f, { st with offset := alignUp32 offset fa, bitNext := 0 })
    else
      let st :=
        if st.bitNext = 0 ∨ toInt32 (st.bitNext + f.bitWidth) > unitBits ∨
            fa ≠ st.bitUnitAlign ∨ fs ≠ st.bitUnitSize then
          let offset := alignUp32 st.offset fa
          { st with
            offset := toInt32 (offset + fs), bitUnitOff := offset, bitUnitSize := fs,
            bitUnitAlign := fa, bitNext := 0 }
        else st
      ({ f with offset := st.bitUnitOff, bitOffset := st.bitNext },
        { st with bitNext := toInt32 (st.bitNext + f.bitWidth) })
  else
    let offset := alignUp32 st.offset fa
    ({ f with offset := offset }, { st with bitNext := 0, offset := toInt32 (offset + fs) })

def sealFields (Γ : TypeEnv) : SealState → List StructField → List StructField × SealState
  | st, [] => ([], st)
  | st, f :: fs =>
      let (f', st₁) := sealField Γ st f
      let (fs', st₂) := sealFields Γ st₁ fs
      (f' :: fs', st₂)

def typeSealStruct (Γ : TypeEnv) (d : AggDef) : AggDef :=
  let (fields, st) := sealFields Γ {} d.fields
  { d with fields := fields, size := alignUp32 st.offset st.maxAlign, align := st.maxAlign }

def typeSealUnion (Γ : TypeEnv) (d : AggDef) : AggDef :=
  let maxAlign := d.fields.foldl (fun m f => if typeAlignof Γ f.type > m then typeAlignof Γ f.type else m) 1
  let maxSize := d.fields.foldl (fun m f => if typeSizeof Γ f.type > m then typeSizeof Γ f.type else m) 0
  { d with
    fields := d.fields.map fun f =>
      if f.bitWidth ≥ 0 then { f with offset := 0, bitOffset := 0 } else { f with offset := 0 }
    size := alignUp32 maxSize maxAlign
    align := maxAlign }

/-! ### Fields as slots -/

/-- A positive multiple of the alignment, which is a power of two of type `int`. -/
structure WellSized (Γ : TypeEnv) (ty : CType) : Prop where
  size : 0 < typeSizeof Γ ty
  align : ∃ k < 31, typeAlignof Γ ty = 2 ^ k
  dvd : typeAlignof Γ ty ∣ typeSizeof Γ ty

/-- What the layout asks of a field. -/
structure FieldOk (Γ : TypeEnv) (f : StructField) : Prop where
  ordinary : f.bitWidth < 0 → WellSized Γ f.type
  bitField : 0 ≤ f.bitWidth → typeIsInteger f.type = true ∧ f.bitWidth ≤ 8 * typeSizeof Γ f.type

def fieldSlot (Γ : TypeEnv) (f : StructField) : Slot where
  size := typeSizeof Γ f.type
  align := typeAlignof Γ f.type
  width := if f.bitWidth < 0 then none else some f.bitWidth
  off := f.offset
  bit := f.bitOffset

/-- The size of a struct with these fields, were `int` unbounded. -/
def totalSize (Γ : TypeEnv) (fs : List StructField) : ℤ :=
  Rounding.up (layout {} (fs.map (fieldSlot Γ))).2.used (maxAlign (fs.map (fieldSlot Γ)))

/-- The size of a union with these members, were `int` unbounded. -/
def unionSize (Γ : TypeEnv) (fs : List StructField) : ℤ :=
  Rounding.up ((fs.map fun f => typeSizeof Γ f.type).foldr max 0) (maxAlign (fs.map (fieldSlot Γ)))

section

variable {Γ : TypeEnv} {f : StructField} {fs : List StructField} {st : SealState} {c : Cursor}

theorem integer_wellSized {ty : CType} (h : typeIsInteger ty = true) :
    WellSized Γ ty ∧ typeSizeof Γ ty ≤ 8 := by
  have hk : ∀ k : ScalarKind, k.isInteger = true →
      k.align = k.size ∧ (k.size = 2 ^ 0 ∨ k.size = 2 ^ 1 ∨ k.size = 2 ^ 2 ∨ k.size = 2 ^ 3) := by
    intro k hk
    cases k <;> first | (cases hk; done) | exact ⟨rfl, by simp [ScalarKind.size]⟩
  cases ty with
  | scalar k q =>
    obtain ⟨halign, hsize⟩ := hk k h
    have hle : 0 < k.size ∧ k.size ≤ 8 := by omega
    refine ⟨⟨hle.1, ?_, ?_⟩, hle.2⟩
    · rcases hsize with h | h | h | h
      · exact ⟨0, by omega, halign.trans h⟩
      · exact ⟨1, by omega, halign.trans h⟩
      · exact ⟨2, by omega, halign.trans h⟩
      · exact ⟨3, by omega, halign.trans h⟩
    · exact dvd_of_eq halign
  | enum id q =>
    have hsize : typeSizeof Γ (.enum id q) = 4 := by rw [typeSizeof]
    have halign : typeAlignof Γ (.enum id q) = 4 := by rw [typeAlignof]
    exact ⟨⟨by omega, ⟨2, by omega, halign⟩, by rw [hsize, halign]⟩, by omega⟩
  | _ => cases h

theorem FieldOk.wellSized (h : FieldOk Γ f) : WellSized Γ f.type := by
  by_cases hw : f.bitWidth < 0
  · exact h.ordinary hw
  · exact (integer_wellSized (h.bitField (not_lt.mp hw)).1).1

theorem FieldOk.sound (h : FieldOk Γ f) : (fieldSlot Γ f).Sound := by
  have hws := h.wellSized
  constructor
  · exact hws.size
  · obtain ⟨k, -, hk⟩ := hws.align
    exact lt_of_lt_of_eq (by positivity) hk.symm
  · exact hws.dvd
  · intro w hw
    by_cases hneg : f.bitWidth < 0
    · simp [fieldSlot, hneg] at hw
    · have heq : f.bitWidth = w := by simpa [fieldSlot, hneg] using hw
      rw [← heq]
      exact ⟨not_lt.mp hneg, (h.bitField (not_lt.mp hneg)).2⟩

theorem toInt32_of_range {x : ℤ} (hlo : -2 ^ 31 ≤ x) (hhi : x < 2 ^ 31) : toInt32 x = x := by
  rw [toInt32, Int.bmod_def]
  omega

theorem alignUp32_eq {x a : ℤ} (hx : 0 ≤ x) (ha : ∃ k < 31, a = 2 ^ k) (hfit : x + a ≤ 2 ^ 31) :
    alignUp32 x a = Rounding.up x a := by
  obtain ⟨k, -, rfl⟩ := ha
  have hpos : (0 : ℤ) < 2 ^ k := by positivity
  rw [alignUp32, toInt32_of_range (by omega) (by omega)]
  exact Rounding.land_lnot_eq_up x k

/-! ### One field -/

/-- The locals hold what the cursor says. -/
structure Agrees (st : SealState) (c : Cursor) : Prop where
  offset : st.offset = c.used
  closed : c.openUnit = none → st.bitNext = 0
  opened : ∀ u, c.openUnit = some u →
    u = ⟨st.bitUnitOff, st.bitUnitSize, st.bitUnitAlign, st.bitNext⟩
  small : 0 ≤ st.bitNext ∧ st.bitNext ≤ 64

theorem Agrees.start : Agrees {} {} :=
  ⟨rfl, fun _ => rfl, fun u hu => absurd hu (by simp), by decide⟩

/-- What sealing leaves alone. -/
def shape (f : StructField) : Option String × CType × ℤ := (f.name, f.type, f.bitWidth)

/-- A field is placed as its slot is. -/
structure Follows (Γ : TypeEnv) (st : SealState) (f : StructField) (r : StructField × SealState)
    (p : Slot × Cursor) : Prop where
  slot : fieldSlot Γ r.1 = p.1
  agrees : Agrees r.2 p.2
  maxAlign : r.2.maxAlign = max (typeAlignof Γ f.type) st.maxAlign
  shape_eq : shape r.1 = shape f

theorem ite_max (a b : ℤ) : (if a > b then a else b) = max a b := by
  split
  · exact (max_eq_left (by omega)).symm
  · exact (max_eq_right (by omega)).symm

theorem sealField_follows (hf : FieldOk Γ f) (hag : Agrees st c) (hc : c.Ok)
    (hfit : (place c (fieldSlot Γ f)).2.used + typeAlignof Γ f.type ≤ 2 ^ 31) :
    Follows Γ st f (sealField Γ st f) (place c (fieldSlot Γ f)) := by
  have hws := hf.wellSized
  have hadv := (place_ok hc hf.sound).2.1.used
  have hpos : 0 < typeAlignof Γ f.type := hf.sound.align
  have hup : alignUp32 st.offset (typeAlignof Γ f.type) =
      Rounding.up c.used (typeAlignof Γ f.type) := by
    rw [hag.offset]
    exact alignUp32_eq hc.used hws.align (by omega)
  rcases lt_trichotomy f.bitWidth 0 with hneg | hzero | hbit
  · have hwidth : (fieldSlot Γ f).width = none := if_pos hneg
    have hused := hws.size
    have hle := Rounding.le_up hpos c.used
    rw [place_ordinary hwidth] at hfit ⊢
    rw [sealField, if_neg (by omega)]
    dsimp only [fieldSlot] at hfit hle ⊢
    have hcused := hc.used
    rw [hup, toInt32_of_range (by omega) (by omega)]
    exact ⟨rfl, ⟨rfl, fun _ => rfl, fun u hu => absurd hu (by simp), by norm_num⟩, ite_max _ _,
      rfl⟩
  · have hsep : ¬(fieldSlot Γ f).IsMember := by
      simp [Slot.IsMember, fieldSlot, hzero]
    have hoffset : (if st.bitNext > 0 then toInt32 (st.bitUnitOff + st.bitUnitSize)
        else st.offset) = st.offset := by
      split
      · cases hu : c.openUnit with
        | none =>
          have h0 := hag.closed hu
          omega
        | some u =>
          have hend := (hc.unit u hu).1
          rw [hag.opened u hu] at hend
          have hcused := hc.used
          have hoff := hag.offset
          dsimp only at hend
          rw [toInt32_of_range (by omega) (by omega)]
          omega
      · rfl
    rw [place_separator hsep]
    rw [sealField, if_pos (by omega), if_pos hzero, hoffset]
    dsimp only
    rw [hup]
    exact ⟨rfl, ⟨rfl, fun _ => rfl, fun u hu => absurd hu (by simp), by norm_num⟩, ite_max _ _,
      rfl⟩
  · have hint := integer_wellSized (Γ := Γ) (hf.bitField hbit.le).1
    have hle := (hf.bitField hbit.le).2
    have hwidth : (fieldSlot Γ f).width = some f.bitWidth := if_neg (by omega)
    have hneg : ¬f.bitWidth < 0 := by omega
    have hsize := hint.1.size
    have hbits : (if typeSizeof Γ f.type > 0 then toInt32 (typeSizeof Γ f.type * 8) else 32) =
        8 * typeSizeof Γ f.type := by
      rw [if_pos hsize, toInt32_of_range (by omega) (by omega), mul_comm]
    have hsmall := hag.small
    have hnext : toInt32 (st.bitNext + f.bitWidth) = st.bitNext + f.bitWidth :=
      toInt32_of_range (by omega) (by omega)
    by_cases hnew : st.bitNext = 0 ∨ st.bitNext + f.bitWidth > 8 * typeSizeof Γ f.type ∨
        typeAlignof Γ f.type ≠ st.bitUnitAlign ∨ typeSizeof Γ f.type ≠ st.bitUnitSize
    · have hplace : place c (fieldSlot Γ f) = openAt c (fieldSlot Γ f) f.bitWidth := by
        cases hu : c.openUnit with
        | none => simp only [place, hwidth, hu, if_neg hbit.ne']
        | some u =>
          have hfits : ¬u.Fits (fieldSlot Γ f) f.bitWidth := by
            rw [hag.opened u hu]
            rintro ⟨hroom, halign, hsz⟩
            have hnext0 := (hc.unit u hu).2.2.1
            rw [hag.opened u hu] at hnext0
            dsimp only [fieldSlot] at hroom halign hsz hnext0
            omega
          simp only [place, hwidth, hu, if_neg hbit.ne', if_neg hfits]
      have hfit' := hfit
      rw [hplace] at hfit'
      dsimp only [openAt, fieldSlot] at hfit'
      have hcused := hc.used
      have hleup := Rounding.le_up hpos c.used
      rw [hplace, sealField, if_pos hbit.le, hbits]
      dsimp only
      rw [if_neg hbit.ne', hnext, if_pos hnew, hup]
      dsimp only
      rw [toInt32_of_range (by omega) (by omega), zero_add, toInt32_of_range (by omega) (by omega)]
      refine ⟨?_, ⟨rfl, fun hu => absurd hu (Option.some_ne_none _), ?_, by dsimp only; omega⟩,
        ite_max _ _, rfl⟩
      · simp [fieldSlot, openAt, hneg]
      · intro u hu
        cases hu
        rfl
    · have hold := hnew
      simp only [not_or, not_lt, not_not] at hold
      obtain ⟨hnext0, hroom, halign, hsz⟩ := hold
      cases hu : c.openUnit with
      | none => exact absurd (hag.closed hu) hnext0
      | some u =>
        have hfits : u.Fits (fieldSlot Γ f) f.bitWidth := by
          rw [hag.opened u hu]
          exact ⟨hroom, halign, hsz⟩
        have hplace : place c (fieldSlot Γ f) = ({ fieldSlot Γ f with off := u.off, bit := u.next },
            { c with openUnit := some { u with next := u.next + f.bitWidth } }) := by
          simp only [place, hwidth, hu, if_neg hbit.ne', if_pos hfits]
        rw [hplace, sealField, if_pos hbit.le, hbits]
        dsimp only
        rw [if_neg hbit.ne', hnext, if_neg hnew]
        dsimp only
        rw [hnext, hag.opened u hu]
        refine ⟨?_, ⟨hag.offset, fun hu => absurd hu (Option.some_ne_none _), ?_, by dsimp only; omega⟩,
          ite_max _ _, rfl⟩
        · simp [fieldSlot, hneg]
        · intro v hv
          cases hv
          rfl

/-! ### All fields -/

theorem sealFields_layout (hf : ∀ f ∈ fs, FieldOk Γ f) (hag : Agrees st c) (hc : c.Ok)
    (hfit : (layout c (fs.map (fieldSlot Γ))).2.used + maxAlign (fs.map (fieldSlot Γ)) ≤ 2 ^ 31) :
    (sealFields Γ st fs).1.map (fieldSlot Γ) = (layout c (fs.map (fieldSlot Γ))).1 ∧
      (sealFields Γ st fs).2.offset = (layout c (fs.map (fieldSlot Γ))).2.used ∧
      (sealFields Γ st fs).2.maxAlign = (fs.map fun f => typeAlignof Γ f.type).foldl max st.maxAlign ∧
      (sealFields Γ st fs).1.map shape = fs.map shape := by
  induction fs generalizing st c with
  | nil => exact ⟨rfl, hag.offset, rfl, rfl⟩
  | cons f fs ih =>
    have hf₁ := hf f List.mem_cons_self
    have hfs : ∀ g ∈ fs, FieldOk Γ g := fun g hg => hf g (List.mem_cons_of_mem f hg)
    rw [List.map_cons, layout_cons, maxAlign_cons] at hfit
    dsimp only at hfit
    have hok := (place_ok hc hf₁.sound).1
    have hsound : ∀ s ∈ fs.map (fieldSlot Γ), s.Sound := by
      intro s hs
      obtain ⟨g, hg, rfl⟩ := List.mem_map.mp hs
      exact (hfs g hg).sound
    have hmono := (layout_laid hok hsound).2.1.advances.used
    have halign : (fieldSlot Γ f).align = typeAlignof Γ f.type := rfl
    have hstep := sealField_follows hf₁ hag hc (by omega)
    obtain ⟨hslots, hoff, hal, hshape⟩ := ih hfs hstep.agrees hok (by omega)
    refine ⟨?_, hoff, ?_, List.cons_eq_cons.mpr ⟨hstep.shape_eq, hshape⟩⟩
    · rw [List.map_cons, layout_cons, ← hslots, ← hstep.slot]
      rfl
    · rw [List.map_cons, List.foldl_cons, max_comm, ← hstep.maxAlign]
      exact hal

/-- The greatest of some powers of two. -/
theorem foldr_max_two_pow {xs : List ℤ} (h : ∀ x ∈ xs, ∃ k < 31, x = 2 ^ k) :
    ∃ k < 31, xs.foldr max 1 = 2 ^ k := by
  induction xs with
  | nil => exact ⟨0, by omega, rfl⟩
  | cons x xs ih =>
    rw [List.foldr_cons]
    rcases max_choice x (xs.foldr max 1) with hmax | hmax
    · rw [hmax]
      exact h x List.mem_cons_self
    · rw [hmax]
      exact ih fun y hy => h y (List.mem_cons_of_mem x hy)

/-- What is rounded up below `2 ^ 31` leaves room for another step. -/
theorem up_add_le {x a : ℤ} (ha : ∃ k < 31, a = 2 ^ k) (h : Rounding.up x a < 2 ^ 31) :
    Rounding.up x a + a ≤ 2 ^ 31 := by
  obtain ⟨k, hk, rfl⟩ := ha
  obtain ⟨q, hq⟩ := Rounding.dvd_up x (2 ^ k)
  have hpow : (2 : ℤ) ^ 31 = 2 ^ k * 2 ^ (31 - k) := by
    rw [← pow_add]
    congr 1
    omega
  have hpos : (0 : ℤ) < 2 ^ k := by positivity
  rw [hq, hpow] at h ⊢
  have hlt : q < 2 ^ (31 - k) := lt_of_mul_lt_mul_left h hpos.le
  calc 2 ^ k * q + 2 ^ k = 2 ^ k * (q + 1) := by ring
    _ ≤ 2 ^ k * 2 ^ (31 - k) := mul_le_mul_of_nonneg_left hlt hpos.le

theorem sound_fields (hf : ∀ f ∈ fs, FieldOk Γ f) : ∀ s ∈ fs.map (fieldSlot Γ), s.Sound := by
  intro s hs
  obtain ⟨f, hmem, rfl⟩ := List.mem_map.mp hs
  exact (hf f hmem).sound

theorem maxAlign_two_pow (hf : ∀ f ∈ fs, FieldOk Γ f) :
    ∃ k < 31, maxAlign (fs.map (fieldSlot Γ)) = 2 ^ k := by
  apply foldr_max_two_pow
  intro x hx
  simp only [List.map_map, List.mem_map] at hx
  obtain ⟨f, hmem, rfl⟩ := hx
  exact (hf f hmem).wellSized.align

/-- Sealing a struct lays out its fields. -/
theorem typeSealStruct_layout {d : AggDef} (hf : ∀ f ∈ d.fields, FieldOk Γ f)
    (hsize : totalSize Γ d.fields < 2 ^ 31) :
    SoundLayout ((typeSealStruct Γ d).fields.map (fieldSlot Γ)) (typeSealStruct Γ d).size
        (typeSealStruct Γ d).align ∧
      (typeSealStruct Γ d).fields.map shape = d.fields.map shape ∧
      (typeSealStruct Γ d).align = maxAlign (d.fields.map (fieldSlot Γ)) := by
  have hpow := maxAlign_two_pow hf
  have hmax := one_le_maxAlign (d.fields.map (fieldSlot Γ))
  have hroom := up_add_le hpow hsize
  have hle := Rounding.le_up (show 0 < maxAlign (d.fields.map (fieldSlot Γ)) by omega)
    (layout {} (d.fields.map (fieldSlot Γ))).2.used
  have hused := (layout_laid .start (sound_fields hf)).1.used
  obtain ⟨hslots, hoff, hal, hshape⟩ := sealFields_layout hf .start .start (by omega)
  have halign : (typeSealStruct Γ d).align = maxAlign (d.fields.map (fieldSlot Γ)) := by
    rw [maxAlign, List.map_map]
    exact hal.trans List.foldl_eq_foldr
  have hsz : (typeSealStruct Γ d).size =
      Rounding.up (layout {} (d.fields.map (fieldSlot Γ))).2.used
        (maxAlign (d.fields.map (fieldSlot Γ))) := by
    rw [← halign, ← hoff]
    have hpow' : ∃ k < 31, (typeSealStruct Γ d).align = 2 ^ k := by
      rw [halign]
      exact hpow
    have hnonneg : 0 ≤ (sealFields Γ {} d.fields).2.offset := by
      rw [hoff]
      exact hused
    have hfits : (sealFields Γ {} d.fields).2.offset + (typeSealStruct Γ d).align ≤ 2 ^ 31 := by
      rw [halign, hoff]
      omega
    exact alignUp32_eq hnonneg hpow' hfits
  refine ⟨?_, hshape, halign⟩
  rw [halign, hsz, show (typeSealStruct Γ d).fields.map (fieldSlot Γ) = _ from hslots]
  exact layout_sound (sound_fields hf)

/-! ### Nested types -/

/-- The object types whose sizes are known, built from the inside out. -/
inductive Complete (Γ : TypeEnv) : CType → Prop where
  | scalar {k q} : k ≠ .void → Complete Γ (.scalar k q)
  | pointer {p q} : Complete Γ (.pointer p q)
  | enum {id q} : Complete Γ (.enum id q)
  | array {elem n q} : Complete Γ elem → 0 < n → typeSizeof Γ elem * n < 2 ^ 31 →
      Complete Γ (.array elem n q)
  | struct {id q d} : Γ.agg id = typeSealStruct Γ d →
      (∀ f ∈ d.fields, f.bitWidth < 0 → Complete Γ f.type) →
      (∀ f ∈ d.fields, 0 ≤ f.bitWidth →
        typeIsInteger f.type = true ∧ f.bitWidth ≤ 8 * typeSizeof Γ f.type) →
      (∃ f ∈ d.fields, f.bitWidth ≠ 0) → totalSize Γ d.fields < 2 ^ 31 →
      Complete Γ (.agg false id q)
  | union {id q d} : Γ.agg id = typeSealUnion Γ d →
      (∀ f ∈ d.fields, f.bitWidth < 0 → Complete Γ f.type) →
      (∀ f ∈ d.fields, 0 ≤ f.bitWidth →
        typeIsInteger f.type = true ∧ f.bitWidth ≤ 8 * typeSizeof Γ f.type) →
      d.fields ≠ [] →
      unionSize Γ d.fields < 2 ^ 31 → Complete Γ (.agg true id q)

theorem scalar_wellSized {k : ScalarKind} {q : TypeQual} (hk : k ≠ .void) :
    WellSized Γ (.scalar k q) := by
  have h : k.align = k.size ∧ 0 < k.size ∧ ∃ j < 31, k.align = 2 ^ j := by
    cases k with
    | void => exact absurd rfl hk
    | bool | char | schar | uchar => exact ⟨rfl, by decide, 0, by decide, rfl⟩
    | short | ushort => exact ⟨rfl, by decide, 1, by decide, rfl⟩
    | int | uint | float => exact ⟨rfl, by decide, 2, by decide, rfl⟩
    | long | ulong | llong | ullong | double => exact ⟨rfl, by decide, 3, by decide, rfl⟩
    | ldouble => exact ⟨rfl, by decide, 4, by decide, rfl⟩
  exact ⟨h.2.1, h.2.2, dvd_of_eq h.1⟩

theorem array_wellSized {elem : CType} {n : ℤ} {q : TypeQual} (h : WellSized Γ elem) (hn : 0 < n)
    (hfit : typeSizeof Γ elem * n < 2 ^ 31) : WellSized Γ (.array elem n q) := by
  have hsize := h.size
  have hle : n ≤ typeSizeof Γ elem * n := le_mul_of_one_le_left hn.le hsize
  have hle' : typeSizeof Γ elem ≤ typeSizeof Γ elem * n := le_mul_of_one_le_right hsize.le hn
  have hsz : typeSizeof Γ (.array elem n q) = typeSizeof Γ elem * n := by
    rw [typeSizeof, if_neg (by omega), toInt32_of_range (show -2 ^ 31 ≤ n by omega) (by omega),
      toInt32_of_range (by omega) (by omega)]
  have hal : typeAlignof Γ (.array elem n q) = typeAlignof Γ elem := by rw [typeAlignof]
  refine ⟨?_, ?_, ?_⟩
  · rw [hsz]
    exact mul_pos hsize hn
  · rw [hal]
    exact h.align
  · rw [hal, hsz]
    exact h.dvd.mul_right n

theorem agg_wellSized {u : Bool} {id : ℕ} {q : TypeQual} (hsize : 0 < (Γ.agg id).size)
    (halign : ∃ k < 31, (Γ.agg id).align = 2 ^ k) (hdvd : (Γ.agg id).align ∣ (Γ.agg id).size) :
    WellSized Γ (.agg u id q) := by
  have hpos : (Γ.agg id).align > 0 := by
    obtain ⟨k, -, hk⟩ := halign
    exact lt_of_lt_of_eq (by positivity) hk.symm
  have hal : typeAlignof Γ (.agg u id q) = (Γ.agg id).align := by
    rw [typeAlignof, if_pos hpos]
  refine ⟨by rwa [typeSizeof], ?_, ?_⟩
  · rw [hal]
    exact halign
  · rw [hal, typeSizeof]
    exact hdvd

theorem struct_wellSized {id : ℕ} {q : TypeQual} {d : AggDef} (hd : Γ.agg id = typeSealStruct Γ d)
    (hf : ∀ f ∈ d.fields, FieldOk Γ f) (hmember : ∃ f ∈ d.fields, f.bitWidth ≠ 0)
    (hsize : totalSize Γ d.fields < 2 ^ 31) : WellSized Γ (.agg false id q) := by
  obtain ⟨hsound, hshape, halign⟩ := typeSealStruct_layout hf hsize
  apply agg_wellSized
  · obtain ⟨f, hmem, hw⟩ := hmember
    have hmem' : shape f ∈ (typeSealStruct Γ d).fields.map shape :=
      hshape ▸ List.mem_map_of_mem hmem
    obtain ⟨f', hf', heq⟩ := List.mem_map.mp hmem'
    simp only [shape, Prod.mk.injEq] at heq
    have hm : (fieldSlot Γ f').IsMember := by
      simp only [Slot.IsMember, fieldSlot, heq.2.2]
      split
      · simp
      · simpa using hw
    have hslot := (hsound.inside _ (List.mem_map_of_mem hf') hm)
    have hpos := (hf f hmem).wellSized.size
    have hsz : (fieldSlot Γ f').size = typeSizeof Γ f.type := congrArg (typeSizeof Γ) heq.2.1
    rw [hd]
    omega
  · rw [hd, halign]
    exact maxAlign_two_pow hf
  · rw [hd, hsound.size_eq]
    exact Rounding.dvd_up _ _

theorem foldl_greatest {g : StructField → ℤ} (a : ℤ) :
    fs.foldl (fun m f => if g f > m then g f else m) a = (fs.map g).foldr max a := by
  rw [← List.foldl_eq_foldr, List.foldl_map]
  congr 1
  funext m f
  exact (ite_max _ _).trans (max_comm _ _)

theorem union_wellSized {id : ℕ} {q : TypeQual} {d : AggDef} (hd : Γ.agg id = typeSealUnion Γ d)
    (hf : ∀ f ∈ d.fields, FieldOk Γ f) (hne : d.fields ≠ [])
    (hsize : unionSize Γ d.fields < 2 ^ 31) : WellSized Γ (.agg true id q) := by
  have hpow := maxAlign_two_pow hf
  have hmax := one_le_maxAlign (d.fields.map (fieldSlot Γ))
  have hroom := up_add_le hpow hsize
  have halign : (typeSealUnion Γ d).align = maxAlign (d.fields.map (fieldSlot Γ)) := by
    rw [maxAlign, List.map_map]
    exact foldl_greatest 1
  have hlargest : 0 < (d.fields.map fun f => typeSizeof Γ f.type).foldr max 0 := by
    obtain ⟨f, fs, hfs⟩ := List.exists_cons_of_ne_nil hne
    have hpos := (hf f (hfs ▸ List.mem_cons_self)).wellSized.size
    rw [hfs, List.map_cons, List.foldr_cons]
    exact hpos.trans_le (le_max_left _ _)
  have hle := Rounding.le_up (show 0 < maxAlign (d.fields.map (fieldSlot Γ)) by omega)
    ((d.fields.map fun f => typeSizeof Γ f.type).foldr max 0)
  have hsz : (typeSealUnion Γ d).size = unionSize Γ d.fields := by
    have heq : (typeSealUnion Γ d).size =
        alignUp32 ((d.fields.map fun f => typeSizeof Γ f.type).foldr max 0)
          (typeSealUnion Γ d).align := by
      rw [← foldl_greatest 0]
      rfl
    rw [heq, halign]
    exact alignUp32_eq hlargest.le hpow (by omega)
  apply agg_wellSized
  · rw [hd, hsz]
    exact hlargest.trans_le hle
  · rw [hd, halign]
    exact hpow
  · rw [hd, hsz, halign]
    exact Rounding.dvd_up _ _

/-- The size of a type is a positive multiple of its alignment, whatever it is built from. -/
theorem complete_wellSized {ty : CType} (h : Complete Γ ty) : WellSized Γ ty := by
  induction h with
  | scalar hk => exact scalar_wellSized hk
  | @pointer p q =>
    have hsize : typeSizeof Γ (.pointer p q) = 8 := by rw [typeSizeof]
    have halign : typeAlignof Γ (.pointer p q) = 8 := by rw [typeAlignof]
    exact ⟨by omega, ⟨3, by omega, halign⟩, by rw [hsize, halign]⟩
  | enum => exact (integer_wellSized rfl).1
  | array _ hn hfit ih => exact array_wellSized ih hn hfit
  | struct hd _ hbits hmember hsize ih =>
    exact struct_wellSized hd (fun f hf => ⟨ih f hf, hbits f hf⟩) hmember hsize
  | union hd _ hbits hne hsize ih =>
    exact union_wellSized hd (fun f hf => ⟨ih f hf, hbits f hf⟩) hne hsize

/-- Sealing lays a struct out soundly as long as its size is in the range of `int`, and the sizes
of nested types are positive multiples of their alignments. -/
theorem struct_layout_sound (Γ : TypeEnv) :
    (∀ d : AggDef, (∀ f ∈ d.fields, FieldOk Γ f) → totalSize Γ d.fields < 2 ^ 31 →
      SoundLayout ((typeSealStruct Γ d).fields.map (fieldSlot Γ)) (typeSealStruct Γ d).size
          (typeSealStruct Γ d).align ∧
        (typeSealStruct Γ d).fields.map shape = d.fields.map shape) ∧
      ∀ ty, Complete Γ ty → WellSized Γ ty := by
  constructor
  · intro d hf hsize
    obtain ⟨hsound, hshape, -⟩ := typeSealStruct_layout hf hsize
    exact ⟨hsound, hshape⟩
  · intro ty h
    exact complete_wellSized h

end

/-- `struct Flags { unsigned a : 3; unsigned b : 5; unsigned c : 6; int x; }`. -/
def flagsStruct : AggDef where
  tag := some "Flags"
  fields :=
    [{ name := some "a", type := typeUint, bitWidth := 3 },
      { name := some "b", type := typeUint, bitWidth := 5 },
      { name := some "c", type := typeUint, bitWidth := 6 },
      { name := some "x", type := typeInt }]

theorem struct_layout_flags :
    SoundLayout ((typeSealStruct .empty flagsStruct).fields.map (fieldSlot .empty))
        (typeSealStruct .empty flagsStruct).size (typeSealStruct .empty flagsStruct).align ∧
      WellSized .empty (.array typeInt 3 .none) := by
  have hint : WellSized .empty typeInt := (integer_wellSized rfl).1
  have hfields : ∀ f ∈ flagsStruct.fields, FieldOk .empty f := by
    simp only [flagsStruct, List.forall_mem_cons, List.not_mem_nil, false_implies, implies_true,
      and_true]
    refine ⟨⟨?_, ?_⟩, ⟨?_, ?_⟩, ⟨?_, ?_⟩, fun _ => hint, ?_⟩ <;>
      simp [typeUint, typeIsInteger, ScalarKind.isInteger, typeSizeof, ScalarKind.size]
  exact ⟨((struct_layout_sound .empty).1 flagsStruct hfields (by decide)).1,
    (struct_layout_sound .empty).2 _ (.array (.scalar (by decide)) (by decide) (by decide))⟩

example : (layout {} (flagsStruct.fields.map (fieldSlot .empty))).1.map (fun s => (s.off, s.bit)) =
    [(0, 0), (0, 3), (0, 8), (4, 0)] := by decide

end TinyC
