import TinyC.Lib.Placement
import Mathlib.Order.Bounds.Basic

/-!
# Laying out records with bit-fields

The slots of a record are placed one after the other. An ordinary slot goes to the next multiple
of its alignment. Bit-fields share a storage unit as long as they are of one size and alignment
and fit; a bit-field of width zero closes the unit.
-/

namespace RecordLayout

open Placement

/-- A slot and where it is: `off` in bytes, `bit` from there. -/
structure Slot where
  size : ℤ
  align : ℤ
  /-- The width of a bit-field in bits. -/
  width : Option ℤ
  off : ℤ
  bit : ℤ
  deriving DecidableEq, Repr

namespace Slot

/-- A bit-field of width zero only separates. -/
def IsMember (s : Slot) : Prop := s.width ≠ some 0

instance (s : Slot) : Decidable s.IsMember := inferInstanceAs (Decidable (_ ≠ _))

structure Sound (s : Slot) : Prop where
  size : 0 < s.size
  align : 0 < s.align
  dvd : s.align ∣ s.size
  width : ∀ w, s.width = some w → 0 ≤ w ∧ w ≤ 8 * s.size

/-- The bits a slot takes. -/
def bits (s : Slot) : Region :=
  match s.width with
  | none => ⟨8 * s.off, 8 * s.size, 1⟩
  | some w => ⟨8 * s.off + s.bit, w, 1⟩

/-- One past the storage that is used after a slot. -/
def storage (used : ℤ) (s : Slot) : ℤ :=
  if s.IsMember then max used (s.off + s.size) else Rounding.up used s.align

end Slot

/-- A storage unit of which the first `next` bits are taken. -/
structure OpenUnit where
  off : ℤ
  size : ℤ
  align : ℤ
  next : ℤ
  deriving DecidableEq, Repr

/-- `used` is the end of the storage used so far. -/
structure Cursor where
  used : ℤ := 0
  openUnit : Option OpenUnit := none
  deriving DecidableEq, Repr

/-- A bit-field at the start of a new storage unit. -/
def openAt (c : Cursor) (s : Slot) (w : ℤ) : Slot × Cursor :=
  let off := Rounding.up c.used s.align
  ({ s with off := off, bit := 0 }, ⟨off + s.size, some ⟨off, s.size, s.align, w⟩⟩)

def OpenUnit.Fits (u : OpenUnit) (s : Slot) (w : ℤ) : Prop :=
  u.next + w ≤ 8 * s.size ∧ s.align = u.align ∧ s.size = u.size

instance (u : OpenUnit) (s : Slot) (w : ℤ) : Decidable (u.Fits s w) :=
  inferInstanceAs (Decidable (_ ∧ _))

def place (c : Cursor) (s : Slot) : Slot × Cursor :=
  match s.width with
  | none =>
      let off := Rounding.up c.used s.align
      ({ s with off := off }, ⟨off + s.size, none⟩)
  | some w =>
      if w = 0 then (s, ⟨Rounding.up c.used s.align, none⟩)
      else
        match c.openUnit with
        | some u =>
            if u.Fits s w then
              ({ s with off := u.off, bit := u.next }, { c with openUnit := some { u with next := u.next + w } })
            else openAt c s w
        | none => openAt c s w

def layout (c : Cursor) : List Slot → List Slot × Cursor
  | [] => ([], c)
  | s :: ss =>
      let (s', c₁) := place c s
      let (ss', c₂) := layout c₁ ss
      (s' :: ss', c₂)

theorem layout_cons (c : Cursor) (s : Slot) (ss : List Slot) :
    layout c (s :: ss) = ((place c s).1 :: (layout (place c s).2 ss).1,
      (layout (place c s).2 ss).2) := rfl

namespace Cursor

/-- Where the next member may start at the earliest. -/
def floor (c : Cursor) : ℤ := (c.openUnit.map OpenUnit.off).getD c.used

/-- The first bit that is free. -/
def freeBit (c : Cursor) : ℤ := (c.openUnit.map fun u => 8 * u.off + u.next).getD (8 * c.used)

structure Ok (c : Cursor) : Prop where
  used : 0 ≤ c.used
  unit : ∀ u, c.openUnit = some u →
    u.off + u.size = c.used ∧ u.align ∣ u.off ∧ 0 < u.next ∧ u.next ≤ 8 * u.size ∧ 0 ≤ u.off

theorem Ok.start : Ok {} := ⟨le_rfl, by simp⟩

end Cursor

variable {c c' : Cursor} {s : Slot} {ss : List Slot}

/-! ### One slot -/

/-- What a step from `c` to `c'` does when it places a member at `s`. -/
structure Puts (c : Cursor) (s : Slot) (c' : Cursor) : Prop where
  free : c.freeBit ≤ s.bits.off
  top : s.bits.top ≤ c'.freeBit
  floor : c.floor ≤ s.off
  off : s.off ≤ c'.floor
  aligned : s.align ∣ s.off
  inUnit : ∀ w, s.width = some w → 0 ≤ s.bit ∧ s.bit + w ≤ 8 * s.size
  used : c'.used = max c.used (s.off + s.size)

/-- What is kept of a slot that is placed. -/
def SameShape (s s' : Slot) : Prop :=
  s'.size = s.size ∧ s'.align = s.align ∧ s'.width = s.width

theorem floor_le_used (hc : c.Ok) : c.floor ≤ c.used := by
  cases hu : c.openUnit with
  | none => simp [Cursor.floor, hu]
  | some u =>
    obtain ⟨hend, -, hpos, hle, -⟩ := hc.unit u hu
    simp only [Cursor.floor, hu, Option.map_some, Option.getD_some]
    omega

theorem freeBit_le_used (hc : c.Ok) : c.freeBit ≤ 8 * c.used := by
  cases hu : c.openUnit with
  | none => simp [Cursor.freeBit, hu]
  | some u =>
    obtain ⟨hend, -, -, hle, -⟩ := hc.unit u hu
    simp only [Cursor.freeBit, hu, Option.map_some, Option.getD_some]
    omega

/-- A new unit starts after all storage used. -/
theorem openAt_spec (hc : c.Ok) (hs : s.Sound) {w : ℤ} (hw : s.width = some w) (hpos : 0 < w) :
    (openAt c s w).2.Ok ∧ SameShape s (openAt c s w).1 ∧
      Puts c (openAt c s w).1 (openAt c s w).2 := by
  have hup := Rounding.le_up hs.align c.used
  have hdvd := Rounding.dvd_up c.used s.align
  have hfree := freeBit_le_used hc
  have hfloor := floor_le_used hc
  have hle := (hs.width w hw).2
  have hused := hc.used
  have hsize := hs.size
  refine ⟨⟨?_, ?_⟩, ⟨rfl, rfl, rfl⟩, ?_⟩
  · simp only [openAt]
    omega
  · intro u hu
    cases hu
    exact ⟨rfl, hdvd, hpos, hle, hused.trans hup⟩
  · constructor
    · simp only [openAt, Slot.bits, hw]
      omega
    · simp only [openAt, Slot.bits, hw, Region.top, Cursor.freeBit, Option.map_some,
        Option.getD_some]
      omega
    · simp only [openAt]
      omega
    · exact le_rfl
    · exact hdvd
    · intro w' hw'
      have heq : w' = w := Option.some.inj (hw'.symm.trans hw)
      rw [heq]
      exact ⟨le_rfl, by simpa [openAt] using hle⟩
    · simp only [openAt]
      omega

theorem place_member (hc : c.Ok) (hs : s.Sound) (hm : s.IsMember) :
    (place c s).2.Ok ∧ SameShape s (place c s).1 ∧ Puts c (place c s).1 (place c s).2 := by
  have hup := Rounding.le_up hs.align c.used
  have hfree := freeBit_le_used hc
  have hfloor := floor_le_used hc
  have hused := hc.used
  have hsize := hs.size
  cases hw : s.width with
  | none =>
    have hplace : place c s = ({ s with off := Rounding.up c.used s.align },
        ⟨Rounding.up c.used s.align + s.size, none⟩) := by
      simp only [place, hw]
    rw [hplace]
    refine ⟨⟨?_, nofun⟩, ⟨rfl, rfl, rfl⟩, ?_⟩
    · simp only
      omega
    · constructor
      · simp only [Slot.bits, hw]
        omega
      · simp only [Slot.bits, hw, Region.top, Cursor.freeBit, Option.map_none, Option.getD_none]
        omega
      · simp only
        omega
      · simp only [Cursor.floor, Option.map_none, Option.getD_none]
        omega
      · exact Rounding.dvd_up _ _
      · intro w hw'
        simp [hw] at hw'
      · simp only
        omega
  | some w =>
    have hw0 : w ≠ 0 := fun h => hm (h ▸ hw)
    have hwidth := hs.width w hw
    have hopen := openAt_spec hc hs hw (by omega)
    cases hu : c.openUnit with
    | none =>
      have hplace : place c s = openAt c s w := by simp only [place, hw, hu, if_neg hw0]
      rwa [hplace]
    | some u =>
      by_cases hfit : u.Fits s w
      · obtain ⟨hnext, halign, hsz⟩ := hfit
        obtain ⟨hend, hdvd, hpos, hle, hoff⟩ := hc.unit u hu
        have hplace : place c s = ({ s with off := u.off, bit := u.next },
            { c with openUnit := some { u with next := u.next + w } }) := by
          simp only [place, hw, hu, if_neg hw0, if_pos (show u.Fits s w from ⟨hnext, halign, hsz⟩)]
        rw [hplace]
        refine ⟨⟨hused, ?_⟩, ⟨rfl, rfl, rfl⟩, ?_⟩
        · intro v hv
          cases hv
          refine ⟨hend, hdvd, ?_, ?_, hoff⟩
          · dsimp only
            omega
          · dsimp only
            omega
        · constructor
          · simp [Slot.bits, hw, Cursor.freeBit, hu]
          · simp only [Slot.bits, hw, Region.top, Cursor.freeBit, Option.map_some,
              Option.getD_some]
            omega
          · simp [Cursor.floor, hu]
          · simp [Cursor.floor]
          · exact halign ▸ hdvd
          · intro w' hw'
            have heq : w' = w := Option.some.inj (hw'.symm.trans hw)
            rw [heq]
            exact ⟨hpos.le, hnext⟩
          · simp only
            omega
      · have hplace : place c s = openAt c s w := by
          simp only [place, hw, hu, if_neg hw0, if_neg hfit]
        rwa [hplace]

theorem place_separator (hm : ¬s.IsMember) :
    place c s = (s, ⟨Rounding.up c.used s.align, none⟩) := by
  have hw : s.width = some 0 := not_not.mp hm
  simp [place, hw]

/-- Nothing goes back. -/
structure Advances (c c' : Cursor) : Prop where
  used : c.used ≤ c'.used
  floor : c.floor ≤ c'.floor
  freeBit : c.freeBit ≤ c'.freeBit

theorem Advances.refl (c : Cursor) : Advances c c := ⟨le_rfl, le_rfl, le_rfl⟩

theorem Advances.trans {c₁ c₂ c₃ : Cursor} (h : Advances c₁ c₂) (h' : Advances c₂ c₃) :
    Advances c₁ c₃ :=
  ⟨h.used.trans h'.used, h.floor.trans h'.floor, h.freeBit.trans h'.freeBit⟩

theorem place_ok (hc : c.Ok) (hs : s.Sound) :
    (place c s).2.Ok ∧ Advances c (place c s).2 ∧ SameShape s (place c s).1 ∧
      (place c s).2.used = Slot.storage c.used (place c s).1 := by
  by_cases hm : s.IsMember
  · obtain ⟨hok, hshape, hputs⟩ := place_member hc hs hm
    have hm' : (place c s).1.IsMember := by
      rw [Slot.IsMember, hshape.2.2]
      exact hm
    have hbits : (place c s).1.bits.off ≤ (place c s).1.bits.top := by
      have hsize := hs.size
      unfold Slot.bits Region.top
      cases hw : s.width with
      | none =>
        rw [hshape.2.2, hw, hshape.1]
        dsimp only
        omega
      | some w =>
        have hw0 := (hs.width w hw).1
        rw [hshape.2.2, hw]
        dsimp only
        omega
    refine ⟨hok, ⟨?_, hputs.floor.trans hputs.off, hputs.free.trans (hbits.trans hputs.top)⟩,
      hshape, ?_⟩
    · rw [hputs.used]
      exact le_max_left _ _
    · rw [Slot.storage, if_pos hm']
      exact hputs.used
  · have hup := Rounding.le_up hs.align c.used
    have hused := hc.used
    rw [place_separator hm]
    refine ⟨⟨hused.trans hup, nofun⟩, ⟨hup, ?_, ?_⟩, ⟨rfl, rfl, rfl⟩, (if_neg hm).symm⟩
    · exact (floor_le_used hc).trans hup
    · have hfree := freeBit_le_used hc
      simp only [Cursor.freeBit, Option.map_none, Option.getD_none] at hfree ⊢
      omega

/-! ### All slots -/

/-- What holds of the slots that were placed between `c` and `c'`. -/
structure Laid (c : Cursor) (ss : List Slot) (c' : Cursor) : Prop where
  advances : Advances c c'
  bits : Placed c.freeBit c'.freeBit ((ss.filter (·.IsMember)).map Slot.bits)
  off : ∀ s ∈ ss, s.IsMember → c.floor ≤ s.off ∧ s.off + s.size ≤ c'.used
  aligned : ∀ s ∈ ss, s.IsMember → s.align ∣ s.off
  inUnit : ∀ s ∈ ss, s.IsMember → ∀ w, s.width = some w → 0 ≤ s.bit ∧ s.bit + w ≤ 8 * s.size
  sorted : (ss.filter (·.IsMember)).Pairwise (·.off ≤ ·.off)
  used : c'.used = ss.foldl Slot.storage c.used

theorem Laid.nil (c : Cursor) : Laid c [] c :=
  ⟨.refl c, .nil, by simp, by simp, by simp, List.Pairwise.nil, rfl⟩

/-- A separator before other slots. -/
theorem Laid.cons_separator {c₁ : Cursor} (hadv : Advances c c₁) (hm : ¬s.IsMember)
    (hused : c₁.used = s.storage c.used) (h : Laid c₁ ss c') : Laid c (s :: ss) c' where
  advances := hadv.trans h.advances
  bits := by
    rw [List.filter_cons_of_neg (by simpa using hm)]
    exact h.bits.mono hadv.freeBit le_rfl
  off t ht htm := by
    rcases List.mem_cons.mp ht with rfl | ht
    · exact absurd htm hm
    · exact ⟨hadv.floor.trans (h.off t ht htm).1, (h.off t ht htm).2⟩
  aligned t ht htm := by
    rcases List.mem_cons.mp ht with rfl | ht
    · exact absurd htm hm
    · exact h.aligned t ht htm
  inUnit t ht htm := by
    rcases List.mem_cons.mp ht with rfl | ht
    · exact absurd htm hm
    · exact h.inUnit t ht htm
  sorted := by
    rw [List.filter_cons_of_neg (by simpa using hm)]
    exact h.sorted
  used := by
    rw [List.foldl_cons, ← hused]
    exact h.used

/-- A member before other slots. -/
theorem Laid.cons_member {c₁ : Cursor} (hadv : Advances c c₁) (hm : s.IsMember)
    (hputs : Puts c s c₁) (h : Laid c₁ ss c') : Laid c (s :: ss) c' where
  advances := hadv.trans h.advances
  bits := by
    rw [List.filter_cons_of_pos (by simpa using hm), List.map_cons]
    have hs : Placed c.freeBit c₁.freeBit [s.bits] :=
      .singleton hputs.free hputs.top (by unfold Slot.bits; cases s.width <;> exact one_dvd _)
    exact hs.append_above h.bits hadv.freeBit h.advances.freeBit
  off t ht htm := by
    rcases List.mem_cons.mp ht with rfl | ht
    · have hend : t.off + t.size ≤ c₁.used := hputs.used ▸ le_max_right _ _
      exact ⟨hputs.floor, hend.trans h.advances.used⟩
    · exact ⟨hadv.floor.trans (h.off t ht htm).1, (h.off t ht htm).2⟩
  aligned t ht htm := by
    rcases List.mem_cons.mp ht with rfl | ht
    · exact hputs.aligned
    · exact h.aligned t ht htm
  inUnit t ht htm := by
    rcases List.mem_cons.mp ht with rfl | ht
    · exact hputs.inUnit
    · exact h.inUnit t ht htm
  sorted := by
    rw [List.filter_cons_of_pos (by simpa using hm)]
    apply List.Pairwise.cons
    · intro t ht
      obtain ⟨hmem, htm⟩ := List.mem_filter.mp ht
      exact hputs.off.trans (h.off t hmem (by simpa using htm)).1
    · exact h.sorted
  used := by
    rw [List.foldl_cons, Slot.storage, if_pos hm, ← hputs.used]
    exact h.used

theorem layout_laid (hc : c.Ok) (hs : ∀ s ∈ ss, s.Sound) :
    (layout c ss).2.Ok ∧ Laid c (layout c ss).1 (layout c ss).2 ∧
      List.Forall₂ SameShape ss (layout c ss).1 := by
  induction ss generalizing c with
  | nil => exact ⟨hc, .nil c, .nil⟩
  | cons s ss ih =>
    have hsound := hs s List.mem_cons_self
    obtain ⟨hok, hadv, hshape, hused⟩ := place_ok hc hsound
    obtain ⟨hok', hlaid, hall⟩ := ih hok fun t ht => hs t (List.mem_cons_of_mem s ht)
    refine ⟨hok', ?_, .cons hshape hall⟩
    by_cases hm : s.IsMember
    · have hm' : (place c s).1.IsMember := by
        rw [Slot.IsMember, hshape.2.2]
        exact hm
      exact hlaid.cons_member hadv hm' (place_member hc hsound hm).2.2
    · have hm' : ¬(place c s).1.IsMember := by
        rw [place_separator hm]
        exact hm
      exact hlaid.cons_separator hadv hm' hused

/-- What is laid out first does not depend on what comes after. -/
theorem layout_split {xs ys : List Slot} (h : (layout c ss).1 = xs ++ ys) :
    ∃ xs₀ ys₀, ss = xs₀ ++ ys₀ ∧ (layout c xs₀).1 = xs ∧
      (layout (layout c xs₀).2 ys₀).1 = ys := by
  induction xs generalizing c ss with
  | nil => exact ⟨[], ss, rfl, rfl, h⟩
  | cons x xs ih =>
    cases ss with
    | nil => simp [layout] at h
    | cons s ss =>
      rw [layout_cons, List.cons_append] at h
      obtain ⟨hx, hrest⟩ := List.cons.inj h
      obtain ⟨xs₀, ys₀, rfl, hxs, hys⟩ := ih hrest
      refine ⟨s :: xs₀, ys₀, rfl, ?_, ?_⟩
      · rw [layout_cons, hx, hxs]
      · rw [layout_cons, hys]

/-! ### The layout of a record -/

def maxAlign (ss : List Slot) : ℤ := (ss.map Slot.align).foldr max 1

theorem maxAlign_cons (s : Slot) (ss : List Slot) :
    maxAlign (s :: ss) = max s.align (maxAlign ss) := rfl

/-- The end of the storage used by slots that are placed, whole units for bit-fields. -/
def storageUsed (ss : List Slot) : ℤ := ss.foldl Slot.storage 0

/-- What a record's layout must satisfy. -/
structure SoundLayout (ss : List Slot) (size align : ℤ) : Prop where
  inside : ∀ s ∈ ss, s.IsMember → 0 ≤ s.off ∧ s.off + s.size ≤ size ∧
    0 ≤ s.bits.off ∧ s.bits.top ≤ 8 * size
  aligned : ∀ s ∈ ss, s.IsMember → s.align ∣ s.off
  disjoint : (ss.filter (·.IsMember)).Pairwise fun s t => s.bits.Disjoint t.bits
  sorted : (ss.filter (·.IsMember)).Pairwise (·.off ≤ ·.off)
  /-- An ordinary slot gets the least offset there is. -/
  least : ∀ xs s ys, ss = xs ++ s :: ys → s.width = none →
    IsLeast {x | storageUsed xs ≤ x ∧ s.align ∣ x} s.off
  inUnit : ∀ s ∈ ss, s.IsMember → ∀ w, s.width = some w → 0 ≤ s.bit ∧ s.bit + w ≤ 8 * s.size
  /-- Across a separator no storage unit is shared. -/
  separated : ∀ xs s ys z zs t ws, ss = xs ++ s :: (ys ++ z :: (zs ++ t :: ws)) → s.IsMember →
    z.width = some 0 → t.IsMember → s.off + s.size ≤ t.off
  align_eq : align = maxAlign ss
  size_eq : size = Rounding.up (storageUsed ss) align

theorem one_le_maxAlign (ss : List Slot) : 1 ≤ maxAlign ss := by
  induction ss with
  | nil => exact le_rfl
  | cons s ss ih => exact ih.trans (le_max_right _ _)

theorem forall₂_maxAlign {ss ts : List Slot} (h : List.Forall₂ SameShape ss ts) :
    maxAlign ts = maxAlign ss := by
  induction h with
  | nil => rfl
  | cons hshape _ ih =>
    rw [maxAlign_cons, maxAlign_cons, hshape.2.1, ih]

theorem storageUsed_layout (hs : ∀ s ∈ ss, s.Sound) :
    storageUsed (layout {} ss).1 = (layout {} ss).2.used :=
  (layout_laid .start hs).2.1.used.symm

theorem place_ordinary {s : Slot} (hw : s.width = none) :
    place c s = ({ s with off := Rounding.up c.used s.align },
      ⟨Rounding.up c.used s.align + s.size, none⟩) := by
  simp only [place, hw]

/-- After a separator everything starts behind the storage used before it. -/
theorem layout_separated (hc : c.Ok) (hs : ∀ s ∈ ss, s.Sound) {xs ys zs ws : List Slot}
    {s z t : Slot} (h : (layout c ss).1 = xs ++ s :: (ys ++ z :: (zs ++ t :: ws)))
    (hm : s.IsMember) (hz : z.width = some 0) (ht : t.IsMember) : s.off + s.size ≤ t.off := by
  have h' : (layout c ss).1 = (xs ++ s :: ys) ++ (z :: (zs ++ t :: ws)) := by
    rw [h]
    simp
  obtain ⟨before, rest, rfl, hbefore, hrest⟩ := layout_split h'
  have hsb : ∀ r ∈ before, r.Sound := fun r hr => hs r (List.mem_append_left _ hr)
  obtain ⟨hok, hlaid, -⟩ := layout_laid hc hsb
  rw [hbefore] at hlaid
  have hend : s.off + s.size ≤ (layout c before).2.used := (hlaid.off s (by simp) hm).2
  cases rest with
  | nil => simp [layout] at hrest
  | cons r rest =>
    have hsr : ∀ q ∈ r :: rest, q.Sound := fun q hq => hs q (List.mem_append_right _ hq)
    rw [layout_cons] at hrest
    obtain ⟨hz', hafter⟩ := List.cons.inj hrest
    have hshape := (place_ok hok (hsr r List.mem_cons_self)).2.2.1
    rw [hz'] at hshape
    have hsep : ¬r.IsMember := not_not.mpr (hshape.2.2 ▸ hz)
    have hplace := @place_separator (layout c before).2 r hsep
    have hup := Rounding.le_up (hsr r List.mem_cons_self).align (layout c before).2.used
    have hok' := (place_ok hok (hsr r List.mem_cons_self)).1
    have hlaid' := (layout_laid hok' fun q hq => hsr q (List.mem_cons_of_mem r hq)).2.1
    have hoff := (hlaid'.off t (by rw [hafter]; simp) ht).1
    rw [hplace] at hoff
    exact hend.trans (hup.trans hoff)

/-- Laying out one slot after the other is sound. -/
theorem layout_sound (hs : ∀ s ∈ ss, s.Sound) :
    SoundLayout (layout {} ss).1 (Rounding.up (layout {} ss).2.used (maxAlign ss)) (maxAlign ss) := by
  obtain ⟨hok, hlaid, hall⟩ := layout_laid .start hs
  have hmax := one_le_maxAlign ss
  have hup := Rounding.le_up (show 0 < maxAlign ss by omega) (layout {} ss).2.used
  have hfree := freeBit_le_used hok
  constructor
  · intro s hmem hm
    have hoff := hlaid.off s hmem hm
    have hbits := hlaid.bits.inside s.bits
      (List.mem_map_of_mem (List.mem_filter.mpr ⟨hmem, by simpa using hm⟩))
    simp only [Cursor.floor, Cursor.freeBit, Option.map_none, Option.getD_none] at hoff hbits
    simp only [Cursor.freeBit] at hfree
    omega
  · exact hlaid.aligned
  · exact List.pairwise_map.mp hlaid.bits.disjoint
  · exact hlaid.sorted
  · intro xs s ys hsplit hw
    obtain ⟨before, rest, rfl, hbefore, hrest⟩ := layout_split hsplit
    have hsb : ∀ r ∈ before, r.Sound := fun r hr => hs r (List.mem_append_left _ hr)
    cases rest with
    | nil => simp [layout] at hrest
    | cons r rest =>
      have hr : r.Sound := hs r (by simp)
      have hplaced : (place (layout {} before).2 r).1 = s := (List.cons.inj hrest).1
      have hshape := (place_ok (layout_laid .start hsb).1 hr).2.2.1
      rw [hplaced] at hshape
      rw [place_ordinary (hshape.2.2 ▸ hw)] at hplaced
      have hoff : s.off = Rounding.up (layout {} before).2.used r.align := hplaced ▸ rfl
      rw [hoff, hshape.2.1, ← hbefore, storageUsed_layout hsb]
      exact ⟨⟨Rounding.le_up hr.align _, Rounding.dvd_up _ _⟩,
        fun x hx => Rounding.up_le hr.align hx.1 hx.2⟩
  · exact hlaid.inUnit
  · intro xs s ys z zs t ws hsplit hm hz ht
    exact layout_separated .start hs hsplit hm hz ht
  · exact (forall₂_maxAlign hall).symm
  · rw [storageUsed_layout hs]

end RecordLayout
