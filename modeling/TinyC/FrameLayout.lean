import TinyC.TempNumbers
import TinyC.RegAlloc
import TinyC.Lib.Placement

/-!
# The stack frame

The slots of the temps and the storage of the `alloca` instructions lie side by side in the
frame, whatever the number of temps and the sizes asked for.
-/

namespace TinyC

open Placement

/-- The 8-byte slots of the temps. -/
def IRFunc.slots (f : IRFunc) : List Region :=
  (List.range' 1 (f.nextTemp - 1)).map fun t => ⟨(regallocRun f).slot t, 8, 8⟩

/-- The storage of an `alloca`, the offsets of the temps being given. -/
def IRInstr.storage (offs : ℕ → ℤ) (i : IRInstr) : Region :=
  ⟨offs (i.allocaTemp.getD 0), i.allocaSize, i.allocaAlign⟩

/-- The storage of all `alloca` instructions. -/
def storageOf (offs : ℕ → ℤ) (is : List IRInstr) : List Region :=
  (is.filter fun i => i.op = .alloca).map (IRInstr.storage offs)

/-- The regions of the frame, relative to `%rbp`. -/
def IRFunc.regions (f : IRFunc) : List Region :=
  f.slots ++ storageOf (regallocRun f).allocaOff f.instrs

/-- The size is a positive multiple of the alignment, a power of two up to 16. -/
structure IRInstr.WellSized (i : IRInstr) : Prop where
  size : 0 < i.allocaSize
  dvd : i.allocaAlign ∣ i.allocaSize
  align : ∃ k ≤ 4, i.allocaAlign = 2 ^ k

/-! ### The walk over the instructions -/

variable {i : IRInstr} {is : List IRInstr} {cur : ℤ} {offs : ℕ → ℤ}

theorem allocaStep_other (h : i.op ≠ .alloca) : allocaStep (cur, offs) i = (cur, offs) := by
  unfold allocaStep
  split
  · contradiction
  · rfl

theorem allocaStep_alloca {t : ℕ} (hop : i.op = .alloca) (ht : i.dst.kind = .temp t)
    (hi : i.WellSized) :
    allocaStep (cur, offs) i =
      (Rounding.up cur i.allocaAlign + i.allocaSize,
        Function.update offs t (-(Rounding.up cur i.allocaAlign + i.allocaSize))) := by
  obtain ⟨k, -, hk⟩ := hi.align
  have hpos : 0 < i.allocaAlign := hk ▸ by positivity
  have hup : alignUp cur i.allocaAlign = Rounding.up cur i.allocaAlign := by
    rw [hk]
    exact Rounding.land_lnot_eq_up cur k
  simp [allocaStep, hop, ht, hi.size, hpos, hup]

theorem allocaTemp_of_kind {t : ℕ} (hop : i.op = .alloca) (ht : i.dst.kind = .temp t) :
    i.allocaTemp = some t := by
  simp [IRInstr.allocaTemp, hop, ht]

theorem storageOf_other (h : i.op ≠ .alloca) : storageOf offs (i :: is) = storageOf offs is := by
  simp [storageOf, h]

theorem storageOf_alloca (h : i.op = .alloca) :
    storageOf offs (i :: is) = i.storage offs :: storageOf offs is := by
  simp [storageOf, h]

/-- The walk leaves the temps of other instructions alone. -/
theorem foldl_allocaStep_of_notMem {t : ℕ} (st : ℤ × (ℕ → ℤ))
    (h : t ∉ is.filterMap IRInstr.allocaTemp) : (is.foldl allocaStep st).2 t = st.2 t := by
  induction is generalizing st with
  | nil => rfl
  | cons i is ih =>
    have hstep : (allocaStep st i).2 t = st.2 t := by
      unfold allocaStep
      split
      · rename_i tid hop hdst
        have hne : t ≠ tid := by
          rintro rfl
          exact h (by simp [allocaTemp_of_kind hop hdst])
        exact Function.update_of_ne hne _ _
      · rfl
    have hrest : t ∉ is.filterMap IRInstr.allocaTemp := fun hmem => h (by
      rw [List.filterMap_cons]
      split
      · exact hmem
      · exact List.mem_cons_of_mem _ hmem)
    rw [List.foldl_cons, ih _ hrest, hstep]

/-- From a cursor on, the walk places the storage below it, one region under the other. -/
theorem foldl_allocaStep_placed (hcur : 0 ≤ cur)
    (hsize : ∀ i ∈ is, i.op = .alloca → i.WellSized)
    (hstored : ∀ i ∈ is, i.op = .alloca → i.allocaTemp ≠ none)
    (hnodup : (is.filterMap IRInstr.allocaTemp).Nodup) :
    let r := is.foldl allocaStep (cur, offs)
    cur ≤ r.1 ∧ Placed (-r.1) (-cur) (storageOf r.2 is) := by
  induction is generalizing cur offs with
  | nil => exact ⟨le_rfl, .nil⟩
  | cons i is ih =>
    intro r
    have hsize' := fun j hj => hsize j (List.mem_cons_of_mem i hj)
    have hstored' := fun j hj => hstored j (List.mem_cons_of_mem i hj)
    by_cases hop : i.op = .alloca
    · obtain ⟨t, htemp⟩ := Option.ne_none_iff_exists'.mp (hstored i List.mem_cons_self hop)
      have hkind : i.dst.kind = .temp t := by
        unfold IRInstr.allocaTemp at htemp
        split at htemp <;> simp_all
      have hi := hsize i List.mem_cons_self hop
      rw [List.filterMap_cons_some htemp, List.nodup_cons] at hnodup
      obtain ⟨k, -, hk⟩ := hi.align
      have hpos : 0 < i.allocaAlign := hk ▸ by positivity
      have hup := Rounding.le_up hpos cur
      have hsz := hi.size
      let cur' := Rounding.up cur i.allocaAlign + i.allocaSize
      have hr : r = is.foldl allocaStep (cur', Function.update offs t (-cur')) :=
        congrArg (fun st => is.foldl allocaStep st) (allocaStep_alloca hop hkind hi)
      have hcur' : 0 ≤ cur' := by omega
      obtain ⟨hle, hplaced⟩ := @ih cur' (Function.update offs t (-cur')) hcur' hsize' hstored'
        hnodup.2
      have hoff : r.2 t = -cur' := by
        rw [hr, foldl_allocaStep_of_notMem _ hnodup.1]
        exact Function.update_self ..
      have hregion : i.storage r.2 = ⟨-cur', i.allocaSize, i.allocaAlign⟩ := by
        rw [IRInstr.storage, htemp, Option.getD_some, hoff]
      rw [← hr] at hle hplaced
      have hdvd : i.allocaAlign ∣ -cur' :=
        Int.dvd_neg.mpr (Int.dvd_add (Rounding.dvd_up _ _) hi.dvd)
      have htop : -cur' + i.allocaSize ≤ -cur := by omega
      refine ⟨by omega, ?_⟩
      rw [storageOf_alloca hop, hregion]
      exact .cons_below htop hsz.le hdvd hplaced (Int.neg_le_neg hle)
    · have htemp : i.allocaTemp = none := by simp [IRInstr.allocaTemp, hop]
      rw [List.filterMap_cons_none htemp] at hnodup
      have hr : r = is.foldl allocaStep (cur, offs) :=
        congrArg (fun st => is.foldl allocaStep st) (allocaStep_other hop)
      rw [storageOf_other hop, hr]
      exact ih hcur hsize' hstored' hnodup

/-- The slots lie side by side above everything else. -/
theorem slots_placed (f : IRFunc) : Placed (-(8 * f.nextTemp)) 0 f.slots := by
  have hslot : ∀ t ∈ List.range' 1 (f.nextTemp - 1),
      1 ≤ t ∧ t < f.nextTemp ∧ (regallocRun f).slot t = -8 * t := by
    intro t ht
    have hrange := List.mem_range'_1.mp ht
    have hbounds : 1 ≤ t ∧ t < f.nextTemp := by omega
    exact ⟨hbounds.1, hbounds.2, if_pos hbounds⟩
  refine ⟨fun r hr => ?_, fun r hr => ?_, List.pairwise_map.mpr ?_⟩
  · obtain ⟨t, ht, rfl⟩ := List.mem_map.mp hr
    obtain ⟨hpos, hlt, heq⟩ := hslot t ht
    simp only [Region.top, heq]
    omega
  · obtain ⟨t, ht, rfl⟩ := List.mem_map.mp hr
    obtain ⟨-, -, heq⟩ := hslot t ht
    simp only [heq]
    omega
  · have hlt := List.pairwise_lt_range' (s := 1) (n := f.nextTemp - 1)
    refine hlt.imp_of_mem fun {s t} hs ht hlt => .inr ?_
    simp only [Region.top, (hslot s hs).2.2, (hslot t ht).2.2]
    omega

/-- What holds of the frame of a function whose code is numbered. -/
theorem frame_placed (f : IRFunc) (hnum : Numbered 1 f.nextTemp f.instrs)
    (hsize : ∀ i ∈ f.instrs, i.op = .alloca → i.WellSized) :
    Placed (-(regallocRun f).frameSize) 0 f.regions ∧
      0 < (regallocRun f).frameSize ∧ 16 ∣ (regallocRun f).frameSize := by
  have hslots : (0 : ℤ) ≤ 8 * f.nextTemp := by omega
  obtain ⟨hle, hplaced⟩ := @foldl_allocaStep_placed f.instrs _ (fun _ => 0) hslots hsize hnum.stored
    (hnum.increasing.imp fun h => h.ne)
  let c := (f.instrs.foldl allocaStep (8 * (f.nextTemp : ℤ), fun _ => 0)).1
  have hc : 0 ≤ c := le_trans (by omega) hle
  have hround : Int.land (c + 15) (Int.lnot 15) = Rounding.up c 16 := by
    have h := Rounding.land_lnot_eq_up c 4
    norm_num at h
    rwa [show c + 16 - 1 = c + 15 by omega] at h
  have hframe : (regallocRun f).frameSize =
      if Rounding.up c 16 = 0 then 16 else Rounding.up c 16 := by
    rw [← hround]
    rfl
  have hup := Rounding.le_up (show (0 : ℤ) < 16 by norm_num) c
  have hdvd := Rounding.dvd_up c 16
  have hbound : c ≤ (regallocRun f).frameSize ∧ 0 < (regallocRun f).frameSize ∧
      16 ∣ (regallocRun f).frameSize := by
    rw [hframe]
    split
    · omega
    · exact ⟨hup, by omega, hdvd⟩
  refine ⟨?_, hbound.2⟩
  exact (slots_placed f).append_below (hplaced.mono (Int.neg_le_neg hbound.1) le_rfl)
    (Int.neg_le_neg (hle.trans hbound.1)) (by omega)

theorem regions_align {f : IRFunc} (hsize : ∀ i ∈ f.instrs, i.op = .alloca → i.WellSized) :
    ∀ r ∈ f.regions, r.align ∣ 16 := by
  intro r hr
  rcases List.mem_append.mp hr with hr | hr
  · obtain ⟨t, -, rfl⟩ := List.mem_map.mp hr
    exact ⟨2, rfl⟩
  · obtain ⟨i, hi, rfl⟩ := List.mem_map.mp hr
    rw [List.mem_filter, decide_eq_true_iff] at hi
    obtain ⟨k, hk, halign⟩ := (hsize i hi.1 hi.2).align
    change i.allocaAlign ∣ 2 ^ 4
    rw [halign]
    exact pow_dvd_pow 2 hk

/-- The frame of every function of a module is laid out soundly. -/
theorem frame_layout_sound (Γ : TypeEnv) (tu : TranslationUnit) :
    ∀ f ∈ (irgen Γ tu).funcs, (∀ i ∈ f.instrs, i.op = .alloca → i.WellSized) →
      (∀ i ∈ f.instrs, ∀ v ∈ i.values, ∀ t, v.kind = .temp t → 1 ≤ t ∧ t < f.nextTemp) ∧
      f.regions.Pairwise Region.Disjoint ∧
      (∀ r ∈ f.regions, -(regallocRun f).frameSize ≤ r.off ∧ r.off + r.size ≤ 0 ∧
        ∀ rbp, 16 ∣ rbp → r.align ∣ rbp + r.off) ∧
      0 < (regallocRun f).frameSize ∧ 16 ∣ (regallocRun f).frameSize := by
  intro f hf hsize
  obtain ⟨before, d, -, rfl⟩ := irgen_funcs Γ tu f hf
  have hnum := genFunc_numbered Γ (irgenDecls Γ before).module d (fileScope_irgenDecls Γ before)
  obtain ⟨hplaced, hframe⟩ := frame_placed _ hnum hsize
  refine ⟨hnum.within, hplaced.disjoint, fun r hr => ?_, hframe⟩
  have hinside := hplaced.inside r hr
  exact ⟨hinside.1, hinside.2, fun rbp hrbp =>
    Int.dvd_add ((regions_align hsize r hr).trans hrbp) (hplaced.aligned r hr)⟩

def loopFrame : IRFunc := (funcEnd .empty {} [fun _ => []] loopFunc).func

/-- The parameter of the function is stored in the frame. -/
theorem frame_layout_loop : loopFrame.regions.Pairwise Region.Disjoint ∧
    16 ∣ (regallocRun loopFrame).frameSize := by
  have hsize : ∀ i ∈ loopFrame.instrs, i.op = .alloca → i.WellSized := by
    have h : ∀ i ∈ loopFrame.instrs, i.op = .alloca → i.allocaSize = 4 ∧ i.allocaAlign = 4 := by
      decide +kernel
    intro i hi hop
    obtain ⟨hsize, halign⟩ := h i hi hop
    exact ⟨by omega, by rw [hsize, halign], 2, by omega, halign⟩
  have hmem : loopFrame ∈ (irgen .empty [.func loopFunc]).funcs :=
    List.mem_append_right [] List.mem_cons_self
  have hsound := frame_layout_sound .empty [.func loopFunc] loopFrame hmem hsize
  exact ⟨hsound.2.1, hsound.2.2.2.2⟩

end TinyC
