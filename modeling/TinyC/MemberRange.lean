import TinyC.MemberSearch
import TinyC.TypeHistory

/-!
# Where the members of a complete type are

The members found in a complete type lie inside it and are aligned. A flexible array is taken for
an array of minus one byte: the struct it ends may be a byte too short.
-/

namespace TinyC

open RecordLayout

section

variable {Γ : TypeEnv}

/-! ### Sealed members -/

theorem sealFields_append (st : SealState) (fs gs : List StructField) :
    sealFields Γ st (fs ++ gs) =
      ((sealFields Γ st fs).1 ++ (sealFields Γ (sealFields Γ st fs).2 gs).1,
        (sealFields Γ (sealFields Γ st fs).2 gs).2) := by
  induction fs generalizing st with
  | nil => rfl
  | cons f fs ih => simp only [List.cons_append, sealFields, ih]

theorem pos_of_two_pow {a : ℤ} (h : ∃ k < 31, a = 2 ^ k) : 0 < a := by
  obtain ⟨k, -, rfl⟩ := h
  positivity

/-- Of two powers of two the smaller divides the greater. -/
theorem two_pow_dvd_of_le {a b : ℤ} (ha : ∃ k < 31, a = 2 ^ k) (hb : ∃ k < 31, b = 2 ^ k)
    (hle : a ≤ b) : a ∣ b := by
  obtain ⟨j, -, rfl⟩ := ha
  obtain ⟨k, -, rfl⟩ := hb
  exact pow_dvd_pow 2 ((pow_le_pow_iff_right₀ (by norm_num)).mp hle)

theorem le_foldr_max (xs : List ℤ) (a : ℤ) {x : ℤ} (h : x = a ∨ x ∈ xs) : x ≤ xs.foldr max a := by
  induction xs with
  | nil =>
    rcases h with rfl | h
    · exact le_rfl
    · cases h
  | cons y xs ih =>
    rw [List.foldr_cons]
    rcases h with h | h
    · exact (ih (Or.inl h)).trans (le_max_right _ _)
    · rcases List.mem_cons.mp h with rfl | h
      · exact le_max_left _ _
      · exact (ih (Or.inr h)).trans (le_max_right _ _)

theorem le_maxAlign {fs : List StructField} {f : StructField} (hf : f ∈ fs) :
    typeAlignof Γ f.type ≤ maxAlign (fs.map (fieldSlot Γ)) := by
  rw [maxAlign, List.map_map]
  exact le_foldr_max _ _ (Or.inr (List.mem_map_of_mem hf))

/-- What sealing makes of a field has its shape. -/
theorem exists_shape {fs gs : List StructField} (h : gs.map shape = fs.map shape)
    {g : StructField} (hg : g ∈ gs) : ∃ f ∈ fs, shape g = shape f := by
  have hmem : shape g ∈ fs.map shape := h ▸ List.mem_map_of_mem hg
  obtain ⟨f, hf, heq⟩ := List.mem_map.mp hmem
  exact ⟨f, hf, heq.symm⟩

/-- An object at an offset in `used` bytes that are aligned. -/
structure Seated (Γ : TypeEnv) (ty : CType) (off used align : ℤ) : Prop where
  nonneg : 0 ≤ off
  inside : off + typeSizeof Γ ty ≤ used
  aligned : typeAlignof Γ ty ∣ off
  dvd : typeAlignof Γ ty ∣ align

/-- An object in a member is in what the member is in. -/
theorem Seated.trans {ty ty' : CType} {off off' used align : ℤ} (h : Seated Γ ty off used align)
    (h' : Seated Γ ty' off' (typeSizeof Γ ty) (typeAlignof Γ ty)) :
    Seated Γ ty' (off + off') used align := by
  have hnonneg := h.nonneg
  have hnonneg' := h'.nonneg
  have hinside := h.inside
  have hinside' := h'.inside
  exact ⟨by omega, by omega, Int.dvd_add (h'.dvd.trans h.aligned) h'.aligned, h'.dvd.trans h.dvd⟩

theorem sealFields_seated {fs : List StructField} (hf : ∀ f ∈ fs, FieldOk Γ f)
    (hfit : (layout {} (fs.map (fieldSlot Γ))).2.used + maxAlign (fs.map (fieldSlot Γ)) ≤ 2 ^ 31)
    {f : StructField} (hmem : f ∈ (sealFields Γ {} fs).1) (hw : f.bitWidth ≠ 0) :
    Seated Γ f.type f.offset (sealFields Γ {} fs).2.offset (maxAlign (fs.map (fieldSlot Γ))) := by
  obtain ⟨hslots, hoff, -, hshape⟩ := sealFields_layout hf .start .start hfit
  obtain ⟨-, hlaid, -⟩ := layout_laid .start (sound_fields hf)
  have hslot : fieldSlot Γ f ∈ (layout {} (fs.map (fieldSlot Γ))).1 :=
    hslots ▸ List.mem_map_of_mem hmem
  have hmember : (fieldSlot Γ f).IsMember := by
    simp only [Slot.IsMember, fieldSlot]
    split
    · simp
    · simpa using hw
  obtain ⟨hlo, hhi⟩ := hlaid.off _ hslot hmember
  obtain ⟨g, hg, heq⟩ := exists_shape hshape hmem
  have htype : f.type = g.type := congrArg (fun s => s.2.1) heq
  refine ⟨hlo, ?_, hlaid.aligned _ hslot hmember, ?_⟩
  · rw [hoff]
    exact hhi
  · rw [htype]
    exact two_pow_dvd_of_le (hf g hg).wellSized.align (maxAlign_two_pow hf) (le_maxAlign hg)

/-- The members of a struct are inside of it. -/
theorem typeSealStruct_seated {d : AggDef} (hf : ∀ f ∈ d.fields, FieldOk Γ f)
    (hsize : totalSize Γ d.fields < 2 ^ 31) {f : StructField}
    (hmem : f ∈ (typeSealStruct Γ d).fields) (hw : f.bitWidth ≠ 0) :
    Seated Γ f.type f.offset (typeSealStruct Γ d).size (typeSealStruct Γ d).align := by
  obtain ⟨hsound, -, halign⟩ := typeSealStruct_layout hf hsize
  have hpow := maxAlign_two_pow hf
  have hmax := one_le_maxAlign (d.fields.map (fieldSlot Γ))
  have hroom := up_add_le hpow hsize
  have hle := Rounding.le_up (show 0 < maxAlign (d.fields.map (fieldSlot Γ)) by omega)
    (layout {} (d.fields.map (fieldSlot Γ))).2.used
  have hseated := sealFields_seated hf (by omega) hmem hw
  have hmember : (fieldSlot Γ f).IsMember := by
    simp only [Slot.IsMember, fieldSlot]
    split
    · simp
    · simpa using hw
  refine ⟨hseated.nonneg, ?_, hseated.aligned, halign ▸ hseated.dvd⟩
  exact (hsound.inside _ (List.mem_map_of_mem hmem) hmember).2.1

/-- How a struct comes out that ends in a flexible array: the array begins at `u`, and counts for
minus one byte. -/
structure FlexibleLayout (Γ : TypeEnv) (fs : List StructField) (d : AggDef) (u : ℤ) : Prop where
  last : ∃ a elem q, d.fields.getLast? = some a ∧ a.type = .arrayUnsized elem q ∧ a.offset = u
  size : d.size = Rounding.up (u - 1) d.align
  pow : ∃ k < 31, d.align = 2 ^ k
  shape_eq : d.fields.map shape = fs.map shape
  seated : ∀ f ∈ d.fields, f.bitWidth ≠ 0 → Seated Γ f.type f.offset u d.align

theorem sealField_flexible {st : SealState} {a : StructField} {elem : CType} {q : TypeQual}
    (ha : a.type = .arrayUnsized elem q) (hwidth : a.bitWidth < 0)
    (helem : ∃ k < 31, typeAlignof Γ elem = 2 ^ k) (hoff : 0 ≤ st.offset)
    (hfit : Rounding.up st.offset (typeAlignof Γ elem) < 2 ^ 31) :
    sealField Γ st a =
      ({ a with offset := Rounding.up st.offset (typeAlignof Γ elem) },
        { st with
          maxAlign := max (typeAlignof Γ elem) st.maxAlign, bitNext := 0,
          offset := Rounding.up st.offset (typeAlignof Γ elem) - 1 }) := by
  have halign : typeAlignof Γ a.type = typeAlignof Γ elem := by rw [ha, typeAlignof]
  have hsize : typeSizeof Γ a.type = -1 := by rw [ha, typeSizeof]
  have hroom := up_add_le helem hfit
  have hle := Rounding.le_up (pos_of_two_pow helem) st.offset
  rw [sealField, if_neg (by omega), halign, hsize]
  dsimp only
  rw [alignUp32_eq hoff helem (by omega), toInt32_of_range (by omega) (by omega), ite_max]
  rfl

theorem typeSealStruct_flexible {d : AggDef} {ms : List StructField} {a : StructField}
    {elem : CType} {q : TypeQual} (hd : d.fields = ms ++ [a]) (ha : a.type = .arrayUnsized elem q)
    (hwidth : a.bitWidth < 0) (helem : ∃ k < 31, typeAlignof Γ elem = 2 ^ k)
    (hf : ∀ f ∈ ms, FieldOk Γ f) (hmember : ∃ f ∈ ms, f.bitWidth ≠ 0)
    (hsize : Rounding.up (layout {} (ms.map (fieldSlot Γ))).2.used
      (max (typeAlignof Γ elem) (maxAlign (ms.map (fieldSlot Γ)))) < 2 ^ 31) :
    FlexibleLayout Γ d.fields (typeSealStruct Γ d) (Rounding.up (layout {} (ms.map (fieldSlot Γ))).2.used
      (typeAlignof Γ elem)) := by
  set used := (layout {} (ms.map (fieldSlot Γ))).2.used with hused
  set m := maxAlign (ms.map (fieldSlot Γ)) with hm
  set e := typeAlignof Γ elem with he
  have hmpow : ∃ k < 31, m = 2 ^ k := maxAlign_two_pow hf
  have hpow : ∃ k < 31, max e m = 2 ^ k := by
    rcases max_choice e m with h | h <;> rw [h] <;> assumption
  have hepos : 0 < e := pos_of_two_pow helem
  have hroom := up_add_le hpow hsize
  have hmaxpos : 0 < max e m := hepos.trans_le (le_max_left _ _)
  have hle := Rounding.le_up hmaxpos used
  have hedvd : e ∣ Rounding.up used (max e m) :=
    (two_pow_dvd_of_le helem hpow (le_max_left _ _)).trans (Rounding.dvd_up _ _)
  have huple : Rounding.up used e ≤ Rounding.up used (max e m) := Rounding.up_le hepos hle hedvd
  have hleup := Rounding.le_up hepos used
  obtain ⟨hslots, hoff, hal, hshape⟩ := sealFields_layout hf .start .start (by
    have hmle := le_max_right e m
    omega)
  have hmax : (sealFields Γ {} ms).2.maxAlign = m := by
    rw [hm, maxAlign, List.map_map]
    exact hal.trans List.foldl_eq_foldr
  have hfit : (layout {} (ms.map (fieldSlot Γ))).2.used + maxAlign (ms.map (fieldSlot Γ)) ≤
      2 ^ 31 := by
    have hmle := le_max_right e m
    omega
  have hpositive : 0 < used := by
    obtain ⟨f, hmem, hw⟩ := hmember
    obtain ⟨g, hg, heq⟩ := exists_shape hshape.symm hmem
    have hwidth : f.bitWidth = g.bitWidth := congrArg (fun s => s.2.2) heq
    have htype : f.type = g.type := congrArg (fun s => s.2.1) heq
    have hseated := sealFields_seated hf hfit hg (hwidth ▸ hw)
    have hin := hseated.inside
    have hlo := hseated.nonneg
    have hsz := (hf f hmem).wellSized.size
    rw [htype] at hsz
    omega
  have hseal : typeSealStruct Γ d =
      { d with
        fields := (sealFields Γ {} ms).1 ++ [{ a with offset := Rounding.up used e }]
        size := alignUp32 (Rounding.up used e - 1) (max e m), align := max e m } := by
    have hnonneg : 0 ≤ (sealFields Γ {} ms).2.offset := by
      rw [hoff]
      exact hpositive.le
    have hup : Rounding.up (sealFields Γ {} ms).2.offset (typeAlignof Γ elem) < 2 ^ 31 := by
      rw [hoff, ← he]
      exact huple.trans_lt hsize
    have hflex := sealField_flexible ha hwidth helem hnonneg hup
    rw [hoff, hmax, ← he] at hflex
    rw [typeSealStruct, hd, sealFields_append]
    simp only [sealFields, hflex]
    rfl
  have hsz : alignUp32 (Rounding.up used e - 1) (max e m) =
      Rounding.up (Rounding.up used e - 1) (max e m) :=
    alignUp32_eq (by omega) hpow (by omega)
  refine ⟨⟨{ a with offset := Rounding.up used e }, elem, q, ?_, ha, rfl⟩, ?_, ?_, ?_, ?_⟩
  · rw [hseal]
    simp
  · rw [hseal, hsz]
  · rw [hseal]
    exact hpow
  · rw [hseal, hd, List.map_append, List.map_append, hshape]
    rfl
  · rw [hseal]
    intro f hmem hw
    rcases List.mem_append.mp hmem with hin | hlast
    · have hseated := sealFields_seated hf hfit hin hw
      have hinside := hseated.inside
      exact ⟨hseated.nonneg, by omega, hseated.aligned,
        hseated.dvd.trans (two_pow_dvd_of_le hmpow hpow (le_max_right _ _))⟩
    · obtain rfl := List.mem_singleton.mp hlast
      have halign : typeAlignof Γ a.type = e := by rw [ha, typeAlignof]
      have hsize : typeSizeof Γ a.type = -1 := by rw [ha, typeSizeof]
      refine ⟨by dsimp only; omega, ?_, ?_, ?_⟩
      · dsimp only
        rw [hsize]
        omega
      · dsimp only
        rw [halign]
        exact Rounding.dvd_up _ _
      · dsimp only
        rw [halign]
        exact two_pow_dvd_of_le helem hpow (le_max_left _ _)

theorem typeSealUnion_seated {d : AggDef}
    (hpow : ∀ f ∈ d.fields, ∃ k < 31, typeAlignof Γ f.type = 2 ^ k)
    (hsize : unionSize Γ d.fields < 2 ^ 31) :
    (∃ k < 31, (typeSealUnion Γ d).align = 2 ^ k) ∧ ∀ f ∈ (typeSealUnion Γ d).fields,
      f.offset = 0 ∧
      Seated Γ f.type 0 (typeSealUnion Γ d).size (typeSealUnion Γ d).align := by
  have hmaxpow : ∃ k < 31, maxAlign (d.fields.map (fieldSlot Γ)) = 2 ^ k := by
    apply foldr_max_two_pow
    intro x hx
    simp only [List.map_map, List.mem_map] at hx
    obtain ⟨f, hmem, rfl⟩ := hx
    exact hpow f hmem
  have halign : (typeSealUnion Γ d).align = maxAlign (d.fields.map (fieldSlot Γ)) := by
    rw [maxAlign, List.map_map]
    exact foldl_greatest 1
  have hmax := one_le_maxAlign (d.fields.map (fieldSlot Γ))
  have hroom := up_add_le hmaxpow hsize
  have hle := Rounding.le_up (show 0 < maxAlign (d.fields.map (fieldSlot Γ)) by omega)
    ((d.fields.map fun f => typeSizeof Γ f.type).foldr max 0)
  have hsz : (typeSealUnion Γ d).size = unionSize Γ d.fields := by
    have heq : (typeSealUnion Γ d).size =
        alignUp32 ((d.fields.map fun f => typeSizeof Γ f.type).foldr max 0)
          (typeSealUnion Γ d).align := by
      rw [← foldl_greatest 0]
      rfl
    rw [heq, halign]
    exact alignUp32_eq (le_foldr_max _ _ (Or.inl rfl)) hmaxpow (by omega)
  refine ⟨halign ▸ hmaxpow, fun f hmem => ?_⟩
  obtain ⟨g, hg, rfl⟩ := List.mem_map.mp hmem
  have htype : (if g.bitWidth ≥ 0 then { g with offset := 0, bitOffset := 0 }
      else { g with offset := 0 }).type = g.type := by
    split <;> rfl
  refine ⟨by split <;> rfl, le_rfl, ?_, dvd_zero _, ?_⟩
  · have hin := le_foldr_max (d.fields.map fun f => typeSizeof Γ f.type) (0 : ℤ)
      (Or.inr (List.mem_map_of_mem hg))
    rw [htype, hsz, zero_add]
    exact hin.trans hle
  · rw [htype, halign]
    exact two_pow_dvd_of_le (hpow g hg) hmaxpow (le_maxAlign hg)

/-! ### Paths in complete types -/

/-- The object types whose sizes are known, with the structs that end in a flexible array and the
unions of such. -/
inductive Sealed (Γ : TypeEnv) : CType → Prop where
  | complete {ty} : Complete Γ ty → Sealed Γ ty
  | flexible {id q d ms a elem eq} : Γ.agg id = typeSealStruct Γ d → d.fields = ms ++ [a] →
      a.type = .arrayUnsized elem eq → a.bitWidth < 0 → Complete Γ elem →
      (∀ f ∈ ms, f.bitWidth < 0 → Complete Γ f.type) →
      (∀ f ∈ ms, 0 ≤ f.bitWidth →
        typeIsInteger f.type = true ∧ f.bitWidth ≤ 8 * typeSizeof Γ f.type) →
      (∃ f ∈ ms, f.bitWidth ≠ 0) →
      Rounding.up (layout {} (ms.map (fieldSlot Γ))).2.used
        (max (typeAlignof Γ elem) (maxAlign (ms.map (fieldSlot Γ)))) < 2 ^ 31 →
      Sealed Γ (.agg false id q)
  | union {id q d} : Γ.agg id = typeSealUnion Γ d →
      (∀ f ∈ d.fields, f.bitWidth < 0 → Sealed Γ f.type) →
      (∀ f ∈ d.fields, 0 ≤ f.bitWidth →
        typeIsInteger f.type = true ∧ f.bitWidth ≤ 8 * typeSizeof Γ f.type) →
      d.fields ≠ [] → unionSize Γ d.fields < 2 ^ 31 → Sealed Γ (.agg true id q)

/-- The member at the end of a path ends at `e`, where a flexible array begins, and only a byte
after a multiple of the alignment. A union around the struct has no byte more. -/
def CutShort (Γ : TypeEnv) : CType → List ℕ → ℤ → Prop
  | .agg false id _, _ :: _, e => ∃ a elem q, (Γ.agg id).fields.getLast? = some a ∧
      a.type = .arrayUnsized elem q ∧ a.offset = e ∧ (Γ.agg id).align ∣ e - 1
  | .agg true id _, i :: path, e => ∃ f, (Γ.agg id).fields[i]? = some f ∧
      typeSizeof Γ f.type = (Γ.agg id).size ∧ CutShort Γ f.type path e
  | _, _, _ => False

theorem typeAlignof_agg {u : Bool} {id : ℕ} {q : TypeQual}
    (h : ∃ k < 31, (Γ.agg id).align = 2 ^ k) : typeAlignof Γ (.agg u id q) = (Γ.agg id).align := by
  rw [typeAlignof, if_pos (pos_of_two_pow h)]

theorem membersAlong_eq_cons {ty : CType} {path : List ℕ} {g : StructField}
    {gs : List StructField} (h : Γ.membersAlong ty path = some (g :: gs)) :
    ∃ u id q i path', ty = .agg u id q ∧ path = i :: path' ∧ (Γ.agg id).fields[i]? = some g ∧
      Γ.membersAlong g.type path' = some gs := by
  cases path with
  | nil => cases h
  | cons i path =>
    cases ty with
    | agg u id q =>
      rw [TypeEnv.membersAlong] at h
      obtain ⟨g', hg, h⟩ := Option.bind_eq_some_iff.mp h
      obtain ⟨gs', hgs, h⟩ := Option.bind_eq_some_iff.mp h
      cases h
      exact ⟨u, id, q, i, path, rfl, rfl, hg, hgs⟩
    | _ => cases h

/-- A path goes on in the type of its first member. -/
theorem membersAlong_append {ty : CType} {path : List ℕ} {fs : List StructField}
    {f : StructField} (h : Γ.membersAlong ty path = some (fs ++ [f])) :
    ∃ u id q i path' g, ty = .agg u id q ∧ path = i :: path' ∧ (Γ.agg id).fields[i]? = some g ∧
      ((fs = [] ∧ path' = [] ∧ f = g) ∨
        ∃ gs, fs = g :: gs ∧ isAggregateType (some g.type) = true ∧
          Γ.membersAlong g.type path' = some (gs ++ [f])) := by
  cases fs with
  | nil =>
    obtain ⟨u, id, q, i, path', rfl, rfl, hg, hrest⟩ := membersAlong_eq_cons h
    refine ⟨u, id, q, i, path', f, rfl, rfl, hg, Or.inl ⟨rfl, ?_, rfl⟩⟩
    cases path' with
    | nil => rfl
    | cons j path' =>
      cases hty : f.type with
      | agg u' id' q' =>
        rw [hty, TypeEnv.membersAlong] at hrest
        obtain ⟨g', -, hrest⟩ := Option.bind_eq_some_iff.mp hrest
        obtain ⟨gs', -, hrest⟩ := Option.bind_eq_some_iff.mp hrest
        cases hrest
      | _ =>
        rw [hty] at hrest
        cases hrest
  | cons g gs =>
    obtain ⟨u, id, q, i, path', rfl, rfl, hg, hrest⟩ := membersAlong_eq_cons h
    refine ⟨u, id, q, i, path', g, rfl, rfl, hg, Or.inr ⟨gs, rfl, ?_, hrest⟩⟩
    cases gs with
    | nil =>
      obtain ⟨_, _, _, _, _, hty, -⟩ := membersAlong_eq_cons hrest
      rw [hty]
      rfl
    | cons g' gs =>
      obtain ⟨_, _, _, _, _, hty, -⟩ := membersAlong_eq_cons hrest
      rw [hty]
      rfl

/-- What a complete struct or union says about each of its members. -/
structure MemberOk (Γ : TypeEnv) (ty : CType) (g : StructField) : Prop where
  seated : g.bitWidth ≠ 0 → Seated Γ g.type g.offset (typeSizeof Γ ty) (typeAlignof Γ ty)
  inner : isAggregateType (some g.type) = true → Complete Γ g.type ∧ g.bitWidth ≠ 0

theorem complete_of_aggregate {fs : List StructField} {f g : StructField}
    (hordinary : ∀ f ∈ fs, f.bitWidth < 0 → Complete Γ f.type)
    (hbits : ∀ f ∈ fs, 0 ≤ f.bitWidth →
      typeIsInteger f.type = true ∧ f.bitWidth ≤ 8 * typeSizeof Γ f.type)
    (hf : f ∈ fs) (htype : g.type = f.type) (hwidth : g.bitWidth = f.bitWidth)
    (hagg : isAggregateType (some g.type) = true) : Complete Γ g.type ∧ g.bitWidth ≠ 0 := by
  by_cases hneg : f.bitWidth < 0
  · exact ⟨htype ▸ hordinary f hf hneg, by omega⟩
  · have hint := (hbits f hf (not_lt.mp hneg)).1
    rw [← htype] at hint
    cases hty : g.type <;> rw [hty] at hint hagg <;> first | (cases hagg; done) | cases hint

theorem complete_member {u : Bool} {id : ℕ} {q : TypeQual} (hc : Complete Γ (.agg u id q))
    {g : StructField} (hg : g ∈ (Γ.agg id).fields) : MemberOk Γ (.agg u id q) g := by
  have hws := complete_wellSized hc
  cases hc with
  | @struct _ _ d hd hordinary hbits hmember hsize =>
    have hok : ∀ f ∈ d.fields, FieldOk Γ f := fun f hf =>
      ⟨fun hneg => complete_wellSized (hordinary f hf hneg), hbits f hf⟩
    obtain ⟨-, hshape, halign⟩ := typeSealStruct_layout hok hsize
    have hpow : ∃ k < 31, (Γ.agg id).align = 2 ^ k := by
      rw [hd, halign]
      exact maxAlign_two_pow hok
    rw [hd] at hg
    obtain ⟨f, hf, heq⟩ := exists_shape hshape hg
    refine ⟨fun hw => ?_, complete_of_aggregate hordinary hbits hf
      (congrArg (fun s => s.2.1) heq) (congrArg (fun s => s.2.2) heq)⟩
    rw [typeAlignof_agg hpow, typeSizeof, hd]
    exact typeSealStruct_seated hok hsize hg hw
  | @union _ _ d hd hordinary hbits hne hsize =>
    have hok : ∀ f ∈ d.fields, FieldOk Γ f := fun f hf =>
      ⟨fun hneg => complete_wellSized (hordinary f hf hneg), hbits f hf⟩
    obtain ⟨hpow, hseated⟩ := typeSealUnion_seated (fun f hf => (hok f hf).wellSized.align) hsize
    rw [hd] at hg
    obtain ⟨hoff, hin⟩ := hseated g hg
    obtain ⟨f, hf, rfl⟩ := List.mem_map.mp hg
    refine ⟨fun _ => ?_, complete_of_aggregate hordinary hbits hf (by split <;> rfl)
      (by split <;> rfl)⟩
    rw [typeAlignof_agg (by rw [hd]; exact hpow), typeSizeof, hd, hoff]
    exact hin

theorem complete_seated {ty : CType} {path : List ℕ} {fs : List StructField} {f : StructField}
    (hc : Complete Γ ty) (hpath : Γ.membersAlong ty path = some (fs ++ [f]))
    (hw : f.bitWidth ≠ 0) :
    Seated Γ f.type ((fs ++ [f]).map (·.offset)).sum (typeSizeof Γ ty) (typeAlignof Γ ty) := by
  induction path generalizing ty fs with
  | nil =>
    obtain ⟨_, _, _, _, _, _, -, h, -⟩ := membersAlong_append hpath
    cases h
  | cons i path ih =>
    obtain ⟨u, id, q, _, _, g, rfl, hcons, hg, hcase⟩ := membersAlong_append hpath
    cases hcons
    have hok := complete_member hc (List.mem_of_getElem? hg)
    rcases hcase with ⟨rfl, -, rfl⟩ | ⟨gs, rfl, hagg, hrest⟩
    · simpa using hok.seated hw
    · obtain ⟨hinner, hwidth⟩ := hok.inner hagg
      rw [List.cons_append, List.map_cons, List.sum_cons]
      exact (hok.seated hwidth).trans (ih hinner hrest)

/-! ### Flexible arrays -/

theorem not_cutShort_other {ty : CType} (h : isAggregateType (some ty) = false) (path : List ℕ)
    (e : ℤ) : ¬CutShort Γ ty path e := by
  cases ty <;> first | (cases h; done) | (cases path <;> exact fun h => h)

theorem integer_not_aggregate {ty : CType} (h : typeIsInteger ty = true) :
    isAggregateType (some ty) = false := by
  cases ty <;> first | rfl | cases h

theorem complete_not_cutShort {ty : CType} (hc : Complete Γ ty) (path : List ℕ) (e : ℤ) :
    ¬CutShort Γ ty path e := by
  induction hc generalizing path with
  | @struct id q d hd hordinary hbits hmember hsize _ =>
    cases path with
    | nil => exact fun h => h
    | cons i path =>
      rintro ⟨a, elem, q', hlast, htype, -, -⟩
      have hok : ∀ f ∈ d.fields, FieldOk Γ f := fun f hf =>
        ⟨fun hneg => complete_wellSized (hordinary f hf hneg), hbits f hf⟩
      obtain ⟨-, hshape, -⟩ := typeSealStruct_layout hok hsize
      rw [hd] at hlast
      obtain ⟨f, hf, heq⟩ := exists_shape hshape (List.mem_of_getLast? hlast)
      have hsame : a.type = f.type := congrArg (fun s => s.2.1) heq
      have hpos := (hok f hf).wellSized.size
      rw [← hsame, htype, typeSizeof] at hpos
      omega
  | @union id q d hd hordinary hbits hne hsize ih =>
    cases path with
    | nil => exact fun h => h
    | cons i path =>
      rintro ⟨g, hg, -, hcut⟩
      rw [hd] at hg
      obtain ⟨f, hf, rfl⟩ := List.mem_map.mp (List.mem_of_getElem? hg)
      have htype : (if f.bitWidth ≥ 0 then { f with offset := 0, bitOffset := 0 }
          else { f with offset := 0 }).type = f.type := by
        split <;> rfl
      rw [htype] at hcut
      by_cases hneg : f.bitWidth < 0
      · exact ih f hf hneg path hcut
      · have hint := (hbits f hf (not_lt.mp hneg)).1
        exact not_cutShort_other (integer_not_aggregate hint) path e hcut
  | _ => exact not_cutShort_other rfl path e

theorem Sealed.align {ty : CType} (h : Sealed Γ ty) : ∃ k < 31, typeAlignof Γ ty = 2 ^ k := by
  induction h with
  | complete hc => exact (complete_wellSized hc).align
  | @flexible id q d ms a elem eq hd hfields ha hwidth helem hordinary hbits hmember hsize =>
    have hok : ∀ f ∈ ms, FieldOk Γ f := fun f hf =>
      ⟨fun hneg => complete_wellSized (hordinary f hf hneg), hbits f hf⟩
    have hpow := (typeSealStruct_flexible hfields ha hwidth (complete_wellSized helem).align hok
      hmember hsize).pow
    rw [← hd] at hpow
    rw [typeAlignof_agg hpow]
    exact hpow
  | @union id q d hd hordinary hbits hne hsize ih =>
    have hpow : ∀ f ∈ d.fields, ∃ k < 31, typeAlignof Γ f.type = 2 ^ k := by
      intro f hf
      by_cases hneg : f.bitWidth < 0
      · exact ih f hf hneg
      · exact (integer_wellSized (hbits f hf (not_lt.mp hneg)).1).1.align
    have halign := (typeSealUnion_seated hpow hsize).1
    rw [← hd] at halign
    rw [typeAlignof_agg halign]
    exact halign

theorem not_cutShort_nil {ty : CType} (e : ℤ) : ¬CutShort Γ ty [] e := by
  cases ty with
  | agg u id q => cases u <;> exact fun h => h
  | _ => exact fun h => h

theorem cutShort_struct_iff {id : ℕ} {q : TypeQual} {i : ℕ} {path : List ℕ} {e u : ℤ}
    (hlast : ∃ a elem q, (Γ.agg id).fields.getLast? = some a ∧ a.type = .arrayUnsized elem q ∧
      a.offset = u) :
    CutShort Γ (.agg false id q) (i :: path) e ↔ e = u ∧ (Γ.agg id).align ∣ u - 1 := by
  obtain ⟨a, elem, q', hget, htype, rfl⟩ := hlast
  constructor
  · rintro ⟨b, _, _, hb, -, rfl, hdvd⟩
    rw [hget] at hb
    cases hb
    exact ⟨rfl, hdvd⟩
  · rintro ⟨rfl, hdvd⟩
    exact ⟨a, elem, q', hget, htype, rfl, hdvd⟩

theorem cutShort_union_iff {id : ℕ} {q : TypeQual} {i : ℕ} {path : List ℕ} {e : ℤ}
    {g : StructField} (hg : (Γ.agg id).fields[i]? = some g) :
    CutShort Γ (.agg true id q) (i :: path) e ↔
      typeSizeof Γ g.type = (Γ.agg id).size ∧ CutShort Γ g.type path e := by
  constructor
  · rintro ⟨g', hg', hcut⟩
    rw [hg] at hg'
    cases hg'
    exact hcut
  · exact fun hcut => ⟨g, hg, hcut⟩

theorem union_original {d : AggDef} {g : StructField} (hg : g ∈ (typeSealUnion Γ d).fields) :
    ∃ f ∈ d.fields, g.type = f.type := by
  obtain ⟨f, hf, rfl⟩ := List.mem_map.mp hg
  exact ⟨f, hf, by split <;> rfl⟩

/-- Rounding up from one byte less loses a byte exactly when that is a multiple. -/
theorem short_iff {a u e : ℤ} (ha : 0 < a) (he : e ≤ u) :
    (e ≤ Rounding.up (u - 1) a ↔ ¬(e = u ∧ a ∣ u - 1)) ∧ e ≤ Rounding.up (u - 1) a + 1 := by
  have hle := Rounding.le_up ha (u - 1)
  have hdvd := Rounding.dvd_up (u - 1) a
  refine ⟨⟨?_, ?_⟩, by omega⟩
  · rintro hin ⟨rfl, hmul⟩
    rw [Rounding.up_of_dvd ha hmul] at hin
    omega
  · intro hnot
    by_cases heq : e = u
    · have hne : Rounding.up (u - 1) a ≠ u - 1 := by
        intro hsame
        exact hnot ⟨heq, hsame ▸ hdvd⟩
      omega
    · omega

/-- A member that is found is aligned, and inside of the type unless this is cut short. -/
structure Found (Γ : TypeEnv) (ty : CType) (path : List ℕ) (f : StructField) (off : ℤ) : Prop where
  nonneg : 0 ≤ off
  aligned : typeAlignof Γ f.type ∣ off
  dvd : typeAlignof Γ f.type ∣ typeAlignof Γ ty
  inside : off + typeSizeof Γ f.type ≤ typeSizeof Γ ty ↔
    ¬CutShort Γ ty path (off + typeSizeof Γ f.type)
  almost : off + typeSizeof Γ f.type ≤ typeSizeof Γ ty + 1

theorem sealed_found {ty : CType} {path : List ℕ} {fs : List StructField} {f : StructField}
    (hs : Sealed Γ ty) (hpath : Γ.membersAlong ty path = some (fs ++ [f]))
    (hw : f.bitWidth ≠ 0) : Found Γ ty path f ((fs ++ [f]).map (·.offset)).sum := by
  induction hs generalizing path fs with
  | complete hc =>
    have hseated := complete_seated hc hpath hw
    exact ⟨hseated.nonneg, hseated.aligned, hseated.dvd,
      iff_of_true hseated.inside (complete_not_cutShort hc path _), by
        have hin := hseated.inside
        omega⟩
  | @flexible id q d ms a elem eq hd hfields ha hwidth helem hordinary hbits hmember hsize =>
    obtain ⟨u, _, _, i, path, g, heq, rfl, hg, hcase⟩ := membersAlong_append hpath
    cases heq
    have hok : ∀ f ∈ ms, FieldOk Γ f := fun f hf =>
      ⟨fun hneg => complete_wellSized (hordinary f hf hneg), hbits f hf⟩
    have hlayout := typeSealStruct_flexible hfields ha hwidth (complete_wellSized helem).align hok
      hmember hsize
    rw [← hd] at hlayout
    have hinner : isAggregateType (some g.type) = true → Complete Γ g.type ∧ g.bitWidth ≠ 0 := by
      intro hagg
      obtain ⟨f', hf', hshape⟩ := exists_shape hlayout.shape_eq (List.mem_of_getElem? hg)
      have htype : g.type = f'.type := congrArg (fun s => s.2.1) hshape
      rw [hfields] at hf'
      rcases List.mem_append.mp hf' with hin | hlast
      · exact complete_of_aggregate hordinary hbits hin htype
          (congrArg (fun s => s.2.2) hshape) hagg
      · rw [htype, List.mem_singleton.mp hlast, ha] at hagg
        cases hagg
    have hin := fun hw => hlayout.seated g (List.mem_of_getElem? hg) hw
    have hseated : Seated Γ f.type ((fs ++ [f]).map (·.offset)).sum
        (Rounding.up (layout {} (ms.map (fieldSlot Γ))).2.used (typeAlignof Γ elem))
        (Γ.agg id).align := by
      rcases hcase with ⟨rfl, -, rfl⟩ | ⟨gs, rfl, hagg, hrest⟩
      · simpa using hin hw
      · obtain ⟨hcomplete, hwidth⟩ := hinner hagg
        rw [List.cons_append, List.map_cons, List.sum_cons]
        exact (hin hwidth).trans (complete_seated hcomplete hrest hw)
    have hround := short_iff (pos_of_two_pow hlayout.pow) hseated.inside
    refine ⟨hseated.nonneg, hseated.aligned, ?_, ?_, ?_⟩
    · rw [typeAlignof_agg hlayout.pow]
      exact hseated.dvd
    · rw [typeSizeof, hlayout.size, hround.1, cutShort_struct_iff hlayout.last]
    · rw [typeSizeof, hlayout.size]
      exact hround.2
  | @union id q d hd hordinary hbits hne hsize ih =>
    obtain ⟨u, _, _, i, path, g, heq, rfl, hg, hcase⟩ := membersAlong_append hpath
    cases heq
    have hpow : ∀ f ∈ d.fields, ∃ k < 31, typeAlignof Γ f.type = 2 ^ k := by
      intro f hf
      by_cases hneg : f.bitWidth < 0
      · exact (hordinary f hf hneg).align
      · exact (integer_wellSized (hbits f hf (not_lt.mp hneg)).1).1.align
    obtain ⟨halign, hseated⟩ := typeSealUnion_seated hpow hsize
    rw [← hd] at halign hseated
    obtain ⟨hoff, hin⟩ := hseated g (List.mem_of_getElem? hg)
    rcases hcase with ⟨rfl, rfl, rfl⟩ | ⟨gs, rfl, hagg, hrest⟩
    · have hnot : ¬CutShort Γ (.agg true id q) [i] (f.offset + typeSizeof Γ f.type) := by
        rintro ⟨f', -, -, hcut⟩
        exact not_cutShort_nil _ hcut
      have hinside := hin.inside
      simp only [List.nil_append, List.map_cons, List.map_nil, List.sum_cons, List.sum_nil,
        add_zero]
      rw [hoff] at hnot ⊢
      refine ⟨le_rfl, dvd_zero _, ?_, iff_of_true ?_ hnot, ?_⟩
      · rw [typeAlignof_agg halign]
        exact hin.dvd
      · rw [typeSizeof]
        exact hinside
      · rw [typeSizeof]
        omega
    · have hg' := List.mem_of_getElem? hg
      rw [hd] at hg'
      obtain ⟨f', hf', htype⟩ := union_original hg'
      have hneg : f'.bitWidth < 0 := by
        by_contra hneg
        have hother := integer_not_aggregate (hbits f' hf' (not_lt.mp hneg)).1
        rw [← htype, hagg] at hother
        cases hother
      have hfound := ih f' hf' hneg (htype ▸ hrest)
      rw [← htype] at hfound
      rw [List.cons_append, List.map_cons, List.sum_cons, hoff, zero_add]
      have halmost := hfound.almost
      have hroom := hin.inside
      have hinside := hfound.inside
      refine ⟨hfound.nonneg, hfound.aligned, ?_, ?_, ?_⟩
      · rw [typeAlignof_agg halign]
        exact hfound.dvd.trans hin.dvd
      · rw [typeSizeof, cutShort_union_iff hg]
        by_cases hcut : CutShort Γ g.type path
            (((gs ++ [f]).map (·.offset)).sum + typeSizeof Γ f.type)
        · simp only [hcut, not_true_eq_false, iff_false, and_true] at hinside ⊢
          omega
        · simp only [hcut, not_false_eq_true, iff_true, and_false] at hinside ⊢
          omega
      · rw [typeSizeof]
        omega

/-- Sema and irgen find the same member or none, at the sum of the offsets on the way. It is
aligned, and inside of a complete type exactly when this is not cut short by a flexible array. -/
theorem member_found_iff {t : TypeTable} {r : TypeRef} {ty : CType} (name : String)
    (hreads : t.ReadsAs r Γ) (hty : t.readType (some r) = .ok ty) :
    (t.lookupMemberAlong name (t.nodes.length + 1) (some r) = .ok none ∧
      findFieldWithOffset Γ ty name = none) ∨
    ∃ path ns n fs f rest off, t.membersAlong (some r) path = some (ns ++ [n]) ∧
      Γ.membersAlong ty path = some (fs ++ [f]) ∧ (∀ m ∈ fs, m.name = none) ∧
      f.name = some name ∧
      t.lookupMemberAlong name (t.nodes.length + 1) (some r) = .ok (some n) ∧
      findFieldWithOffset Γ ty name = some (f :: rest, off) ∧
      off = ((fs ++ [f]).map (·.offset)).sum ∧
      (Sealed Γ ty → f.bitWidth ≠ 0 → 0 ≤ off ∧ typeAlignof Γ f.type ∣ off ∧
        (off + typeSizeof Γ f.type ≤ typeSizeof Γ ty ↔
          ¬CutShort Γ ty path (off + typeSizeof Γ f.type))) := by
  rcases sameMember_lookup hreads hty with hnone |
    ⟨path, ns, n, fs, f, rest, hns, hfs, hall, hf, hx, hy⟩
  · exact Or.inl hnone
  · refine Or.inr ⟨path, ns, n, fs, f, rest, _, hns, hfs, hall, hf, hx, hy, rfl, fun hs hw => ?_⟩
    have hfound := sealed_found hs hfs hw
    exact ⟨hfound.nonneg, hfound.aligned, hfound.inside⟩

end

/-! ### Two structs -/

def envOfText (text : String) : TypeEnv :=
  match (typesOfText text).env with
  | .ok Γ => Γ
  | .error _ => .empty

theorem envOfText_eq {text : String} (h : (typesOfText text).env.isOk = true) :
    (typesOfText text).env = .ok (envOfText text) := by
  unfold envOfText
  cases henv : (typesOfText text).env with
  | error e =>
    rw [henv] at h
    cases h
  | ok Γ => rfl

theorem envOfText_reads {text : String} (h : (typesOfText text).env.isOk = true) (r : TypeRef) :
    (typesOfText text).ReadsAs r (envOfText text) := readsAs_env (envOfText_eq h) r

def flexibleText : String := "struct S { char n; char a[]; } v;"

theorem flexibleText_read :
    (typesOfText flexibleText).env.isOk = true ∧
      (typesOfText flexibleText).readType (some 16) = .ok (.agg false 16 .none) ∧
      (envOfText flexibleText).agg 16 = typeSealStruct (envOfText flexibleText)
        { tag := some "S", fields := [{ name := some "n", type := typeChar },
            { name := some "a", type := .arrayUnsized typeChar .none }] } ∧
      ((envOfText flexibleText).agg 16).fields =
        [{ name := some "n", type := typeChar },
          { name := some "a", type := .arrayUnsized typeChar .none, offset := 1 }] ∧
      ((envOfText flexibleText).agg 16).size = 0 := by decide +kernel

theorem flexibleText_sealed : Sealed (envOfText flexibleText) (.agg false 16 .none) := by
  obtain ⟨-, -, hseal, -, -⟩ := flexibleText_read
  have hchar : Complete (envOfText flexibleText) typeChar := .scalar (by decide)
  have hsplit : [{ name := some "n", type := typeChar },
      { name := some "a", type := .arrayUnsized typeChar .none }] =
      [({ name := some "n", type := typeChar } : StructField)] ++
        [{ name := some "a", type := .arrayUnsized typeChar .none }] := rfl
  refine .flexible hseal hsplit rfl (by decide) hchar ?_ ?_ (by decide) (by decide +kernel)
  · simpa using hchar
  · simp

/-- The member before a flexible array is a byte behind the end of its struct. -/
theorem flexible_struct_short :
    ¬∀ (t : TypeTable) (Γ : TypeEnv) (r : TypeRef) (ty : CType) (name : String)
      (f : StructField) (rest : List StructField) (off : ℤ), t.ReadsAs r Γ →
      t.readType (some r) = .ok ty → Sealed Γ ty →
      findFieldWithOffset Γ ty name = some (f :: rest, off) →
      off + typeSizeof Γ f.type ≤ typeSizeof Γ ty := by
  intro hall
  obtain ⟨henv, htype, -, hfields, hsize⟩ := flexibleText_read
  have hin := hall _ _ 16 _ "n" _ _ _ (envOfText_reads henv 16) htype flexibleText_sealed
    (by rw [findFieldWithOffset_agg, hfields]; rfl)
  rw [typeSizeof, hsize] at hin
  exact absurd hin (by decide)

def nestedText : String := "struct S { int x; union { char c; double d; }; } v;"

/-- The union is the second member of the struct. -/
theorem nestedText_read :
    (typesOfText nestedText).env.isOk = true ∧
      (typesOfText nestedText).readType (some 16) = .ok (.agg false 16 .none) ∧
      (typesOfText nestedText).nodes.length + 1 = 19 ∧
      (envOfText nestedText).agg 16 = typeSealStruct (envOfText nestedText)
        { tag := some "S", fields := [{ name := some "x", type := typeInt },
            { name := none, type := .agg true 17 .none }] } ∧
      (envOfText nestedText).agg 17 = typeSealUnion (envOfText nestedText)
        { fields := [{ name := some "c", type := typeChar },
            { name := some "d", type := typeDouble }] } ∧
      ((envOfText nestedText).agg 16).fields =
        [{ name := some "x", type := typeInt },
          { name := none, type := .agg true 17 .none, offset := 8 }] := by decide +kernel

theorem nestedText_complete : Complete (envOfText nestedText) (.agg false 16 .none) := by
  obtain ⟨-, -, -, houter, hinner, -⟩ := nestedText_read
  have hunion : Complete (envOfText nestedText) (.agg true 17 .none) := by
    refine .union hinner ?_ ?_ (by decide) (by decide +kernel)
    · simpa using ⟨.scalar (by decide), .scalar (by decide)⟩
    · simp
  refine .struct houter ?_ ?_ (by decide) (by decide +kernel)
  · simpa using ⟨.scalar (by decide), hunion⟩
  · simp

/-- `d` is found through the union, in the last eight bytes. -/
theorem member_found_nested :
    ∃ f rest, (typesOfText nestedText).lookupMemberAlong "d" 19 (some 16) ≠ .ok none ∧
      findFieldWithOffset (envOfText nestedText) (.agg false 16 .none) "d" = some (f :: rest, 8) ∧
      8 + typeSizeof (envOfText nestedText) f.type ≤
        typeSizeof (envOfText nestedText) (.agg false 16 .none) := by
  obtain ⟨henv, htype, hlen, -, hinner, houter⟩ := nestedText_read
  have hfind : findFieldWithOffset (envOfText nestedText) (.agg false 16 .none) "d" =
      some ([{ name := some "d", type := typeDouble }], 8) := by
    rw [findFieldWithOffset_agg, houter]
    simp [searchFields, findFieldWithOffset_agg, hinner, typeSealUnion, isAggregateType]
  rcases member_found_iff "d" (envOfText_reads henv 16) htype with
    ⟨-, hnone⟩ | ⟨path, ns, n, fs, f, rest, off, -, -, -, -, hlookup, hfound, -, hrange⟩
  · rw [hfind] at hnone
    cases hnone
  · rw [hfind] at hfound
    cases hfound
    rw [hlen] at hlookup
    refine ⟨_, [], ?_, hfind, ?_⟩
    · rw [hlookup]
      exact fun h => (by cases h)
    · exact ((hrange (.complete nestedText_complete) (by decide)).2.2).mpr
        (complete_not_cutShort nestedText_complete path _)

end TinyC
