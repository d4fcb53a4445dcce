import TinyC.AbiClassify
import TinyC.CallLocations
import TinyC.MemberRange

/-!
# Eightbyte classes from the leaves of a type

The classes that are merged along nested aggregates are the join over the scalar leaves. A
bit-field of width zero has no storage, and yet `classify_range` counts it as an integer.
-/

namespace TinyC

/-! ### Leaves -/

inductive LeafKind where
  | integer
  | sse
  | x87
  /-- A bit-field of width zero. -/
  | separator
  deriving DecidableEq, Repr

structure Leaf where
  kind : LeafKind
  off : ℤ
  deriving DecidableEq, Repr

/-- The scalars and bit-fields of an object at an offset. -/
@[semireducible] def leaves (Γ : TypeEnv) (ty : CType) (offset : ℤ) : List Leaf :=
  match ty with
  | .scalar .void _ | .arrayUnsized _ _ => []
  | .scalar .float _ | .scalar .double _ => [⟨.sse, offset⟩]
  | .scalar .ldouble _ => [⟨.x87, offset⟩]
  | .scalar _ _ | .enum _ _ | .pointer _ _ | .func _ _ _ _ => [⟨.integer, offset⟩]
  | .array elem count _ =>
      (List.range count.toNat).flatMap fun (i : ℕ) =>
        leaves Γ elem (offset + i * typeSizeof Γ elem)
  | .agg _ id _ =>
      (Γ.agg id).fields.attach.flatMap fun f =>
        if f.1.bitWidth = 0 then [⟨.separator, offset + f.1.offset⟩]
        else leaves Γ f.1.type (offset + f.1.offset)
termination_by ty.depth Γ.rank
decreasing_by
  · simp [CType.depth]
  · exact Γ.contained id f.1 f.2

/-- Is there a leaf of this kind in eightbyte `k`? -/
def hasLeaf (ls : List Leaf) (kind : LeafKind) (k : ℕ) : Bool :=
  ls.any fun l => l.kind = kind ∧ (l.off / 8).toNat = k

/-- The class that the calling convention gives to an eightbyte. -/
def joinClass (ls : List Leaf) (k : ℕ) : ABIClass :=
  if hasLeaf ls .integer k then .integer
  else if hasLeaf ls .sse k then .sse
  else .none

/-- The class that comes out. -/
def mergedClass (ls : List Leaf) (k : ℕ) : ABIClass :=
  if hasLeaf ls .integer k ∨ hasLeaf ls .separator k then .integer
  else if hasLeaf ls .sse k then .sse
  else .none

/-! ### Merging -/

/-- What one leaf does to the classes. -/
def mergeLeaf (cs : List ABIClass) (l : Leaf) : List ABIClass :=
  if cs.length ≤ (l.off / 8).toNat then cs
  else
    match l.kind with
    | .integer | .separator => mergeAt cs (l.off / 8).toNat .integer
    | .sse => mergeAt cs (l.off / 8).toNat .sse
    | .x87 => cs

/-- The classes of aggregates that have no `long double` in them. -/
def InRegs (c : ABIClass) : Prop := c = .none ∨ c = .integer ∨ c = .sse

theorem InRegs.merge {a b : ABIClass} (ha : InRegs a) (hb : InRegs b) : InRegs (mergeClass a b) := by
  rcases ha with rfl | rfl | rfl <;> rcases hb with rfl | rfl | rfl <;> unfold InRegs <;> decide

theorem mergeClass_assoc {a b c : ABIClass} (ha : InRegs a) (hb : InRegs b) (hc : InRegs c) :
    mergeClass (mergeClass a b) c = mergeClass a (mergeClass b c) := by
  rcases ha with rfl | rfl | rfl <;> rcases hb with rfl | rfl | rfl <;>
    rcases hc with rfl | rfl | rfl <;> decide

theorem mergedClass_inRegs (ls : List Leaf) (k : ℕ) : InRegs (mergedClass ls k) := by
  unfold mergedClass
  split
  · exact Or.inr (Or.inl rfl)
  · split
    · exact Or.inr (Or.inr rfl)
    · exact Or.inl rfl

theorem hasLeaf_cons (l : Leaf) (ls : List Leaf) (kind : LeafKind) (k : ℕ) :
    hasLeaf (l :: ls) kind k =
      (decide (l.kind = kind ∧ (l.off / 8).toNat = k) || hasLeaf ls kind k) := rfl

theorem hasLeaf_nil (kind : LeafKind) (k : ℕ) : hasLeaf [] kind k = false := rfl

theorem mergedClass_single (l : Leaf) (k : ℕ) : mergedClass [l] k =
    if (l.off / 8).toNat = k then
      match l.kind with
      | .integer | .separator => .integer
      | .sse => .sse
      | .x87 => .none
    else .none := by
  simp only [mergedClass, hasLeaf_cons, hasLeaf_nil, Bool.or_false]
  by_cases hk : (l.off / 8).toNat = k
  · cases l.kind <;> simp [hk]
  · simp [hk]

theorem mergedClass_cons (l : Leaf) (ls : List Leaf) (k : ℕ) :
    mergedClass (l :: ls) k = mergeClass (mergedClass [l] k) (mergedClass ls k) := by
  obtain ⟨kind, off⟩ := l
  rw [mergedClass_single]
  simp only [mergedClass, hasLeaf_cons]
  by_cases hint : hasLeaf ls .integer k = true <;>
    by_cases hsep : hasLeaf ls .separator k = true <;>
    by_cases hsse : hasLeaf ls .sse k = true <;>
    by_cases hk : (off / 8).toNat = k <;>
    cases kind <;> simp [hint, hsep, hsse, hk, mergeClass]

theorem mergeClass_none {c : ABIClass} : mergeClass c .none = c := by
  cases c <;> rfl

theorem mergeClass_none_left {c : ABIClass} : mergeClass .none c = c := by
  cases c <;> rfl

theorem mergeLeaf_getElem? {cs : List ABIClass} (l : Leaf) (k : ℕ) :
    (mergeLeaf cs l)[k]? = cs[k]?.map (mergeClass · (mergedClass [l] k)) := by
  rw [mergedClass_single]
  have hsame : cs[k]? = cs[k]?.map (mergeClass · .none) := by
    cases cs[k]? <;> simp [mergeClass_none]
  unfold mergeLeaf
  by_cases hk : (l.off / 8).toNat = k
  · simp only [hk, if_true]
    split
    · have hout : cs[k]? = none := List.getElem?_eq_none ‹_›
      rw [hout]
      rfl
    · cases l.kind <;> simp only [mergeAt, List.getElem?_modify, if_true] <;>
        first | rfl | exact hsame
  · simp only [hk, if_false]
    rw [← hsame]
    split
    · rfl
    · cases l.kind <;> simp [mergeAt, hk]

theorem mergeLeaf_inRegs {cs : List ABIClass} (hcs : ∀ c ∈ cs, InRegs c) (l : Leaf) :
    ∀ c ∈ mergeLeaf cs l, InRegs c := by
  intro c hc
  obtain ⟨k, hk⟩ := List.mem_iff_getElem?.mp hc
  rw [mergeLeaf_getElem?] at hk
  obtain ⟨d, hd, rfl⟩ := Option.map_eq_some_iff.mp hk
  exact (hcs d (List.mem_of_getElem? hd)).merge (mergedClass_inRegs _ _)

theorem foldl_mergeLeaf_inRegs {ls : List Leaf} {cs : List ABIClass} (hcs : ∀ c ∈ cs, InRegs c) :
    ∀ c ∈ ls.foldl mergeLeaf cs, InRegs c := by
  induction ls generalizing cs with
  | nil => exact hcs
  | cons l ls ih => exact ih (mergeLeaf_inRegs hcs l)

/-- The merges of a list of leaves come to one merge for each eightbyte. -/
theorem foldl_mergeLeaf_getElem? {ls : List Leaf} {cs : List ABIClass} (hcs : ∀ c ∈ cs, InRegs c)
    (k : ℕ) : (ls.foldl mergeLeaf cs)[k]? = cs[k]?.map (mergeClass · (mergedClass ls k)) := by
  induction ls generalizing cs with
  | nil =>
    change cs[k]? = cs[k]?.map (mergeClass · .none)
    cases cs[k]? <;> simp [mergeClass_none]
  | cons l ls ih =>
    rw [List.foldl_cons, ih (mergeLeaf_inRegs hcs l), mergeLeaf_getElem?, Option.map_map]
    cases hk : cs[k]? with
    | none => rfl
    | some c =>
      have hc := hcs c (List.mem_of_getElem? hk)
      simp only [Option.map_some, Function.comp_apply]
      rw [mergeClass_assoc hc (mergedClass_inRegs _ _) (mergedClass_inRegs _ _),
        ← mergedClass_cons]

/-! ### The leaves of a complete type -/

section

variable {Γ : TypeEnv} {ty : CType} {off : ℤ}

theorem leaves_array {elem : CType} {count : ℤ} {q : TypeQual} :
    leaves Γ (.array elem count q) off = (List.range count.toNat).flatMap fun (i : ℕ) =>
      leaves Γ elem (off + i * typeSizeof Γ elem) := by
  rw [leaves]

/-- The leaves of a member. -/
def fieldLeaves (Γ : TypeEnv) (off : ℤ) (f : StructField) : List Leaf :=
  if f.bitWidth = 0 then [⟨.separator, off + f.offset⟩] else leaves Γ f.type (off + f.offset)

theorem leaves_agg {u : Bool} {id : ℕ} {q : TypeQual} :
    leaves Γ (.agg u id q) off = (Γ.agg id).fields.flatMap (fieldLeaves Γ off) := by
  rw [leaves, List.flatMap_subtype (g := fieldLeaves Γ off), List.unattach_attach]
  exact fun _ _ => rfl

theorem complete_of_integer (h : typeIsInteger ty = true) : Complete Γ ty := by
  cases ty with
  | scalar k q =>
    refine .scalar ?_
    rintro rfl
    cases h
  | enum id q => exact .enum
  | _ => cases h

theorem complete_of_field {fs : List StructField} {f : StructField}
    (hordinary : ∀ f ∈ fs, f.bitWidth < 0 → Complete Γ f.type)
    (hbits : ∀ f ∈ fs, 0 ≤ f.bitWidth →
      typeIsInteger f.type = true ∧ f.bitWidth ≤ 8 * typeSizeof Γ f.type) (hf : f ∈ fs) :
    Complete Γ f.type := by
  by_cases hneg : f.bitWidth < 0
  · exact hordinary f hf hneg
  · exact complete_of_integer (hbits f hf (not_lt.mp hneg)).1

/-- The types of the members of a complete type. -/
theorem complete_member_type {u : Bool} {id : ℕ} {q : TypeQual}
    (hc : Complete Γ (.agg u id q)) {g : StructField} (hg : g ∈ (Γ.agg id).fields) :
    Complete Γ g.type ∧ (0 ≤ g.bitWidth → typeIsInteger g.type = true) := by
  cases hc with
  | @struct _ _ d hd hordinary hbits hmember hsize =>
    have hok : ∀ f ∈ d.fields, FieldOk Γ f := fun f hf =>
      ⟨fun hneg => complete_wellSized (hordinary f hf hneg), hbits f hf⟩
    rw [hd] at hg
    obtain ⟨f, hf, heq⟩ := exists_shape (typeSealStruct_layout hok hsize).2.1 hg
    have htype : g.type = f.type := congrArg (fun s => s.2.1) heq
    have hwidth : g.bitWidth = f.bitWidth := congrArg (fun s => s.2.2) heq
    rw [htype, hwidth]
    exact ⟨complete_of_field hordinary hbits hf, fun hw => (hbits f hf hw).1⟩
  | @union _ _ d hd hordinary hbits hne hsize =>
    rw [hd] at hg
    obtain ⟨f, hf, rfl⟩ := List.mem_map.mp hg
    have htype : (if f.bitWidth ≥ 0 then { f with offset := 0, bitOffset := 0 }
        else { f with offset := 0 }).type = f.type := by
      split <;> rfl
    have hwidth : (if f.bitWidth ≥ 0 then { f with offset := 0, bitOffset := 0 }
        else { f with offset := 0 }).bitWidth = f.bitWidth := by
      split <;> rfl
    rw [htype, hwidth]
    exact ⟨complete_of_field hordinary hbits hf, fun hw => (hbits f hf hw).1⟩

/-- The parser gives a bit-field of width zero the offset zero, and sealing leaves it there. -/
def SeparatorsAtZero (Γ : TypeEnv) : Prop :=
  ∀ id, ∀ f ∈ (Γ.agg id).fields, f.bitWidth = 0 → f.offset = 0

theorem member_offset_nonneg {u : Bool} {id : ℕ} {q : TypeQual} (hsep : SeparatorsAtZero Γ)
    (hc : Complete Γ (.agg u id q)) {g : StructField} (hg : g ∈ (Γ.agg id).fields) :
    0 ≤ g.offset ∧ g.offset % typeAlignof Γ g.type = 0 := by
  by_cases hw : g.bitWidth = 0
  · rw [hsep id g hg hw]
    exact ⟨le_rfl, Int.zero_emod _⟩
  · have hseated := (complete_member hc hg).seated hw
    exact ⟨hseated.nonneg, Int.emod_eq_zero_of_dvd hseated.aligned⟩

/-- No leaf is before the object. -/
theorem le_leaves (hsep : SeparatorsAtZero Γ) (hc : Complete Γ ty) :
    ∀ l ∈ leaves Γ ty off, off ≤ l.off := by
  induction hd : ty.depth Γ.rank using Nat.strong_induction_on generalizing ty off with
  | _ d ih =>
    intro l hl
    cases ty with
    | array elem count q =>
      rw [leaves_array] at hl
      obtain ⟨i, -, hl⟩ := List.mem_flatMap.mp hl
      cases hc with
      | array helem hcount hfit =>
        have hsize := (complete_wellSized helem).size
        have hle := ih _ (by rw [← hd]; simp [CType.depth]) helem rfl l hl
        have hnonneg : 0 ≤ (i : ℤ) * typeSizeof Γ elem :=
          mul_nonneg (Int.natCast_nonneg i) hsize.le
        omega
    | agg u id q =>
      rw [leaves_agg] at hl
      obtain ⟨f, hf, hl⟩ := List.mem_flatMap.mp hl
      have hoff := (member_offset_nonneg hsep hc hf).1
      unfold fieldLeaves at hl
      split at hl
      · rw [List.mem_singleton.mp hl]
        dsimp only
        omega
      · have hle := ih _ (by rw [← hd]; exact Γ.contained id f hf) (complete_member_type hc hf).1
          rfl l hl
        omega
    | scalar k q =>
      rw [leaves.eq_def] at hl
      cases k <;> simp at hl <;> rw [hl]
    | pointer | enum | func =>
      rw [leaves.eq_def] at hl
      rw [List.mem_singleton.mp hl]
    | arrayUnsized =>
      rw [leaves.eq_def] at hl
      cases hl

/-! ### The walk over a type merges its leaves -/

theorem foldl_mergeLeaf_beyond {ls : List Leaf} {cs : List ABIClass}
    (h : ∀ l ∈ ls, cs.length ≤ (l.off / 8).toNat) : ls.foldl mergeLeaf cs = cs := by
  induction ls with
  | nil => rfl
  | cons l ls ih =>
    rw [List.foldl_cons, mergeLeaf, if_pos (h l List.mem_cons_self)]
    exact ih fun m hm => h m (List.mem_cons_of_mem l hm)

/-- Two folds that agree as long as the classes are those of registers. -/
theorem foldl_eq_merge {α : Type} {xs : List α} {step : List ABIClass → α → List ABIClass}
    {ls : α → List Leaf} {cs : List ABIClass}
    (hstep : ∀ x ∈ xs, ∀ cs, (∀ c ∈ cs, InRegs c) → step cs x = (ls x).foldl mergeLeaf cs)
    (hcs : ∀ c ∈ cs, InRegs c) : xs.foldl step cs = (xs.flatMap ls).foldl mergeLeaf cs := by
  rw [List.foldl_flatMap]
  induction xs generalizing cs with
  | nil => rfl
  | cons x xs ih =>
    rw [List.foldl_cons, List.foldl_cons, hstep x List.mem_cons_self cs hcs]
    exact ih (fun y hy => hstep y (List.mem_cons_of_mem x hy)) (foldl_mergeLeaf_inRegs hcs)

theorem classifyRange_integer (h : typeIsInteger ty = true) (cs : List ABIClass) (kind : LeafKind)
    (hkind : kind = .integer ∨ kind = .separator) :
    classifyRange Γ ty off cs = mergeLeaf cs ⟨kind, off⟩ := by
  unfold classifyRange mergeLeaf
  dsimp only
  split
  · rfl
  · cases ty with
    | scalar k q => rcases hkind with rfl | rfl <;> cases k <;> first | rfl | cases h
    | enum id q => rcases hkind with rfl | rfl <;> rfl
    | _ => cases h

theorem needsMemory_inRegs {cs : List ABIClass} (h : ∀ c ∈ cs, InRegs c) :
    needsMemory cs = false := by
  unfold needsMemory
  rw [List.any_eq_false]
  intro i _
  cases hi : cs[i]? with
  | none => simp
  | some c => rcases h c (List.mem_of_getElem? hi) with rfl | rfl | rfl <;> simp

theorem array_size {elem : CType} {n : ℤ} {q : TypeQual} (h : Complete Γ elem) (hn : 0 < n)
    (hfit : typeSizeof Γ elem * n < 2 ^ 31) :
    typeSizeof Γ (.array elem n q) = typeSizeof Γ elem * n := by
  have hpos := (complete_wellSized h).size
  have hle : n ≤ typeSizeof Γ elem * n := le_mul_of_one_le_left hn.le hpos
  have hle' : typeSizeof Γ elem ≤ typeSizeof Γ elem * n := le_mul_of_one_le_right hpos.le hn
  rw [typeSizeof, if_neg (by omega), toInt32_of_range (show -2 ^ 31 ≤ n by omega) (by omega),
    toInt32_of_range (by omega) (by omega)]

theorem classifyRange_eq (hsep : SeparatorsAtZero Γ) (hc : Complete Γ ty)
    (hsize : typeSizeof Γ ty ≤ 16) (hx : ∀ l ∈ leaves Γ ty off, l.kind ≠ .x87)
    {cs : List ABIClass} (hcs : ∀ c ∈ cs, InRegs c) :
    classifyRange Γ ty off cs = (leaves Γ ty off).foldl mergeLeaf cs := by
  induction hd : ty.depth Γ.rank using Nat.strong_induction_on generalizing ty off cs with
  | _ d ih =>
    by_cases heb : cs.length ≤ (off / 8).toNat
    · -- nothing of the object is in the eightbytes
      rw [foldl_mergeLeaf_beyond fun l hl => ?_]
      · unfold classifyRange
        dsimp only
        rw [if_pos heb]
      · have hle := le_leaves hsep hc l hl
        omega
    · cases ty with
      | array elem count q =>
        cases hc with
        | array helem hcount hfit =>
          have hpos := (complete_wellSized helem).size
          have hwhole := array_size helem hcount hfit (q := q)
          have hle : typeSizeof Γ elem ≤ typeSizeof Γ elem * count :=
            le_mul_of_one_le_right hpos.le hcount
          rw [leaves_array] at hx ⊢
          unfold classifyRange
          simp only [if_neg heb]
          refine foldl_eq_merge (fun i hi cs' hcs' => ?_) hcs
          refine ih _ (by rw [← hd]; simp [CType.depth]) helem (by omega) (fun l hl => ?_) hcs' rfl
          exact hx l (List.mem_flatMap.mpr ⟨i, hi, hl⟩)
      | agg u id q =>
        have hsz : (Γ.agg id).size ≤ 16 := by rwa [typeSizeof] at hsize
        have hsmall : ¬((Γ.agg id).size + 7) / 8 > maxEightbytes := by
          unfold maxEightbytes
          omega
        have haligned : ¬((Γ.agg id).fields.any fun f =>
            f.offset % typeAlignof Γ f.type != 0) = true := by
          simp only [List.any_eq_true, not_exists, not_and]
          intro f hf hne
          simp [(member_offset_nonneg hsep hc hf).2] at hne
        have hfold : (Γ.agg id).fields.attach.foldl
            (fun cs f => classifyRange Γ f.1.type (off + f.1.offset) cs) cs =
              (leaves Γ (.agg u id q) off).foldl mergeLeaf cs := by
          rw [leaves_agg] at hx ⊢
          rw [List.foldl_subtype (g := fun cs f => classifyRange Γ f.type (off + f.offset) cs)
            fun _ _ _ => rfl, List.unattach_attach]
          refine foldl_eq_merge (fun f hf cs' hcs' => ?_) hcs
          obtain ⟨hctype, hint⟩ := complete_member_type hc hf
          by_cases hw : f.bitWidth = 0
          · rw [fieldLeaves, if_pos hw]
            exact classifyRange_integer (hint hw.ge) cs' .separator (Or.inr rfl)
          · have hseated := (complete_member hc hf).seated hw
            have hin := hseated.inside
            have hlo := hseated.nonneg
            have hmem : ∀ l ∈ leaves Γ f.type (off + f.offset), l.kind ≠ .x87 := fun l hl =>
              hx l (List.mem_flatMap.mpr ⟨f, hf, by rwa [fieldLeaves, if_neg hw]⟩)
            rw [fieldLeaves, if_neg hw]
            exact ih _ (by rw [← hd]; exact Γ.contained id f hf) hctype (by omega) hmem hcs' rfl
        unfold classifyRange
        simp only [if_neg heb, if_neg hsmall, if_neg haligned]
        rw [hfold, needsMemory_inRegs (foldl_mergeLeaf_inRegs hcs), if_neg Bool.false_ne_true]
      | scalar k q =>
        have heb' : ¬cs.length ≤ (off / 8).toNat := heb
        unfold classifyRange
        rw [leaves.eq_def] at hx ⊢
        simp only [if_neg heb]
        cases k with
        | void => cases hc with | scalar hk => exact absurd rfl hk
        | ldouble => exact absurd rfl (hx _ List.mem_cons_self)
        | _ => simp [mergeLeaf, heb']
      | pointer | enum =>
        unfold classifyRange
        rw [leaves.eq_def]
        simp [heb, mergeLeaf]
      | func | arrayUnsized => cases hc

/-! ### Classification -/

/-- How many eightbytes an object has. -/
def eightbytes (Γ : TypeEnv) (ty : CType) : ℕ := ((typeSizeof Γ ty + 7) / 8).toNat

/-- A complete object of at most sixteen bytes has the merged classes of its leaves. -/
theorem abiClassify_small (hsep : SeparatorsAtZero Γ) (hc : Complete Γ ty)
    (hx : ∀ l ∈ leaves Γ ty 0, l.kind ≠ .x87) (hsize : typeSizeof Γ ty ≤ 16) :
    (abiClassify Γ ty).classes =
      (List.range (eightbytes Γ ty)).map (mergedClass (leaves Γ ty 0)) := by
  have hpos := (complete_wellSized hc).size
  have hsmall : ¬(typeSizeof Γ ty + 7) / 8 > maxEightbytes := by
    unfold maxEightbytes
    omega
  have hnone : ∀ c ∈ List.replicate (eightbytes Γ ty) ABIClass.none, InRegs c := fun c hc =>
    Or.inl (List.eq_of_mem_replicate hc)
  have hclasses : (abiClassify Γ ty).classes =
      (leaves Γ ty 0).foldl mergeLeaf (List.replicate (eightbytes Γ ty) .none) := by
    unfold abiClassify
    simp only [if_neg (not_le.mpr hpos), if_neg hsmall]
    exact classifyRange_eq hsep hc hsize hx hnone
  apply List.ext_getElem?
  intro k
  rw [hclasses, foldl_mergeLeaf_getElem? hnone, List.getElem?_replicate, List.getElem?_map]
  by_cases hk : k < eightbytes Γ ty
  · rw [if_pos hk, List.getElem?_range hk]
    simp only [Option.map_some, mergeClass_none_left]
  · rw [if_neg hk, List.getElem?_eq_none (by rw [List.length_range]; omega)]
    rfl

theorem abiClassify_large (hsize : 16 < typeSizeof Γ ty) :
    (abiClassify Γ ty).classes = [.memory] := by
  unfold abiClassify
  have hlarge : (typeSizeof Γ ty + 7) / 8 > maxEightbytes := by
    unfold maxEightbytes
    omega
  simp only [if_neg (show ¬typeSizeof Γ ty ≤ 0 by omega), if_pos hlarge]

theorem abiInMemory_iff (hsep : SeparatorsAtZero Γ) (hc : Complete Γ ty)
    (hx : ∀ l ∈ leaves Γ ty 0, l.kind ≠ .x87) :
    abiInMemory (abiClassify Γ ty) = true ↔ 16 < typeSizeof Γ ty := by
  unfold abiInMemory
  by_cases hsize : typeSizeof Γ ty ≤ 16
  · refine iff_of_false ?_ (not_lt.mpr hsize)
    rw [abiClassify_small hsep hc hx hsize, List.any_eq_true]
    rintro ⟨c, hmem, heq⟩
    obtain ⟨k, -, rfl⟩ := List.mem_map.mp hmem
    rcases mergedClass_inRegs (leaves Γ ty 0) k with h | h | h <;> rw [h] at heq <;> cases heq
  · refine iff_of_true ?_ (not_le.mp hsize)
    rw [abiClassify_large (not_le.mp hsize)]
    rfl

/-- Each eightbyte of a small object has the join of its leaves, and a large one is passed in
memory. -/
def LeavesJoined (Γ : TypeEnv) (ty : CType) : Prop :=
  (typeSizeof Γ ty ≤ 16 → (abiClassify Γ ty).classes =
    (List.range (eightbytes Γ ty)).map (joinClass (leaves Γ ty 0))) ∧
  (16 < typeSizeof Γ ty → (abiClassify Γ ty).classes = [.memory])

/-- Every bit-field of width zero is next to an integer, in its eightbyte. -/
def SeparatorsCovered (Γ : TypeEnv) (ty : CType) : Prop :=
  typeSizeof Γ ty ≤ 16 → ∀ k < eightbytes Γ ty,
    hasLeaf (leaves Γ ty 0) .separator k = true → hasLeaf (leaves Γ ty 0) .integer k = true

theorem mergedClass_eq_join_iff {ls : List Leaf} {k : ℕ} : mergedClass ls k = joinClass ls k ↔
    (hasLeaf ls .separator k = true → hasLeaf ls .integer k = true) := by
  unfold mergedClass joinClass
  cases hasLeaf ls .integer k <;> cases hasLeaf ls .separator k <;> cases hasLeaf ls .sse k <;>
    simp

theorem leavesJoined_iff (hsep : SeparatorsAtZero Γ) (hc : Complete Γ ty)
    (hx : ∀ l ∈ leaves Γ ty 0, l.kind ≠ .x87) : LeavesJoined Γ ty ↔ SeparatorsCovered Γ ty := by
  unfold LeavesJoined SeparatorsCovered
  rw [and_iff_left abiClassify_large]
  apply forall_congr'
  intro hsize
  rw [abiClassify_small hsep hc hx hsize, List.map_inj_left]
  simp only [List.mem_range, mergedClass_eq_join_iff]

theorem joinClass_congr {ls ls' : List Leaf} {k : ℕ}
    (h : ∀ kind, kind ≠ .separator → hasLeaf ls kind k = hasLeaf ls' kind k) :
    joinClass ls k = joinClass ls' k := by
  unfold joinClass
  rw [h .integer (by decide), h .sse (by decide)]

/-- The eightbytes of an object are the join of its leaves if and only if every bit-field of
width zero is covered. The classes then depend on nothing else: not on the order of the members
of an eightbyte, not on their grouping. -/
theorem eightbytes_join_iff (hsep : SeparatorsAtZero Γ) (hc : Complete Γ ty)
    (hx : ∀ l ∈ leaves Γ ty 0, l.kind ≠ .x87) :
    (LeavesJoined Γ ty ↔ SeparatorsCovered Γ ty) ∧
      (abiInMemory (abiClassify Γ ty) = true ↔ 16 < typeSizeof Γ ty) ∧
      ∀ (Γ' : TypeEnv) (ty' : CType), SeparatorsAtZero Γ' → Complete Γ' ty' →
        (∀ l ∈ leaves Γ' ty' 0, l.kind ≠ .x87) →
        SeparatorsCovered Γ ty → SeparatorsCovered Γ' ty' →
        typeSizeof Γ ty = typeSizeof Γ' ty' →
        (∀ kind, kind ≠ .separator → ∀ k,
          hasLeaf (leaves Γ ty 0) kind k = hasLeaf (leaves Γ' ty' 0) kind k) →
        abiClassify Γ ty = abiClassify Γ' ty' := by
  refine ⟨leavesJoined_iff hsep hc hx, abiInMemory_iff hsep hc hx, ?_⟩
  intro Γ' ty' hsep' hc' hx' hcov hcov' hsizes hleaves
  have hclasses : (abiClassify Γ ty).classes = (abiClassify Γ' ty').classes := by
    by_cases hsize : typeSizeof Γ ty ≤ 16
    · have hjoin := ((leavesJoined_iff hsep hc hx).mpr hcov).1 hsize
      have hjoin' := ((leavesJoined_iff hsep' hc' hx').mpr hcov').1 (hsizes ▸ hsize)
      have hcount : eightbytes Γ ty = eightbytes Γ' ty' := by rw [eightbytes, hsizes, eightbytes]
      rw [hjoin, hjoin', hcount]
      exact List.map_congr_left fun k _ => joinClass_congr fun kind hkind => hleaves kind hkind k
    · rw [abiClassify_large (not_le.mp hsize), abiClassify_large (hsizes ▸ not_le.mp hsize)]
  cases h : abiClassify Γ ty
  cases h' : abiClassify Γ' ty'
  rw [h, h'] at hclasses
  exact congrArg ABIClassification.mk hclasses

end

/-! ### Read from a text -/

def TypeBody.members : TypeBody → List FieldNode
  | .agg _ a => a.fields
  | _ => []

/-- A table has its bit-fields of width zero where their environment has them. -/
theorem separatorsAtZero_env {t : TypeTable} {Γ : TypeEnv} (henv : t.env = .ok Γ)
    (hzero : ∀ n ∈ t.nodes, ∀ f ∈ n.body.members, f.bitWidth = 0 → f.offset = 0) :
    SeparatorsAtZero Γ := by
  obtain ⟨aggs, haggs, h⟩ := except_bind_ok henv
  have hagg : ∀ id, Γ.agg id = aggs.getD id {} := by
    intro id
    dsimp only at h
    split at h
    · cases h
      rfl
    · cases h
  intro id f hf hw
  rw [hagg, List.getD_eq_getElem?_getD] at hf
  cases hd : aggs[id]? with
  | none =>
    rw [hd] at hf
    cases hf
  | some d =>
    rw [hd, Option.getD_some] at hf
    obtain ⟨n, hn, hread⟩ := forall₂_getElem? (mapM_ok_forall₂ haggs).flip hd
    unfold TypeTable.readAgg at hread
    split at hread
    · rename_i u a hbody
      obtain ⟨fs, hfs, hread⟩ := except_bind_ok hread
      cases hread
      obtain ⟨i, hi⟩ := List.mem_iff_getElem?.mp hf
      obtain ⟨m, hm, hfield⟩ := forall₂_getElem? (mapM_ok_forall₂ hfs).flip hi
      obtain ⟨ty, -, hfield⟩ := except_bind_ok hfield
      cases hfield
      refine hzero n (List.mem_of_getElem? hn) m ?_ hw
      rw [hbody]
      exact List.mem_of_getElem? hm
    · cases hread
      cases hf

def separatorText : String := "struct S { float f; int : 0; float g; } v;"

theorem separatorText_read :
    (typesOfText separatorText).env.isOk = true ∧
      (∀ n ∈ (typesOfText separatorText).nodes, ∀ f ∈ n.body.members,
        f.bitWidth = 0 → f.offset = 0) ∧
      (envOfText separatorText).agg 16 = typeSealStruct (envOfText separatorText)
        { tag := some "S", fields := [{ name := some "f", type := typeFloat },
            { name := none, type := typeInt, bitWidth := 0 },
            { name := some "g", type := typeFloat }] } ∧
      ((envOfText separatorText).agg 16).fields =
        [{ name := some "f", type := typeFloat }, { name := none, type := typeInt, bitWidth := 0 },
          { name := some "g", type := typeFloat, offset := 4 }] ∧
      ((envOfText separatorText).agg 16).size = 8 := by decide +kernel

theorem separatorText_complete : Complete (envOfText separatorText) (.agg false 16 .none) := by
  obtain ⟨-, -, hseal, -, -⟩ := separatorText_read
  have hfloat : Complete (envOfText separatorText) typeFloat := .scalar (by decide)
  refine .struct hseal ?_ ?_ (by decide) (by decide +kernel)
  · simpa using hfloat
  · simp [typeInt, typeFloat, typeIsInteger, typeSizeof]
    decide

theorem separatorText_leaves :
    leaves (envOfText separatorText) (.agg false 16 .none) 0 =
      [⟨.sse, 0⟩, ⟨.separator, 0⟩, ⟨.sse, 4⟩] := by
  obtain ⟨-, -, -, hfields, -⟩ := separatorText_read
  rw [leaves_agg, hfields]
  simp [fieldLeaves, typeFloat, leaves]

/-- Two floats with a separator between them go to an integer register. -/
theorem separated_floats_misclassified :
    ¬∀ (Γ : TypeEnv) (ty : CType), SeparatorsAtZero Γ → Complete Γ ty →
      (∀ l ∈ leaves Γ ty 0, l.kind ≠ .x87) → LeavesJoined Γ ty := by
  intro hall
  obtain ⟨henv, hzero, -, -, hsize⟩ := separatorText_read
  have hsep := separatorsAtZero_env (envOfText_eq henv) hzero
  have hx : ∀ l ∈ leaves (envOfText separatorText) (.agg false 16 .none) 0, l.kind ≠ .x87 := by
    rw [separatorText_leaves]
    decide
  have htotal : typeSizeof (envOfText separatorText) (.agg false 16 .none) = 8 := by
    rw [typeSizeof, hsize]
  have hjoined := hall _ _ hsep separatorText_complete hx
  have hcovered := (leavesJoined_iff hsep separatorText_complete hx).mp hjoined
  have hfirst := hcovered (by rw [htotal]; decide) 0 (by rw [eightbytes, htotal]; decide)
  rw [separatorText_leaves] at hfirst
  exact absurd (hfirst (by decide)) (by decide)

def coveredText : String := "struct S { int n; int : 0; float g; double d; } v;"

theorem coveredText_read :
    (typesOfText coveredText).env.isOk = true ∧
      (∀ n ∈ (typesOfText coveredText).nodes, ∀ f ∈ n.body.members,
        f.bitWidth = 0 → f.offset = 0) ∧
      (envOfText coveredText).agg 16 = typeSealStruct (envOfText coveredText)
        { tag := some "S", fields := [{ name := some "n", type := typeInt },
            { name := none, type := typeInt, bitWidth := 0 },
            { name := some "g", type := typeFloat }, { name := some "d", type := typeDouble }] } ∧
      ((envOfText coveredText).agg 16).fields =
        [{ name := some "n", type := typeInt }, { name := none, type := typeInt, bitWidth := 0 },
          { name := some "g", type := typeFloat, offset := 4 },
          { name := some "d", type := typeDouble, offset := 8 }] ∧
      ((envOfText coveredText).agg 16).size = 16 := by decide +kernel

theorem coveredText_complete : Complete (envOfText coveredText) (.agg false 16 .none) := by
  obtain ⟨-, -, hseal, -, -⟩ := coveredText_read
  refine .struct hseal ?_ ?_ (by decide) (by decide +kernel)
  · simpa using ⟨.scalar (by decide), .scalar (by decide), .scalar (by decide)⟩
  · simp [typeInt, typeFloat, typeDouble, typeIsInteger, typeSizeof]
    decide

theorem coveredText_leaves :
    leaves (envOfText coveredText) (.agg false 16 .none) 0 =
      [⟨.integer, 0⟩, ⟨.separator, 0⟩, ⟨.sse, 4⟩, ⟨.sse, 8⟩] := by
  obtain ⟨-, -, -, hfields, -⟩ := coveredText_read
  rw [leaves_agg, hfields]
  simp [fieldLeaves, typeFloat, typeInt, typeDouble, leaves]

/-- Next to an integer, the separator changes nothing. -/
theorem eightbytes_join_covered :
    (abiClassify (envOfText coveredText) (.agg false 16 .none)).classes = [.integer, .sse] := by
  obtain ⟨henv, hzero, -, -, hsize⟩ := coveredText_read
  have htotal : typeSizeof (envOfText coveredText) (.agg false 16 .none) = 16 := by
    rw [typeSizeof, hsize]
  have hx : ∀ l ∈ leaves (envOfText coveredText) (.agg false 16 .none) 0, l.kind ≠ .x87 := by
    rw [coveredText_leaves]
    decide
  have hcovered : SeparatorsCovered (envOfText coveredText) (.agg false 16 .none) := by
    intro _
    rw [eightbytes, htotal, coveredText_leaves]
    decide
  have hjoined := ((eightbytes_join_iff (separatorsAtZero_env (envOfText_eq henv) hzero)
    coveredText_complete hx).1.mpr hcovered).1 htotal.le
  rw [hjoined, eightbytes, htotal, coveredText_leaves]
  decide

end TinyC
