import TinyC.Interning

/-!
# Qualified versions of structs and unions

A qualified version is a copy of the node, made when the qualifier is read. Completing a struct or
union changes one node only, so the versions agree as long as the others are made afterwards.
-/

namespace TinyC

namespace TypeTable

/-- All versions of a struct or union have the same members at the same offsets, the same size and
the same alignment. -/
def VersionsAgree (t : TypeTable) : Prop :=
  ∀ (r s : TypeRef), t.origin r = t.origin s → ∀ a ∈ t.nodes[r]?, ∀ b ∈ t.nodes[s]?,
    a.body.isAgg → b.body = a.body

/-- A node that is completed has no other version yet. -/
def CompleteStep (t : TypeTable) : TypeCall → Prop
  | .complete r _ _ _ => ∀ s < t.nodes.length, t.origin s = t.origin r → s = r
  | _ => True

instance : ∀ t c, Decidable (CompleteStep t c)
  | t, .complete r _ _ _ =>
      inferInstanceAs (Decidable (∀ s < t.nodes.length, t.origin s = t.origin r → s = r))
  | _, .pointer _ _ | _, .array _ _ | _, .arrayUnsized _ | _, .func _ _ _ | _, .agg _ _
  | _, .enum _ | _, .qualify _ _ | _, .fill _ _ | _, .enumerate _ _ => isTrue trivial

/-- What a table holds as long as nodes are completed before they are copied. -/
structure Tracked (t : TypeTable) : Prop where
  agree : t.VersionsAgree
  origin : ∀ {r : TypeRef}, r < t.nodes.length → t.origin r < t.nodes.length
  fresh : ∀ {r : TypeRef}, t.nodes.length ≤ r → t.origin r = r

section

variable {t : TypeTable}

theorem Tracked.noted (h : t.Tracked) (cs : List TypeCall) : Tracked { t with calls := cs } :=
  ⟨h.agree, h.origin, h.fresh⟩

/-- A new node that is like its versions, the origin being there or itself. -/
theorem Tracked.alloc (h : t.Tracked) {n : TypeNode} {o : TypeRef}
    (ho : o < t.nodes.length ∨ o = t.nodes.length)
    (hlike : ∀ {r : TypeRef} {a : TypeNode}, t.nodes[r]? = some a → t.origin r = o →
      (a.body.isAgg ∨ n.body.isAgg) → n.body = a.body) :
    Tracked { (t.alloc n).2 with origin := Function.update t.origin t.nodes.length o } := by
  have hold : ∀ {r : TypeRef} {a : TypeNode}, t.nodes[r]? = some a →
      Function.update t.origin t.nodes.length o r = t.origin r := fun hr =>
    Function.update_of_ne (lt_of_getElem? hr).ne _ _
  have hself : Function.update t.origin t.nodes.length o t.nodes.length = o :=
    Function.update_self _ _ _
  constructor
  case agree =>
    intro r s horigin a ha b hb hagg
    dsimp only at horigin
    rcases getElem?_concat ha with ha' | ⟨rfl, hna⟩
    · rcases getElem?_concat hb with hb' | ⟨rfl, hnb⟩
      · rw [hold ha', hold hb'] at horigin
        exact h.agree r s horigin a ha' b hb' hagg
      · rw [hold ha', hself] at horigin
        rw [hnb]
        exact hlike ha' horigin (.inl hagg)
    · rcases getElem?_concat hb with hb' | ⟨rfl, hnb⟩
      · rw [hold hb', hself] at horigin
        rw [hna] at hagg ⊢
        exact (hlike hb' horigin.symm (.inr hagg)).symm
      · rw [hna, hnb]
  case origin =>
    intro r hr
    refine lt_concat.mpr ?_
    rcases lt_concat.mp hr with hr | rfl
    · exact .inl (lt_of_eq_of_lt (Function.update_of_ne hr.ne _ _) (h.origin hr))
    · rcases ho with ho | ho
      · exact .inl (hself.trans_lt ho)
      · exact .inr (hself.trans ho)
  case fresh =>
    intro r hr
    have hlt : t.nodes.length < r := lt_of_not_ge fun hle => hr.not_gt
      (lt_concat.mpr (lt_or_eq_of_le hle))
    exact (Function.update_of_ne hlt.ne' _ _).trans (h.fresh hlt.le)

/-- A node that is its own origin. -/
theorem Tracked.newNode (h : t.Tracked) (n : TypeNode) : (t.alloc n).2.Tracked := by
  have horigin : Function.update t.origin t.nodes.length t.nodes.length = t.origin := by
    rw [Function.update_eq_iff]
    exact ⟨(h.fresh le_rfl).symm, fun _ _ => rfl⟩
  have halloc := h.alloc (n := n) (.inr rfl) fun ha hr _ =>
    absurd hr (h.origin (lt_of_getElem? ha)).ne
  rwa [horigin] at halloc

theorem Tracked.intern (h : t.Tracked) (n : TypeNode) (same : TypeNode → Bool) :
    (t.intern n same).2.Tracked := by
  unfold TypeTable.intern
  split
  · exact h
  · have hnew := h.newNode n
    exact ⟨hnew.agree, hnew.origin, hnew.fresh⟩

theorem Tracked.qualify (h : t.Tracked) (base : TypeRef) (added : TypeQual) :
    (t.typeQualify base added).2.Tracked := by
  unfold TypeTable.typeQualify
  cases hbase : t.nodes[base]? with
  | none => exact h
  | some n =>
    dsimp only
    split
    · exact h
    · refine h.alloc (n := { n with qual := n.qual.merge added })
        (.inl (h.origin (lt_of_getElem? hbase))) fun {r a} ha hr hagg => ?_
      rcases hagg with hagg | hagg
      · exact h.agree r base hr a ha n hbase hagg
      · exact (h.agree base r hr.symm n hbase a ha hagg).symm

theorem getElem?_setBody {r s : TypeRef} {f : TypeBody → TypeBody} {a : TypeNode}
    (h : (t.setBody r f).nodes[s]? = some a) :
    ∃ b, t.nodes[s]? = some b ∧ a.body = if r = s then f b.body else b.body := by
  rw [TypeTable.setBody, List.getElem?_modify, Option.map_eq_map, Option.map_eq_some_iff] at h
  obtain ⟨b, hb, rfl⟩ := h
  refine ⟨b, hb, ?_⟩
  split
  · rfl
  · rfl

/-- A change of bodies, if structs and unions keep theirs or the node has no other version. -/
theorem Tracked.setBody (h : t.Tracked) {r : TypeRef} {f : TypeBody → TypeBody}
    (hagg : ∀ b, (f b).isAgg = b.isAgg)
    (hf : (∀ b, b.isAgg → f b = b) ∨ ∀ s < t.nodes.length, t.origin s = t.origin r → s = r) :
    (t.setBody r f).Tracked := by
  have hlen : (t.setBody r f).nodes.length = t.nodes.length := List.length_modify _ _ _
  constructor
  case agree =>
    intro x y horigin a ha b hb ha'
    obtain ⟨c, hc, hac⟩ := getElem?_setBody ha
    obtain ⟨d, hd, hbd⟩ := getElem?_setBody hb
    have hcagg : c.body.isAgg := by
      rw [hac] at ha'
      split at ha'
      · rwa [hagg] at ha'
      · exact ha'
    have hdc : d.body = c.body := h.agree x y horigin c hc d hd hcagg
    rcases hf with hf | hf
    · rw [hac, hbd, hdc]
      split <;> split <;> simp only [hf _ hcagg]
    · rw [hac, hbd, hdc]
      by_cases hrx : r = x
      · have hyr : y = r := hf y (lt_of_getElem? hd) (by rw [hrx]; exact horigin.symm)
        rw [if_pos hrx, if_pos hyr.symm]
      · have hry : r ≠ y := by
          rintro rfl
          exact hrx (hf x (lt_of_getElem? hc) horigin).symm
        rw [if_neg hrx, if_neg hry]
  case origin =>
    intro s hs
    rw [hlen] at hs ⊢
    exact h.origin hs
  case fresh =>
    intro s hs
    rw [hlen] at hs
    exact h.fresh hs

theorem tracked_init (addr : TypeRef → BitVec 64) : (typeTableInit addr).Tracked where
  agree r s horigin a ha b hb hagg := by
    cases horigin
    cases ha.symm.trans hb
    rfl
  origin h := h
  fresh _ := rfl

/-- What one step preserves. -/
theorem Tracked.call (h : t.Tracked) {c : TypeCall} (hc : t.CompleteStep c) :
    (t.call c).2.Tracked := by
  have hperform : (t.perform c).2.Tracked := by
    cases c with
    | pointer pointee qual => exact h.intern _ _
    | array elem count => exact h.intern _ _
    | arrayUnsized elem => exact h.intern _ _
    | func ret params variadic => exact h.intern _ _
    | qualify base added => exact h.qualify _ _
    | agg isUnion tag => exact h.newNode _
    | enum tag => exact h.newNode _
    | fill r base =>
      have hkind : ∀ b : TypeBody, (b.fill base).isAgg = b.isAgg := by
        intro b
        unfold TypeBody.fill
        split <;> rfl
      refine h.setBody hkind (.inl fun b hb => ?_)
      cases b <;> first | rfl | cases hb
    | complete r fields size align =>
      exact h.setBody (fun b => by cases b <;> rfl) (.inr hc)
    | enumerate r consts =>
      refine h.setBody (fun b => by cases b <;> rfl) (.inl fun b hb => ?_)
      cases b <;> first | rfl | cases hb
  exact hperform.noted _

end

end TypeTable

open TypeTable

/-- In a run that completes each struct and union before it is copied, its versions agree at every
moment. -/
theorem versions_agree {addr : TypeRef → BitVec 64} {t : TypeTable} (h : Reached addr t)
    (hsteps : MeetsAll CompleteStep (typeTableInit addr) t.calls) :
    t.VersionsAgree ∧
      ∀ cs, cs <+: t.calls → ((typeTableInit addr).run cs).VersionsAgree := by
  have hrun : ∀ cs, cs <+: t.calls → ((typeTableInit addr).run cs).Tracked := by
    rintro cs ⟨ds, hds⟩
    exact (hds ▸ hsteps).split.1.preserves (I := Tracked) (fun t c ht hc => ht.call hc)
      (tracked_init addr)
  refine ⟨?_, fun cs hcs => (hrun cs hcs).agree⟩
  rw [h.eq_run]
  exact (hrun t.calls List.prefix_rfl).agree

/-- A struct that is qualified after its definition. -/
theorem versions_agree_list :
    let text := "struct S { struct S *next; int x; }; const struct S v; volatile struct S w;"
    (typesOfText text).VersionsAgree :=
  (versions_agree (reached_typesOfText _) (by decide +kernel)).1

/-- The type that `next` points to stays incomplete. -/
theorem const_version_incomplete :
    ∃ t, Reached arenaAddr t ∧ t = typesOfText "struct S { const struct S *next; int x; } v;" ∧
      ¬ t.VersionsAgree := by
  refine ⟨_, reached_typesOfText _, rfl, fun h => ?_⟩
  set t := typesOfText "struct S { const struct S *next; int x; } v;" with ht
  have horigin : t.origin 17 = t.origin 16 := by decide +kernel
  have hcopy : t.nodes[17]? = some ⟨.agg false { tag := some "S" }, { isConst := true }⟩ := by
    decide +kernel
  have hsize : ∃ b, t.nodes[16]? = some b ∧ b.body ≠ .agg false { tag := some "S" } :=
    ⟨_, List.getElem?_eq_getElem (by decide +kernel), by decide +kernel⟩
  obtain ⟨b, hb, hne⟩ := hsize
  exact hne (h 17 16 horigin _ hcopy b hb rfl)

end TinyC
