import TinyC.IrGenExpr
import TinyC.Sema
import TinyC.Readback
import TinyC.StructLayout

/-!
# The two searches for a member

Sema looks a member up in the nodes of the type table, irgen in the types that are read from
them, and adds offsets on the way. Both go through the anonymous members in the same order.
-/

namespace TinyC

/-! ### The search of irgen -/

section

variable (Γ : TypeEnv) (name : String)

/-- The search in what is left of a list of members. -/
def searchFields : List StructField → Option (List StructField × ℤ)
  | [] => none
  | f :: fs =>
      if f.name = some name then some (f :: fs, f.offset)
      else if f.name = none ∧ isAggregateType (some f.type) then
        match findFieldWithOffset Γ f.type name with
        | some r => some (r.1, f.offset + r.2)
        | none => searchFields fs
      else searchFields fs

/-- What the search does at the first member of a list. -/
def memberHere : List StructField → Option (List StructField × ℤ)
  | [] => none
  | f :: fs =>
      if f.name = some name then some (f :: fs, f.offset)
      else if f.name = none ∧ isAggregateType (some f.type) then
        (findFieldWithOffset Γ f.type name).map fun r => (r.1, f.offset + r.2)
      else none

theorem findSome?_tails (fs : List StructField) :
    fs.tails.findSome? (memberHere Γ name) = searchFields Γ name fs := by
  induction fs with
  | nil => rfl
  | cons f fs ih =>
    rw [List.tails_cons, List.findSome?_cons, ih, memberHere, searchFields]
    by_cases hname : f.name = some name
    · rw [if_pos hname, if_pos hname]
    · rw [if_neg hname, if_neg hname]
      by_cases hanon : f.name = none ∧ isAggregateType (some f.type)
      · rw [if_pos hanon, if_pos hanon]
        cases findFieldWithOffset Γ f.type name <;> rfl
      · rw [if_neg hanon, if_neg hanon]

theorem findFieldWithOffset_agg (u : Bool) (id : ℕ) (q : TypeQual) :
    findFieldWithOffset Γ (.agg u id q) name = searchFields Γ name (Γ.agg id).fields := by
  rw [findFieldWithOffset, List.findSome?_subtype (g := memberHere Γ name), List.unattach_attach,
    findSome?_tails]
  intro suffix _
  cases suffix <;> rfl

end

/-! ### The search of sema -/

section

variable (t : TypeTable) (name : String)

/-- The search in what is left of a list of members, along `n` nested types. -/
def lookupFields (n : ℕ) : List FieldNode → Except Stuck (Option FieldNode)
  | [] => return none
  | f :: fs => do
      if f.name = some name then return some f
      else if f.name.isNone then
        match ← t.lookupMemberAlong name n f.type with
        | some g => return some g
        | none => lookupFields n fs
      else lookupFields n fs

theorem lookupMemberAlong_agg {n : ℕ} {r : TypeRef} {u : Bool} {a : AggNode} {q : TypeQual}
    (h : t.node? (some r) = some ⟨.agg u a, q⟩) :
    t.lookupMemberAlong name (n + 1) (some r) = lookupFields t name n a.fields := by
  rw [TypeTable.lookupMemberAlong]
  simp only [h]
  generalize a.fields = fs
  induction fs with
  | nil => rfl
  | cons f fs ih =>
    have hfound : ∀ (g : FieldNode) (fs : List FieldNode), fs.foldlM (fun found f =>
        match found with
        | some f => (return some f : Except Stuck (Option FieldNode))
        | none =>
            if f.name = some name then return some f
            else if f.name.isNone then t.lookupMemberAlong name n f.type
            else return none) (some g) = .ok (some g) := by
      intro g fs
      induction fs with
      | nil => rfl
      | cons f fs ih => exact ih
    rw [List.foldlM_cons, lookupFields]
    by_cases hname : f.name = some name
    · simp only [if_pos hname]
      exact hfound f fs
    · simp only [if_neg hname]
      by_cases hanon : f.name.isNone = true
      · simp only [if_pos hanon]
        cases t.lookupMemberAlong name n f.type with
        | error e => rfl
        | ok found =>
          cases found with
          | none => exact ih
          | some g => exact hfound g fs
      · simp only [if_neg hanon]
        exact ih

end

/-! ### Paths of members -/

/-- The members at the positions of a path, from the outermost one inwards. -/
def TypeTable.membersAlong (t : TypeTable) : Option TypeRef → List ℕ → Option (List FieldNode)
  | _, [] => some []
  | r, i :: path =>
      match t.node? r with
      | some ⟨.agg _ a, _⟩ => do
          let f ← a.fields[i]?
          return f :: (← membersAlong t f.type path)
      | _ => none

def TypeEnv.membersAlong (Γ : TypeEnv) : CType → List ℕ → Option (List StructField)
  | _, [] => some []
  | .agg _ id _, i :: path => do
      let f ← (Γ.agg id).fields[i]?
      return f :: (← membersAlong Γ f.type path)
  | _, _ :: _ => none

/-- The nodes that a search from `r` can enter. -/
inductive Entered (t : TypeTable) (r : TypeRef) : TypeRef → Prop where
  | start : Entered t r r
  | member {id id' : TypeRef} {u : Bool} {a : AggNode} {q : TypeQual} {f : FieldNode} :
      Entered t r id → t.node? (some id) = some ⟨.agg u a, q⟩ → f ∈ a.fields →
      f.type = some id' → Entered t r id'

/-- The structs and unions a search from `r` can enter are in the environment. -/
def TypeTable.ReadsAs (t : TypeTable) (r : TypeRef) (Γ : TypeEnv) : Prop :=
  ∀ id, Entered t r id → ∀ u a q, t.node? (some id) = some ⟨.agg u a, q⟩ →
    t.readAgg ⟨.agg u a, q⟩ = .ok (Γ.agg id)

/-- Both searches fail, or the same positions lead to what they find. The members on the way have
no names, and their offsets add up. -/
def SameMember (t : TypeTable) (Γ : TypeEnv) (name : String) (r : TypeRef) (ty : CType)
    (x : Except Stuck (Option FieldNode)) (y : Option (List StructField × ℤ)) : Prop :=
  (x = .ok none ∧ y = none) ∨
    ∃ path ns n fs f rest, t.membersAlong (some r) path = some (ns ++ [n]) ∧
      Γ.membersAlong ty path = some (fs ++ [f]) ∧ (∀ m ∈ fs, m.name = none) ∧
      f.name = some name ∧ x = .ok (some n) ∧
      y = some (f :: rest, ((fs ++ [f]).map (·.offset)).sum)

section

variable {t : TypeTable} {Γ : TypeEnv} {name : String} {r : TypeRef}

theorem TypeTable.ReadsAs.member {id' : TypeRef} {u : Bool} {a : AggNode} {q : TypeQual}
    {f : FieldNode} (h : t.ReadsAs r Γ) (hr : t.node? (some r) = some ⟨.agg u a, q⟩)
    (hf : f ∈ a.fields) (hid : f.type = some id') : t.ReadsAs id' Γ := by
  intro id hin u' a' q' hnode
  apply h id _ u' a' q' hnode
  clear hnode
  induction hin with
  | start => exact .member .start hr hf hid
  | member _ hnode hf hid ih => exact .member ih hnode hf hid

/-- A struct or union is read as such, everything else as something else. -/
theorem readType_cases {id : TypeRef} {ty : CType} (h : t.readType (some id) = .ok ty) :
    (∃ u a q, t.node? (some id) = some ⟨.agg u a, q⟩ ∧ ty = .agg u id q) ∨
      (∃ node, t.node? (some id) = some node ∧ node.body.isAgg = false) ∧
        isAggregateType (some ty) = false := by
  rw [TypeTable.readType, TypeTable.readAlong] at h
  cases hnode : t.node? (some id) with
  | none =>
    rw [hnode] at h
    cases h
  | some node =>
    obtain ⟨body, q⟩ := node
    simp only [hnode] at h
    cases body with
    | agg u a =>
      left
      cases h
      exact ⟨u, a, q, rfl, rfl⟩
    | scalar k | enum e =>
      cases h
      exact Or.inr ⟨⟨_, rfl, rfl⟩, rfl⟩
    | pointer p | array p n | arrayUnsized p =>
      obtain ⟨p', -, h⟩ := except_bind_ok h
      cases h
      exact Or.inr ⟨⟨_, rfl, rfl⟩, rfl⟩
    | func ret ps v =>
      obtain ⟨ret', -, h⟩ := except_bind_ok h
      obtain ⟨ps', -, h⟩ := except_bind_ok h
      cases h
      exact Or.inr ⟨⟨_, rfl, rfl⟩, rfl⟩

theorem readField_spec {n : FieldNode} {f : StructField} (h : t.readField n = .ok f) :
    f.name = n.name ∧ t.readType n.type = .ok f.type := by
  obtain ⟨ty, hty, h⟩ := except_bind_ok h
  cases h
  exact ⟨rfl, hty⟩

theorem readAgg_fields {u : Bool} {a : AggNode} {q : TypeQual} {d : AggDef}
    (h : t.readAgg ⟨.agg u a, q⟩ = .ok d) :
    List.Forall₂ (fun n f => t.readField n = .ok f) a.fields d.fields := by
  obtain ⟨fs, hfs, h⟩ := except_bind_ok h
  cases h
  exact mapM_ok_forall₂ hfs

theorem findFieldWithOffset_other {ty : CType} (h : isAggregateType (some ty) = false) :
    findFieldWithOffset Γ ty name = none := by
  rw [findFieldWithOffset.eq_def]
  cases ty <;> first | rfl | cases h

/-- The environment of a whole table serves every search. -/
theorem readsAs_env (h : t.env = .ok Γ) (r : TypeRef) : t.ReadsAs r Γ := by
  intro id _ u a q hnode
  obtain ⟨aggs, haggs, h⟩ := except_bind_ok h
  obtain ⟨d, hd, hread⟩ := forall₂_getElem? (mapM_ok_forall₂ haggs) hnode
  dsimp only at h
  split at h
  · cases h
    rw [hread]
    change Except.ok d = .ok (aggs.getD id {})
    rw [List.getD_eq_getElem?_getD, hd]
    rfl
  · cases h

/-! ### The two searches together -/

theorem SameMember.not_aggregate {ty : CType} {x : Except Stuck (Option FieldNode)}
    (h : SameMember t Γ name r ty x (findFieldWithOffset Γ ty name))
    (hty : isAggregateType (some ty) = false) : x = .ok none := by
  rw [findFieldWithOffset_other hty] at h
  rcases h with ⟨hx, -⟩ | ⟨_, _, _, _, _, _, -, -, -, -, -, hy⟩
  · exact hx
  · cases hy

/-- The searches go through the rest of a list of members together. -/
theorem sameMember_fields {n : ℕ} {u : Bool} {a : AggNode} {q : TypeQual}
    (hnode : t.node? (some r) = some ⟨.agg u a, q⟩)
    (hinner : ∀ m ∈ a.fields, ∀ f ∈ (Γ.agg r).fields, t.readField m = .ok f →
      ∀ r', m.type = some r' →
      SameMember t Γ name r' f.type (t.lookupMemberAlong name n (some r'))
        (findFieldWithOffset Γ f.type name))
    {ms ns : List FieldNode} {gs fs : List StructField} (hms : a.fields = ms ++ ns)
    (hgs : (Γ.agg r).fields = gs ++ fs) (hlen : ms.length = gs.length)
    (h : List.Forall₂ (fun n f => t.readField n = .ok f) ns fs) :
    SameMember t Γ name r (.agg u r q) (lookupFields t name n ns) (searchFields Γ name fs) := by
  induction h generalizing ms gs with
  | nil => exact Or.inl ⟨rfl, rfl⟩
  | @cons m f ns fs hf hrest ih =>
    have hnext := ih (show a.fields = ms ++ [m] ++ ns by simp [hms])
      (show (Γ.agg r).fields = gs ++ [f] ++ fs by simp [hgs]) (by simp [hlen])
    obtain ⟨hname, htype⟩ := readField_spec hf
    have hmember : a.fields[gs.length]? = some m := by simp [hms, ← hlen]
    have hfield : (Γ.agg r).fields[gs.length]? = some f := by simp [hgs]
    rw [lookupFields, searchFields, ← hname]
    by_cases hfound : f.name = some name
    · rw [if_pos hfound, if_pos hfound]
      refine Or.inr ⟨[gs.length], [], m, [], f, fs, ?_, ?_, ?_, hfound, rfl, ?_⟩
      · simp [TypeTable.membersAlong, hnode, hmember]
      · simp [TypeEnv.membersAlong, hfield]
      · simp
      · simp
    · rw [if_neg hfound, if_neg hfound]
      cases hanon : f.name with
      | some other =>
        simp only [Option.isNone_some, reduceCtorEq, false_and, if_false, Bool.false_eq_true]
        exact hnext
      | none =>
        obtain ⟨r', hr'⟩ : ∃ r', m.type = some r' := by
          cases hty : m.type with
          | none =>
            rw [hty] at htype
            cases htype
          | some r' => exact ⟨r', rfl⟩
        have hin := hinner m (by simp [hms]) f (by simp [hgs]) hf r' hr'
        simp only [Option.isNone_none, if_true, true_and, hr']
        by_cases hagg : isAggregateType (some f.type) = true
        · rw [if_pos hagg]
          rcases hin with ⟨hx, hy⟩ |
            ⟨path, ns', g, fs', h, rest, hnodes, hfields, hnone, hh, hx, hy⟩
          · rw [hx, hy]
            exact hnext
          · rw [hx, hy]
            refine Or.inr
              ⟨gs.length :: path, m :: ns', g, f :: fs', h, rest, ?_, ?_, ?_, hh, rfl, ?_⟩
            · simp [TypeTable.membersAlong, hnode, hmember, hr', hnodes]
            · simp [TypeEnv.membersAlong, hfield, hfields]
            · exact List.forall_mem_cons.mpr ⟨hanon, hnone⟩
            · simp
        · rw [if_neg hagg, hin.not_aggregate (Bool.not_eq_true _ ▸ hagg)]
          exact hnext

/-- The nodes that contain no more nesting than `r` does. -/
def TypeTable.notDeeper (t : TypeTable) (Γ : TypeEnv) (r : TypeRef) : Finset ℕ :=
  (Finset.range t.nodes.length).filter fun id => Γ.rank id ≤ Γ.rank r

theorem mem_notDeeper_self {node : TypeNode} (h : t.node? (some r) = some node) :
    r ∈ t.notDeeper Γ r := by
  have hlt : r < t.nodes.length := (List.getElem?_eq_some_iff.mp h).1
  simp [TypeTable.notDeeper, hlt]

theorem card_notDeeper_lt {r' : TypeRef} {node : TypeNode} (h : t.node? (some r) = some node)
    (hrank : Γ.rank r' < Γ.rank r) : (t.notDeeper Γ r').card < (t.notDeeper Γ r).card := by
  apply Finset.card_lt_card
  rw [Finset.ssubset_iff_of_subset]
  · refine ⟨r, mem_notDeeper_self h, fun hmem => ?_⟩
    have hle := (Finset.mem_filter.mp hmem).2
    omega
  · intro id hid
    obtain ⟨hrange, hle⟩ := Finset.mem_filter.mp hid
    exact Finset.mem_filter.mpr ⟨hrange, by omega⟩

/-- Along more nested types than there are nodes the searches agree: what a node contains has a
lower rank. -/
theorem sameMember_along {n : ℕ} {ty : CType} (hreads : t.ReadsAs r Γ)
    (hty : t.readType (some r) = .ok ty) (hn : 0 < n)
    (hcard : isAggregateType (some ty) = true → (t.notDeeper Γ r).card < n) :
    SameMember t Γ name r ty (t.lookupMemberAlong name n (some r))
      (findFieldWithOffset Γ ty name) := by
  induction n generalizing r ty with
  | zero => omega
  | succ n ih =>
    rcases readType_cases hty with ⟨u, a, q, hnode, rfl⟩ | ⟨⟨node, hnode, hbody⟩, hother⟩
    · have hpos := Finset.card_pos.mpr ⟨r, mem_notDeeper_self (Γ := Γ) hnode⟩
      have hroom := hcard rfl
      rw [lookupMemberAlong_agg t name hnode, findFieldWithOffset_agg]
      refine sameMember_fields hnode (fun m hm f hmem hf r' hr' => ?_) (List.nil_append _).symm
        (List.nil_append _).symm rfl (readAgg_fields (hreads r .start u a q hnode))
      have htype := (readField_spec hf).2
      rw [hr'] at htype
      refine ih (hreads.member hnode hm hr') htype (by omega) fun hinner => ?_
      rcases readType_cases htype with ⟨u', a', q', hnode', heq⟩ | ⟨-, hother⟩
      · have hrank := Γ.contained r f hmem
        rw [heq, CType.depth] at hrank
        have hlt := card_notDeeper_lt hnode hrank
        omega
      · rw [hother] at hinner
        cases hinner
    · refine Or.inl ⟨?_, findFieldWithOffset_other hother⟩
      rw [TypeTable.lookupMemberAlong]
      simp only [hnode]
      obtain ⟨body, q⟩ := node
      cases body <;> first | rfl | cases hbody

/-- Where nesting is finite, sema and irgen find the same member or none. -/
theorem sameMember_lookup {ty : CType} (hreads : t.ReadsAs r Γ)
    (hty : t.readType (some r) = .ok ty) :
    SameMember t Γ name r ty (t.lookupMemberAlong name (t.nodes.length + 1) (some r))
      (findFieldWithOffset Γ ty name) := by
  refine sameMember_along hreads hty (by omega) fun _ => ?_
  have hle := Finset.card_filter_le (Finset.range t.nodes.length) fun id => Γ.rank id ≤ Γ.rank r
  rw [Finset.card_range] at hle
  exact Nat.lt_succ_of_le hle

end

end TinyC
