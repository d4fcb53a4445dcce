import TinyC.Lib.Descent
import TinyC.MemberSearch
import TinyC.TypeHistory

/-!
# Structs within structs

The parser gives a struct its members whatever their types are. As long as these are complete, and
no struct is given members twice, no struct is a part of itself, and every walk over members ends.
-/

namespace TinyC

open Descent

namespace TypeTable

/-! ### Complete types -/

/-- A complete object type, and what `type_sizeof` makes of it. -/
inductive Sized (t : TypeTable) : Option TypeRef → ℤ → Prop where
  | scalar {r k q} : t.node? r = some ⟨.scalar k, q⟩ → k ≠ .void → Sized t r k.size
  | pointer {r p q} : t.node? r = some ⟨.pointer p, q⟩ → Sized t r 8
  | enum {r e q} : t.node? r = some ⟨.enum e, q⟩ → e.complete = true → Sized t r 4
  | agg {r u a q} : t.node? r = some ⟨.agg u a, q⟩ → 0 ≤ a.size → Sized t r a.size
  | array {r e n q s} : t.node? r = some ⟨.array e n, q⟩ → 0 < n → Sized t e s →
      0 ≤ toInt32 (s * toInt32 n) → Sized t r (toInt32 (s * toInt32 n))

/-- The struct or union `s` is a part of the objects of a type, of an array of it say. -/
inductive Within (t : TypeTable) : Option TypeRef → TypeRef → Prop where
  | agg {s u a q} : t.node? (some s) = some ⟨.agg u a, q⟩ → Within t (some s) s
  | array {r e n q s} : t.node? r = some ⟨.array e n, q⟩ → Within t e s → Within t r s
  | arrayUnsized {r e q s} : t.node? r = some ⟨.arrayUnsized e, q⟩ → Within t e s → Within t r s

/-- The struct or union `s` is a part of a member of `r`. -/
def Contains (t : TypeTable) (r s : TypeRef) : Prop :=
  ∃ u a q f, t.node? (some r) = some ⟨.agg u a, q⟩ ∧ f ∈ a.fields ∧ t.Within f.type s

/-- A member that may be declared before the members `post`. -/
def MemberOk (t : TypeTable) (u : Bool) (post : List FieldNode) (f : FieldNode) : Prop :=
  (∃ s, t.Sized f.type s) ∨
    u = false ∧ post = [] ∧ ∃ e q s, t.node? f.type = some ⟨.arrayUnsized e, q⟩ ∧ t.Sized e s

def MembersOk (t : TypeTable) (u : Bool) (fields : List FieldNode) : Prop :=
  ∀ pre f post, fields = pre ++ f :: post → t.MemberOk u post f

end TypeTable

/-- Arrays, structs and unions. -/
def TypeBody.isHolder : TypeBody → Bool
  | .array _ _ | .arrayUnsized _ | .agg _ _ => true
  | _ => false

/-- A struct or union that has been declared only. -/
def AggNode.Undefined (a : AggNode) : Prop := a.fields = [] ∧ a.size < 0

namespace TypeTable

variable {t t' : TypeTable} {r : Option TypeRef} {s : ℤ} {x : TypeRef}

theorem Sized.nonneg (h : t.Sized r s) : 0 ≤ s := by
  cases h with
  | @scalar r k q _ hk =>
    cases k with
    | void => exact absurd rfl hk
    | _ => decide
  | pointer | enum => decide
  | agg _ hsize => exact hsize
  | array _ _ _ hsize => exact hsize

theorem Sized.not_none (h : t.Sized none s) : False := by
  cases h with
  | scalar hnode | pointer hnode | enum hnode | agg hnode | array hnode => cases hnode

/-! ### The parts of a type -/

theorem not_within {b : TypeBody} {q : TypeQual} (hnode : t.node? r = some ⟨b, q⟩)
    (hb : b.isHolder = false) : ¬t.Within r x := by
  rintro (h | ⟨h, -⟩ | ⟨h, -⟩) <;> rw [hnode] at h <;> cases h <;> cases hb

theorem within_agg {y : TypeRef} {u : Bool} {a : AggNode} {q : TypeQual}
    (hnode : t.node? (some y) = some ⟨.agg u a, q⟩) : t.Within (some y) x ↔ x = y := by
  constructor
  · rintro (h | ⟨h, -⟩ | ⟨h, -⟩)
    · rfl
    · rw [hnode] at h
      cases h
    · rw [hnode] at h
      cases h
  · rintro rfl
    exact .agg hnode

theorem within_array {e : Option TypeRef} {n : ℤ} {q : TypeQual}
    (hnode : t.node? r = some ⟨.array e n, q⟩) : t.Within r x ↔ t.Within e x := by
  refine ⟨?_, .array hnode⟩
  rintro (h | ⟨h, hx⟩ | ⟨h, -⟩) <;> rw [hnode] at h <;> cases h
  exact hx

theorem within_arrayUnsized {e : Option TypeRef} {q : TypeQual}
    (hnode : t.node? r = some ⟨.arrayUnsized e, q⟩) : t.Within r x ↔ t.Within e x := by
  refine ⟨?_, .arrayUnsized hnode⟩
  rintro (h | ⟨h, -⟩ | ⟨h, hx⟩) <;> rw [hnode] at h <;> cases h
  exact hx

/-- The structs in a complete type are complete. -/
theorem Sized.defined (h : t.Sized r s) (hx : t.Within r x) :
    ∃ u a q, t.node? (some x) = some ⟨.agg u a, q⟩ ∧ 0 ≤ a.size := by
  induction h with
  | scalar hnode | pointer hnode | enum hnode => exact absurd hx (not_within hnode rfl)
  | @agg r u a q hnode hsize =>
    cases r with
    | none => cases hnode
    | some r =>
      rw [within_agg hnode] at hx
      exact ⟨_, _, _, hx ▸ hnode, hsize⟩
  | array hnode _ _ _ ih => exact ih ((within_array hnode).mp hx)

theorem MemberOk.defined {u : Bool} {post : List FieldNode} {f : FieldNode}
    (h : t.MemberOk u post f) (hx : t.Within f.type x) :
    ∃ u a q, t.node? (some x) = some ⟨.agg u a, q⟩ ∧ 0 ≤ a.size := by
  rcases h with ⟨s, h⟩ | ⟨-, -, e, q, s, hnode, h⟩
  · exact h.defined hx
  · exact h.defined ((within_arrayUnsized hnode).mp hx)

/-! ### What a call does to a node -/

/-- A node holds `b`, and after a call it holds the other. -/
inductive Becomes : TypeBody → TypeBody → Prop where
  | same (b) : Becomes b b
  | fill (base b) : Becomes b (b.fill base)
  | enumerate (consts b) : Becomes b (b.enumerate consts)
  | complete {u a} (fields size align) : a.size < 0 →
      Becomes (.agg u a) (TypeBody.complete fields size align (.agg u a))

def Grows (t t' : TypeTable) : Prop :=
  ∀ r b q, t.node? r = some ⟨b, q⟩ → ∃ b', t'.node? r = some ⟨b', q⟩ ∧ Becomes b b'

theorem Becomes.scalar {k : ScalarKind} {b : TypeBody} (h : Becomes (.scalar k) b) :
    b = .scalar k := by
  cases h <;> rfl

theorem Becomes.pointer {p : Option TypeRef} {b : TypeBody} (h : Becomes (.pointer p) b) :
    ∃ p', b = .pointer p' := by
  cases h with
  | same => exact ⟨p, rfl⟩
  | fill base => cases p <;> exact ⟨_, rfl⟩
  | enumerate => exact ⟨p, rfl⟩

theorem Becomes.enum {e : EnumDef} {b : TypeBody} (h : Becomes (.enum e) b)
    (he : e.complete = true) : ∃ e', b = .enum e' ∧ e'.complete = true := by
  cases h with
  | same | fill => exact ⟨e, rfl, he⟩
  | enumerate => exact ⟨_, rfl, rfl⟩

theorem Becomes.agg {u : Bool} {a : AggNode} {b : TypeBody} (h : Becomes (.agg u a) b)
    (ha : 0 ≤ a.size) : b = .agg u a := by
  cases h with
  | same | fill | enumerate => rfl
  | complete _ _ _ hlt => omega

theorem Becomes.array {e : TypeRef} {n : ℤ} {b : TypeBody} (h : Becomes (.array (some e) n) b) :
    b = .array (some e) n := by
  cases h <;> rfl

theorem Becomes.arrayUnsized {e : TypeRef} {b : TypeBody}
    (h : Becomes (.arrayUnsized (some e)) b) : b = .arrayUnsized (some e) := by
  cases h <;> rfl

/-- A complete type stays what it is. -/
theorem Sized.grows (hk : t.Grows t') (h : t.Sized r s) : t'.Sized r s := by
  induction h with
  | scalar hnode hkind =>
    obtain ⟨b, hnode', hb⟩ := hk _ _ _ hnode
    rw [hb.scalar] at hnode'
    exact .scalar hnode' hkind
  | pointer hnode =>
    obtain ⟨b, hnode', hb⟩ := hk _ _ _ hnode
    obtain ⟨p, rfl⟩ := hb.pointer
    exact .pointer hnode'
  | enum hnode he =>
    obtain ⟨b, hnode', hb⟩ := hk _ _ _ hnode
    obtain ⟨e, rfl, he'⟩ := hb.enum he
    exact .enum hnode' he'
  | agg hnode hsize =>
    obtain ⟨b, hnode', hb⟩ := hk _ _ _ hnode
    rw [hb.agg hsize] at hnode'
    exact .agg hnode' hsize
  | @array r e n q s hnode hn helem hsize ih =>
    cases e with
    | none => exact helem.not_none.elim
    | some e =>
      obtain ⟨b, hnode', hb⟩ := hk _ _ _ hnode
      rw [hb.array] at hnode'
      exact .array hnode' hn ih hsize

/-- Nothing becomes a part of a complete type. -/
theorem Sized.within (hk : t.Grows t') (h : t.Sized r s) (hx : t'.Within r x) : t.Within r x := by
  induction h with
  | scalar hnode hkind =>
    obtain ⟨b, hnode', hb⟩ := hk _ _ _ hnode
    rw [hb.scalar] at hnode'
    exact absurd hx (not_within hnode' rfl)
  | pointer hnode =>
    obtain ⟨b, hnode', hb⟩ := hk _ _ _ hnode
    obtain ⟨p, rfl⟩ := hb.pointer
    exact absurd hx (not_within hnode' rfl)
  | enum hnode he =>
    obtain ⟨b, hnode', hb⟩ := hk _ _ _ hnode
    obtain ⟨e, rfl, he'⟩ := hb.enum he
    exact absurd hx (not_within hnode' rfl)
  | @agg r u a q hnode hsize =>
    obtain ⟨b, hnode', hb⟩ := hk _ _ _ hnode
    rw [hb.agg hsize] at hnode'
    cases r with
    | none => cases hnode
    | some r =>
      rw [within_agg hnode'] at hx
      rw [hx]
      exact .agg hnode
  | @array r e n q s hnode hn helem hsize ih =>
    cases e with
    | none => exact helem.not_none.elim
    | some e =>
      obtain ⟨b, hnode', hb⟩ := hk _ _ _ hnode
      rw [hb.array] at hnode'
      exact .array hnode (ih ((within_array hnode').mp hx))

/-! ### What holds of every table -/

/-- The members of every struct and union are complete, and none is a part of itself. -/
structure Founded (t : TypeTable) : Prop where
  members : ∀ r u a q, t.node? (some r) = some ⟨.agg u a, q⟩ →
    a.Undefined ∨ t.MembersOk u a.fields
  ends : ∀ r, Descent.Ends t.Contains r

theorem MemberOk.grows (hk : t.Grows t') {u : Bool} {post : List FieldNode} {f : FieldNode}
    (h : t.MemberOk u post f) : t'.MemberOk u post f := by
  rcases h with ⟨s, h⟩ | ⟨hu, hpost, e, q, s, hnode, h⟩
  · exact Or.inl ⟨s, h.grows hk⟩
  · cases e with
    | none => exact h.not_none.elim
    | some e =>
      obtain ⟨b, hnode', hb⟩ := hk _ _ _ hnode
      rw [hb.arrayUnsized] at hnode'
      exact Or.inr ⟨hu, hpost, _, _, s, hnode', h.grows hk⟩

theorem MemberOk.within (hk : t.Grows t') {u : Bool} {post : List FieldNode} {f : FieldNode}
    (h : t.MemberOk u post f) (hx : t'.Within f.type x) : t.Within f.type x := by
  rcases h with ⟨s, h⟩ | ⟨-, -, e, q, s, hnode, h⟩
  · exact h.within hk hx
  · cases e with
    | none => exact h.not_none.elim
    | some e =>
      obtain ⟨b, hnode', hb⟩ := hk _ _ _ hnode
      rw [hb.arrayUnsized] at hnode'
      exact .arrayUnsized hnode (h.within hk ((within_arrayUnsized hnode').mp hx))

theorem MembersOk.memberOk {u : Bool} {fields : List FieldNode} (h : t.MembersOk u fields)
    {f : FieldNode} (hf : f ∈ fields) : ∃ post, t.MemberOk u post f := by
  obtain ⟨pre, post, heq⟩ := List.append_of_mem hf
  exact ⟨post, h pre f post heq⟩

/-- A step that keeps the nodes and adds no other members than complete ones. -/
theorem Founded.step (h : t.Founded) (hk : t.Grows t')
    (hnew : ∀ r u a q, t'.node? (some r) = some ⟨.agg u a, q⟩ →
      a.Undefined ∨ t.MembersOk u a.fields) : t'.Founded := by
  -- what a defined struct contains, it contained before, and that is defined too
  have hdefined : ∀ {y u a q}, t.node? (some y) = some ⟨.agg u a, q⟩ → 0 ≤ a.size →
      Descent.Ends t'.Contains y := by
    intro y
    induction h.ends y with
    | intro y _ ih =>
      intro u a q hnode hsize
      refine ⟨y, fun z hz => ?_⟩
      obtain ⟨u', a', q', f, hnode', hf, hz⟩ := hz
      obtain ⟨b, hnode'', hb⟩ := hk _ _ _ hnode
      rw [hb.agg hsize, hnode'] at hnode''
      cases hnode''
      rcases h.members _ _ _ _ hnode with hundef | hok
      · exact absurd hundef.2 (not_lt.mpr hsize)
      · obtain ⟨post, hmember⟩ := hok.memberOk hf
        have hwithin := hmember.within hk hz
        obtain ⟨v, c, p, hnodez, hsizez⟩ := hmember.defined hwithin
        exact ih z ⟨_, _, _, f, hnode, hf, hwithin⟩ hnodez hsizez
  constructor
  · intro r u a q hnode
    rcases hnew r u a q hnode with hundef | hok
    · exact Or.inl hundef
    · exact Or.inr fun pre f post heq => (hok pre f post heq).grows hk
  · intro y
    refine ⟨y, fun z hz => ?_⟩
    obtain ⟨u, a, q, f, hnode, hf, hz⟩ := hz
    rcases hnew _ _ _ _ hnode with hundef | hok
    · rw [hundef.1] at hf
      cases hf
    · obtain ⟨post, hmember⟩ := hok.memberOk hf
      obtain ⟨v, c, p, hnodez, hsizez⟩ := hmember.defined (hmember.within hk hz)
      exact hdefined hnodez hsizez

/-! ### Calls -/

/-- Members are given once, to a struct or union that has been declared only, and the types of all
are complete, but for a flexible array at the end of a struct. -/
def Declarable (t : TypeTable) : TypeCall → Prop
  | .complete r fields _ _ => ∀ u a q, t.node? (some r) = some ⟨.agg u a, q⟩ →
      a.Undefined ∧ t.MembersOk u fields
  | _ => True

theorem grows_of_append {ns : List TypeNode} (h : t'.nodes = t.nodes ++ ns) : t.Grows t' := by
  intro r b q hnode
  cases r with
  | none => cases hnode
  | some r =>
    have hget : t.nodes[r]? = some ⟨b, q⟩ := hnode
    refine ⟨b, ?_, .same b⟩
    change t'.nodes[r]? = _
    rw [h, List.getElem?_append_left (List.getElem?_eq_some_iff.mp hget).1, hget]

theorem Founded.append (h : t.Founded) {n : TypeNode} (hnodes : t'.nodes = t.nodes ++ [n])
    (hn : ∀ u a, n.body = .agg u a → a.Undefined ∨ t.MembersOk u a.fields) : t'.Founded := by
  apply h.step (grows_of_append hnodes)
  intro r u a q hnode
  have hget : (t.nodes ++ [n])[r]? = some ⟨.agg u a, q⟩ := hnodes ▸ hnode
  by_cases hr : r < t.nodes.length
  · rw [List.getElem?_append_left hr] at hget
    exact h.members r u a q hget
  · have hmem : (⟨.agg u a, q⟩ : TypeNode) = n := by
      rw [List.getElem?_append_right (not_lt.mp hr)] at hget
      exact List.mem_singleton.mp (List.mem_of_getElem? hget)
    exact hn u a (hmem ▸ rfl)

theorem Founded.same (h : t.Founded) (hnodes : t'.nodes = t.nodes) : t'.Founded := by
  refine h.step (grows_of_append (by rw [hnodes, List.append_nil])) fun r u a q hnode => ?_
  exact h.members r u a q (show t.nodes[r]? = _ from hnodes ▸ hnode)

theorem Founded.intern (h : t.Founded) {n : TypeNode} (same : TypeNode → Bool)
    (hn : n.body.isAgg = false) : (t.intern n same).2.Founded := by
  unfold TypeTable.intern
  split
  · exact h
  · refine h.append (n := n) rfl fun u a hbody => ?_
    rw [hbody] at hn
    cases hn

theorem Founded.setBody (h : t.Founded) {y : TypeRef} {f : TypeBody → TypeBody}
    (hbecomes : ∀ b q, t.node? (some y) = some ⟨b, q⟩ → Becomes b (f b))
    (hagg : ∀ b q u a, t.node? (some y) = some ⟨b, q⟩ → f b = .agg u a →
      b = .agg u a ∨ t.MembersOk u a.fields) : (t.setBody y f).Founded := by
  have hget : ∀ r, (t.setBody y f).node? (some r) =
      if y = r then (t.node? (some r)).map fun n => { n with body := f n.body }
      else t.node? (some r) := by
    intro r
    change (t.nodes.modify y _)[r]? = _
    rw [List.getElem?_modify]
    change _ = if y = r then (t.nodes[r]?).map _ else t.nodes[r]?
    cases t.nodes[r]? <;> split <;> rfl
  apply h.step
  · intro r b q hnode
    cases r with
    | none => cases hnode
    | some r =>
      rw [hget]
      by_cases hr : y = r
      · subst hr
        rw [if_pos rfl, hnode]
        exact ⟨f b, rfl, hbecomes b q hnode⟩
      · rw [if_neg hr, hnode]
        exact ⟨b, rfl, .same b⟩
  · intro r u a q hnode
    rw [hget] at hnode
    by_cases hr : y = r
    · subst hr
      rw [if_pos rfl] at hnode
      obtain ⟨n, hn, heq⟩ := Option.map_eq_some_iff.mp hnode
      have hbody : f n.body = .agg u a := congrArg TypeNode.body heq
      rcases hagg n.body n.qual u a hn hbody with hb | hok
      · exact h.members y u a n.qual (by rw [hn, ← hb])
      · exact Or.inr hok
    · rw [if_neg hr] at hnode
      exact h.members r u a q hnode

theorem Founded.call (h : t.Founded) {c : TypeCall} (hc : t.Declarable c) :
    (t.call c).2.Founded := by
  have hperform : (t.perform c).2.Founded := by
    cases c with
    | pointer | array | arrayUnsized | func => exact h.intern _ rfl
    | agg isUnion tag =>
      refine h.append (n := { body := .agg isUnion { tag := tag } }) rfl fun u a hbody => ?_
      cases hbody
      exact Or.inl ⟨rfl, (by decide : (-1 : ℤ) < 0)⟩
    | enum tag =>
      exact h.append (n := { body := .enum { tag := tag } }) rfl fun u a hbody => (by cases hbody)
    | qualify base added =>
      change (t.typeQualify base added).2.Founded
      unfold typeQualify
      split
      · exact h
      · rename_i n hn
        dsimp only
        split
        · exact h
        · refine h.append (n := { n with qual := n.qual.merge added }) rfl fun u a hbody => ?_
          exact h.members base u a n.qual (show t.nodes[base]? = _ by rw [hn, ← hbody])
    | fill y base =>
      refine h.setBody (fun b q _ => .fill base b) fun b q u a _ hb => Or.inl ?_
      cases b with
      | agg => exact hb
      | pointer p | func p | array p | arrayUnsized p => cases p <;> cases hb
      | scalar | enum => cases hb
    | enumerate y consts =>
      refine h.setBody (fun b q _ => .enumerate consts b) fun b q u a _ hb => Or.inl ?_
      cases b with
      | agg => exact hb
      | _ => cases hb
    | complete y fields size align =>
      apply h.setBody
      · intro b q hnode
        cases b with
        | agg u a => exact .complete _ _ _ (hc u a q hnode).1.2
        | _ => exact .same _
      · intro b q u a hnode hb
        cases b with
        | agg u' a' =>
          cases hb
          exact Or.inr (hc _ _ q hnode).2
        | _ => cases hb
  exact hperform.same rfl

theorem founded_init (addr : TypeRef → BitVec 64) : (typeTableInit addr).Founded := by
  have hscalar : ∀ r b q, (typeTableInit addr).node? (some r) = some ⟨b, q⟩ →
      ∃ k, b = .scalar k := by
    intro r b q hnode
    have hmem := List.mem_of_getElem? (show (typeTableInit addr).nodes[r]? = _ from hnode)
    obtain ⟨k, -, hk⟩ := List.mem_map.mp hmem
    exact ⟨k, (congrArg TypeNode.body hk).symm⟩
  constructor
  · intro r u a q hnode
    obtain ⟨k, hk⟩ := hscalar _ _ _ hnode
    cases hk
  · intro r
    refine ⟨r, fun s hs => ?_⟩
    obtain ⟨u, a, q, f, hnode, -⟩ := hs
    obtain ⟨k, hk⟩ := hscalar _ _ _ hnode
    cases hk

theorem founded_run {cs : List TypeCall} (h : MeetsAll Declarable t cs) (ht : t.Founded) :
    (t.run cs).Founded :=
  h.preserves (fun _ _ ht hc => ht.call hc) ht

/-! ### Walks end -/

theorem lt_length {n : TypeNode} (h : t.node? (some x) = some n) : x < t.nodes.length :=
  (List.getElem?_eq_some_iff.mp (show t.nodes[x]? = some n from h)).1

theorem Sized.lt_length (h : t.Sized (some x) s) : x < t.nodes.length := by
  cases h with
  | scalar hnode | pointer hnode | enum hnode | agg hnode | array hnode =>
    exact TypeTable.lt_length hnode

/-- `e` is the element type of the array `r`. -/
def Element (t : TypeTable) (r e : TypeRef) : Prop :=
  ∃ n q, t.node? (some r) = some ⟨.array (some e) n, q⟩

theorem Sized.ends (h : t.Sized (some x) s) : Descent.Ends t.Element x := by
  generalize hr : some x = r at h
  induction h generalizing x with
  | scalar hnode | pointer hnode | enum hnode | agg hnode =>
    subst hr
    refine ⟨x, fun e he => ?_⟩
    obtain ⟨n, q, he⟩ := he
    rw [hnode] at he
    cases he
  | array hnode _ _ _ ih =>
    subst hr
    refine ⟨x, fun e he => ?_⟩
    obtain ⟨n, q, he⟩ := he
    rw [hnode] at he
    cases he
    exact ih rfl

theorem Sized.sizeofAlong {n : ℕ} (h : t.Sized r s)
    (hn : ∀ x ∈ r, height t.Element t.nodes.length x < n) : t.sizeofAlong n r = .ok s := by
  induction n generalizing r s with
  | zero =>
    cases r with
    | none => exact h.not_none.elim
    | some x => exact absurd (hn x rfl) (Nat.not_lt_zero _)
  | succ n ih =>
    rw [TypeTable.sizeofAlong]
    cases h with
    | scalar hnode | pointer hnode | enum hnode | agg hnode =>
      rw [hnode]
      rfl
    | @array r e count q s hnode hcount helem _ =>
      have hstep : ∀ y ∈ e, height t.Element t.nodes.length y < n := by
        rintro y rfl
        cases r with
        | none => cases hnode
        | some x =>
          have hdown := height_lt helem.ends ⟨count, q, hnode⟩ helem.lt_length
          have hx := hn x rfl
          omega
      rw [hnode]
      dsimp only
      rw [if_neg (not_le.mpr hcount), ih helem hstep]
      rfl

/-- `type_sizeof` ends on a complete type. -/
theorem Sized.sizeof (h : t.Sized r s) : t.sizeof r = .ok s := by
  cases r with
  | none => exact h.not_none.elim
  | some x => exact h.sizeofAlong fun _ _ => Nat.lt_succ_of_le height_le

section

variable (name : String)

theorem lookupFields_ne_cycle {n : ℕ} {fs : List FieldNode}
    (h : ∀ f ∈ fs, t.lookupMemberAlong name n f.type ≠ .error .cycle) :
    lookupFields t name n fs ≠ .error .cycle := by
  induction fs with
  | nil => exact fun heq => (by cases heq)
  | cons f fs ih =>
    have hrest := ih fun g hg => h g (List.mem_cons_of_mem f hg)
    rw [lookupFields]
    split
    · exact fun heq => (by cases heq)
    · split
      · have hhere := h f List.mem_cons_self
        cases hf : t.lookupMemberAlong name n f.type with
        | error e =>
          rw [hf] at hhere
          exact fun heq => hhere (by cases heq; rfl)
        | ok found =>
          cases found with
          | none => exact hrest
          | some g => exact fun heq => (by cases heq)
      · exact hrest

/-- A search that goes as deep as structs are nested ends. -/
theorem lookupMemberAlong_ne_cycle (h : ∀ x, Descent.Ends t.Contains x) {n : ℕ}
    (hn : ∀ x ∈ r, ∀ u a q, t.node? (some x) = some ⟨.agg u a, q⟩ →
      height t.Contains t.nodes.length x < n) :
    t.lookupMemberAlong name (n + 1) r ≠ .error .cycle := by
  induction n generalizing r with
  | zero =>
    cases r with
    | none => exact fun heq => (by cases heq)
    | some x =>
      rw [lookupMemberAlong]
      cases hnode : t.node? (some x) with
      | none => exact fun heq => (by cases heq)
      | some node =>
        obtain ⟨b, q⟩ := node
        cases b with
        | agg u a => exact absurd (hn x rfl u a q hnode) (Nat.not_lt_zero _)
        | _ => exact fun heq => (by cases heq)
  | succ n ih =>
    cases r with
    | none => exact fun heq => (by cases heq)
    | some x =>
      cases hnode : t.node? (some x) with
      | none =>
        rw [lookupMemberAlong, hnode]
        exact fun heq => (by cases heq)
      | some node =>
        obtain ⟨b, q⟩ := node
        cases b with
        | agg u a =>
          have hx := hn x rfl u a q hnode
          rw [lookupMemberAlong_agg t name hnode]
          refine lookupFields_ne_cycle name fun f hf => ih fun y hy v c p hnodey => ?_
          have hwithin : t.Within f.type y := hy ▸ .agg hnodey
          have hdown := height_lt (h y) ⟨u, a, q, f, hnode, hf, hwithin⟩ (lt_length hnodey)
          omega
        | _ =>
          rw [lookupMemberAlong, hnode]
          exact fun heq => (by cases heq)

/-- `lookup_member` ends. -/
theorem Founded.lookups (h : t.Founded) :
    t.lookupMemberAlong name (t.nodes.length + 1) r ≠ .error .cycle :=
  lookupMemberAlong_ne_cycle name h.ends fun x _ _ _ _ hnode =>
    height_lt_card (h.ends x) (lt_length hnode)

end

/-! ### The depth of structs -/

theorem Within.lt_length (h : t.Within r x) : x < t.nodes.length := by
  induction h with
  | agg hnode => exact TypeTable.lt_length hnode
  | array _ _ ih | arrayUnsized _ _ ih => exact ih

theorem le_foldl_max (xs : List ℕ) (a : ℕ) {x : ℕ} (hx : x ∈ xs) : x ≤ xs.foldl max a := by
  rw [List.foldl_max_eq_max (List.ne_nil_of_mem hx)]
  exact (List.le_max_of_mem hx).trans (le_max_right _ _)

/-- Types are as deep as the structs in them. -/
theorem readAlong_depth {n : ℕ} {ty : CType} (h : t.readAlong n r = .ok ty)
    {rank rank' : ℕ → ℕ} (hrank : ∀ x, t.Within r x → rank x = rank' x) :
    ty.depth rank = ty.depth rank' := by
  induction n generalizing r ty with
  | zero => cases r <;> cases h
  | succ n ih =>
    cases r with
    | none => cases h
    | some r =>
      rw [readAlong] at h
      cases hnode : t.node? (some r) with
      | none =>
        rw [hnode] at h
        cases h
      | some node =>
        obtain ⟨b, q⟩ := node
        rw [hnode] at h
        cases b with
        | array elem count =>
          obtain ⟨ty', helem, h⟩ := except_bind_ok h
          cases h
          have hinner := ih helem fun x hx => hrank x (.array hnode hx)
          rw [CType.depth, CType.depth, hinner]
        | agg u a =>
          cases h
          exact hrank r (.agg hnode)
        | scalar | enum =>
          cases h
          rfl
        | pointer p =>
          obtain ⟨ty', -, h⟩ := except_bind_ok h
          cases h
          rfl
        | arrayUnsized p =>
          obtain ⟨ty', -, h⟩ := except_bind_ok h
          cases h
          rfl
        | func ret ps v =>
          obtain ⟨ty', -, h⟩ := except_bind_ok h
          obtain ⟨ps', -, h⟩ := except_bind_ok h
          cases h
          rfl

/-- A member that was read is that of a node, and what it contains the struct does. -/
theorem read_member {aggs : List AggDef} (haggs : t.nodes.mapM t.readAgg = .ok aggs) {id : ℕ}
    {f : StructField} (hf : f ∈ (aggs.getD id {}).fields) :
    id < t.nodes.length ∧ ∃ m : FieldNode, t.readType m.type = .ok f.type ∧
      ∀ y, t.Within m.type y → t.Contains id y := by
  rw [List.getD_eq_getElem?_getD] at hf
  cases hd : aggs[id]? with
  | none =>
    rw [hd] at hf
    cases hf
  | some d =>
    rw [hd, Option.getD_some] at hf
    obtain ⟨n, hn, hread⟩ := forall₂_getElem? (mapM_ok_forall₂ haggs).flip hd
    have hnode : t.node? (some id) = some n := hn
    refine ⟨lt_length hnode, ?_⟩
    unfold TypeTable.readAgg at hread
    split at hread
    · rename_i u a hbody
      obtain ⟨fs, hfs, hread⟩ := except_bind_ok hread
      cases hread
      obtain ⟨i, hi⟩ := List.mem_iff_getElem?.mp hf
      obtain ⟨m, hm, hfield⟩ := forall₂_getElem? (mapM_ok_forall₂ hfs).flip hi
      obtain ⟨ty, hty, hfield⟩ := except_bind_ok hfield
      cases hfield
      refine ⟨m, hty, fun y hy => ⟨u, a, n.qual, m, ?_, List.mem_of_getElem? hm, hy⟩⟩
      rw [hnode, ← hbody]
    · cases hread
      cases hf

/-- Going deeper than structs are nested changes nothing. -/
theorem rankAlong_stable (h : ∀ x, Descent.Ends t.Contains x) {aggs : List AggDef}
    (haggs : t.nodes.mapM t.readAgg = .ok aggs) {n : ℕ} {id : ℕ}
    (hn : height t.Contains t.nodes.length id < n) :
    rankAlong aggs n id = rankAlong aggs (n + 1) id := by
  induction n generalizing id with
  | zero => omega
  | succ n ih =>
    rw [rankAlong, rankAlong]
    congr 1
    apply List.map_congr_left
    intro f hf
    obtain ⟨-, m, hm, hdown⟩ := read_member haggs hf
    congr 1
    apply readAlong_depth hm
    intro y hy
    apply ih
    have hless := height_lt (h y) (hdown y hy) hy.lt_length
    omega

/-- Where the structs can be read, the environment can. -/
theorem Founded.environment (h : t.Founded) {aggs : List AggDef}
    (haggs : t.nodes.mapM t.readAgg = .ok aggs) : ∃ Γ, t.env = .ok Γ := by
  have hlen : aggs.length = t.nodes.length := (mapM_ok_forall₂ haggs).length_eq.symm
  have hcontained : AggsContained aggs (rankAlong aggs (aggs.length + 1)) := by
    intro id _ f hf
    obtain ⟨hid, m, hm, hdown⟩ := read_member haggs hf
    have hsame : f.type.depth (rankAlong aggs (aggs.length + 1)) =
        f.type.depth (rankAlong aggs aggs.length) := by
      apply readAlong_depth hm
      intro y hy
      have hless := height_lt (h.ends y) (hdown y hy) hy.lt_length
      have hle : height t.Contains t.nodes.length id ≤ t.nodes.length := height_le
      exact (rankAlong_stable h.ends haggs (by omega)).symm
    rw [hsame, rankAlong]
    exact le_foldl_max _ _ (List.mem_map.mpr ⟨f, hf, rfl⟩)
  refine ⟨.ofAggs aggs (t.nodes.map enumDef) _ hcontained, ?_⟩
  unfold TypeTable.env
  rw [haggs]
  exact dif_pos hcontained

/-- Every member is complete and no struct is a part of itself, so that `lookup_member` ends, and
there is an environment, over which the recursions of irgen end. -/
structure WellContained (t : TypeTable) : Prop where
  members : ∀ r u a q, t.node? (some r) = some ⟨.agg u a, q⟩ → ∀ pre f post,
    a.fields = pre ++ f :: post →
      (∃ s, t.Sized f.type s ∧ t.sizeof f.type = .ok s ∧ 0 ≤ s) ∨
        u = false ∧ post = [] ∧
          ∃ e q s, t.node? f.type = some ⟨.arrayUnsized e, q⟩ ∧ t.Sized e s
  acyclic : WellFounded (Function.swap t.Contains)
  lookups : ∀ name r, t.lookupMemberAlong name (t.nodes.length + 1) r ≠ .error .cycle
  environment : ∀ aggs, t.nodes.mapM t.readAgg = .ok aggs → ∃ Γ, t.env = .ok Γ

theorem Founded.wellContained (h : t.Founded) : t.WellContained where
  members r u a q hnode pre f post heq := by
    rcases h.members r u a q hnode with hundef | hok
    · rw [hundef.1] at heq
      exact absurd (congrArg List.length heq) (by simp)
    · rcases hok pre f post heq with ⟨s, hs⟩ | hflex
      · exact Or.inl ⟨s, hs, hs.sizeof, hs.nonneg⟩
      · exact Or.inr hflex
  acyclic := ⟨h.ends⟩
  lookups name _ := h.lookups name
  environment _ haggs := h.environment haggs

/-- In every state of a compilation that gives members once, and complete ones. -/
theorem reached_wellContained {addr : TypeRef → BitVec 64} (h : Reached addr t)
    (hcalls : MeetsAll Declarable (typeTableInit addr) t.calls) {cs : List TypeCall}
    (hcs : cs <+: t.calls) : ((typeTableInit addr).run cs).WellContained ∧ t.WellContained := by
  obtain ⟨ds, hds⟩ := hcs
  constructor
  · rw [← hds] at hcalls
    exact (founded_run hcalls.split.1 (founded_init addr)).wellContained
  · rw [h.eq_run]
    exact (founded_run hcalls (founded_init addr)).wellContained

/-! ### A check of the members -/

/-- The size of a complete type, if it is one. -/
def completeSize (t : TypeTable) : ℕ → Option TypeRef → Option ℤ
  | 0, _ => none
  | n + 1, r =>
      match t.node? r with
      | some ⟨.scalar k, _⟩ => if k = .void then none else some k.size
      | some ⟨.pointer _, _⟩ => some 8
      | some ⟨.enum e, _⟩ => if e.complete then some 4 else none
      | some ⟨.agg _ a, _⟩ => if 0 ≤ a.size then some a.size else none
      | some ⟨.array e count, _⟩ => do
          let s ← completeSize t n e
          if 0 < count ∧ 0 ≤ toInt32 (s * toInt32 count) then some (toInt32 (s * toInt32 count))
          else none
      | _ => none

theorem sized_of_completeSize {n : ℕ} (h : t.completeSize n r = some s) : t.Sized r s := by
  induction n generalizing r s with
  | zero => cases h
  | succ n ih =>
    rw [completeSize] at h
    split at h
    · split at h
      · cases h
      · cases h
        exact .scalar ‹_› ‹_›
    · cases h
      exact .pointer ‹_›
    · split at h
      · cases h
        exact .enum ‹_› ‹_›
      · cases h
    · split at h
      · cases h
        exact .agg ‹_› ‹_›
      · cases h
    · rename_i hnode
      obtain ⟨s', helem, h⟩ := Option.bind_eq_some_iff.mp h
      split at h
      · rename_i hsize
        cases h
        exact .array hnode hsize.1 (ih helem) hsize.2
      · cases h
    · cases h

def membersCheck (t : TypeTable) (u : Bool) : List FieldNode → Bool
  | [] => true
  | f :: fs =>
      ((t.completeSize (t.nodes.length + 1) f.type).isSome ||
        !u && fs.isEmpty && match t.node? f.type with
          | some ⟨.arrayUnsized e, _⟩ => (t.completeSize (t.nodes.length + 1) e).isSome
          | _ => false) && membersCheck t u fs

theorem membersOk_of_check {u : Bool} {fs : List FieldNode} (h : t.membersCheck u fs = true) :
    t.MembersOk u fs := by
  induction fs with
  | nil =>
    intro pre f post heq
    exact absurd (congrArg List.length heq) (by simp)
  | cons g fs ih =>
    obtain ⟨hg, hfs⟩ := Bool.and_eq_true_iff.mp h
    intro pre f post heq
    cases pre with
    | cons g' pre =>
      cases heq
      exact ih hfs pre f post rfl
    | nil =>
      cases heq
      rcases Bool.or_eq_true_iff.mp hg with hsize | hflex
      · obtain ⟨s, hs⟩ := Option.isSome_iff_exists.mp hsize
        exact Or.inl ⟨s, sized_of_completeSize hs⟩
      · obtain ⟨hplace, hnode⟩ := Bool.and_eq_true_iff.mp hflex
        obtain ⟨hu, hlast⟩ := Bool.and_eq_true_iff.mp hplace
        split at hnode
        · rename_i e q heq
          obtain ⟨s, hs⟩ := Option.isSome_iff_exists.mp hnode
          exact Or.inr ⟨by simpa using hu, by simpa using hlast, e, q, s, heq,
            sized_of_completeSize hs⟩
        · cases hnode

def callCheck (t : TypeTable) : TypeCall → Bool
  | .complete r fields _ _ =>
      match t.node? (some r) with
      | some ⟨.agg u a, _⟩ => a.fields.isEmpty && decide (a.size < 0) && t.membersCheck u fields
      | _ => true
  | _ => true

theorem declarable_of_check {c : TypeCall} (h : t.callCheck c = true) : t.Declarable c := by
  cases c with
  | complete r fields size align =>
    intro u a q hnode
    unfold callCheck at h
    simp only [hnode, Bool.and_eq_true, List.isEmpty_iff, decide_eq_true_eq] at h
    exact ⟨h.1, membersOk_of_check h.2⟩
  | _ => trivial

theorem MeetsAll.mono {P Q : TypeTable → TypeCall → Prop} (hPQ : ∀ t c, P t c → Q t c)
    {cs : List TypeCall} (h : MeetsAll P t cs) : MeetsAll Q t cs := by
  induction cs generalizing t with
  | nil => trivial
  | cons c cs ih => exact ⟨hPQ t c h.1, ih h.2⟩

end TypeTable

/-! ### Two texts -/

/-- The errors that a parse which ends has reported. -/
def errorsOfText (text : String) : Option ℕ :=
  match parserParse 100 (textParser text) with
  | .ok r => some r.2.nErrors
  | .error _ => none

def isCycle {α : Type} : Except Stuck α → Bool
  | .error .cycle => true
  | _ => false

def selfText : String := "struct S { struct S; };"

theorem selfText_read : errorsOfText selfText = some 0 ∧
    isCycle ((typesOfText selfText).lookupMemberAlong "x"
      ((typesOfText selfText).nodes.length + 1) (some 16)) = true := by decide +kernel

/-- A struct that is an anonymous member of itself is accepted, and looking for any other member
never ends. -/
theorem self_containing_accepted :
    ¬∀ (n : ℕ) (text : String) (unit : RawUnit) (p : Parser SourceText),
      parserParse n (textParser text) = .ok (unit, p) → p.nErrors = 0 → p.types.WellContained := by
  intro hall
  obtain ⟨herrors, hlookup⟩ := selfText_read
  unfold errorsOfText at herrors
  unfold typesOfText typesAfter at hlookup
  cases hparse : parserParse 100 (textParser selfText) with
  | error e =>
    rw [hparse] at herrors
    cases herrors
  | ok r =>
    rw [hparse] at herrors hlookup
    have hends := (hall 100 selfText r.1 r.2 hparse (Option.some.inj herrors)).lookups "x" (some 16)
    unfold isCycle at hlookup
    split at hlookup
    · exact hends ‹_›
    · cases hlookup

def foundedText : String := "struct T { int x; }; struct S { struct T t; char a[3]; char n[]; };"

theorem foundedText_checked : TypeTable.MeetsAll (fun t c => t.callCheck c = true)
    (typeTableInit arenaAddr) (typesOfText foundedText).calls := by decide +kernel

theorem wellContained_nested : (typesOfText foundedText).WellContained :=
  (TypeTable.reached_wellContained (reached_typesOfText foundedText)
    (foundedText_checked.mono fun _ _ => TypeTable.declarable_of_check) (List.prefix_refl _)).2

end TinyC
