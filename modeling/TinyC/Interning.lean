import TinyC.TypeHistory
import TinyC.SourceText

/-!
# Interned types

The type table is to hold one node for each derived type, so that types can be compared by address.
A qualified copy is no entry of the table, and a grouped declarator changes an entry in place. As
long as neither comes into play, the table does hold one node for each type.
-/

namespace TinyC

namespace TypeBody

/-- Equal bodies, but for the equality of their components: `same` for what they point to, and
`version` for two structs, unions or enumerations. -/
def SameBut (same : Option TypeRef → Option TypeRef → Prop) (version : Prop) :
    TypeBody → TypeBody → Prop
  | .scalar k, .scalar k' => k = k'
  | .pointer a, .pointer b => same a b
  | .array a n, .array b m => n = m ∧ same a b
  | .arrayUnsized a, .arrayUnsized b => same a b
  | .func r ps v, .func r' ps' v' =>
      v = v' ∧ same r r' ∧ List.Forall₂ (fun p p' => p.name = p'.name ∧ same p.type p'.type) ps ps'
  | .agg _ _, .agg _ _ | .enum _, .enum _ => version
  | _, _ => False

end TypeBody

namespace TypeTable

/-- The types have equal structure, as far as `n` nodes down. A struct, union or enumeration is
equal to its own versions with the same qualifiers. -/
def SameWithin (t : TypeTable) : ℕ → Option TypeRef → Option TypeRef → Prop
  | _, none, none => True
  | n + 1, some r, some s =>
      ∃ a ∈ t.nodes[r]?, ∃ b ∈ t.nodes[s]?, a.qual = b.qual ∧
        a.body.SameBut (t.SameWithin n) (t.origin r = t.origin s) b.body
  | _, _, _ => False

/-- The types have equal structure, qualifiers included. -/
def SameType (t : TypeTable) (r s : TypeRef) : Prop := ∃ n, t.SameWithin n (some r) (some s)

/-- Derived types are compared by address, and found in their bucket. -/
structure Canonical (t : TypeTable) : Prop where
  unique : ∀ (r s : TypeRef), ∀ a ∈ t.nodes[r]?, a.body.isDerived → t.SameType r s → r = s
  hashed : ∀ slot, ∀ r ∈ t.buckets slot, ∃ a ∈ t.nodes[r]?, t.slotOf a = slot

/-- The entries of `t` mean in `t'` what they mean in `t`. -/
def Keeps (t t' : TypeTable) : Prop :=
  ∀ r : TypeRef, ∀ a ∈ t.nodes[r]?, a.body.isDerived → a ∈ t'.nodes[r]?

/-! ### The steps that keep the table canonical -/

/-- If `type_qualify` makes a copy, it is the first version with these qualifiers of a type that is
not derived. -/
def FirstVersion (t : TypeTable) (base : TypeRef) (added : TypeQual) : Prop :=
  ∀ a ∈ t.nodes[base]?, a.qual.merge added ≠ a.qual → a.body.isDerived = false ∧
    ∀ r < t.nodes.length, t.origin r = t.origin base → ∀ b ∈ t.nodes[r]?, b.qual ≠ a.qual.merge added

/-- The grouped declarator has no base to fill in. -/
def NothingToFill (t : TypeTable) (r : TypeRef) (base : Option TypeRef) : Prop :=
  ∀ a ∈ t.nodes[r]?, a.body.fill base = a.body

instance (t : TypeTable) (base : TypeRef) (added : TypeQual) :
    Decidable (t.FirstVersion base added) := by
  unfold FirstVersion
  infer_instance

instance (t : TypeTable) (r : TypeRef) (base : Option TypeRef) :
    Decidable (t.NothingToFill r base) := by
  unfold NothingToFill
  infer_instance

def CanonicalStep (t : TypeTable) : TypeCall → Prop
  | .qualify base added => t.FirstVersion base added
  | .fill r base => t.NothingToFill r base
  | _ => True

/-! ### The invariant -/

/-- What a table holds as long as its steps are canonical. -/
structure Interned (t : TypeTable) : Prop where
  version : ∀ {r s : TypeRef} {a b : TypeNode}, t.nodes[r]? = some a → t.nodes[s]? = some b →
    a.body.isDerived = false → b.body.isDerived = false → t.origin r = t.origin s →
    a.qual = b.qual → r = s
  scalar : ∀ {r : TypeRef} {k : ScalarKind} {q : TypeQual},
    t.nodes[r]? = some ⟨.scalar k, q⟩ → t.origin r = scalarRef k
  origin : ∀ {r : TypeRef}, r < t.nodes.length → t.origin r < t.nodes.length
  fresh : ∀ {r : TypeRef}, t.nodes.length ≤ r → t.origin r = r
  mem : ∀ {r : TypeRef} {a : TypeNode}, t.nodes[r]? = some a → a.body.isDerived →
    r ∈ t.buckets (t.slotOf a)
  entry : ∀ {slot : ℕ} {r : TypeRef}, r ∈ t.buckets slot →
    ∃ a, t.nodes[r]? = some a ∧ a.body.isDerived ∧ t.slotOf a = slot
  plain : ∀ {r : TypeRef} {a : TypeNode}, t.nodes[r]? = some a → a.body.isDerived →
    (∀ p, a.body ≠ .pointer p) → a.qual = .none
  unique : ∀ {r s : TypeRef} {a : TypeNode}, t.nodes[r]? = some a → t.nodes[s]? = some a →
    a.body.isDerived → r = s

section

variable {t : TypeTable}

theorem lt_concat {n : TypeNode} {r : TypeRef} :
    r < (t.nodes ++ [n]).length ↔ r < t.nodes.length ∨ r = t.nodes.length := by
  rw [List.length_append, List.length_singleton]
  exact Nat.lt_succ_iff_lt_or_eq

theorem getElem?_concat {n a : TypeNode} {r : TypeRef} (h : (t.nodes ++ [n])[r]? = some a) :
    t.nodes[r]? = some a ∨ r = t.nodes.length ∧ a = n := by
  rcases lt_concat.mp (List.getElem?_eq_some_iff.mp h).1 with hr | rfl
  · exact .inl (by rwa [List.getElem?_append_left hr] at h)
  · rw [List.getElem?_concat_length, Option.some.injEq] at h
    exact .inr ⟨rfl, h.symm⟩

theorem getElem?_concat_of {n a : TypeNode} {r : TypeRef} (h : t.nodes[r]? = some a) :
    (t.nodes ++ [n])[r]? = some a := by
  obtain ⟨hr, -⟩ := List.getElem?_eq_some_iff.mp h
  rwa [List.getElem?_append_left hr]

theorem lt_of_getElem? {a : TypeNode} {r : TypeRef} (h : t.nodes[r]? = some a) :
    r < t.nodes.length := (List.getElem?_eq_some_iff.mp h).1

theorem interned_init (addr : TypeRef → BitVec 64) : (typeTableInit addr).Interned := by
  have hscalar : ∀ {r : TypeRef} {a : TypeNode}, (typeTableInit addr).nodes[r]? = some a →
      ∃ k, scalarKinds[r]? = some k ∧ a = { body := .scalar k } := by
    intro r a h
    rw [typeTableInit, List.getElem?_map, Option.map_eq_some_iff] at h
    obtain ⟨k, hk, rfl⟩ := h
    exact ⟨k, hk, rfl⟩
  have hderived : ∀ {r : TypeRef} {a : TypeNode}, (typeTableInit addr).nodes[r]? = some a →
      a.body.isDerived = false := by
    intro r a h
    obtain ⟨k, -, rfl⟩ := hscalar h
    rfl
  constructor
  case version => exact fun _ _ _ _ hrs _ => hrs
  case scalar =>
    intro r k q h
    obtain ⟨k', hk, hnode⟩ := hscalar h
    cases hnode
    have hnodup : scalarKinds.Nodup := by decide
    obtain ⟨hr, rfl⟩ := List.getElem?_eq_some_iff.mp hk
    exact (hnodup.idxOf_getElem r hr).symm
  case origin => exact fun h => h
  case fresh => exact fun _ => rfl
  case mem => exact fun h hd => absurd hd (by simp [hderived h])
  case entry => exact fun h => absurd h List.not_mem_nil
  case plain => exact fun h hd => absurd hd (by simp [hderived h])
  case unique => exact fun h _ hd => absurd hd (by simp [hderived h])

/-- A new node that is not derived: the versions of its origin have other qualifiers. -/
theorem Interned.alloc (h : t.Interned) {n : TypeNode} (hn : n.body.isDerived = false)
    {o : TypeRef} (ho : o < t.nodes.length ∨ o = t.nodes.length)
    (hk : ∀ k, n.body = .scalar k → o = scalarRef k)
    (hfirst : ∀ {r : TypeRef} {a : TypeNode}, t.nodes[r]? = some a → t.origin r = o →
      a.qual ≠ n.qual) :
    Interned { (t.alloc n).2 with origin := Function.update t.origin t.nodes.length o } := by
  have hold : ∀ {r : TypeRef} {a : TypeNode}, t.nodes[r]? = some a →
      Function.update t.origin t.nodes.length o r = t.origin r := fun hr =>
    Function.update_of_ne (lt_of_getElem? hr).ne _ _
  have hself : Function.update t.origin t.nodes.length o t.nodes.length = o :=
    Function.update_self _ _ _
  constructor
  case version =>
    intro r s a b hr hs ha hb horigin hqual
    dsimp only at horigin
    rcases getElem?_concat hr with hr' | ⟨rfl, hra⟩
    · rcases getElem?_concat hs with hs' | ⟨rfl, hsb⟩
      · rw [hold hr', hold hs'] at horigin
        exact h.version hr' hs' ha hb horigin hqual
      · rw [hold hr', hself] at horigin
        exact absurd (hsb ▸ hqual) (hfirst hr' horigin)
    · rcases getElem?_concat hs with hs' | ⟨rfl, -⟩
      · rw [hold hs', hself] at horigin
        exact absurd (hra ▸ hqual.symm) (hfirst hs' horigin.symm)
      · rfl
  case scalar =>
    intro r k q hr
    rcases getElem?_concat hr with hr | ⟨rfl, rfl⟩
    · exact (hold hr).trans (h.scalar hr)
    · exact hself.trans (hk k rfl)
  case origin =>
    intro r hr
    refine lt_concat.mpr ?_
    rcases lt_concat.mp hr with hr | rfl
    · exact .inl (lt_of_eq_of_lt (Function.update_of_ne hr.ne _ _) (h.origin hr))
    · rcases ho with ho | ho
      · exact .inl (hself.trans_lt ho)
      · exact .inr (hself.trans ho)
  case fresh =>
    intro r hr
    have hlt : t.nodes.length < r := lt_of_not_ge fun hle => hr.not_gt
      (lt_concat.mpr (lt_or_eq_of_le hle))
    exact (Function.update_of_ne hlt.ne' _ _).trans (h.fresh hlt.le)
  case mem =>
    intro r a hr hd
    rcases getElem?_concat hr with hr | ⟨-, rfl⟩
    · exact h.mem hr hd
    · rw [hn] at hd
      cases hd
  case entry =>
    intro slot r hr
    obtain ⟨a, ha, hd, hslot⟩ := h.entry hr
    exact ⟨a, getElem?_concat_of ha, hd, hslot⟩
  case plain =>
    intro r a hr hd
    rcases getElem?_concat hr with hr | ⟨-, rfl⟩
    · exact h.plain hr hd
    · rw [hn] at hd
      cases hd
  case unique =>
    intro r s a hr hs hd
    rcases getElem?_concat hr with hr | ⟨-, rfl⟩
    · rcases getElem?_concat hs with hs | ⟨-, rfl⟩
      · exact h.unique hr hs hd
      · rw [hn] at hd
        cases hd
    · rw [hn] at hd
      cases hd

/-- An entry that is looked for is there, or is made. -/
theorem Interned.intern (h : t.Interned) {n : TypeNode} {same : TypeNode → Bool}
    (hn : n.body.isDerived) (hplain : (∀ p, n.body ≠ .pointer p) → n.qual = .none)
    (hsame : same n) : (t.intern n same).2.Interned := by
  unfold TypeTable.intern
  cases hfind : t.findInterned (t.slotOf n) same with
  | some r => exact h
  | none =>
    -- no node of the table is this one
    have hnew : ∀ {r : TypeRef}, t.nodes[r]? ≠ some n := by
      intro r hr
      have hno := List.find?_eq_none.mp hfind r (h.mem hr hn)
      rw [hr] at hno
      exact hno hsame
    have hbucket : ∀ {slot : ℕ} {r : TypeRef}, r ∈ Function.update t.buckets (t.slotOf n)
        (t.nodes.length :: t.buckets (t.slotOf n)) slot ↔
          (r = t.nodes.length ∧ slot = t.slotOf n) ∨ r ∈ t.buckets slot := by
      intro slot r
      by_cases hslot : slot = t.slotOf n
      · subst hslot
        rw [Function.update_self, List.mem_cons]
        simp
      · rw [Function.update_of_ne hslot]
        simp [hslot]
    constructor
    case version =>
      intro r s a b hr hs ha hb
      rcases getElem?_concat hr with hr | ⟨-, rfl⟩
      · rcases getElem?_concat hs with hs | ⟨-, rfl⟩
        · exact h.version hr hs ha hb
        · rw [hn] at hb
          cases hb
      · rw [hn] at ha
        cases ha
    case scalar =>
      intro r k q hr
      rcases getElem?_concat hr with hr | ⟨-, rfl⟩
      · exact h.scalar hr
      · cases hn
    case origin =>
      intro r hr
      rcases lt_concat.mp hr with hlt | rfl
      · exact lt_concat.mpr (.inl (h.origin hlt))
      · exact lt_of_eq_of_lt (h.fresh le_rfl) hr
    case fresh =>
      intro r hr
      exact h.fresh (le_of_not_gt fun hlt => hr.not_gt (lt_concat.mpr (.inl hlt)))
    case mem =>
      intro r a hr hd
      refine hbucket.mpr ?_
      rcases getElem?_concat hr with hr | ⟨rfl, rfl⟩
      · exact .inr (h.mem hr hd)
      · exact .inl ⟨rfl, rfl⟩
    case entry =>
      intro slot r hr
      rcases hbucket.mp hr with ⟨rfl, rfl⟩ | hr
      · exact ⟨n, List.getElem?_concat_length, hn, rfl⟩
      · obtain ⟨a, ha, hd, hslot⟩ := h.entry hr
        exact ⟨a, getElem?_concat_of ha, hd, hslot⟩
    case plain =>
      intro r a hr hd
      rcases getElem?_concat hr with hr | ⟨-, rfl⟩
      · exact h.plain hr hd
      · exact hplain
    case unique =>
      intro r s a hr hs hd
      rcases getElem?_concat hr with hr | ⟨rfl, ha⟩
      · rcases getElem?_concat hs with hs | ⟨rfl, ha⟩
        · exact h.unique hr hs hd
        · exact absurd (ha ▸ hr) hnew
      · rcases getElem?_concat hs with hs | ⟨rfl, -⟩
        · exact absurd (ha ▸ hs) hnew
        · rfl

/-- A change of bodies that leaves derived types and scalars as they are. -/
theorem Interned.setBody (h : t.Interned) (r : TypeRef) {f : TypeBody → TypeBody}
    (hd : ∀ b, b.isDerived → f b = b) (hk : ∀ b, (f b).isDerived = b.isDerived)
    (hs : ∀ b k, f b = .scalar k → b = .scalar k) : (t.setBody r f).Interned := by
  have hnode : ∀ {s : TypeRef} {a : TypeNode}, (t.setBody r f).nodes[s]? = some a →
      ∃ b, t.nodes[s]? = some b ∧ a.qual = b.qual ∧ a.body.isDerived = b.body.isDerived ∧
        (b.body.isDerived → a = b) ∧ ∀ k, a.body = .scalar k → b.body = .scalar k := by
    intro s a ha
    rw [TypeTable.setBody, List.getElem?_modify, Option.map_eq_map, Option.map_eq_some_iff] at ha
    obtain ⟨b, hb, rfl⟩ := ha
    refine ⟨b, hb, ?_⟩
    split
    · exact ⟨rfl, hk _, fun hb => by rw [hd _ hb], hs _⟩
    · exact ⟨rfl, rfl, fun _ => rfl, fun _ hb => hb⟩
  have hlen : (t.setBody r f).nodes.length = t.nodes.length := List.length_modify _ _ _
  constructor
  case version =>
    intro r s a b hr hs ha hb horigin hqual
    obtain ⟨a', hr, hqa, hda, -, -⟩ := hnode hr
    obtain ⟨b', hs, hqb, hdb, -, -⟩ := hnode hs
    exact h.version hr hs (hda ▸ ha) (hdb ▸ hb) horigin (hqa ▸ hqb ▸ hqual)
  case scalar =>
    intro r k q hr
    obtain ⟨⟨body, q'⟩, hr, -, -, -, hbody⟩ := hnode hr
    cases hbody k rfl
    exact h.scalar hr
  case origin =>
    intro r hr
    rw [hlen] at hr ⊢
    exact h.origin hr
  case fresh =>
    intro r hr
    rw [hlen] at hr
    exact h.fresh hr
  case mem =>
    intro r a hr hda
    obtain ⟨b, hr, -, hdb, hab, -⟩ := hnode hr
    rw [hab (hdb ▸ hda)]
    exact h.mem hr (hdb ▸ hda)
  case entry =>
    intro slot s hr
    obtain ⟨a, ha, hda, hslot⟩ := h.entry hr
    refine ⟨a, ?_, hda, hslot⟩
    rw [TypeTable.setBody, List.getElem?_modify, ha, Option.map_eq_map, Option.map_some,
      Option.some.injEq]
    split
    · rw [hd _ hda]
    · rfl
  case plain =>
    intro r a hr hda
    obtain ⟨b, hr, -, hdb, hab, -⟩ := hnode hr
    rw [hab (hdb ▸ hda)]
    exact h.plain hr (hdb ▸ hda)
  case unique =>
    intro r s a hr hs hda
    obtain ⟨b, hr, -, hdb, hab, -⟩ := hnode hr
    obtain ⟨c, hs, -, hdc, hac, -⟩ := hnode hs
    rw [← hab (hdb ▸ hda)] at hr
    rw [← hac (hdc ▸ hda)] at hs
    exact h.unique hr hs hda

theorem setBody_eq_self {r : TypeRef} {f : TypeBody → TypeBody}
    (h : ∀ a ∈ t.nodes[r]?, f a.body = a.body) : t.setBody r f = t := by
  have hnodes : (t.nodes.modify r fun n => { n with body := f n.body }) = t.nodes := by
    apply List.ext_getElem?
    intro s
    rw [List.getElem?_modify]
    cases hs : t.nodes[s]? with
    | none => rfl
    | some a =>
      rw [Option.map_eq_map, Option.map_some]
      split
      · rename_i hrs
        rw [h a (hrs ▸ hs)]
      · rfl
  unfold TypeTable.setBody
  rw [hnodes]

theorem complete_derived (fields : List FieldNode) (size align : ℤ) (b : TypeBody)
    (h : b.isDerived) : b.complete fields size align = b := by
  cases b <;> first | rfl | cases h

theorem enumerate_derived (consts : List (String × ℤ)) (b : TypeBody) (h : b.isDerived) :
    b.enumerate consts = b := by
  cases b <;> first | rfl | cases h

/-- The invariant does not speak of the history. -/
theorem Interned.noted (h : t.Interned) (cs : List TypeCall) : Interned { t with calls := cs } :=
  ⟨h.version, h.scalar, h.origin, h.fresh, h.mem, h.entry, h.plain, h.unique⟩

theorem Interned.newNode (h : t.Interned) {b : TypeBody} (hd : b.isDerived = false)
    (hk : ∀ k, b ≠ .scalar k) : (t.alloc { body := b }).2.Interned := by
  have horigin : Function.update t.origin t.nodes.length t.nodes.length = t.origin := by
    rw [Function.update_eq_iff]
    exact ⟨(h.fresh le_rfl).symm, fun _ _ => rfl⟩
  have hfirst : ∀ {r : TypeRef} {a : TypeNode}, t.nodes[r]? = some a →
      t.origin r = t.nodes.length → a.qual ≠ .none := by
    intro r a ha hr _
    exact (h.origin (lt_of_getElem? ha)).ne hr
  have halloc := h.alloc (n := { body := b }) hd (.inr rfl) (fun k hb => absurd hb (hk k)) hfirst
  rwa [horigin] at halloc

theorem Interned.qualify (h : t.Interned) {base : TypeRef} {added : TypeQual}
    (hc : t.FirstVersion base added) : (t.typeQualify base added).2.Interned := by
  unfold TypeTable.typeQualify
  cases hbase : t.nodes[base]? with
  | none => exact h
  | some n =>
    dsimp only
    split
    · exact h
    · rename_i hqual
      obtain ⟨hd, hfirst⟩ := hc n hbase hqual
      refine h.alloc (n := { n with qual := n.qual.merge added }) hd
        (.inl (h.origin (lt_of_getElem? hbase))) ?_ ?_
      · intro k hk
        obtain ⟨body, q⟩ := n
        cases hk
        exact h.scalar hbase
      · intro r a ha hr
        exact hfirst r (lt_of_getElem? ha) hr a ha

/-- What one step preserves. -/
theorem Interned.call (h : t.Interned) {c : TypeCall} (hc : t.CanonicalStep c) :
    (t.call c).2.Interned := by
  have hperform : (t.perform c).2.Interned := by
    cases c with
    | pointer pointee qual =>
      exact h.intern rfl (fun hp => absurd rfl (hp _)) (by simp)
    | array elem count => exact h.intern rfl (fun _ => rfl) (by simp)
    | arrayUnsized elem => exact h.intern rfl (fun _ => rfl) (by simp)
    | func ret params variadic => exact h.intern rfl (fun _ => rfl) (by simp)
    | qualify base added => exact h.qualify hc
    | agg isUnion tag => exact h.newNode rfl (by simp)
    | enum tag => exact h.newNode rfl (by simp)
    | fill r base =>
      have hself : t.setBody r (.fill base) = t := setBody_eq_self hc
      change (t.setBody r (.fill base)).Interned
      rwa [hself]
    | complete r fields size align =>
      exact h.setBody r (complete_derived _ _ _) (fun b => by cases b <;> rfl)
        (fun b k hb => by cases b <;> cases hb; rfl)
    | enumerate r consts =>
      exact h.setBody r (enumerate_derived _) (fun b => by cases b <;> rfl)
        (fun b k hb => by cases b <;> cases hb; rfl)
  exact hperform.noted _

/-- Types of equal structure are one node. -/
theorem Interned.eq_of_sameWithin (h : t.Interned) {n : ℕ} {x y : Option TypeRef}
    (hsame : t.SameWithin n x y) : x = y := by
  induction n generalizing x y with
  | zero =>
    cases x with
    | none =>
      cases y with
      | none => rfl
      | some s => cases hsame
    | some r => cases hsame
  | succ n ih =>
    cases x with
    | none =>
      cases y with
      | none => rfl
      | some s => cases hsame
    | some r =>
      cases y with
      | none => cases hsame
      | some s =>
        obtain ⟨⟨abody, q⟩, ha, ⟨bbody, q'⟩, hb, hqual, hbody⟩ := hsame
        cases hqual
        have hversion : abody.isDerived = false → bbody.isDerived = false →
            t.origin r = t.origin s → r = s := fun hda hdb horigin =>
          h.version ha hb hda hdb horigin rfl
        have hunique : abody = bbody → abody.isDerived → r = s := fun heq hd =>
          h.unique ha (heq ▸ hb) hd
        refine congrArg some ?_
        cases abody <;> cases bbody <;> try exact hbody.elim
        case scalar.scalar k k' =>
          cases hbody
          exact hversion rfl rfl ((h.scalar ha).trans (h.scalar hb).symm)
        case pointer.pointer a b => exact hunique (congrArg _ (ih hbody)) rfl
        case array.array a n b m =>
          obtain ⟨rfl, hab⟩ := hbody
          exact hunique (congrArg (TypeBody.array · n) (ih hab)) rfl
        case arrayUnsized.arrayUnsized a b => exact hunique (congrArg _ (ih hbody)) rfl
        case func.func ret ps v ret' ps' v' =>
          obtain ⟨rfl, hret, hps⟩ := hbody
          have hpar : ∀ p p' : ParamNode, (p.name = p'.name ∧ t.SameWithin n p.type p'.type) →
              p = p' := by
            rintro ⟨name, type⟩ ⟨name', type'⟩ ⟨hname, htype⟩
            cases hname
            cases ih htype
            rfl
          have hparams : ps = ps' := List.forall₂_eq_eq_eq ▸ hps.imp hpar
          cases ih hret
          exact hunique (by rw [hparams]) rfl
        case agg.agg => exact hversion rfl rfl hbody
        case enum.enum => exact hversion rfl rfl hbody

theorem Interned.canonical (h : t.Interned) : t.Canonical where
  unique r s a _ _ hsame := by
    obtain ⟨n, hn⟩ := hsame
    exact Option.some.inj (h.eq_of_sameWithin hn)
  hashed slot r hr := by
    obtain ⟨a, ha, -, hslot⟩ := h.entry hr
    exact ⟨a, ha, hslot⟩

/-! ### Entries -/

theorem Keeps.refl : t.Keeps t := fun _ _ ha _ => ha

theorem Keeps.trans {t₁ t₂ : TypeTable} (h : t.Keeps t₁) (h' : t₁.Keeps t₂) : t.Keeps t₂ :=
  fun r a ha hd => h' r a (h r a ha hd) hd

theorem keeps_alloc (n : TypeNode) : t.Keeps (t.alloc n).2 := fun _ _ ha _ =>
  getElem?_concat_of ha

theorem keeps_intern (n : TypeNode) (same : TypeNode → Bool) : t.Keeps (t.intern n same).2 := by
  unfold TypeTable.intern
  split
  · exact .refl
  · exact keeps_alloc n

theorem keeps_setBody {r : TypeRef} {f : TypeBody → TypeBody} (hd : ∀ b, b.isDerived → f b = b) :
    t.Keeps (t.setBody r f) := by
  intro s a ha hda
  rw [Option.mem_def, TypeTable.setBody, List.getElem?_modify, ha, Option.map_eq_map,
    Option.map_some, Option.some.injEq]
  split
  · rw [hd _ hda]
  · rfl

theorem keeps_call {c : TypeCall} (hc : t.CanonicalStep c) : t.Keeps (t.call c).2 := by
  cases c with
  | pointer pointee qual => exact keeps_intern _ _
  | array elem count => exact keeps_intern _ _
  | arrayUnsized elem => exact keeps_intern _ _
  | func ret params variadic => exact keeps_intern _ _
  | qualify base added =>
    change t.Keeps { (t.typeQualify base added).2 with calls := _ }
    unfold TypeTable.typeQualify
    split
    · exact .refl
    · dsimp only
      split
      · exact .refl
      · exact keeps_alloc _
  | agg isUnion tag => exact keeps_alloc _
  | enum tag => exact keeps_alloc _
  | fill r base =>
    have hself : t.setBody r (.fill base) = t := setBody_eq_self hc
    change t.Keeps { t.setBody r (.fill base) with calls := _ }
    rw [hself]
    exact .refl
  | complete r fields size align => exact keeps_setBody (complete_derived _ _ _)
  | enumerate r consts => exact keeps_setBody (enumerate_derived _)

end

end TypeTable

open TypeTable

instance : ∀ t c, Decidable (CanonicalStep t c)
  | t, .qualify base added => inferInstanceAs (Decidable (t.FirstVersion base added))
  | t, .fill r base => inferInstanceAs (Decidable (t.NothingToFill r base))
  | _, .pointer _ _ | _, .array _ _ | _, .arrayUnsized _ | _, .func _ _ _ | _, .agg _ _
  | _, .enum _ | _, .complete _ _ _ _ | _, .enumerate _ _ => isTrue trivial

/-- A table whose steps are all canonical, and every table on the way to it, holds one node for
each derived type, in its bucket, and no entry changes later on. -/
theorem types_canonical {addr : TypeRef → BitVec 64} {t : TypeTable} (h : Reached addr t)
    (hsteps : MeetsAll CanonicalStep (typeTableInit addr) t.calls) {cs : List TypeCall}
    (hcs : cs <+: t.calls) :
    ((typeTableInit addr).run cs).Canonical ∧ ((typeTableInit addr).run cs).Keeps t := by
  obtain ⟨ds, hds⟩ := hcs
  obtain ⟨hbefore, hafter⟩ := (hds ▸ hsteps).split
  have hinit : (typeTableInit addr).Interned := interned_init addr
  have hinterned : ((typeTableInit addr).run cs).Interned :=
    hbefore.preserves (fun t c ht hc => ht.call hc) hinit
  have hkeeps : ((typeTableInit addr).run cs).Keeps (((typeTableInit addr).run cs).run ds) :=
    hafter.preserves (I := ((typeTableInit addr).run cs).Keeps)
      (fun t c ht hc => ht.trans (keeps_call hc)) .refl
  rw [← run_append, hds, ← h.eq_run] at hkeeps
  exact ⟨hinterned.canonical, hkeeps⟩

/-- Declarations that share `int **`. -/
theorem types_canonical_shared :
    let t := typesOfText "const int *p; int **q[3], f(int **, ...), **r[3];"
    ((typeTableInit arenaAddr).run t.calls).Canonical ∧
      ((typeTableInit arenaAddr).run t.calls).Keeps t :=
  types_canonical (reached_typesOfText _) (by decide +kernel) List.prefix_rfl

/-- The type of `a`, a qualified copy, is no entry, so that of `b` becomes another node. -/
theorem qualified_pointer_not_canonical :
    ∃ t, Reached arenaAddr t ∧ t = typesOfText "typedef int *P; const P a; int *const b;" ∧
      ¬ t.Canonical := by
  refine ⟨_, reached_typesOfText _, rfl, fun h => ?_⟩
  set t := typesOfText "typedef int *P; const P a; int *const b;" with ht
  have ha : t.nodes[17]? = some ⟨.pointer (some 7), { isConst := true }⟩ := by decide +kernel
  have hb : t.nodes[18]? = some ⟨.pointer (some 7), { isConst := true }⟩ := by decide +kernel
  have hint : t.nodes[7]? = some { body := .scalar .int } := by decide +kernel
  have hsame : t.SameType 17 18 := ⟨2, _, ha, _, hb, rfl, _, hint, _, hint, rfl, rfl⟩
  have heq : 17 = 18 := h.unique 17 18 _ ha rfl hsame
  omega

end TinyC
