import TinyC.Versions

/-!
# Tags defined in a block

A definition gives its members to the visible type of that tag and kind, wherever the tag was
declared. So a block leaves the types around it alone exactly if none of the tags it defines stands
for one of them.
-/

namespace TinyC

section

variable {L α : Type}

/-- The type has been made since the table had `n` nodes. -/
def TagDefinition.IsNew (n : ℕ) (d : TagDefinition) : Prop := n ≤ d.type

/-- The tag did not stand for one of the first `n` nodes. -/
def TagDefinition.Hides (n : ℕ) (d : TagDefinition) : Prop := ∀ r ∈ d.visible, n ≤ r

/-- The structs, unions and enumerations among the first `n` nodes are what they were. -/
def TypeTable.Untouched (n : ℕ) (t t' : TypeTable) : Prop :=
  ∀ r < n, ∀ a ∈ t.nodes[r]?, a.body.isDerived = false → a ∈ t'.nodes[r]?

/-- What the parser does after the table had `n` nodes: a definition makes a new type if its tag
hides the old ones, and if all do, the old types are untouched. -/
def TagsSince (n : ℕ) (p p' : Parser L) : Prop :=
  n ≤ p.types.nodes.length → n ≤ p'.types.nodes.length ∧
    ∃ ds, p'.definitions = p.definitions ++ ds ∧ (∀ d ∈ ds, d.IsNew n ↔ d.Hides n) ∧
      ((∀ d ∈ ds, d.Hides n) → p.types.Untouched n p'.types)

variable {n : ℕ} {t : TypeTable}

theorem untouched_alloc (a : TypeNode) : t.Untouched n (t.alloc a).2 := fun _ _ _ ha _ =>
  TypeTable.getElem?_concat_of ha

theorem untouched_setBody {r : TypeRef} {f : TypeBody → TypeBody}
    (h : (∀ b, b.isDerived = false → f b = b) ∨ n ≤ r) : t.Untouched n (t.setBody r f) := by
  intro s hs a ha hd
  rw [Option.mem_def, TypeTable.setBody, List.getElem?_modify, ha, Option.map_eq_map,
    Option.map_some, Option.some.injEq]
  split
  · rename_i hrs
    rcases h with h | h
    · rw [h _ hd]
    · exact absurd (hrs ▸ h) hs.not_ge
  · rfl

theorem length_call_le (t : TypeTable) (c : TypeCall) :
    t.nodes.length ≤ (t.call c).2.nodes.length := by
  have halloc : ∀ a, t.nodes.length ≤ (t.alloc a).2.nodes.length := fun a =>
    (List.prefix_append _ _).length_le
  have hintern : ∀ a same, t.nodes.length ≤ (t.intern a same).2.nodes.length := by
    intro a same
    unfold TypeTable.intern
    split
    · exact le_rfl
    · exact halloc a
  have hbody : ∀ r f, t.nodes.length ≤ (t.setBody r f).nodes.length := fun r f =>
    (List.length_modify _ _ _).ge
  cases c with
  | pointer pointee qual => exact hintern _ _
  | array elem count => exact hintern _ _
  | arrayUnsized elem => exact hintern _ _
  | func ret params variadic => exact hintern _ _
  | qualify base added =>
    change t.nodes.length ≤ (t.typeQualify base added).2.nodes.length
    unfold TypeTable.typeQualify
    split
    · exact le_rfl
    · dsimp only
      split
      · exact le_rfl
      · exact halloc _
  | agg isUnion tag => exact halloc _
  | enum tag => exact halloc _
  | fill r base => exact hbody _ _
  | complete r fields size align => exact hbody _ _
  | enumerate r consts => exact hbody _ _

theorem untouched_call {c : TypeCall} (hc : c.isMinor) : t.Untouched n (t.call c).2 := by
  have hintern : ∀ a same, t.Untouched n (t.intern a same).2 := by
    intro a same
    unfold TypeTable.intern
    split
    · exact fun _ _ _ ha _ => ha
    · exact untouched_alloc a
  cases c with
  | pointer pointee qual => exact hintern _ _
  | array elem count => exact hintern _ _
  | arrayUnsized elem => exact hintern _ _
  | func ret params variadic => exact hintern _ _
  | qualify base added =>
    change t.Untouched n { (t.typeQualify base added).2 with calls := _ }
    unfold TypeTable.typeQualify
    split
    · exact fun _ _ _ ha _ => ha
    · dsimp only
      split
      · exact fun _ _ _ ha _ => ha
      · exact untouched_alloc _
  | agg isUnion tag => exact untouched_alloc _
  | enum tag => exact untouched_alloc _
  | fill r base =>
    refine untouched_setBody (.inl fun b hb => ?_)
    cases b <;> first | rfl | cases hb
  | complete r fields size align => cases hc
  | enumerate r consts => cases hc

/-! ### Steps -/

theorem TagsSince.of_types {p p' : Parser L} (hdefs : p'.definitions = p.definitions)
    (hlen : p.types.nodes.length ≤ p'.types.nodes.length) (h : p.types.Untouched n p'.types) :
    TagsSince n p p' := fun hn =>
  ⟨hn.trans hlen, [], by rw [hdefs, List.append_nil], fun d hd => absurd hd List.not_mem_nil,
    fun _ => h⟩

theorem TagsSince.same {p p' : Parser L} (hdefs : p'.definitions = p.definitions)
    (htypes : p'.types = p.types) : TagsSince n p p' :=
  .of_types hdefs (by rw [htypes]) (by rw [htypes]; exact fun _ _ _ ha _ => ha)

theorem TagsSince.trans {p q r : Parser L} (h : TagsSince n p q) (h' : TagsSince n q r) :
    TagsSince n p r := by
  intro hn
  obtain ⟨hq, ds, hds, hnew, hkeep⟩ := h hn
  obtain ⟨hr, es, hes, hnew', hkeep'⟩ := h' hq
  refine ⟨hr, ds ++ es, by rw [hes, hds, List.append_assoc], ?_, ?_⟩
  · intro d hd
    rcases List.mem_append.mp hd with hd | hd
    · exact hnew d hd
    · exact hnew' d hd
  · intro hall i hi a ha hd
    have hfirst := hkeep (fun d hd => hall d (List.mem_append_left es hd)) i hi a ha hd
    exact hkeep' (fun d hd => hall d (List.mem_append_right ds hd)) i hi a hfirst hd

/-- The node of a tag is new exactly if the tag hides the old ones. -/
theorem tagType_isNew {kind : SymKind} {tag : Option String} {visible : Option TypeRef}
    {c : TypeCall} {p p' : Parser L} {ty : TypeRef} (hc : (p.types.call c).1 = p.types.nodes.length)
    (hn : n ≤ p.types.nodes.length) (h : tagType kind tag visible c p = .ok (ty, p')) :
    TagDefinition.IsNew n ⟨kind, tag, visible, ty⟩ ↔
      TagDefinition.Hides n ⟨kind, tag, visible, ty⟩ := by
  cases visible with
  | some r =>
    cases h
    exact ⟨fun hr s hs => Option.some.inj hs ▸ hr, fun hr => hr _ rfl⟩
  | none =>
    have hty : ty = p.types.nodes.length := by
      cases tag with
      | none =>
        cases h
        exact hc
      | some name =>
        cases h
        exact hc
    exact ⟨fun _ s hs => absurd hs (by simp), fun _ => hty ▸ hn⟩

/-- The end of a definition. -/
theorem tagsSince_define {d : TagDefinition} {c : TypeCall} {f : TypeBody → TypeBody}
    (hc : ∀ t : TypeTable, t.perform c = (d.type, t.setBody d.type f))
    (hnew : d.IsNew n ↔ d.Hides n) :
    Steps (TagsSince n) (typeCall c >>= fun _ => noteDefinition d >>= fun _ =>
      (pure d.type : ParseM L TypeRef)) := by
  intro p a p' h hn
  cases h
  have htypes : (p.types.call c).2 = { p.types.setBody d.type f with calls := p.types.calls ++ [c] } := by
    rw [TypeTable.call, hc]
  refine ⟨hn.trans (length_call_le p.types c), [d], rfl, ?_, ?_⟩
  · intro e he
    rw [List.mem_singleton.mp he]
    exact hnew
  · intro hall
    change p.types.Untouched n (p.types.call c).2
    rw [htypes]
    exact untouched_setBody (.inr (hnew.mpr (hall d List.mem_cons_self)))

theorem readTypes_ok {f : TypeTable → Except Stuck α} {p p' : Parser L} {a : α}
    (h : readTypes f p = .ok (a, p')) : f p.types = .ok a ∧ p' = p := by
  obtain ⟨q, q', hget, h⟩ := ParseM.bind_ok h
  cases hget
  cases hf : f p.types with
  | ok b =>
    simp only [hf] at h
    cases h
    exact ⟨rfl, rfl⟩
  | error e =>
    simp only [hf] at h
    cases h

variable [TokenSource L]

theorem tagsSince_stepRules (n : ℕ) :
    StepRules (TagsSince n : Parser L → Parser L → Prop) where
  refl _ := .same rfl rfl
  trans := .trans
  peek _ := .same rfl rfl
  advance _ := .same rfl rfl
  parseError _ _ _ _ := .same rfl rfl
  typeCall p _ hc := .of_types rfl (length_call_le p.types _) (untouched_call hc)
  scopes _ _ _ := .same rfl rfl
  counters _ _ _ _ _ := .same rfl rfl

theorem sealed_eq {isUnion : Bool} {t : TypeTable} {r : TypeRef} {fields : List FieldNode}
    {c : TypeCall} (h : (if isUnion then t.sealUnion r fields else t.sealStruct r fields) = .ok c) :
    ∃ fs size align, c = .complete r fs size align := by
  cases isUnion with
  | true =>
    cases hm : t.sealMembers 0 1 fields with
    | error e => simp [TypeTable.sealUnion, hm, bind, Except.bind] at h
    | ok m =>
      simp only [TypeTable.sealUnion, hm, bind, Except.bind, if_true] at h
      cases h
      exact ⟨_, _, _, rfl⟩
  | false =>
    cases hm : t.sealFields {} fields with
    | error e => simp [TypeTable.sealStruct, hm, bind, Except.bind] at h
    | ok m =>
      simp only [TypeTable.sealStruct, hm, bind, Except.bind, Bool.false_eq_true, if_false] at h
      cases h
      exact ⟨_, _, _, rfl⟩

variable {F F' : ParseFns L}

theorem tagsSince_structUnion (h : F.Related (fun {_} m _ => Steps (TagsSince n) m) F')
    (isUnion : Bool) : Steps (TagsSince n) (parseStructUnion F isUnion) := by
  have S : StepRules (TagsSince n : Parser L → Parser L → Prop) := tagsSince_stepRules n
  have R := S.stateRules
  intro p ty p' hp hn
  obtain ⟨_, q, hq, hp⟩ := ParseM.bind_ok hp
  obtain ⟨tag, q₁, hq₁, hp⟩ := ParseM.bind_ok hp
  obtain ⟨visible, q₂, hq₂, hp⟩ := ParseM.bind_ok hp
  have hbefore : TagsSince n p q₂ := ((R.advance _ _ _ hq).trans (R.parseTag _ _ _ hq₁)).trans
    (R.visibleTag _ _ _ _ _ hq₂)
  obtain ⟨r, q₃, hq₃, hp⟩ := ParseM.bind_ok hp
  have hnew := tagType_isNew rfl (hbefore hn).1 hq₃
  have hrest : Steps (TagsSince n) (check .lbrace >>= fun opens => if opens = true then do
        let _ ← advance
        let fields ← F.members []
        let _ ← expect .rbrace
        F.skipAttributes
        let c ← readTypes fun t => if isUnion then t.sealUnion r fields else t.sealStruct r fields
        let _ ← typeCall c
        noteDefinition ⟨if isUnion then .unionTag else .structTag, tag, visible, r⟩
        return r
      else pure r) := by
    refine S.bind (R.check _) fun _ => Steps.ite (S.bind R.advance fun _ =>
      S.bind (h.members _) fun fields => S.bind (R.expect _) fun _ =>
      S.bind h.skipAttributes fun _ => ?_) (R.pure _)
    intro p₁ a p₂ hp
    obtain ⟨c, p₃, hp₃, hp⟩ := ParseM.bind_ok hp
    obtain ⟨hc, rfl⟩ := readTypes_ok hp₃
    obtain ⟨fs, size, align, rfl⟩ := sealed_eq hc
    exact tagsSince_define (f := .complete fs size align) (fun t => rfl) hnew _ _ _ hp
  exact (hbefore.trans ((R.tagType _ _ _ rfl _ _ _ hq₃).trans (hrest _ _ _ hp))) hn

theorem tagsSince_enum (h : F.Related (fun {_} m _ => Steps (TagsSince n) m) F') :
    Steps (TagsSince n) (parseEnum F) := by
  have S : StepRules (TagsSince n : Parser L → Parser L → Prop) := tagsSince_stepRules n
  have R := S.stateRules
  intro p ty p' hp hn
  obtain ⟨_, q, hq, hp⟩ := ParseM.bind_ok hp
  obtain ⟨tag, q₁, hq₁, hp⟩ := ParseM.bind_ok hp
  obtain ⟨visible, q₂, hq₂, hp⟩ := ParseM.bind_ok hp
  have hbefore : TagsSince n p q₂ := ((R.advance _ _ _ hq).trans (R.parseTag _ _ _ hq₁)).trans
    (R.visibleTag _ _ _ _ _ hq₂)
  obtain ⟨r, q₃, hq₃, hp⟩ := ParseM.bind_ok hp
  have hnew := tagType_isNew rfl (hbefore hn).1 hq₃
  have hrest : Steps (TagsSince n) (check .lbrace >>= fun opens => if opens = true then do
        let _ ← advance
        let consts ← F.enumerators 0 []
        let _ ← expect .rbrace
        F.skipAttributes
        let _ ← typeCall (.enumerate r consts)
        noteDefinition ⟨.enumTag, tag, visible, r⟩
        return r
      else pure r) :=
    S.bind (R.check _) fun _ => Steps.ite (S.bind R.advance fun _ =>
      S.bind (h.enumerators _ _) fun consts => S.bind (R.expect _) fun _ =>
      S.bind h.skipAttributes fun _ =>
        tagsSince_define (f := .enumerate consts) (fun t => rfl) hnew) (R.pure _)
  exact (hbefore.trans ((R.tagType _ _ _ rfl _ _ _ hq₃).trans (hrest _ _ _ hp))) hn

theorem tagsSince_parseRules (n : ℕ) : ParseRules (L := L) (fun {_} m _ => Steps (TagsSince n) m) :=
  ⟨(tagsSince_stepRules n).stateRules, tagsSince_structUnion, tagsSince_enum⟩

/-! ### Blocks -/

/-- The scopes are what they were. -/
def SameScopes (p p' : Parser L) : Prop := p'.scope = p.scope ∧ p'.tagScope = p.tagScope

theorem expect_sameScopes {k : TokenKind} {p p' : Parser L} {t : Token}
    (h : expect k p = .ok (t, p')) : SameScopes p p' := by
  have hrefl : ∀ p : Parser L, SameScopes p p := fun p => ⟨rfl, rfl⟩
  have htrans : ∀ p q r : Parser L, SameScopes p q → SameScopes q r → SameScopes p r :=
    fun _ _ _ h h' => ⟨h'.1.trans h.1, h'.2.trans h.2⟩
  have hpeek : Steps SameScopes (peek : ParseM L Token) := Steps.one fun p => ⟨rfl, rfl⟩
  have hadvance : Steps SameScopes (advance : ParseM L Token) := Steps.one fun p => ⟨rfl, rfl⟩
  have herror : ∀ line col msg, Steps SameScopes (parseError line col msg : ParseM L Unit) :=
    fun line col msg => Steps.one fun p => ⟨rfl, rfl⟩
  have hdescribe : ∀ t, Steps SameScopes (describe t : ParseM L String) := fun t =>
    Steps.bind htrans (Steps.get hrefl) fun _ => Steps.pure hrefl _
  have hexpect : Steps SameScopes (expect k : ParseM L Token) :=
    Steps.bind htrans hpeek fun _ => Steps.ite hadvance (Steps.bind htrans (hdescribe _) fun _ =>
      Steps.bind htrans (herror _ _ _) fun _ => Steps.ite
        (Steps.bind htrans hadvance fun _ => Steps.pure hrefl _) (Steps.pure hrefl _))
  exact hexpect _ _ _ h

omit [TokenSource L] in
theorem inNewScope_sameScopes {m : ParseM L α} {p p' : Parser L} {a : α}
    (h : inNewScope m p = .ok (a, p')) : SameScopes p p' := by
  obtain ⟨saved, q, hq, h⟩ := ParseM.bind_ok h
  cases hq
  obtain ⟨_, q, hq, h⟩ := ParseM.bind_ok h
  obtain ⟨b, q₁, hq₁, h⟩ := ParseM.bind_ok h
  cases h
  exact ⟨rfl, rfl⟩

theorem parseCompound_sameScopes {p p' : Parser L} {s : RawStmt}
    (h : parseCompound F p = .ok (s, p')) : SameScopes p p' := by
  obtain ⟨_, q, hq, h⟩ := ParseM.bind_ok h
  have hscope := inNewScope_sameScopes h
  have hopen := expect_sameScopes hq
  exact ⟨hscope.1.trans hopen.1, hscope.2.trans hopen.2⟩

/-- A block makes new types and leaves the structs, unions and enumerations around it alone exactly
if no tag it defines stands for one of them. -/
theorem block_tags {k : ℕ} {p p' : Parser L} {s : RawStmt} {ds : List TagDefinition}
    (h : parseCompound (parsers k) p = .ok (s, p'))
    (hds : p'.definitions = p.definitions ++ ds) :
    ((∀ d ∈ ds, d.IsNew p.types.nodes.length) ∧
        p.types.Untouched p.types.nodes.length p'.types ∧ SameScopes p p') ↔
      ∀ d ∈ ds, d.Hides p.types.nodes.length := by
  have R := tagsSince_parseRules (L := L) p.types.nodes.length
  obtain ⟨-, es, hes, hnew, hkeep⟩ := R.parseCompound (R.parsers k) p s p' h le_rfl
  obtain rfl : es = ds := List.append_cancel_left (hes.symm.trans hds)
  constructor
  · rintro ⟨hall, -⟩ d hd
    exact (hnew d hd).mp (hall d hd)
  · intro hall
    exact ⟨fun d hd => (hnew d hd).mpr (hall d hd), hkeep hall, parseCompound_sameScopes h⟩

end

instance (n : ℕ) (d : TagDefinition) : Decidable (d.Hides n) := by
  unfold TagDefinition.Hides
  infer_instance

/-- The parser of a text in which the tag `T` stands for a struct. -/
def parserWithStruct (text : String) : Parser SourceText :=
  { textParser text with
    types := ((typeTableInit arenaAddr).call (.agg false (some "T"))).2
    tagScope := ScopeChain.define scopeBuckets (ScopeChain.push []) "T" ⟨.structTag, some 16⟩ }

theorem ok_get {ε β : Type} {x : Except ε β} (h : x.toOption.isSome) :
    x = .ok (x.toOption.get h) := by
  cases x with
  | ok b => rfl
  | error e => cases h

theorem union_block_ends : (parseCompound (parsers 60)
    (parserWithStruct "{ union T { char c; } u; }")).toOption.isSome := by decide +kernel

/-- A union that hides a struct. -/
theorem block_tags_union :
    ∃ s p', parseCompound (parsers 60) (parserWithStruct "{ union T { char c; } u; }") =
        .ok (s, p') ∧ p'.definitions.length = 1 ∧
      (parserWithStruct "{ union T { char c; } u; }").types.Untouched 17 p'.types :=
  ⟨_, _, ok_get union_block_ends, by decide +kernel,
    ((block_tags (ok_get union_block_ends) rfl).mpr (by decide +kernel)).2.1⟩

/-- The definition in the block changes the type of `x`, which is declared before it: with the block
that defines it again, `struct T` has one byte, and without four. -/
theorem inner_struct_changes_outer :
    let outer := "struct T { int a; } x; void f(void) "
    ((typesOfText (outer ++ "{ struct T { char c; } y; }")).nodes[16]? =
        some { body := .agg false ⟨some "T", [⟨some "c", some 2, 0, -1, 0⟩], 1, 1⟩ }) ∧
      (typesOfText (outer ++ "{ }")).nodes[16]? =
        some { body := .agg false ⟨some "T", [⟨some "a", some 7, 0, -1, 0⟩], 4, 4⟩ } := by
  decide +kernel

end TinyC
