import TinyC.ParserRules
import TinyC.SourceText

/-!
# Histories of the type table

Whatever the compiler does to the type table is a sequence of calls, and the table notes them
down. So a table that was reached is the one that its calls make of the first table.
-/

namespace TinyC

namespace TypeTable

variable {t : TypeTable}

theorem run_append (cs ds : List TypeCall) : t.run (cs ++ ds) = (t.run cs).run ds :=
  List.foldl_append

theorem calls_call (c : TypeCall) : (t.call c).2.calls = t.calls ++ [c] := rfl

theorem calls_run (cs : List TypeCall) : (t.run cs).calls = t.calls ++ cs := by
  induction cs generalizing t with
  | nil => exact (List.append_nil _).symm
  | cons c cs ih =>
    have hrun : t.run (c :: cs) = (t.call c).2.run cs := rfl
    rw [hrun, ih, calls_call, List.append_assoc]
    rfl

/-- Every one of the calls meets `P`, the table before it being given. -/
def MeetsAll (P : TypeTable → TypeCall → Prop) : TypeTable → List TypeCall → Prop
  | _, [] => True
  | t, c :: cs => P t c ∧ MeetsAll P (t.call c).2 cs

instance decidableMeetsAll (P : TypeTable → TypeCall → Prop) [∀ t c, Decidable (P t c)] :
    ∀ t cs, Decidable (MeetsAll P t cs)
  | _, [] => isTrue trivial
  | t, c :: cs =>
      have := decidableMeetsAll P (t.call c).2 cs
      inferInstanceAs (Decidable (P t c ∧ MeetsAll P (t.call c).2 cs))

theorem MeetsAll.split {P : TypeTable → TypeCall → Prop} {cs ds : List TypeCall}
    (h : MeetsAll P t (cs ++ ds)) : MeetsAll P t cs ∧ MeetsAll P (t.run cs) ds := by
  induction cs generalizing t with
  | nil => exact ⟨trivial, h⟩
  | cons c cs ih =>
    obtain ⟨hcs, hds⟩ := ih h.2
    exact ⟨⟨h.1, hcs⟩, hds⟩

/-- What every step preserves, a run of such steps preserves. -/
theorem MeetsAll.preserves {P : TypeTable → TypeCall → Prop} {I : TypeTable → Prop}
    (hstep : ∀ t c, I t → P t c → I (t.call c).2) {cs : List TypeCall} (h : MeetsAll P t cs)
    (ht : I t) : I (t.run cs) := by
  induction cs generalizing t with
  | nil => exact ht
  | cons c cs ih => exact ih h.2 (hstep t c ht h.1)

/-! ### The static scalars -/

theorem alloc_scalar {r : TypeRef} {k : ScalarKind} {q : TypeQual} (a : TypeNode)
    (h : t.nodes[r]? = some ⟨.scalar k, q⟩) :
    (t.alloc a).2.nodes[r]? = some ⟨.scalar k, q⟩ := by
  have hlt : r < t.nodes.length := (List.getElem?_eq_some_iff.mp h).1
  exact (List.getElem?_append_left hlt).trans h

theorem setBody_scalar {r s : TypeRef} {k : ScalarKind} {q : TypeQual} {f : TypeBody → TypeBody}
    (hf : f (.scalar k) = .scalar k) (h : t.nodes[r]? = some ⟨.scalar k, q⟩) :
    (t.setBody s f).nodes[r]? = some ⟨.scalar k, q⟩ := by
  rw [setBody, List.getElem?_modify, h, Option.map_eq_map, Option.map_some]
  split
  · rw [hf]
  · rfl

/-- No call changes a scalar. -/
theorem call_scalar {r : TypeRef} {k : ScalarKind} {q : TypeQual} (c : TypeCall)
    (h : t.nodes[r]? = some ⟨.scalar k, q⟩) :
    (t.call c).2.nodes[r]? = some ⟨.scalar k, q⟩ := by
  have hintern : ∀ a same, (t.intern a same).2.nodes[r]? = some ⟨.scalar k, q⟩ := by
    intro a same
    unfold intern
    split
    · exact h
    · exact alloc_scalar a h
  cases c with
  | pointer pointee qual => exact hintern _ _
  | array elem count => exact hintern _ _
  | arrayUnsized elem => exact hintern _ _
  | func ret params variadic => exact hintern _ _
  | qualify base added =>
    change (t.typeQualify base added).2.nodes[r]? = _
    unfold typeQualify
    split
    · exact h
    · dsimp only
      split
      · exact h
      · exact alloc_scalar _ h
  | agg isUnion tag => exact alloc_scalar _ h
  | enum tag => exact alloc_scalar _ h
  | fill r' base => exact setBody_scalar rfl h
  | complete r' fields size align => exact setBody_scalar rfl h
  | enumerate r' consts => exact setBody_scalar rfl h

theorem run_scalar {r : TypeRef} {k : ScalarKind} {q : TypeQual} (cs : List TypeCall)
    (h : t.nodes[r]? = some ⟨.scalar k, q⟩) : (t.run cs).nodes[r]? = some ⟨.scalar k, q⟩ := by
  induction cs generalizing t with
  | nil => exact h
  | cons c cs ih => exact ih (call_scalar c h)

/-- Wherever the compiler has got to, `type_int()` and the like are what they were. -/
theorem nodes_scalarRef (addr : TypeRef → BitVec 64) (cs : List TypeCall) (k : ScalarKind) :
    ((typeTableInit addr).run cs).nodes[scalarRef k]? = some ⟨.scalar k, .none⟩ :=
  run_scalar cs (by cases k <;> rfl)

end TypeTable

/-! ### Parsing -/

section

variable {L : Type}

/-- `R` holds between the state before `m` and the one in which it ends. -/
def Steps (R : Parser L → Parser L → Prop) {α : Type} (m : ParseM L α) : Prop :=
  ∀ p a p', m p = .ok (a, p') → R p p'

theorem ParseM.bind_ok {α β : Type} {m : ParseM L α} {k : α → ParseM L β} {p p' : Parser L}
    {b : β} (h : (m >>= k) p = .ok (b, p')) : ∃ a q, m p = .ok (a, q) ∧ k a q = .ok (b, p') := by
  have heq : (m >>= k) p = (m p >>= fun r => k r.1 r.2) := rfl
  rw [heq] at h
  cases hm : m p with
  | error e => rw [hm] at h; cases h
  | ok r => exact ⟨r.1, r.2, rfl, by rw [hm] at h; exact h⟩

theorem Steps.bind {R : Parser L → Parser L → Prop} (htrans : ∀ p q r, R p q → R q r → R p r)
    {α β : Type} {m : ParseM L α} {k : α → ParseM L β} (hm : Steps R m) (hk : ∀ a, Steps R (k a)) :
    Steps R (m >>= k) := by
  intro p b p' h
  obtain ⟨a, q, hma, hka⟩ := ParseM.bind_ok h
  exact htrans _ _ _ (hm _ _ _ hma) (hk _ _ _ _ hka)

theorem Steps.ite {R : Parser L → Parser L → Prop} {α : Type} {b : Prop} [Decidable b]
    {m k : ParseM L α} (hm : Steps R m) (hk : Steps R k) : Steps R (if b then m else k) := by
  split
  · exact hm
  · exact hk

/-- A step that ends in one way. -/
theorem Steps.one {R : Parser L → Parser L → Prop} {α : Type} {f : Parser L → α × Parser L}
    (h : ∀ p, R p (f p).2) : Steps R (modifyGet f : ParseM L α) := by
  intro p a p' hf
  have heq : f p = (a, p') := Except.ok.inj hf
  have hp := h p
  rwa [heq] at hp

theorem Steps.pure {R : Parser L → Parser L → Prop} (hrefl : ∀ p, R p p) {α : Type} (a : α) :
    Steps R (Pure.pure a : ParseM L α) := by
  intro p b p' h
  cases h
  exact hrefl p

theorem Steps.get {R : Parser L → Parser L → Prop} (hrefl : ∀ p, R p p) :
    Steps R (MonadState.get : ParseM L (Parser L)) := by
  intro p b p' h
  cases h
  exact hrefl p

variable [TokenSource L]

/-- A relation that holds across whatever the parser does to its state, but for the definition of
types. -/
structure StepRules (R : Parser L → Parser L → Prop) : Prop where
  refl : ∀ p, R p p
  trans : ∀ {p q r}, R p q → R q r → R p r
  peek : ∀ p, R p { p with lexer := (TokenSource.peek p.lexer).2 }
  advance : ∀ p, R p { p with lexer := (TokenSource.next p.lexer).2 }
  parseError : ∀ p line col msg, R p
    { p with lexer := TokenSource.emit p.lexer ⟨true, line, col, msg⟩, nErrors := p.nErrors + 1 }
  typeCall : ∀ p {c : TypeCall}, c.isMinor → R p { p with types := (p.types.call c).2 }
  scopes : ∀ p scope tagScope, R p { p with scope := scope, tagScope := tagScope }
  counters : ∀ p loops switches {nodes}, p.nextNode ≤ nodes →
    R p { p with loopDepth := loops, switchDepth := switches, nextNode := nodes }

namespace StepRules

variable {R : Parser L → Parser L → Prop} (S : StepRules R)

include S

theorem bind {α β : Type} {m : ParseM L α} {k : α → ParseM L β} (hm : Steps R m)
    (hk : ∀ a, Steps R (k a)) : Steps R (m >>= k) := Steps.bind @S.trans hm hk

theorem stateRules : StateRules (L := L) (fun {_} m _ => Steps R m) where
  pure a := Steps.pure S.refl a
  bind := S.bind
  throw e := by
    intro p a p' h
    cases h
  get := Steps.get S.refl
  peek := Steps.one S.peek
  advance := Steps.one S.advance
  parseError line col msg := Steps.one fun p => S.parseError p line col msg
  typeCall hc := Steps.one fun p => S.typeCall p hc
  scopeDefine name kind type := Steps.one fun p => S.scopes p _ p.tagScope
  tagDefine name kind type := Steps.one fun p => S.scopes p p.scope _
  inNewScope hm := by
    have hset : ∀ scope tagScope : Parser L → ScopeChain Symbol, Steps R (modify fun p =>
        { p with scope := scope p, tagScope := tagScope p } : ParseM L PUnit) := fun _ _ =>
      Steps.one fun p => S.scopes p _ _
    exact S.bind (Steps.get S.refl) fun _ => S.bind (hset _ _) fun _ =>
      S.bind hm fun _ => S.bind (hset _ _) fun _ => Steps.pure S.refl _
  inLoop hm := by
    have hset : ∀ f : ℕ → ℕ, Steps R (modify fun p =>
        { p with loopDepth := f p.loopDepth } : ParseM L PUnit) := fun f =>
      Steps.one fun p => S.counters p _ p.switchDepth le_rfl
    exact S.bind (hset (· + 1)) fun _ => S.bind hm fun _ =>
      S.bind (hset (· - 1)) fun _ => Steps.pure S.refl _
  inSwitch hm := by
    have hset : ∀ f : ℕ → ℕ, Steps R (modify fun p =>
        { p with switchDepth := f p.switchDepth } : ParseM L PUnit) := fun f =>
      Steps.one fun p => S.counters p p.loopDepth _ le_rfl
    exact S.bind (hset (· + 1)) fun _ => S.bind hm fun _ =>
      S.bind (hset (· - 1)) fun _ => Steps.pure S.refl _
  newNode := Steps.one fun p => S.counters p _ _ (Nat.le_succ _)

/-- Where every call is allowed, the relation holds across all of the parser. -/
theorem parseRules (hcall : ∀ p (c : TypeCall), R p { p with types := (p.types.call c).2 })
    (hnote : ∀ p d, R p { p with definitions := p.definitions ++ [d] }) :
    ParseRules (L := L) (fun {_} m _ => Steps R m) := by
  have hcall' : ∀ c : TypeCall, Steps R (TinyC.typeCall c : ParseM L TypeRef) :=
    fun c => Steps.one fun p => hcall p c
  have hnote' : ∀ d : TagDefinition, Steps R (noteDefinition d : ParseM L Unit) :=
    fun d => Steps.one fun p => hnote p d
  exact ⟨S.stateRules, fun h => S.stateRules.structUnion hcall' hnote' h,
    fun h => S.stateRules.enum hcall' hnote' h⟩

end StepRules

/-- The table has only been called. -/
def Called (p p' : Parser L) : Prop := ∃ cs, p'.types = p.types.run cs

theorem called_stepRules : StepRules (Called : Parser L → Parser L → Prop) where
  refl p := ⟨[], rfl⟩
  trans := by
    rintro p q r ⟨cs, hq⟩ ⟨ds, hr⟩
    exact ⟨cs ++ ds, by rw [hr, hq, TypeTable.run_append]⟩
  peek p := ⟨[], rfl⟩
  advance p := ⟨[], rfl⟩
  parseError p line col msg := ⟨[], rfl⟩
  typeCall p c _ := ⟨[c], rfl⟩
  scopes p scope tagScope := ⟨[], rfl⟩
  counters p loops switches nodes _ := ⟨[], rfl⟩

theorem called_parseRules : ParseRules (L := L) (fun {_} m _ => Steps Called m) :=
  called_stepRules.parseRules (fun _ c => ⟨[c], rfl⟩) fun _ _ => ⟨[], rfl⟩

end

/-- The tables that calls and parses lead to. -/
inductive Reached (addr : TypeRef → BitVec 64) : TypeTable → Prop where
  | init : Reached addr (typeTableInit addr)
  | call {t : TypeTable} (c : TypeCall) : Reached addr t → Reached addr (t.call c).2
  | parse {L : Type} [TokenSource L] {p p' : Parser L} {n : ℕ} {unit : RawUnit} :
      Reached addr p.types → parserParse n p = .ok (unit, p') → Reached addr p'.types
  | declaration {L : Type} [TokenSource L] {p p' : Parser L} {n : ℕ} {ds : DeclSpec}
      {topLevel : Bool} {r : List RawDecl × Option RawFunc} :
      Reached addr p.types → parseDeclList (parsers n) ds topLevel p = .ok (r, p') →
        Reached addr p'.types

/-- A table is what its history makes of the first one. -/
theorem Reached.eq_run {addr : TypeRef → BitVec 64} {t : TypeTable} (h : Reached addr t) :
    t = (typeTableInit addr).run t.calls := by
  have hrun : ∀ {t : TypeTable} (cs : List TypeCall), t = (typeTableInit addr).run t.calls →
      t.run cs = (typeTableInit addr).run (t.run cs).calls := by
    intro t cs ht
    rw [TypeTable.calls_run, TypeTable.run_append, ← ht]
  induction h with
  | init => rfl
  | call c _ ih => exact hrun [c] ih
  | parse _ hparse ih =>
    obtain ⟨cs, hcs⟩ := called_parseRules.parserParse _ _ _ _ hparse
    rw [hcs]
    exact hrun cs ih
  | declaration _ hparse ih =>
    obtain ⟨cs, hcs⟩ :=
      called_parseRules.parseDeclList (called_parseRules.parsers _) _ _ _ _ _ hparse
    rw [hcs]
    exact hrun cs ih

/-! ### Source texts -/

/-- The table after a parse that ends. -/
def typesAfter {L : Type} [TokenSource L] (n : ℕ) (p : Parser L) : TypeTable :=
  match parserParse n p with
  | .ok r => r.2.types
  | .error _ => p.types

theorem reached_typesAfter {L : Type} [TokenSource L] {addr : TypeRef → BitVec 64}
    {p : Parser L} (h : Reached addr p.types) (n : ℕ) : Reached addr (typesAfter n p) := by
  unfold typesAfter
  cases hparse : parserParse n p with
  | error e => exact h
  | ok r => exact h.parse hparse

/-- An arena that puts one `Type` of 48 bytes after the other. -/
def arenaAddr (r : TypeRef) : BitVec 64 := BitVec.ofNat 64 (4096 + 48 * r)

/-- The parser of a text without floating constants. -/
def textParser (text : String) : Parser SourceText :=
  parserInit (sourceText ⟨fun _ => 0, fun _ => ""⟩ (text.toList.map ch)) (typeTableInit arenaAddr)

def typesOfText (text : String) : TypeTable := typesAfter 100 (textParser text)

theorem reached_typesOfText (text : String) : Reached arenaAddr (typesOfText text) :=
  reached_typesAfter .init 100

end TinyC
