import TinyC.Sema
import TinyC.IrGenState
import TinyC.ParserState
import TinyC.Lib.ScopedMaps

/-!
# Scopes in memory

A scope is an object with a pointer to its parent, and names are compared as pointers. Restoring a
scope is an assignment, and what was defined since then stays in memory.
-/

namespace TinyC

open ScopedMaps (Op Stack)

variable {ν α : Type} [DecidableEq ν]

/-- A `Scope`, `SScope` or `VScope`. The list behind `next` starts with the latest entry. -/
structure ScopeObj (ν α : Type) where
  parent : Option ℕ
  buckets : ℕ → List (ν × α) := fun _ => []

/-- The scopes in the order of their allocation. -/
abbrev ScopeHeap (ν α : Type) := List (ScopeObj ν α)

/-- `sym_hash` and its two copies, of the characters that a name points to. -/
def scopeSlot (n : ℕ) (text : String) : ℕ := (fnvHash text &&& BitVec.ofNat 32 (n - 1)).toNat

def newScope (heap : ScopeHeap ν α) (parent : Option ℕ) : ℕ × ScopeHeap ν α :=
  (heap.length, heap ++ [{ parent := parent }])

/-- The new entry is put before the others of its bucket. -/
def ScopeObj.add (n : ℕ) (text : ν → String) (obj : ScopeObj ν α) (name : ν) (a : α) :
    ScopeObj ν α :=
  let slot := scopeSlot n (text name)
  { obj with buckets := Function.update obj.buckets slot ((name, a) :: obj.buckets slot) }

def defineIn (n : ℕ) (text : ν → String) (heap : ScopeHeap ν α) (s : ℕ) (name : ν) (a : α) :
    ScopeHeap ν α :=
  heap.modify s fun obj => obj.add n text name a

def lookupIn (n : ℕ) (text : ν → String) (obj : ScopeObj ν α) (name : ν) : Option α :=
  (obj.buckets (scopeSlot n (text name))).lookup name

/-- The walk through `parent`, with a bound on its length. -/
def lookupChain (n : ℕ) (text : ν → String) (heap : ScopeHeap ν α) (name : ν) :
    ℕ → Option ℕ → Option α
  | fuel + 1, some s => do
      let obj ← heap[s]?
      (lookupIn n text obj name).or (lookupChain n text heap name fuel obj.parent)
  | _, _ => none

/-- The functions of one implementation. -/
structure ScopeImpl (ν α : Type) where
  new : ScopeHeap ν α → Option ℕ → ℕ × ScopeHeap ν α
  define : ScopeHeap ν α → ℕ → ν → α → ScopeHeap ν α
  lookup : ScopeHeap ν α → ℕ → ν → Option α

def scopesOf (n : ℕ) (text : ν → String) : ScopeImpl ν α where
  new := newScope
  define := defineIn n text
  lookup heap s name := lookupChain n text heap name heap.length (some s)

/-- `scope_new`, `scope_define_in` and `scope_lookup_chain` of `parser.c`. -/
def parserScopes (text : ν → String) : ScopeImpl ν α := scopesOf scopeBuckets text

/-- `sscope_new`, `sscope_define` and `sscope_lookup` of `sema.c`. -/
def semaScopes (text : ν → String) : ScopeImpl ν α := scopesOf sscopeBuckets text

/-- `vscope_new`, `vscope_define` and `vscope_lookup` of `irgen.c`. -/
def irgenScopes (text : ν → String) : ScopeImpl ν α := scopesOf vtabBuckets text

structure ScopeTable (ν α : Type) where
  heap : ScopeHeap ν α
  scope : ℕ
  /-- The variables `saved` of the functions that are running, the latest first. -/
  saved : List ℕ

namespace ScopeTable

def init (impl : ScopeImpl ν α) : ScopeTable ν α :=
  let (s, heap) := impl.new [] none
  ⟨heap, s, []⟩

def step (impl : ScopeImpl ν α) (t : ScopeTable ν α) :
    Op ν α → ScopeTable ν α × Option (Option α)
  | .push =>
      let (s, heap) := impl.new t.heap (some t.scope)
      (⟨heap, s, t.scope :: t.saved⟩, none)
  | .restore k =>
      match t.saved[k]? with
      | some s => ({ t with scope := s, saved := t.saved.drop (k + 1) }, none)
      | none => (t, none)
  | .define name a => ({ t with heap := impl.define t.heap t.scope name a }, none)
  | .lookup name => (t, some (impl.lookup t.heap t.scope name))

/-- What the lookups find. -/
def run (impl : ScopeImpl ν α) (t : ScopeTable ν α) : List (Op ν α) → List (Option α)
  | [] => []
  | op :: ops => (step impl t op).2.toList ++ run impl (step impl t op).1 ops

end ScopeTable

/-- The operation with the characters of its name. -/
def spellOp (text : ν → String) : Op ν α → Op String α
  | .push => .push
  | .restore k => .restore k
  | .define name a => .define (text name) a
  | .lookup name => .lookup (text name)

/-- One pointer for each spelling. -/
def InternedNames (text : ν → String) (names : Set ν) : Prop :=
  ∀ p ∈ names, ∀ q ∈ names, text p = text q → p = q

/-! ### The chain from a scope on -/

variable {text : ν → String} {n : ℕ} {names : Set ν} {heap heap' : ScopeHeap ν α}
  {path : List ℕ} {m : Stack String α} {name : ν} {a : α}

/-- The object finds what the map says. -/
def Shows (n : ℕ) (text : ν → String) (names : Set ν) (obj : ScopeObj ν α)
    (f : String → Option α) : Prop :=
  ∀ name ∈ names, lookupIn n text obj name = f (text name)

/-- A chain of objects shows a stack of maps. Parents are allocated before their children. -/
inductive Chain (n : ℕ) (text : ν → String) (names : Set ν) (heap : ScopeHeap ν α) :
    List ℕ → Stack String α → Prop
  | nil : Chain n text names heap [] []
  | cons {s : ℕ} {path : List ℕ} {obj : ScopeObj ν α} {f : String → Option α}
      {m : Stack String α} (hobj : heap[s]? = some obj) (hparent : obj.parent = path.head?)
      (holder : ∀ r ∈ path, r < s) (hshows : Shows n text names obj f)
      (hrest : Chain n text names heap path m) : Chain n text names heap (s :: path) (f :: m)

theorem Chain.length_eq (h : Chain n text names heap path m) : path.length = m.length := by
  induction h with
  | nil => rfl
  | cons _ _ _ _ _ ih => rw [List.length_cons, List.length_cons, ih]

theorem Chain.lt (h : Chain n text names heap path m) : ∀ r ∈ path, r < heap.length := by
  induction h with
  | nil => exact fun r hr => absurd hr List.not_mem_nil
  | cons hobj _ _ _ _ ih =>
    intro r hr
    rcases List.mem_cons.mp hr with rfl | hr
    · exact (List.getElem?_eq_some_iff.mp hobj).1
    · exact ih r hr

/-- Every scope on the chain is older than the one before it, so the chain is not longer than the
list of all scopes. -/
theorem Chain.length_le (h : Chain n text names heap path m) {b : ℕ} (hb : ∀ r ∈ path, r < b) :
    path.length ≤ b := by
  induction h generalizing b with
  | nil => exact Nat.zero_le _
  | @cons s path _ _ _ _ _ holder _ _ ih =>
    have hs := hb s List.mem_cons_self
    have hrest := ih holder
    rw [List.length_cons]
    omega

/-- Objects that are not on the chain do not count. -/
theorem Chain.congr (h : Chain n text names heap path m)
    (hsame : ∀ r ∈ path, heap'[r]? = heap[r]?) : Chain n text names heap' path m := by
  induction h with
  | nil => exact .nil
  | cons hobj hparent holder hshows _ ih =>
    exact .cons ((hsame _ List.mem_cons_self).trans hobj) hparent holder hshows
      (ih fun r hr => hsame r (List.mem_cons_of_mem _ hr))

theorem Chain.drop (h : Chain n text names heap path m) (k : ℕ) :
    Chain n text names heap (path.drop k) (m.drop k) := by
  induction h generalizing k with
  | nil =>
    rw [List.drop_nil, List.drop_nil]
    exact .nil
  | cons hobj hparent holder hshows hrest ih =>
    cases k with
    | zero => exact .cons hobj hparent holder hshows hrest
    | succ k => exact ih k

/-- A lookup through the chain is one in the stack. -/
theorem Chain.lookup (h : Chain n text names heap path m) (hname : name ∈ names) {fuel : ℕ}
    (hfuel : path.length ≤ fuel) :
    lookupChain n text heap name fuel path.head? = ScopedMaps.lookup m (text name) := by
  induction h generalizing fuel with
  | nil =>
    cases fuel <;> rfl
  | @cons s path obj f m hobj hparent _ hshows _ ih =>
    rw [List.length_cons] at hfuel
    obtain ⟨fuel, rfl⟩ := Nat.exists_eq_succ_of_ne_zero (show fuel ≠ 0 by omega)
    have hrest : lookupChain n text heap name fuel path.head? = ScopedMaps.lookup m (text name) :=
      ih (by omega)
    rw [List.head?_cons, lookupChain, hobj, Option.bind_eq_bind, Option.bind_some, hparent, hrest,
      hshows name hname]
    unfold ScopedMaps.lookup
    rw [List.findSome?_cons]
    cases f (text name) <;> rfl

/-- A new scope is empty. -/
theorem Chain.push (h : Chain n text names heap path m) :
    Chain n text names (heap ++ [{ parent := path.head? }]) (heap.length :: path)
      (ScopedMaps.push m) := by
  have hold : ∀ r ∈ path, (heap ++ [({ parent := path.head? } : ScopeObj ν α)])[r]? = heap[r]? :=
    fun r hr => List.getElem?_append_left (h.lt r hr)
  exact .cons List.getElem?_concat_length rfl h.lt (fun _ _ => rfl) (h.congr hold)

theorem lookupIn_add {obj : ScopeObj ν α} (name' : ν) :
    lookupIn n text (obj.add n text name a) name' =
      if name' = name then some a else lookupIn n text obj name' := by
  unfold lookupIn ScopeObj.add
  dsimp only
  by_cases hname : name' = name
  · rw [hname, Function.update_self, List.lookup_cons, beq_self_eq_true, if_pos rfl]
  · rw [if_neg hname]
    by_cases hslot : scopeSlot n (text name') = scopeSlot n (text name)
    · rw [hslot, Function.update_self, List.lookup_cons, beq_false_of_ne hname]
    · rw [Function.update_of_ne hslot]

/-- A definition goes into the innermost scope, whatever else is in its bucket. -/
theorem Chain.define {s : ℕ} (h : Chain n text names heap (s :: path) m)
    (hintern : InternedNames text names) (hname : name ∈ names) :
    Chain n text names (defineIn n text heap s name a) (s :: path)
      (ScopedMaps.define (text name) a m) := by
  cases h with
  | @cons _ _ obj f m hobj hparent holder hshows hrest =>
    have hmod : (defineIn n text heap s name a)[s]? = some (obj.add n text name a) := by
      rw [defineIn, List.getElem?_modify_eq, hobj]
      rfl
    refine .cons hmod hparent holder (fun name' hname' => ?_) (hrest.congr fun r hr => ?_)
    · rw [lookupIn_add, hshows name' hname', Function.update_apply]
      by_cases heq : name' = name
      · rw [if_pos heq, heq, if_pos rfl]
      · rw [if_neg heq, if_neg fun htext => heq (hintern name' hname' name hname htext)]
    · exact List.getElem?_modify_ne _ _ (holder r hr).ne'

/-! ### Runs -/

variable {t : ScopeTable ν α} {op : Op ν α}

/-- The current scope and the saved ones are a chain. -/
def Simulates (n : ℕ) (text : ν → String) (names : Set ν) (t : ScopeTable ν α)
    (m : Stack String α) : Prop := Chain n text names t.heap (t.scope :: t.saved) m

theorem simulates_init :
    Simulates n text names (ScopeTable.init (scopesOf n text)) [fun _ => (none : Option α)] :=
  Chain.nil.push

theorem Simulates.step (h : Simulates n text names t m) (hintern : InternedNames text names)
    (hop : ∀ name ∈ op.key?, name ∈ names) :
    (t.step (scopesOf n text) op).2 = (ScopedMaps.step m (spellOp text op)).2 ∧
      Simulates n text names (t.step (scopesOf n text) op).1
        (ScopedMaps.step m (spellOp text op)).1 := by
  cases op with
  | push => exact ⟨rfl, h.push⟩
  | define name a => exact ⟨rfl, h.define hintern (hop name rfl)⟩
  | lookup name =>
    have hfound := h.lookup (hop name rfl) (h.length_le h.lt)
    exact ⟨congrArg some hfound, h⟩
  | restore k =>
    have hlen := h.length_eq
    rw [List.length_cons] at hlen
    cases hsaved : t.saved[k]? with
    | none =>
      have hnone := List.getElem?_eq_none_iff.mp hsaved
      have hmap : ScopedMaps.restore k m = m := if_neg (by omega)
      simp only [ScopeTable.step, hsaved, spellOp, ScopedMaps.step, hmap]
      exact ⟨trivial, h⟩
    | some s =>
      obtain ⟨hk, hs⟩ := List.getElem?_eq_some_iff.mp hsaved
      have hmap : ScopedMaps.restore k m = m.drop (k + 1) := if_pos (by omega)
      have hpath : (t.scope :: t.saved).drop (k + 1) = s :: t.saved.drop (k + 1) := by
        rw [List.drop_succ_cons, List.drop_eq_getElem_cons hk, hs]
      have hdrop := Chain.drop h (k + 1)
      rw [hpath] at hdrop
      simp only [ScopeTable.step, hsaved, spellOp, ScopedMaps.step, hmap]
      exact ⟨trivial, hdrop⟩

theorem Simulates.run (h : Simulates n text names t m) (hintern : InternedNames text names)
    {ops : List (Op ν α)} (hops : ∀ op ∈ ops, ∀ name ∈ op.key?, name ∈ names) :
    t.run (scopesOf n text) ops = ScopedMaps.run m (ops.map (spellOp text)) := by
  induction ops generalizing t m with
  | nil => rfl
  | cons op ops ih =>
    obtain ⟨hout, hnext⟩ := h.step hintern (hops op List.mem_cons_self)
    rw [ScopeTable.run, List.map_cons, ScopedMaps.run, hout,
      ih hnext fun op' hop' => hops op' (List.mem_cons_of_mem _ hop')]

/-- What the lookups of a parser, of sema or of irgen find is what a stack of maps has. -/
theorem scopes_are_maps (text : ν → String) (impl : ScopeImpl ν α)
    (himpl : impl ∈ [parserScopes text, semaScopes text, irgenScopes text]) (ops : List (Op ν α))
    (hintern : InternedNames text {name | ∃ op ∈ ops, op.key? = some name}) :
    (ScopeTable.init impl).run impl ops =
      ScopedMaps.run [fun _ => none] (ops.map (spellOp text)) := by
  have hops : ∀ op ∈ ops, ∀ name ∈ op.key?, name ∈ {name | ∃ op ∈ ops, op.key? = some name} :=
    fun op hop name hname => ⟨op, hop, hname⟩
  simp only [List.mem_cons, List.not_mem_nil, or_false] at himpl
  rcases himpl with rfl | rfl | rfl
  all_goals exact simulates_init.run hintern hops

/-- Two names that hash alike, in nested scopes. -/
theorem colliding_scopes :
    (ScopeTable.init (semaScopes fun b : Bool => if b then "a" else "gb")).run
      (semaScopes fun b : Bool => if b then "a" else "gb")
      [.define true 1, .push, .define false 2, .define true 3, .lookup true, .lookup false,
        .restore 0, .lookup true, .lookup false] = [some 3, some 2, some 1, none] ∧
      scopeSlot sscopeBuckets "a" = scopeSlot sscopeBuckets "gb" := by
  refine ⟨?_, by decide +kernel⟩
  rw [scopes_are_maps (fun b : Bool => if b then "a" else "gb") _
    (List.mem_cons_of_mem _ List.mem_cons_self)]
  · decide +kernel
  · intro p _ q _ h
    revert h
    cases p <;> cases q <;> decide

/-! ### The scopes of the models -/

namespace ScopeChain

variable {n : ℕ} {name : String} {a : α}

/-- What each frame finds. -/
def maps (n : ℕ) (sc : ScopeChain α) : Stack String α := sc.map fun fr name => lookupFrame n fr name

theorem maps_push (sc : ScopeChain α) : maps n sc.push = ScopedMaps.push (maps n sc) := rfl

theorem lookup_eq_maps (sc : ScopeChain α) :
    sc.lookup n name = ScopedMaps.lookup (maps n sc) name := by
  rw [lookup, ScopedMaps.lookup, maps, List.findSome?_map]
  rfl

/-- The chains that the parser, sema and irgen are modelled with are stacks of maps as well. -/
theorem maps_define (sc : ScopeChain α) :
    maps n (sc.define n name a) = ScopedMaps.define name a (maps n sc) := by
  cases sc with
  | nil => rfl
  | cons fr rest =>
    rw [define, maps, List.map_cons, maps, List.map_cons, ScopedMaps.define]
    congr 1
    funext name'
    have hfound : lookup n (define n [fr] name a) name' =
        if name' = name then some a else lookup n [fr] name' := lookup_define name'
    simp only [lookup, define, List.findSome?_singleton] at hfound
    rw [Function.update_apply]
    exact hfound

end ScopeChain

end TinyC
