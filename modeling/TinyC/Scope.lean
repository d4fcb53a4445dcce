import Mathlib.Data.BitVec

/-!
# Hash-bucket scopes

The parser, sema and irgen each keep a chain of scopes whose entries hang in hash buckets.
The three differ in the number of buckets and in what an entry holds.
-/

namespace TinyC

/-- The 32-bit FNV-1a hash of an identifier. -/
def fnvHash (name : String) : BitVec 32 :=
  name.toList.foldl (fun h c => (h ^^^ BitVec.ofNat 32 c.toNat) * 16777619#32) 2166136261#32

/-- One scope: the entries of each bucket, the latest first. -/
abbrev Frame (α : Type) := ℕ → List (String × α)

/-- The innermost scope first; the rest is reached through `parent`. -/
abbrev ScopeChain (α : Type) := List (Frame α)

namespace ScopeChain

variable {α : Type}

/-- The bucket of a name, `n` being a power of two. -/
def bucket (n : ℕ) (name : String) : ℕ := (fnvHash name).toNat % n

def push (sc : ScopeChain α) : ScopeChain α := (fun _ => []) :: sc

/-- Adds an entry to the innermost scope. -/
def define (n : ℕ) (sc : ScopeChain α) (name : String) (a : α) : ScopeChain α :=
  match sc with
  | [] => []
  | fr :: rest =>
      Function.update fr (bucket n name) ((name, a) :: fr (bucket n name)) :: rest

def lookupFrame (n : ℕ) (fr : Frame α) (name : String) : Option α :=
  (fr (bucket n name)).lookup name

def lookup (n : ℕ) (sc : ScopeChain α) (name : String) : Option α :=
  sc.findSome? fun fr => lookupFrame n fr name

variable {n : ℕ} {name : String} {a : α}

theorem mem_of_lookupFrame {fr : Frame α} (h : lookupFrame n fr name = some a) :
    ∃ b, (name, a) ∈ fr b := by
  obtain ⟨before, after, heq, -⟩ := List.lookup_eq_some_iff.mp h
  exact ⟨_, heq ▸ List.mem_append_right before List.mem_cons_self⟩

theorem mem_of_lookup {sc : ScopeChain α} (h : sc.lookup n name = some a) :
    ∃ fr ∈ sc, ∃ b, (name, a) ∈ fr b := by
  obtain ⟨fr, hfr, h⟩ := List.exists_of_findSome?_eq_some h
  exact ⟨fr, hfr, mem_of_lookupFrame h⟩

/-- An entry is the one just defined or was there before. -/
theorem mem_define {sc : ScopeChain α} {fr : Frame α} (hfr : fr ∈ sc.define n name a) {b : ℕ}
    {p : String × α} (hp : p ∈ fr b) : p.2 = a ∨ ∃ fr' ∈ sc, p ∈ fr' b := by
  cases sc with
  | nil => simp [define] at hfr
  | cons fr₀ rest =>
    rcases List.mem_cons.mp hfr with rfl | hfr
    · by_cases hb : b = bucket n name
      · subst hb
        rw [Function.update_self] at hp
        rcases List.mem_cons.mp hp with rfl | hp
        · exact .inl rfl
        · exact .inr ⟨fr₀, List.mem_cons_self, hp⟩
      · rw [Function.update_of_ne hb] at hp
        exact .inr ⟨fr₀, List.mem_cons_self, hp⟩
    · exact .inr ⟨fr, List.mem_cons_of_mem _ hfr, hp⟩

/-- A definition is found under its name and hides nothing else. -/
theorem lookup_define {fr : Frame α} {rest : ScopeChain α} (name' : String) :
    lookup n (define n (fr :: rest) name a) name' =
      if name' = name then some a else lookup n (fr :: rest) name' := by
  have hframe : lookupFrame n (Function.update fr (bucket n name)
      ((name, a) :: fr (bucket n name))) name' =
      if name' = name then some a else lookupFrame n fr name' := by
    unfold lookupFrame
    by_cases hname : name' = name
    · subst hname
      rw [Function.update_self, List.lookup_cons, beq_self_eq_true, if_pos rfl]
    · rw [if_neg hname]
      by_cases hb : bucket n name' = bucket n name
      · rw [hb, Function.update_self, List.lookup_cons, beq_false_of_ne hname]
      · rw [Function.update_of_ne hb]
  rw [define, lookup, lookup, List.findSome?_cons, List.findSome?_cons, hframe]
  by_cases hname : name' = name
  · rw [if_pos hname, if_pos hname]
  · rw [if_neg hname, if_neg hname]

theorem lookup_define_of_ne {x : String} (sc : ScopeChain α) (h : x ≠ name) :
    lookup n (define n sc name a) x = lookup n sc x := by
  cases sc with
  | nil => rfl
  | cons fr rest => rw [lookup_define, if_neg h]

theorem lookup_define_self {sc : ScopeChain α} (h : sc ≠ []) :
    lookup n (define n sc name a) name = some a := by
  cases sc with
  | nil => exact absurd rfl h
  | cons fr rest => rw [lookup_define, if_pos rfl]

theorem define_ne_nil {sc : ScopeChain α} (h : sc ≠ []) : define n sc name a ≠ [] := by
  cases sc with
  | nil => exact absurd rfl h
  | cons fr rest => simp [define]

/-- The innermost scope that declares the name decides. -/
theorem lookup_eq_some_iff {sc : ScopeChain α} :
    sc.lookup n name = some a ↔ ∃ inner fr outer, sc = inner ++ fr :: outer ∧
      (∀ fr' ∈ inner, lookupFrame n fr' name = none) ∧ lookupFrame n fr name = some a := by
  unfold lookup
  rw [List.findSome?_eq_some_iff]
  constructor
  · rintro ⟨inner, fr, outer, hsc, hfr, hinner⟩
    exact ⟨inner, fr, outer, hsc, hinner, hfr⟩
  · rintro ⟨inner, fr, outer, hsc, hinner, hfr⟩
    exact ⟨inner, fr, outer, hsc, hfr, hinner⟩

end ScopeChain

end TinyC
