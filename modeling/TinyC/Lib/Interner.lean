import Mathlib.Data.List.Nodup
import Mathlib.Data.List.Infix

/-!
# Interning

Values are numbered in the order in which they first come up.
-/

namespace Interner

variable {α : Type} [BEq α] {names more : List α} {a b : α} {i j : ℕ}

/-- The number of a value, and the values numbered so far. -/
def intern (names : List α) (a : α) : ℕ × List α :=
  match names.findIdx? (· == a) with
  | some i => (i, names)
  | none => (names.length, names ++ [a])

/-- The values of a list in the order of their first places. -/
def distinct (l : List α) : List α := l.foldl (fun names a => (intern names a).2) []

variable [LawfulBEq α]

omit [BEq α] [LawfulBEq α] in
theorem getElem?_inj (h : names.Nodup) (hi : names[i]? = some a) (hj : names[j]? = some a) :
    i = j := by
  obtain ⟨hlt, -⟩ := List.getElem?_eq_some_iff.mp hi
  exact (List.getElem?_inj hlt h).mp (hi.trans hj.symm)

theorem intern_of_not_mem (h : a ∉ names) : intern names a = (names.length, names ++ [a]) := by
  have hnone : names.findIdx? (· == a) = none := by
    rw [List.findIdx?_eq_none_iff]
    intro b hb
    exact beq_eq_false_iff_ne.mpr fun heq => h (heq ▸ hb)
  rw [intern, hnone]

theorem intern_of_getElem? (h : names.Nodup) (hi : names[i]? = some a) :
    intern names a = (i, names) := by
  rw [intern]
  cases hfind : names.findIdx? (· == a) with
  | none =>
    rw [List.findIdx?_eq_none_iff] at hfind
    have hmem := hfind a (List.mem_of_getElem? hi)
    rw [beq_self_eq_true] at hmem
    cases hmem
  | some j =>
    obtain ⟨hj, heq, -⟩ := List.findIdx?_eq_some_iff_getElem.mp hfind
    have hsome : names[j]? = some a := by rw [List.getElem?_eq_getElem hj, eq_of_beq heq]
    rw [getElem?_inj h hsome hi]

theorem getElem?_intern (h : names.Nodup) (a : α) :
    (intern names a).2[(intern names a).1]? = some a := by
  by_cases ha : a ∈ names
  · obtain ⟨i, hi⟩ := List.mem_iff_getElem?.mp ha
    rw [intern_of_getElem? h hi]
    exact hi
  · rw [intern_of_not_mem ha]
    exact List.getElem?_concat_length

theorem intern_extends (h : names.Nodup) (a : α) : names <+: (intern names a).2 := by
  by_cases ha : a ∈ names
  · obtain ⟨i, hi⟩ := List.mem_iff_getElem?.mp ha
    rw [intern_of_getElem? h hi]
  · rw [intern_of_not_mem ha]
    exact List.prefix_append _ _

theorem nodup_intern (h : names.Nodup) (a : α) : (intern names a).2.Nodup := by
  by_cases ha : a ∈ names
  · obtain ⟨i, hi⟩ := List.mem_iff_getElem?.mp ha
    rw [intern_of_getElem? h hi]
    exact h
  · rw [intern_of_not_mem ha]
    exact List.nodup_append.mpr ⟨h, List.nodup_singleton a, fun b hb c hc heq =>
      ha (List.mem_singleton.mp hc ▸ heq ▸ hb)⟩

omit [BEq α] [LawfulBEq α] in
theorem getElem?_longer (h : names <+: more) (hi : names[i]? = some a) : more[i]? = some a := by
  obtain ⟨rest, rfl⟩ := h
  rw [List.getElem?_append_left (List.getElem?_eq_some_iff.mp hi).1]
  exact hi

omit [LawfulBEq α] in
theorem distinct_concat (l : List α) (a : α) :
    distinct (l ++ [a]) = (intern (distinct l) a).2 := by
  rw [distinct, List.foldl_append]
  rfl

theorem idxOf_eq (h : names.Nodup) (hi : names[i]? = some a) : names.idxOf a = i := by
  have hmem := List.mem_of_getElem? hi
  have hlt := List.idxOf_lt_length_iff.mpr hmem
  have hsome : names[names.idxOf a]? = some a := by
    rw [List.getElem?_eq_getElem hlt, List.getElem_idxOf]
  exact getElem?_inj h hsome hi

end Interner
