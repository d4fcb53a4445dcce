import TinyC.Lexer
import TinyC.Lib.Bisection
import Mathlib.Order.Compare
import Mathlib.Data.List.Lex

/-!
# Keywords

The table of `lookup_keyword` is sorted as lists of bytes are, and comparing no more bytes than the
identifier has orders it among the names as if it had ended there.
-/

namespace TinyC

open Bisection

/-- The bytes of a name, as they are ordered. -/
def byteKey (s : List Byte) : List ℕ := s.map BitVec.toNat

theorem byteKey_injective {s s' : List Byte} (h : byteKey s = byteKey s') : s = s' :=
  List.map_injective_iff.mpr (fun _ _ => BitVec.eq_of_toNat_eq) h

/-- The characters of an entry of the table. -/
def keywordBytes (e : String × TokenKind) : List Byte := e.1.toList.map ch

/-- How a comparison in the search ends. -/
def probeName (s name : List Byte) : Ordering :=
  if strncmp s name = 0 ∧ name.length = s.length then .eq
  else if strncmp s name ≤ 0 then .lt
  else .gt

/-- The comparison orders an identifier among the names, if it has no NUL in it. -/
theorem probeName_compares {s : List Byte} (hs : ∀ b ∈ s, b ≠ 0) (name : List Byte) :
    (probeName s name).Compares (byteKey s) (byteKey name) := by
  induction s generalizing name with
  | nil =>
    cases name with
    | nil => exact (rfl : byteKey [] = byteKey [])
    | cons b name => exact List.nil_lt_cons _ _
  | cons a s ih =>
    have ha : 0 < a.toNat := by
      have hne := hs a List.mem_cons_self
      by_contra hzero
      exact hne (BitVec.eq_of_toNat_eq (by simpa using hzero))
    cases name with
    | nil =>
      have hpos : ¬(a.toNat : ℤ) ≤ 0 := by omega
      rw [probeName, strncmp, if_neg (by omega), if_neg hpos]
      exact List.nil_lt_cons _ _
    | cons b name =>
      by_cases hab : a = b
      · -- the first characters agree, and neither string ends with them
        subst hab
        have hstep : strncmp (a :: s) (a :: name) = strncmp s name := by
          rw [strncmp, if_neg (by simp), if_neg (hs a List.mem_cons_self)]
        have hprobe : probeName (a :: s) (a :: name) = probeName s name := by
          simp only [probeName, hstep, List.length_cons, Nat.add_right_cancel_iff]
        have hrest := ih (fun c hc => hs c (List.mem_cons_of_mem a hc)) name
        rw [hprobe]
        cases hp : probeName s name with
        | lt => exact List.cons_lt_cons_self.mpr (hrest.eq_lt.mp hp)
        | eq => exact congrArg (List.cons a.toNat) (hrest.eq_eq.mp hp)
        | gt => exact List.cons_lt_cons_self.mpr (hrest.eq_gt.mp hp)
      · have hne : a.toNat ≠ b.toNat := fun h => hab (BitVec.eq_of_toNat_eq h)
        have hstep : strncmp (a :: s) (b :: name) = (a.toNat : ℤ) - b.toNat := by
          rw [strncmp, if_pos hab]
        rw [probeName, hstep, if_neg (by omega)]
        rcases Nat.lt_or_gt_of_ne hne with hlt | hgt
        · rw [if_pos (by omega)]
          exact List.cons_lt_cons_iff.mpr (Or.inl hlt)
        · rw [if_neg (by omega)]
          exact List.cons_lt_cons_iff.mpr (Or.inl hgt)

/-! ### The table -/

theorem kwTable_sorted : (kwTable.map fun e => byteKey (keywordBytes e)).Pairwise (· < ·) := by
  decide +kernel

/-- How an identifier compares to the entry `i`. -/
def probeEntry (s : List Byte) (i : ℕ) : Ordering :=
  probeName s (keywordBytes (kwTable.getD i ("", .ident)))

theorem probeEntry_ordered {s : List Byte} (hs : ∀ b ∈ s, b ≠ 0) : Ordered (probeEntry s) 59 := by
  intro i j hij hj hi
  have hsorted : byteKey (keywordBytes (kwTable.getD i ("", .ident))) <
      byteKey (keywordBytes (kwTable.getD j ("", .ident))) := by
    have hget := List.pairwise_iff_getElem.mp kwTable_sorted i j
      (by rw [List.length_map]; exact hij.trans hj) (by rw [List.length_map]; exact hj) hij
    rw [List.getElem_map, List.getElem_map] at hget
    rw [List.getD_eq_getElem _ _ (hij.trans hj : i < kwTable.length),
      List.getD_eq_getElem _ _ (hj : j < kwTable.length)]
    exact hget
  have hle := (probeName_compares hs _).ne_gt.mp hi
  exact (probeName_compares hs _).eq_lt.mpr (hle.trans_lt hsorted)

/-- The search of `lookup_keyword` is a bisection. -/
theorem searchKeyword_eq_bisect (s : List Byte) (lo hi : ℤ) : searchKeyword s lo hi =
    (bisect (probeEntry s) lo hi).elim .ident fun i => (kwTable.getD i ("", .ident)).2 := by
  fun_induction bisect (probeEntry s) lo hi with
  | case1 lo hi hle heq =>
    unfold probeEntry probeName at heq
    rw [searchKeyword, if_pos hle]
    dsimp only
    split at heq
    · rw [if_pos ‹_›]
      rfl
    · split at heq <;> cases heq
  | case2 lo hi hle hlt ih =>
    unfold probeEntry probeName at hlt
    rw [searchKeyword, if_pos hle, ← ih]
    dsimp only
    split at hlt
    · cases hlt
    · split at hlt
      · rw [if_neg ‹_›, if_pos ‹_›]
      · cases hlt
  | case3 lo hi hle hgt ih =>
    unfold probeEntry probeName at hgt
    rw [searchKeyword, if_pos hle, ← ih]
    dsimp only
    split at hgt
    · cases hgt
    · split at hgt
      · cases hgt
      · rw [if_neg ‹_›, if_neg ‹_›]
  | case4 lo hi hle =>
    rw [searchKeyword, if_neg hle]
    rfl

theorem probeEntry_eq_iff {s : List Byte} (hs : ∀ b ∈ s, b ≠ 0) {i : ℕ} :
    probeEntry s i = .eq ↔ keywordBytes (kwTable.getD i ("", .ident)) = s := by
  rw [probeEntry, (probeName_compares hs _).eq_eq]
  exact ⟨fun h => (byteKey_injective h).symm, fun h => by rw [h]⟩

/-- `lookup_keyword` gives the kind of the entry that is spelled like the identifier, and
`TOK_IDENT` to an identifier that is no keyword. -/
theorem lookupKeyword_spelled {s : List Byte} (hs : ∀ b ∈ s, b ≠ 0) :
    (∀ e ∈ kwTable, keywordBytes e = s → lookupKeyword s = e.2) ∧
      ((∀ e ∈ kwTable, keywordBytes e ≠ s) → lookupKeyword s = .ident) := by
  have hfind : ∀ k, bisect (probeEntry s) 0 58 = some k ↔
      (0 : ℤ) ≤ k ∧ (k : ℤ) ≤ 58 ∧ keywordBytes (kwTable.getD k ("", .ident)) = s := by
    intro k
    rw [bisect_eq_some_iff (probeEntry_ordered hs) (Int.le_refl 0) (by decide), probeEntry_eq_iff hs]
  constructor
  · intro e he hspelled
    obtain ⟨k, hk, hget⟩ := List.mem_iff_getElem.mp he
    have hentry : kwTable.getD k ("", .ident) = e := by rw [List.getD_eq_getElem _ _ hk, hget]
    have hlt : k < 59 := hk
    have hsome := (hfind k).mpr ⟨by omega, by omega, hentry ▸ hspelled⟩
    rw [lookupKeyword, searchKeyword_eq_bisect, hsome, Option.elim_some, hentry]
  · intro hnone
    rw [lookupKeyword, searchKeyword_eq_bisect]
    cases hk : bisect (probeEntry s) 0 58 with
    | none => rfl
    | some k =>
      obtain ⟨-, hle, hspelled⟩ := (hfind k).mp hk
      have hlt : k < kwTable.length := (show k < 59 by omega)
      rw [List.getD_eq_getElem _ _ hlt] at hspelled
      exact absurd hspelled (hnone _ (List.getElem_mem hlt))

/-- A keyword, and one that goes on. -/
theorem lookupKeyword_const : lookupKeyword (keywordBytes ("__const", .ident)) = .const ∧
    lookupKeyword (keywordBytes ("__const_", .ident)) = .ident :=
  ⟨(lookupKeyword_spelled (by decide)).1 ("__const", .const) (by decide) rfl,
    (lookupKeyword_spelled (by decide)).2 (by decide +kernel)⟩

end TinyC
