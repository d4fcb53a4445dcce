import Mathlib.Data.Finset.Card
import Mathlib.Logic.Relation
import Mathlib.Order.WellFounded

/-!
# Descents among finitely many points

Below a point from which every descent ends, a descent gets shorter with every step, and none is
longer than there are points.
-/

namespace Descent

open Relation

variable {R : ℕ → ℕ → Prop} {N a b : ℕ}

/-- `R a b` is a step down from `a` to `b`. -/
abbrev Ends (R : ℕ → ℕ → Prop) (a : ℕ) : Prop := Acc (Function.swap R) a

open Classical in
/-- The points below `N` that descents from `a` come by. -/
noncomputable def below (R : ℕ → ℕ → Prop) (N a : ℕ) : Finset ℕ :=
  (Finset.range N).filter (TransGen R a)

noncomputable def height (R : ℕ → ℕ → Prop) (N a : ℕ) : ℕ := (below R N a).card

theorem mem_below : b ∈ below R N a ↔ b < N ∧ TransGen R a b := by
  classical
  unfold below
  rw [Finset.mem_filter, Finset.mem_range]

theorem height_le : height R N a ≤ N := by
  classical
  have hcard := Finset.card_le_card (Finset.filter_subset (TransGen R a) (Finset.range N))
  rwa [Finset.card_range] at hcard

/-- No descent that ends comes back. -/
theorem Ends.irrefl (h : Ends R a) : ¬TransGen R a a := by
  intro hloop
  have hacc : Acc (TransGen (Function.swap R)) a := h.transGen
  have hswap : TransGen (Function.swap R) a a := transGen_swap.mpr hloop
  clear h hloop
  induction hacc with
  | intro a _ ih => exact ih a hswap hswap

theorem height_lt_card (h : Ends R a) (ha : a < N) : height R N a < N := by
  classical
  have hsub : below R N a ⊂ Finset.range N := by
    refine (Finset.ssubset_iff_of_subset (Finset.filter_subset _ _)).mpr ?_
    exact ⟨a, Finset.mem_range.mpr ha, fun hmem => h.irrefl (mem_below.mp hmem).2⟩
  have hcard := Finset.card_lt_card hsub
  rwa [Finset.card_range] at hcard

theorem height_lt (h : Ends R b) (hab : R a b) (hb : b < N) : height R N b < height R N a := by
  apply Finset.card_lt_card
  rw [Finset.ssubset_iff_of_subset]
  · exact ⟨b, mem_below.mpr ⟨hb, .single hab⟩, fun hmem => h.irrefl (mem_below.mp hmem).2⟩
  · intro c hc
    obtain ⟨hlt, hbc⟩ := mem_below.mp hc
    exact mem_below.mpr ⟨hlt, .head hab hbc⟩

end Descent
