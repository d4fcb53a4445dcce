import Mathlib.Data.Nat.Find
import Mathlib.Order.Basic

/-!
# Runs through a region of code

States have a position. A run crosses the region from `lo` to `hi` if it stays in it until it
comes to its end.
-/

namespace RegionRuns

variable {S : Type} (step : S → Option S) (pos : S → ℕ)

/-- From `s` the positions are in `[lo, hi)` until the run comes to `hi` in the state `s'`. -/
inductive Crosses (lo hi : ℕ) : S → S → Prop where
  | done {s : S} (h : pos s = hi) : Crosses lo hi s s
  | head {s s' s'' : S} (hlo : lo ≤ pos s) (hhi : pos s < hi) (h : step s = some s')
      (hs : Crosses lo hi s' s'') : Crosses lo hi s s''

namespace Crosses

variable {step : S → Option S} {pos : S → ℕ} {lo mid hi : ℕ} {s s' s'' : S}

theorem pos_eq (h : Crosses step pos lo hi s s') : pos s' = hi := by
  induction h with
  | done h => exact h
  | head _ _ _ _ ih => exact ih

theorem unique (h : Crosses step pos lo hi s s') (h' : Crosses step pos lo hi s s'') :
    s' = s'' := by
  induction h with
  | done h =>
    cases h' with
    | done _ => rfl
    | head _ hhi _ _ => omega
  | head _ hhi hstep _ ih =>
    cases h' with
    | done h => omega
    | head _ _ hstep' hs' =>
      obtain rfl := Option.some.inj (hstep.symm.trans hstep')
      exact ih hs'

/-- One region after another, both within a larger one. -/
theorem append {a b : ℕ} (h : Crosses step pos a b s s') (hlo : lo ≤ a) (hhi : b ≤ hi)
    (h' : Crosses step pos lo hi s' s'') : Crosses step pos lo hi s s'' := by
  induction h with
  | done _ => exact h'
  | head hlo' hhi' hstep _ ih => exact .head (by omega) (by omega) hstep (ih h')

theorem trans (h : Crosses step pos lo mid s s') (h' : Crosses step pos mid hi s' s'')
    (hlo : lo ≤ mid) (hhi : mid ≤ hi) : Crosses step pos lo hi s s'' := by
  refine h.append le_rfl hhi ?_
  clear h
  induction h' with
  | done h => exact .done h
  | head hlo' hhi' hstep _ ih => exact .head (by omega) hhi' hstep ih

/-- A single step to the end of the region. -/
theorem single (hlo : lo ≤ pos s) (hhi : pos s < hi) (h : step s = some s') (hpos : pos s' = hi) :
    Crosses step pos lo hi s s' := .head hlo hhi h (.done hpos)

end Crosses

open Classical in
/-- The state in which the run from `s` comes to the end of the region, and `s` if it does not. -/
noncomputable def landing (lo hi : ℕ) (s : S) : S :=
  if h : ∃ s', Crosses step pos lo hi s s' then h.choose else s

theorem Crosses.landing_eq {step : S → Option S} {pos : S → ℕ} {lo hi : ℕ} {s s' : S}
    (h : Crosses step pos lo hi s s') : landing step pos lo hi s = s' := by
  have hex : ∃ s', Crosses step pos lo hi s s' := ⟨s', h⟩
  rw [landing, dif_pos hex]
  exact hex.choose_spec.unique h

end RegionRuns
