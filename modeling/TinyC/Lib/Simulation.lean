import Mathlib.Computability.StateTransition

/-!
# Forward simulation

One transition function follows another as long as the other stays among its safe states. Then it
takes part in every finite run and does not come to an end before an infinite one.
-/

namespace Simulation

open StateTransition Relation

variable {σ γ : Type} {f : σ → Option σ} {g : γ → Option γ} {safe : σ → Prop} {R : σ → γ → Prop}

/-- What a step leads to, if it is safe, is met by one or more steps of `g`. -/
structure Follows (f : σ → Option σ) (g : γ → Option γ) (safe : σ → Prop) (R : σ → γ → Prop) :
    Prop where
  step : ∀ {s s' : σ} {t : γ}, R s t → s' ∈ f s → safe s' → ∃ t', R s' t' ∧ Reaches₁ g t t'
  /-- There is no way back to a safe state. -/
  back : ∀ {s s' : σ}, s' ∈ f s → safe s' → safe s

/-- Every run from `s` goes on, and safely. -/
def SafeForever (f : σ → Option σ) (safe : σ → Prop) (s : σ) : Prop :=
  ∀ s', Reaches f s s' → ∃ s'' ∈ f s', safe s''

theorem SafeForever.step {s s' : σ} (h : SafeForever f safe s) (hs : s' ∈ f s) :
    SafeForever f safe s' := fun _ hr => h _ (hr.head hs)

namespace Follows

theorem safe_of_reaches (h : Follows f g safe R) {s s' : σ} (hr : Reaches f s s')
    (hsafe : safe s') : safe s := by
  induction hr using ReflTransGen.head_induction_on with
  | refl => exact hsafe
  | head hstep _ ih => exact h.back hstep ih

/-- A run to a safe state. -/
theorem reaches (h : Follows f g safe R) {s s' : σ} {t : γ} (hR : R s t) (hr : Reaches f s s')
    (hsafe : safe s') : ∃ t', R s' t' ∧ Reaches g t t' := by
  induction hr using ReflTransGen.head_induction_on generalizing t with
  | refl => exact ⟨t, hR, .refl⟩
  | head hstep hrest ih =>
    obtain ⟨t₁, hR₁, ht₁⟩ := h.step hR hstep (h.safe_of_reaches hrest hsafe)
    obtain ⟨t', hR', ht'⟩ := ih hR₁
    exact ⟨t', hR', ht₁.to_reflTransGen.trans ht'⟩

/-- An infinite run. The induction is on the run of `g`, which has already come to some `a` on its
way to a state in `R`. -/
theorem diverges (h : Follows f g safe R) {s : σ} {t : γ} (hR : R s t)
    (hs : SafeForever f safe s) : ¬(eval g t).Dom := by
  intro hdom
  obtain ⟨b, hb⟩ := Part.dom_iff_mem.mp hdom
  have hnever : ∀ s t', Reaches g t t' → R s t' → ¬SafeForever f safe s := by
    refine evalInduction (C := fun a => ∀ s t', Reaches g a t' → R s t' → ¬SafeForever f safe s)
      hb ?_
    intro a _ ih s t' ht' hR' hlive
    obtain ⟨s', hstep, hsafe⟩ := hlive s .refl
    obtain ⟨t'', hR'', hgo⟩ := h.step hR' hstep hsafe
    obtain ⟨a', ha', hrest⟩ := TransGen.head'_iff.mp (TransGen.trans_right ht' hgo)
    exact ih a' ha' s' t'' hrest hR'' (hlive.step hstep)
  exact hnever s t .refl hR hs

end Follows

end Simulation
