import Mathlib.Data.Option.Basic

/-!
# Partial runs and total ones

A computation over a state may be undefined; a machine goes on in any case, but may have lost its
state. The machine refines the computation if it does what the computation does where that is
defined.
-/

namespace PartialRuns

variable {σ α β γ δ : Type}

abbrev Partial (σ : Type) := StateT σ Option

/-- The runs of a machine; `none` is a lost state. -/
abbrev Total (σ : Type) := StateM (Option σ)

namespace Partial

def undefined : Partial σ α := fun _ => none

def ofOption : Option α → Partial σ α
  | some a => pure a
  | none => undefined

/-- What only looks at the state. -/
def asks (f : σ → Option α) : Partial σ α := fun s => (f s).map fun a => (a, s)

/-- What only changes it. -/
def modifies (f : σ → Option σ) : Partial σ Unit := fun s => (f s).map fun s' => ((), s')

theorem bind_eq_some {c : Partial σ α} {k : α → Partial σ β} {s s' : σ} {b : β} :
    (c >>= k) s = some (b, s') ↔ ∃ a s₁, c s = some (a, s₁) ∧ k a s₁ = some (b, s') := by
  change (c s).bind (fun r => k r.1 r.2) = some (b, s') ↔ _
  simp only [Option.bind_eq_some_iff, Prod.exists]

end Partial

namespace Total

/-- The value `f` finds, and `d` if it finds none. -/
def asks (d : α) (f : σ → Option α) : Total σ α := fun w =>
  ((w.bind f).getD d, w.filter fun s => (f s).isSome)

def modifies (f : σ → Option σ) : Total σ Unit := fun w => ((), w.bind f)

end Total

/-- Where `c` is defined `ev` does the same, up to `r` on the results. -/
def Refines (r : α → β → Prop) (ev : Total σ α) (c : Partial σ β) : Prop :=
  ∀ ⦃s b s'⦄, c s = some (b, s') → ∃ a, ev (some s) = (a, some s') ∧ r a b

namespace Refines

variable {r r' : α → β → Prop} {q : γ → δ → Prop} {ev : Total σ α} {c : Partial σ β}

theorem pure {a : α} {b : β} (h : r a b) :
    Refines r (Pure.pure a : Total σ α) (Pure.pure b : Partial σ β) := by
  intro s b' s' hc
  obtain ⟨rfl, rfl⟩ := Prod.mk.inj (Option.some.inj hc)
  exact ⟨a, rfl, h⟩

theorem mono (h : Refines r ev c) (hr : ∀ a b, r a b → r' a b) : Refines r' ev c := by
  intro s b s' hc
  obtain ⟨a, hev, hab⟩ := h hc
  exact ⟨a, hev, hr a b hab⟩

theorem bind {k : α → Total σ γ} {l : β → Partial σ δ} (h : Refines r ev c)
    (hk : ∀ a b, r a b → Refines q (k a) (l b)) : Refines q (ev >>= k) (c >>= l) := by
  intro s d s' hc
  obtain ⟨b, s₁, hc₁, hc₂⟩ := Partial.bind_eq_some.mp hc
  obtain ⟨a, hev, hab⟩ := h hc₁
  obtain ⟨z, hz, hq⟩ := hk a b hab hc₂
  refine ⟨z, ?_, hq⟩
  change k (ev (some s)).1 (ev (some s)).2 = _
  rw [hev]
  exact hz

theorem undefined : Refines r ev (.undefined : Partial σ β) := by
  intro s b s' hc
  cases hc

theorem ofOption {o : Option β} (h : ∀ b, o = some b → Refines r ev (Pure.pure b)) :
    Refines r ev (Partial.ofOption o) := by
  cases o with
  | none => exact undefined
  | some b => exact h b rfl

theorem asks {d : α} {f : σ → Option α} {l : σ → Option β}
    (h : ∀ s b, l s = some b → ∃ a, f s = some a ∧ r a b) :
    Refines r (Total.asks d f) (Partial.asks l) := by
  intro s b s' hc
  obtain ⟨b', hb, hpair⟩ := Option.map_eq_some_iff.mp hc
  obtain ⟨rfl, rfl⟩ := Prod.mk.inj hpair
  obtain ⟨a, ha, hab⟩ := h s b' hb
  exact ⟨a, by simp [Total.asks, ha, Option.filter_some], hab⟩

/-- A step of the machine alone. -/
theorem step {k : α → Total σ γ} {b : β} {l : Partial σ δ}
    (h : Refines r ev (Pure.pure b)) (hk : ∀ a, r a b → Refines q (k a) l) :
    Refines q (ev >>= k) l := by
  intro s d s' hc
  obtain ⟨a, hev, hab⟩ := h (s := s) rfl
  obtain ⟨z, hz, hq⟩ := hk a hab hc
  refine ⟨z, ?_, hq⟩
  change k (ev (some s)).1 (ev (some s)).2 = _
  rw [hev]
  exact hz

/-- What is made of the result alone. -/
theorem map {f : β → δ} {q : α → δ → Prop} (h : Refines r ev c)
    (hq : ∀ a b, r a b → q a (f b)) : Refines q ev (c >>= fun b => Pure.pure (f b)) := by
  intro s d s' hc
  obtain ⟨b, s₁, hc₁, hc₂⟩ := Partial.bind_eq_some.mp hc
  obtain ⟨rfl, rfl⟩ := Prod.mk.inj (Option.some.inj hc₂)
  obtain ⟨a, hev, hab⟩ := h hc₁
  exact ⟨a, hev, hq a b hab⟩

/-- What is made of the result alone, if anything is. -/
theorem filterMap {f : β → Option δ} {q : α → δ → Prop} (h : Refines r ev c)
    (hq : ∀ a b d, r a b → f b = some d → q a d) :
    Refines q ev (c >>= fun b => Partial.ofOption (f b)) := by
  intro s d s' hc
  obtain ⟨b, s₁, hc₁, hc₂⟩ := Partial.bind_eq_some.mp hc
  cases hd : f b with
  | none =>
    rw [hd] at hc₂
    cases hc₂
  | some d' =>
    rw [hd] at hc₂
    obtain ⟨rfl, rfl⟩ := Prod.mk.inj (Option.some.inj hc₂)
    obtain ⟨a, hev, hab⟩ := h hc₁
    exact ⟨a, hev, hq a b d' hab hd⟩

/-- A value that is always found. -/
theorem asks_pure {d : α} {f : σ → Option α} {b : β} (h : ∀ s, ∃ a, f s = some a ∧ r a b) :
    Refines r (Total.asks d f) (Pure.pure b : Partial σ β) := by
  refine asks (l := fun _ => some b) fun s b' hb => ?_
  obtain rfl := Option.some.inj hb
  exact h s

theorem asks_ofOption {d : α} {f : σ → Option α} {o : Option β}
    (h : ∀ b, o = some b → ∀ s, ∃ a, f s = some a ∧ r a b) :
    Refines r (Total.asks d f) (Partial.ofOption o : Partial σ β) :=
  ofOption fun b hb => asks_pure (h b hb)

theorem modifies {f l : σ → Option σ} (h : ∀ s s', l s = some s' → f s = some s') :
    Refines (fun _ _ => True) (Total.modifies f) (Partial.modifies l) := by
  intro s b s' hc
  obtain ⟨s₁, hs₁, hpair⟩ := Option.map_eq_some_iff.mp hc
  obtain ⟨-, rfl⟩ := Prod.mk.inj hpair
  exact ⟨(), congrArg (Prod.mk ()) (h s s₁ hs₁), trivial⟩

end Refines

end PartialRuns
