import Mathlib.Data.List.Pairwise
import Mathlib.Logic.Relation

/-!
# Stacks of frames

A machine whose top frame works on a shared memory, calls another frame or returns to the one
below it. What a frame is and what it does is left open.
-/

namespace FrameStack

open Relation

/-- What frames of type `φ` do to a memory of type `μ`. -/
structure Machine (φ μ : Type) where
  work : φ → μ → φ → μ → Prop
  /-- The frame on top of a stack calls a new one. -/
  enter : List φ → μ → φ → μ → Prop
  /-- A frame returns to its caller, which goes on. -/
  leave : φ → φ → μ → φ → μ → Prop

variable {φ μ : Type} (M : Machine φ μ)

inductive Step : μ × List φ → μ × List φ → Prop where
  | work {a a' : φ} {m m' : μ} {below : List φ} (h : M.work a m a' m') :
      Step (m, a :: below) (m', a' :: below)
  | enter {a b : φ} {m m' : μ} {below : List φ} (h : M.enter (a :: below) m b m') :
      Step (m, a :: below) (m', b :: a :: below)
  | leave {a b b' : φ} {m m' : μ} {below : List φ} (h : M.leave a b m b' m') :
      Step (m, a :: b :: below) (m', b' :: below)

variable {M}

/-! ### One frame while those above it come and go -/

/-- The frame that stands on `below` satisfies `I`. -/
def Base (below : List φ) (I : φ → Prop) (s : μ × List φ) : Prop :=
  ∃ above b, s.2 = above ++ b :: below ∧ I b

theorem Base.height {below : List φ} {I : φ → Prop} {s : μ × List φ} (h : Base below I s) :
    below.length < s.2.length := by
  obtain ⟨above, b, hs, -⟩ := h
  rw [hs, List.length_append, List.length_cons]
  omega

section

variable {below : List φ} {R J : φ → Prop} {s s' : μ × List φ}

/-- What work and the returns of others keep, a step keeps, unless the frame itself returns. -/
theorem Step.base (hwork : ∀ {b m b' m'}, R b → J b → M.work b m b' m' → J b')
    (hleave : ∀ {a b m b' m'}, R b → J b → M.leave a b m b' m' → J b')
    (h : Base below (fun b => R b ∧ J b) s) (hstep : Step M s s') :
    Base below J s' ∨ s'.2.length ≤ below.length := by
  obtain ⟨above, b, hs, hR, hJ⟩ := h
  cases hstep with
  | @work a a' m m' rest hdo =>
    cases above with
    | nil =>
      obtain ⟨rfl, rfl⟩ := List.cons.inj hs
      exact .inl ⟨[], a', rfl, hwork hR hJ hdo⟩
    | cons c above =>
      obtain ⟨-, rfl⟩ := List.cons.inj hs
      exact .inl ⟨a' :: above, b, rfl, hJ⟩
  | @enter a c m m' rest hdo =>
    refine .inl ⟨c :: above, b, ?_, hJ⟩
    exact congrArg (c :: ·) hs
  | @leave a c c' m m' rest hdo =>
    rcases above with _ | ⟨d, _ | ⟨e, above⟩⟩
    · obtain ⟨-, hrest⟩ := List.cons.inj hs
      subst hrest
      exact .inr (Nat.le_refl _)
    · obtain ⟨-, hrest⟩ := List.cons.inj hs
      obtain ⟨rfl, rfl⟩ := List.cons.inj hrest
      exact .inl ⟨[], c', rfl, hleave hR hJ hdo⟩
    · obtain ⟨-, hrest⟩ := List.cons.inj hs
      obtain ⟨-, rfl⟩ := List.cons.inj hrest
      exact .inl ⟨c' :: above, b, rfl, hJ⟩

/-- A run during which the frame on `below` stays in `R`, up to its last step. -/
def RunsOver (M : Machine φ μ) (below : List φ) (R : φ → Prop) :
    μ × List φ → μ × List φ → Prop :=
  ReflTransGen fun s s' => Base below R s ∧ Step M s s'

/-- What work in `R` and the returns of others keep, the run keeps. -/
theorem RunsOver.keeps (hwork : ∀ {b m b' m'}, R b → J b → M.work b m b' m' → J b')
    (hleave : ∀ {a b m b' m'}, R b → J b → M.leave a b m b' m' → J b') {m m' : μ} {a a' : φ}
    (h : RunsOver M below R (m, a :: below) (m', a' :: below)) (ha : J a) : J a' := by
  have hrun : ∀ {s : μ × List φ}, RunsOver M below R (m, a :: below) s →
      Base below J s ∨ s.2.length ≤ below.length := by
    intro s hs
    induction hs with
    | refl => exact .inl ⟨[], a, rfl, ha⟩
    | tail _ hstep ih =>
      obtain ⟨hbase, hstep⟩ := hstep
      refine Step.base hwork hleave ?_ hstep
      rcases ih with ⟨above, b, hs, hJ⟩ | hlow
      · obtain ⟨above', b', hs', hR⟩ := hbase
        have hsame : b :: below = b' :: below :=
          (List.append_inj' (hs.symm.trans hs') rfl).2
        obtain ⟨rfl, -⟩ := List.cons.inj hsame
        exact ⟨above, b, hs, hR, hJ⟩
      · exact absurd hbase.height (Nat.not_lt.mpr hlow)
  rcases hrun h with ⟨above, b, hs, hJ⟩ | hlow
  · have hstack : [] ++ a' :: below = above ++ b :: below := hs
    obtain ⟨rfl, -⟩ := List.cons.inj (List.append_inj' hstack rfl).2
    exact hJ
  · exact absurd hlow (Nat.not_le.mpr (Nat.lt_succ_self _))

end

/-! ### What is fixed when a frame is entered -/

/-- Keys of frames that work and returns leave as they are, and that are related to those below
when the frame is entered. -/
structure KeysApart {κ : Type} (M : Machine φ μ) (key : φ → κ) (P : κ → Prop) (r : κ → κ → Prop) :
    Prop where
  work : ∀ {a m a' m'}, M.work a m a' m' → key a' = key a
  leave : ∀ {a b m b' m'}, M.leave a b m b' m' → key b' = key b
  enter : ∀ {below m b m'}, M.enter below m b m' → P (key b) ∧ ∀ a ∈ below, r (key b) (key a)

/-- The frames of a stack have keys in `P`, each related to those below it. -/
def Ordered {κ : Type} (key : φ → κ) (P : κ → Prop) (r : κ → κ → Prop) (s : μ × List φ) : Prop :=
  (∀ k ∈ s.2.map key, P k) ∧ (s.2.map key).Pairwise r

theorem KeysApart.run {κ : Type} {key : φ → κ} {P : κ → Prop} {r : κ → κ → Prop}
    (h : KeysApart M key P r) {s s' : μ × List φ} (hs : Ordered key P r s)
    (hrun : ReflTransGen (Step M) s s') : Ordered key P r s' := by
  induction hrun with
  | refl => exact hs
  | tail _ hstep ih =>
    obtain ⟨hP, hr⟩ := ih
    cases hstep with
    | work hdo =>
      rw [Ordered, List.map_cons, h.work hdo]
      exact ⟨hP, hr⟩
    | enter hdo =>
      obtain ⟨hnew, hbelow⟩ := h.enter hdo
      refine ⟨List.forall_mem_cons.mpr ⟨hnew, hP⟩, List.pairwise_cons.mpr ⟨?_, hr⟩⟩
      intro k hk
      obtain ⟨a, ha, rfl⟩ := List.mem_map.mp hk
      exact hbelow a ha
    | leave hdo =>
      rw [Ordered, List.map_cons, h.leave hdo]
      exact ⟨(List.forall_mem_cons.mp hP).2, (List.pairwise_cons.mp hr).2⟩

end FrameStack
