import Mathlib.Data.Set.Lattice

/-!
# Reads and writes along the paths of jumping code

Code is a list of instructions that read and write cells and may jump to labels. One pass over
the code, with a plan of the cells written whenever a label is reached, shows that on every path
a cell is written before it is read.
-/

namespace JumpFlow

/-- Where control goes after an instruction with a label of type `Λ`. -/
inductive Control (Λ : Type) where
  | next
  | label (l : Λ)
  | jump (l : Λ)
  | branch (l : Λ)
  | stop
  deriving DecidableEq

/-- Does control go on to the next instruction? -/
def Control.falls {Λ : Type} : Control Λ → Bool
  | .jump _ | .stop => false
  | _ => true

def Control.target {Λ : Type} : Control Λ → Option Λ
  | .jump l | .branch l => some l
  | _ => none

/-- How instructions of type `I` use cells of type `C`. -/
structure Access (I C Λ : Type) where
  control : I → Control Λ
  reads : I → Set C
  writes : I → Set C

namespace Access

variable {I C Λ : Type} (X : Access I C Λ) (code : List I)

/-- Control may go from one position to another. A branch may go either way. -/
inductive Succ : ℕ → ℕ → Prop
  | fall {pc : ℕ} {i : I} (hi : code[pc]? = some i) (hf : (X.control i).falls) : Succ pc (pc + 1)
  | jump {pc pc' : ℕ} {i j : I} {l : Λ} (hi : code[pc]? = some i)
      (hl : (X.control i).target = some l) (hj : code[pc']? = some j)
      (hp : X.control j = .label l) : Succ pc pc'

/-- `Path ok trail pc`: a path from the first instruction to `pc` over the positions of `trail`,
the latest first, each of whose steps is `ok`. -/
inductive Path (ok : List ℕ → ℕ → ℕ → Prop) : List ℕ → ℕ → Prop
  | start : Path ok [] 0
  | step {trail : List ℕ} {pc pc' : ℕ} (h : Path ok trail pc) (hs : X.Succ code pc pc')
      (hok : ok trail pc pc') : Path ok (pc :: trail) pc'

/-- Is there a path of this trail? -/
def isPath [DecidableEq Λ] : List ℕ → ℕ → Bool
  | [], pc => pc = 0
  | q :: trail, pc =>
      isPath trail q && code[q]?.any fun i =>
        pc = q + 1 && (X.control i).falls || (X.control i).target.any fun l =>
          code[pc]?.any fun j => X.control j = .label l

/-- The cells written at the positions of a trail. -/
def Written (trail : List ℕ) : Set C :=
  {c | ∃ q ∈ trail, ∃ i, code[q]? = some i ∧ c ∈ X.writes i}

/-- A jump from `pc` to a label at `pc'` finds the cells written that the label asks for. -/
def MeetsLabel (asks : Λ → Set C) (trail : List ℕ) (pc pc' : ℕ) : Prop :=
  ∀ i j l, code[pc]? = some i → (X.control i).target = some l → code[pc']? = some j →
    X.control j = .label l → asks l ⊆ X.Written code (pc :: trail)

variable (live asks : Λ → Set C)

/-- What is written after an instruction, if control goes on there, `A` being written before. -/
def after (A : Set C) (i : I) : Set C :=
  match X.control i with
  | .next => A ∪ X.writes i
  | .label l => A ∩ live l
  | .branch _ => A
  | .jump _ | .stop => Set.univ

/-- What is read is written. `live l` is written whenever a jump gets to `l`, but the jump need not
provide what `l` asks for. -/
def Fine (A : Set C) (i : I) : Prop :=
  X.reads i ⊆ A ∧
    match X.control i with
    | .label l => X.reads i ⊆ live l
    | .jump l | .branch l => live l ⊆ A ∪ asks l
    | _ => True

/-- The pass over the code. It starts with `A` and ends with `B` written. -/
def Checks (A : Set C) : List I → Set C → Prop
  | [], B => B ⊆ A
  | i :: is, B => X.Fine live asks A i ∧ Checks (X.after live A i) is B

variable {X code live asks} {A A' B B' D : Set C} {is js : List I} {i : I}

theorem after_mono (hA : A ⊆ A') (i : I) : X.after live A i ⊆ X.after live A' i := by
  unfold after
  split
  · exact Set.union_subset_union_left _ hA
  · exact Set.inter_subset_inter_left _ hA
  · exact hA
  · exact le_rfl
  · exact le_rfl

theorem Fine.mono (hA : A ⊆ A') (h : X.Fine live asks A i) : X.Fine live asks A' i := by
  refine ⟨h.1.trans hA, ?_⟩
  have hc := h.2
  cases hi : X.control i with
  | label l =>
    rw [hi] at hc
    exact hc
  | jump l | branch l =>
    rw [hi] at hc
    exact hc.trans (Set.union_subset_union_left _ hA)
  | next | stop => trivial

theorem Path.mono {ok ok' : List ℕ → ℕ → ℕ → Prop} {trail : List ℕ} {pc : ℕ}
    (h : X.Path code ok trail pc) (hok : ∀ trail pc pc', ok trail pc pc' → ok' trail pc pc') :
    X.Path code ok' trail pc := by
  induction h with
  | start => exact .start
  | step _ hs h ih => exact .step ih hs (hok _ _ _ h)

theorem path_of_isPath [DecidableEq Λ] {trail : List ℕ} {pc : ℕ}
    (h : X.isPath code trail pc = true) : X.Path code (fun _ _ _ => True) trail pc := by
  induction trail generalizing pc with
  | nil =>
    obtain rfl : pc = 0 := by simpa [isPath] using h
    exact .start
  | cons q trail ih =>
    simp only [isPath, Bool.and_eq_true, Bool.or_eq_true, Option.any_eq_true,
      decide_eq_true_eq] at h
    obtain ⟨htrail, i, hi, ⟨rfl, hfalls⟩ | ⟨l, hl, j, hj, hlabel⟩⟩ := h
    · exact .step (ih htrail) (.fall hi hfalls) trivial
    · exact .step (ih htrail) (.jump hi hl hj hlabel) trivial

namespace Checks

theorem mono (hA : A ⊆ A') (hB : B' ⊆ B) (h : X.Checks live asks A is B) :
    X.Checks live asks A' is B' := by
  induction is generalizing A A' with
  | nil => exact (hB.trans h).trans hA
  | cons i is ih => exact ⟨h.1.mono hA, ih (after_mono hA i) h.2⟩

theorem append (h : X.Checks live asks A is B) (h' : X.Checks live asks B js D) :
    X.Checks live asks A (is ++ js) D := by
  induction is generalizing A with
  | nil => exact h'.mono h le_rfl
  | cons i is ih => exact ⟨h.1, ih h.2⟩

/-- The pass comes to every position. -/
theorem drop (n : ℕ) (h : X.Checks live asks A is B) :
    ∃ A', X.Checks live asks A' (is.drop n) B := by
  induction n generalizing A is with
  | zero => exact ⟨A, h⟩
  | succ n ih =>
    cases is with
    | nil => exact ⟨A, h⟩
    | cons i is => exact ih h.2

/-- At a label the pass can begin anew with what is live there. -/
theorem at_label {pc : ℕ} {l : Λ} (h : X.Checks live asks A code B) (hi : code[pc]? = some i)
    (hl : X.control i = .label l) : X.Checks live asks (live l) (code.drop pc) B := by
  obtain ⟨A', hdrop⟩ := h.drop pc
  obtain ⟨hlt, rfl⟩ := List.getElem?_eq_some_iff.mp hi
  rw [List.drop_eq_getElem_cons hlt] at hdrop ⊢
  obtain ⟨⟨-, hfine⟩, hrest⟩ := hdrop
  rw [hl] at hfine
  refine ⟨⟨hfine, ?_⟩, ?_⟩
  · rw [hl]
    exact hfine
  · rw [after, hl] at hrest ⊢
    exact hrest.mono (Set.subset_inter Set.inter_subset_right Set.inter_subset_right) le_rfl

end Checks

/-- What the pass finds at a position that a path has come to. -/
def Reaches (X : Access I C Λ) (live asks : Λ → Set C) (code : List I) (B : Set C)
    (trail : List ℕ) (pc : ℕ) : Prop :=
  ∃ A ⊆ X.Written code trail, X.Checks live asks A (code.drop pc) B

theorem Written.mono (trail : List ℕ) (pc : ℕ) :
    X.Written code trail ⊆ X.Written code (pc :: trail) :=
  fun _ ⟨q, hq, h⟩ => ⟨q, List.mem_cons_of_mem pc hq, h⟩

theorem Written.head {trail : List ℕ} {pc : ℕ} (hi : code[pc]? = some i) :
    X.writes i ⊆ X.Written code (pc :: trail) := fun _ hc => ⟨pc, List.mem_cons_self, i, hi, hc⟩

/-- One step keeps what the pass has found. -/
theorem Reaches.step {trail : List ℕ} {pc pc' : ℕ} (hcode : ∃ A, X.Checks live asks A code B)
    (h : X.Reaches live asks code B trail pc) (hs : X.Succ code pc pc')
    (hok : X.MeetsLabel code asks trail pc pc') :
    X.Reaches live asks code B (pc :: trail) pc' := by
  obtain ⟨A, hA, hchecks⟩ := h
  cases hs with
  | fall hi hf =>
    rename_i i
    obtain ⟨hlt, rfl⟩ := List.getElem?_eq_some_iff.mp hi
    rw [List.drop_eq_getElem_cons hlt] at hchecks
    obtain ⟨⟨hr, hfine⟩, hrest⟩ := hchecks
    refine ⟨_, ?_, hrest⟩
    unfold after
    split
    · exact Set.union_subset (hA.trans (Written.mono trail pc)) (Written.head hi)
    · exact Set.inter_subset_left.trans (hA.trans (Written.mono trail pc))
    · exact hA.trans (Written.mono trail pc)
    · rename_i l hl
      simp [hl, Control.falls] at hf
    · rename_i hl
      simp [hl, Control.falls] at hf
  | jump hi hl hj hp =>
    rename_i i j l
    obtain ⟨A₀, hcode⟩ := hcode
    refine ⟨live l, ?_, hcode.at_label hj hp⟩
    obtain ⟨hlt, rfl⟩ := List.getElem?_eq_some_iff.mp hi
    rw [List.drop_eq_getElem_cons hlt] at hchecks
    have hfine := hchecks.1.2
    have hasks := hok _ _ _ hi hl hj hp
    have hlive : live l ⊆ A ∪ asks l := by
      cases hc : X.control code[pc] with
      | jump l' | branch l' =>
        rw [hc] at hl hfine
        obtain rfl := Option.some.inj hl
        exact hfine
      | next | label l' | stop => simp [hc, Control.target] at hl
    exact hlive.trans (Set.union_subset (hA.trans (Written.mono trail pc)) hasks)

/-- Along a path whose jumps meet the labels, what is read has been written. -/
theorem Checks.reads_written (h : X.Checks live asks ∅ code B) {trail : List ℕ} {pc : ℕ}
    (hpath : X.Path code (X.MeetsLabel code asks) trail pc) (hi : code[pc]? = some i) :
    X.reads i ⊆ X.Written code trail := by
  have hreaches : X.Reaches live asks code B trail pc := by
    induction hpath generalizing i with
    | start => exact ⟨∅, Set.empty_subset _, h⟩
    | step hpath hs hok ih =>
      have hhere := by
        cases hs with
        | fall hj _ => exact ih hj
        | jump hj _ _ _ => exact ih hj
      exact hhere.step ⟨∅, h⟩ hs hok
  obtain ⟨A, hA, hchecks⟩ := hreaches
  obtain ⟨hlt, rfl⟩ := List.getElem?_eq_some_iff.mp hi
  rw [List.drop_eq_getElem_cons hlt] at hchecks
  exact hchecks.1.1.trans hA

end Access

end JumpFlow
