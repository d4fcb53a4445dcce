import TinyC.IrMachine
import TinyC.JumpLedger

/-!
# Code that is passed once

Where the jumps of a block stay in the block, and none behind it leads back into it, a run comes
through the block once.
-/

namespace TinyC

/-- A step goes to the next instruction or to where the label of a jump is placed. -/
theorem IrMachine.step_cases {W V : Type} {M : IrMachine W V} {P : List IRInstr}
    {s s' : IrState W V} (h : M.step P s = some s') : ∃ i, P[s.pc]? = some i ∧
      (s'.pc = s.pc + 1 ∨ ∃ l, i.target? = some l ∧ labelIndex P l = some s'.pc) := by
  have hjump : ∀ {l : ℤ}, IrMachine.jump P s l = some s' → labelIndex P l = some s'.pc := by
    intro l hl
    obtain ⟨pc, hpc, rfl⟩ := Option.map_eq_some_iff.mp hl
    exact hpc
  cases hi : P[s.pc]? with
  | none => simp [IrMachine.step, hi] at h
  | some i =>
    refine ⟨i, rfl, ?_⟩
    simp only [IrMachine.step, hi] at h
    split at h
    all_goals first
      | (cases h; done)
      | (cases h; exact .inl rfl)
      | skip
    · rename_i hop
      exact .inr ⟨_, by simp [IRInstr.target?, hop], hjump h⟩
    · rename_i hop
      split at h
      · cases h
        exact .inl rfl
      · exact .inr ⟨_, by simp [IRInstr.target?, hop], hjump h⟩
    · rename_i hop
      split at h
      · exact .inr ⟨_, by simp [IRInstr.target?, hop], hjump h⟩
      · cases h
        exact .inl rfl
    · split at h
      · cases h
        exact .inl rfl
      · cases h
        exact .inl rfl

section

variable {P pre code rest post : List IRInstr} {l : ℤ}

theorem labelIndex_append (xs ys : List IRInstr) (l : ℤ) : labelIndex (xs ++ ys) l =
    (labelIndex xs l).or ((labelIndex ys l).map (· + xs.length)) := List.findIdx?_append

theorem mem_labelsOf {ins : IRInstr} (h : ins ∈ P) (hop : ins.op = .label) (hl : ins.labelId = l) :
    l ∈ labelsOf P := List.mem_filterMap.mpr ⟨ins, h, by rw [if_pos hop, hl]⟩

theorem labelIndex_eq_some {n : ℕ} (h : labelIndex P l = some n) :
    ∃ ins, P[n]? = some ins ∧ ins.op = .label ∧ ins.labelId = l := by
  obtain ⟨hn, hp, -⟩ := List.findIdx?_eq_some_iff_getElem.mp h
  exact ⟨P[n], List.getElem?_eq_getElem hn, of_decide_eq_true hp⟩

theorem labelIndex_of_notMem (h : l ∉ labelsOf P) : labelIndex P l = none := by
  cases hn : labelIndex P l with
  | none => rfl
  | some n =>
    obtain ⟨ins, hins, hop, hl⟩ := labelIndex_eq_some hn
    exact absurd (mem_labelsOf (List.mem_of_getElem? hins) hop hl) h

theorem labelIndex_of_mem (h : l ∈ labelsOf P) : ∃ n < P.length, labelIndex P l = some n := by
  obtain ⟨ins, hins, hl⟩ := List.mem_filterMap.mp h
  by_cases hop : ins.op = .label
  · rw [if_pos hop] at hl
    have hfind : labelIndex P l = _ := List.findIdx?_eq_some_of_exists
      ⟨ins, hins, decide_eq_true ⟨hop, Option.some.inj hl⟩⟩
    obtain ⟨hn, -⟩ := List.findIdx?_eq_some_iff_getElem.mp hfind
    exact ⟨_, hn, hfind⟩
  · rw [if_neg hop] at hl
    cases hl

/-- A label that is placed in a block, and not before it, is found in the block. -/
theorem labelIndex_block (hpre : l ∉ labelsOf pre) (hcode : l ∈ labelsOf code) :
    ∃ i < code.length, labelIndex (pre ++ code ++ post) l = some (pre.length + i) := by
  obtain ⟨i, hi, hindex⟩ := labelIndex_of_mem hcode
  refine ⟨i, hi, ?_⟩
  rw [List.append_assoc, labelIndex_append, labelIndex_of_notMem hpre, labelIndex_append, hindex,
    Nat.add_comm]
  rfl

/-- In every run from `lo` on that stays before `hi` there is a moment up to which it is before
`mid`, and from which on it is not. It is at `mid` then. -/
def PassedOnce (P : List IRInstr) (lo mid hi : ℕ) : Prop :=
  ∀ (W V : Type) (M : IrMachine W V) (n : ℕ) (s : IrState W V), s.pc = lo →
    (∀ m < n, ∀ s', M.Steps P m s s' → lo ≤ s'.pc ∧ s'.pc < hi) →
    ∃ k, (∀ m ≤ n, ∀ s', M.Steps P m s s' → (m < k ↔ lo ≤ s'.pc ∧ s'.pc < mid)) ∧
      (k ≤ n → ∀ s', M.Steps P k s s' → s'.pc = mid)

section

variable {lo mid hi : ℕ} {W V : Type} {M : IrMachine W V}

theorem IrMachine.Steps.zero {s s' : IrState W V} (h : M.Steps P 0 s s') : s' = s := by
  cases h
  rfl

theorem not_entered (hout : ∀ s s', mid ≤ s.pc → s.pc < hi → M.step P s = some s' →
      ¬(lo ≤ s'.pc ∧ s'.pc < mid)) (n : ℕ) {s : IrState W V} (hs : ¬(lo ≤ s.pc ∧ s.pc < mid))
    (hstay : ∀ m < n, ∀ s', M.Steps P m s s' → lo ≤ s'.pc ∧ s'.pc < hi) :
    ∀ m ≤ n, ∀ s', M.Steps P m s s' → ¬(lo ≤ s'.pc ∧ s'.pc < mid) := by
  induction n generalizing s with
  | zero =>
    intro m hm s' hsteps
    obtain rfl : m = 0 := Nat.le_zero.mp hm
    rw [hsteps.zero]
    exact hs
  | succ n ih =>
    intro m hm s' hsteps
    cases hsteps with
    | refl => exact hs
    | @head m _ s₁ _ hstep hrest =>
      have hwithin := hstay 0 (Nat.succ_pos n) s (.refl s)
      refine ih (hout s s₁ (by omega) hwithin.2 hstep) (fun j hj s'' hj' => ?_) m (by omega) s' hrest
      exact hstay (j + 1) (by omega) s'' (.head hstep hj')

/-- A block that is left at its end only, and not entered again from behind, is passed once. -/
theorem passed_of_steps
    (hin : ∀ s s', lo ≤ s.pc → s.pc < mid → M.step P s = some s' → lo ≤ s'.pc ∧ s'.pc ≤ mid)
    (hout : ∀ s s', mid ≤ s.pc → s.pc < hi → M.step P s = some s' → ¬(lo ≤ s'.pc ∧ s'.pc < mid))
    (n : ℕ) (s : IrState W V) (hstart : lo ≤ s.pc ∧ s.pc ≤ mid)
    (hstay : ∀ m < n, ∀ s', M.Steps P m s s' → lo ≤ s'.pc ∧ s'.pc < hi) :
    ∃ k, (∀ m ≤ n, ∀ s', M.Steps P m s s' → (m < k ↔ lo ≤ s'.pc ∧ s'.pc < mid)) ∧
      (k ≤ n → ∀ s', M.Steps P k s s' → s'.pc = mid) := by
  by_cases hs : s.pc = mid
  · have hnot : ¬(lo ≤ s.pc ∧ s.pc < mid) := by omega
    refine ⟨0, fun m hm s' hsteps => iff_of_false (Nat.not_lt_zero m) ?_, fun _ s' hsteps => ?_⟩
    · exact not_entered hout n hnot hstay m hm s' hsteps
    · rw [hsteps.zero]
      exact hs
  · have hlt : s.pc < mid := by omega
    induction n generalizing s with
    | zero =>
      refine ⟨1, fun m hm s' hsteps => ?_, fun h => absurd h (by omega)⟩
      obtain rfl : m = 0 := Nat.le_zero.mp hm
      rw [hsteps.zero]
      exact iff_of_true Nat.one_pos ⟨hstart.1, hlt⟩
    | succ n ih =>
      cases hstep : M.step P s with
      | none =>
        refine ⟨n + 2, fun m hm s' hsteps => ?_, fun h => absurd h (by omega)⟩
        cases hsteps with
        | refl => exact iff_of_true (Nat.succ_pos _) ⟨hstart.1, hlt⟩
        | head hstep' _ =>
          rw [hstep] at hstep'
          cases hstep'
      | some s₁ =>
        have hs₁ := hin s s₁ hstart.1 hlt hstep
        have hstay₁ : ∀ m < n, ∀ s', M.Steps P m s₁ s' → lo ≤ s'.pc ∧ s'.pc < hi :=
          fun m hm s' hsteps => hstay (m + 1) (by omega) s' (.head hstep hsteps)
        -- the moment counted from the next state
        have hnext : ∃ k, (∀ m ≤ n, ∀ s', M.Steps P m s₁ s' →
              (m < k ↔ lo ≤ s'.pc ∧ s'.pc < mid)) ∧
            (k ≤ n → ∀ s', M.Steps P k s₁ s' → s'.pc = mid) := by
          by_cases hend : s₁.pc = mid
          · have hnot : ¬(lo ≤ s₁.pc ∧ s₁.pc < mid) := by omega
            refine ⟨0, fun m hm s' hsteps => iff_of_false (Nat.not_lt_zero m) ?_,
              fun _ s' hsteps => ?_⟩
            · exact not_entered hout n hnot hstay₁ m hm s' hsteps
            · rw [hsteps.zero]
              exact hend
          · exact ih s₁ hs₁ hstay₁ hend (by omega)
        obtain ⟨k, hk, hkend⟩ := hnext
        refine ⟨k + 1, fun m hm s' hsteps => ?_, fun hle s' hsteps => ?_⟩
        · cases hsteps with
          | refl => exact iff_of_true (Nat.succ_pos k) ⟨hstart.1, hlt⟩
          | @head m _ s₂ _ hstep' hrest =>
            obtain rfl : s₁ = s₂ := Option.some.inj (hstep.symm.trans hstep')
            exact (Nat.succ_lt_succ_iff).trans (hk m (by omega) s' hrest)
        · cases hsteps with
          | head hstep' hrest =>
            obtain rfl := Option.some.inj (hstep.symm.trans hstep')
            exact hkend (by omega) s' hrest

end

/-- Such a block is code that jumps within itself, to labels placed nowhere before it, if what
stands behind it jumps elsewhere. -/
theorem passedOnce (hcode : ∀ l ∈ jumpsOf code, l ∈ labelsOf code)
    (hpre : ∀ l ∈ labelsOf code, l ∉ labelsOf pre)
    (hrest : ∀ l ∈ jumpsOf rest, l ∉ labelsOf code) :
    PassedOnce (pre ++ code ++ rest ++ post) pre.length (pre.length + code.length)
      (pre.length + code.length + rest.length) := by
  intro W V M n s hs hstay
  refine passed_of_steps (fun s s' hlo hmid hstep => ?_) (fun s s' hmid hhi hstep => ?_) n s
    ⟨hs.ge, by omega⟩ hstay
  · obtain ⟨i, hi, hpc | ⟨l, hl, hindex⟩⟩ := IrMachine.step_cases hstep
    · omega
    · have hmem : i ∈ code := by
        rw [List.append_assoc, List.append_assoc, List.getElem?_append_right hlo,
          List.getElem?_append_left (by omega)] at hi
        exact List.mem_of_getElem? hi
      have hjump := hcode l (List.mem_filterMap.mpr ⟨i, hmem, hl⟩)
      obtain ⟨j, hj, hblock⟩ :
          ∃ j < code.length, labelIndex (pre ++ code ++ (rest ++ post)) l = some (pre.length + j) :=
        labelIndex_block (hpre l hjump) hjump
      rw [List.append_assoc, hblock, Option.some.injEq] at hindex
      omega
  · obtain ⟨i, hi, hpc | ⟨l, hl, hindex⟩⟩ := IrMachine.step_cases hstep
    · omega
    · rintro ⟨hlo', hmid'⟩
      have hmem : i ∈ rest := by
        rw [List.append_assoc, List.getElem?_append_right (by simpa using hmid),
          List.getElem?_append_left (by simp; omega)] at hi
        exact List.mem_of_getElem? hi
      obtain ⟨ins, hins, hop, hlabel⟩ := labelIndex_eq_some hindex
      refine hrest l (List.mem_filterMap.mpr ⟨i, hmem, hl⟩) (mem_labelsOf ?_ hop hlabel)
      rw [List.append_assoc, List.append_assoc, List.getElem?_append_right hlo',
        List.getElem?_append_left (by omega)] at hins
      exact List.mem_of_getElem? hins

end

end TinyC
