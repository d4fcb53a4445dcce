import TinyC.GenFrame

/-!
# Runs of the intermediate representation

A state is a position in the code, the temps and a world that the other instructions work
on. What those instructions do is left open; labels, jumps and copies of values are not.
-/

namespace TinyC

structure IrMachine (W V : Type) where
  /-- The value of an operand that is not a temp. -/
  literal : IRValue → V
  isTrue : V → Bool
  effect : IRInstr → W → (ℕ → V) → W × (ℕ → V)

structure IrState (W V : Type) where
  pc : ℕ
  world : W
  temps : ℕ → V

/-- How a run ends: at the end of the code, or by a return. -/
inductive IrExit (V : Type) where
  | fallThrough
  | ret (v : Option V)

/-- The value returned, if there is one. -/
def IrExit.word {V : Type} : IrExit V → Option V
  | .fallThrough => none
  | .ret v => v

def labelIndex (P : List IRInstr) (l : ℤ) : Option ℕ :=
  P.findIdx? fun i => i.op = .label ∧ i.labelId = l

namespace IrMachine

variable {W V : Type} (M : IrMachine W V) (P : List IRInstr)

def operand (τ : ℕ → V) (v : IRValue) : V :=
  match v.kind with
  | .temp t => τ t
  | _ => M.literal v

def writeTemp (τ : ℕ → V) (dst : IRValue) (v : V) : ℕ → V :=
  match dst.kind with
  | .temp t => Function.update τ t v
  | _ => τ

def jump (s : IrState W V) (l : ℤ) : Option (IrState W V) :=
  (labelIndex P l).map fun pc => { s with pc := pc }

def next (s : IrState W V) : IrState W V := { s with pc := s.pc + 1 }

def perform (s : IrState W V) (i : IRInstr) : IrState W V :=
  let r := M.effect i s.world s.temps
  ⟨s.pc + 1, r.1, r.2⟩

/-- One step; there is none from the end of the code, from a return and from a jump to a
label that is not placed. -/
def step (s : IrState W V) : Option (IrState W V) :=
  match P[s.pc]? with
  | none => none
  | some i =>
      match i.op with
      | .label | .nop => some (next s)
      | .jmp => jump P s i.labelId
      | .jz => if M.isTrue (M.operand s.temps i.src1) then some (next s) else jump P s i.labelId
      | .jnz => if M.isTrue (M.operand s.temps i.src1) then jump P s i.labelId else some (next s)
      | .ret => none
      | .copy =>
          -- without a source it captures a parameter
          if i.src1.kind = .none then some (M.perform s i)
          else some ⟨s.pc + 1, s.world, writeTemp s.temps i.dst (M.operand s.temps i.src1)⟩
      | _ => some (M.perform s i)

/-- The exit a state stands at. -/
def exit (s : IrState W V) : Option (IrExit V) :=
  match P[s.pc]? with
  | none => some .fallThrough
  | some i =>
      if i.op = .ret then
        some (.ret (if i.src1.kind = .none then none else some (M.operand s.temps i.src1)))
      else none

inductive Steps : ℕ → IrState W V → IrState W V → Prop where
  | refl (s : IrState W V) : Steps 0 s s
  | head {n : ℕ} {s s' s'' : IrState W V} (h : M.step P s = some s') (hs : Steps n s' s'') :
      Steps (n + 1) s s''

def Diverges (s : IrState W V) : Prop := ∀ n, ∃ s', M.Steps P n s s'

variable {M P}

theorem step_eq_none_of_exit {s : IrState W V} {x : IrExit V} (h : M.exit P s = some x) :
    M.step P s = none := by
  unfold exit at h
  unfold step
  split at h
  · rfl
  · rename_i i hi
    split at h
    · rename_i hret
      simp [hret]
    · simp at h

theorem exit_of_ret {s : IrState W V} {v : IRValue}
    (hi : P[s.pc]? = some { op := .ret, src1 := v }) (hv : v.kind ≠ .none) :
    M.exit P s = some (.ret (some (M.operand s.temps v))) := by
  simp [exit, hi, hv]

namespace Steps

theorem trans {m n : ℕ} {s s' s'' : IrState W V} (h : M.Steps P m s s')
    (h' : M.Steps P n s' s'') : M.Steps P (m + n) s s'' := by
  induction h with
  | refl => simpa using h'
  | head hstep _ ih => simpa [Nat.add_right_comm] using Steps.head hstep (ih h')

/-- A run of some length has runs of every smaller length. -/
theorem take {m n : ℕ} (hle : m ≤ n) {s s' : IrState W V} (h : M.Steps P n s s') :
    ∃ s₁, M.Steps P m s s₁ := by
  induction h generalizing m with
  | refl s =>
    obtain rfl : m = 0 := Nat.le_zero.mp hle
    exact ⟨s, .refl s⟩
  | @head n s s' s'' hstep hs ih =>
    cases m with
    | zero => exact ⟨s, .refl s⟩
    | succ m =>
      obtain ⟨s₁, h₁⟩ := ih (Nat.le_of_succ_le_succ hle)
      exact ⟨s₁, .head hstep h₁⟩

/-- No run is longer than one that has come to its end, and one as long ends there. -/
theorem le_of_final {m n : ℕ} {s s' s'' : IrState W V} (h : M.Steps P m s s')
    (hfinal : M.step P s' = none) (h' : M.Steps P n s s'') : n ≤ m := by
  induction h generalizing n with
  | refl =>
    cases h' with
    | refl => exact le_rfl
    | head hstep _ => simp [hfinal] at hstep
  | head hstep _ ih =>
    cases h' with
    | refl => exact Nat.zero_le _
    | head hstep' hs' =>
      obtain rfl := Option.some.inj (hstep.symm.trans hstep')
      exact Nat.succ_le_succ (ih hfinal hs')

theorem unique {n : ℕ} {s s' s'' : IrState W V} (h : M.Steps P n s s')
    (h' : M.Steps P n s s'') : s' = s'' := by
  induction h with
  | refl => cases h'; rfl
  | head hstep _ ih =>
    cases h' with
    | head hstep' hs' =>
      obtain rfl := Option.some.inj (hstep.symm.trans hstep')
      exact ih hs'

/-- Two runs that have come to their ends are the same. -/
theorem final_unique {m n : ℕ} {s s' s'' : IrState W V} (h : M.Steps P m s s')
    (hfinal : M.step P s' = none) (h' : M.Steps P n s s'') (hfinal' : M.step P s'' = none) :
    s' = s'' := by
  have hlen : m = n := le_antisymm (h'.le_of_final hfinal' h) (h.le_of_final hfinal h')
  subst hlen
  exact h.unique h'

/-- Where the step leads, taken `n` times. -/
theorem of_iterate {n : ℕ} {s s' : IrState W V}
    (h : (fun o => o.bind (M.step P))^[n] (some s) = some s') : M.Steps P n s s' := by
  induction n generalizing s with
  | zero =>
    obtain rfl := Option.some.inj h
    exact .refl _
  | succ n ih =>
    rw [Function.iterate_succ_apply, Option.bind_some] at h
    cases hstep : M.step P s with
    | none =>
      rw [hstep, Function.iterate_fixed (Option.bind_none _)] at h
      cases h
    | some s₁ =>
      rw [hstep] at h
      exact .head hstep (ih h)

end Steps

end IrMachine

/-- A label is found where it is first placed. -/
theorem labelIndex_eq {P : List IRInstr} {pre : List IRInstr} {l : ℤ}
    (hfree : l ∉ labelsOf pre) (hpre : pre ++ [{ op := .label, labelId := l }] <+: P) :
    labelIndex P l = some pre.length := by
  obtain ⟨post, rfl⟩ := hpre
  rw [labelIndex, List.append_assoc, List.findIdx?_append]
  have hnone : List.findIdx? (fun i : IRInstr => decide (i.op = .label ∧ i.labelId = l)) pre = none := by
    rw [List.findIdx?_eq_none_iff]
    intro i hi
    have : ¬(i.op = .label ∧ i.labelId = l) := fun h =>
      hfree (List.mem_filterMap.mpr ⟨i, hi, by simp [h]⟩)
    simpa using this
  rw [hnone]
  simp [List.findIdx?_cons]

/-- In code that places no label twice, a label is found where it is placed. -/
theorem labelIndex_of_nodup {P pre : List IRInstr} {l : ℤ} (hnodup : (labelsOf P).Nodup)
    (hpre : pre ++ [{ op := .label, labelId := l }] <+: P) :
    labelIndex P l = some pre.length := by
  refine labelIndex_eq (fun hmem => ?_) hpre
  obtain ⟨post, rfl⟩ := hpre
  rw [List.append_assoc, labelsOf_append, List.nodup_append] at hnodup
  exact hnodup.2.2 _ hmem _ (by simp [labelsOf]) rfl

theorem getElem?_of_append_singleton_prefix {P pre : List IRInstr} {ins : IRInstr}
    (hpre : pre ++ [ins] <+: P) : P[pre.length]? = some ins := by
  obtain ⟨post, rfl⟩ := hpre
  simp

end TinyC
