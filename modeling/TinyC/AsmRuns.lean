import TinyC.Lib.Simulation
import TinyC.Slots

/-!
# Runs of the code of a function

The lines of a function as a transition function: a jump goes to the first line with its label, and
a run ends at a return. What a block does as it is run by itself it does in its place.
-/

namespace TinyC

open StateTransition Relation

structure AsmState where
  pc : ℕ
  machine : MState

def asmLabel (code : List Instr) (l : ℤ) : Option ℕ := code.findIdx? fun i => i = .label l

def asmJump (code : List Instr) (s : AsmState) (l : ℤ) : Option AsmState :=
  (asmLabel code l).map fun pc => { s with pc := pc }

/-- There is no step from a return, past the end, from a jump to a label that is missing and from a
line that faults. -/
def asmStep (E : Env) (code : List Instr) (s : AsmState) : Option AsmState :=
  match code[s.pc]? with
  | none | some .ret => none
  | some (.jmp l) => asmJump code s l
  | some (.jcc c l) =>
      if c.holds s.machine.flags then asmJump code s l else some { s with pc := s.pc + 1 }
  | some i => (i.step E s.machine).map fun m => ⟨s.pc + 1, m⟩

/-- The run from `s` comes to a return, in the state `t` of the processor. -/
def AsmReturns (E : Env) (code : List Instr) (s : AsmState) (t : MState) : Prop :=
  ∃ pc, code[pc]? = some .ret ∧ StateTransition.Reaches (asmStep E code) s ⟨pc, t⟩

def AsmDiverges (E : Env) (code : List Instr) (s : AsmState) : Prop :=
  ¬(eval (asmStep E code) s).Dom

section

variable {E : Env} {code : List Instr} {s s' : MState} {pc : ℕ} {i : Instr} {l : ℤ} {c : Cond}

theorem asmStep_jmp (hi : code[pc]? = some (.jmp l)) :
    asmStep E code ⟨pc, s⟩ = asmJump code ⟨pc, s⟩ l := by
  simp [asmStep, hi]

theorem asmStep_jcc (hi : code[pc]? = some (.jcc c l)) :
    asmStep E code ⟨pc, s⟩ =
      if c.holds s.flags then asmJump code ⟨pc, s⟩ l else some ⟨pc + 1, s⟩ := by
  simp [asmStep, hi]

theorem asmStep_inline (hi : code[pc]? = some i) (hjmp : ∀ l, i = .jmp l → False)
    (hjcc : ∀ c l, i = .jcc c l → False) (hret : i = .ret → False) :
    asmStep E code ⟨pc, s⟩ = (i.step E s).map fun m => ⟨pc + 1, m⟩ := by
  unfold asmStep
  simp only [hi]

/-- The return of a function that is not interrupted. -/
theorem AsmReturns.after {t : MState} {a b : AsmState} (h : AsmReturns E code b t)
    (hrun : StateTransition.Reaches (asmStep E code) a b) : AsmReturns E code a t := by
  obtain ⟨pc, hret, hreach⟩ := h
  exact ⟨pc, hret, hrun.trans hreach⟩

end

/-! ### Blocks -/

/-- Where the run from `a` arrives by the exit `e` of a block that ends before `stop`. -/
def Lands (E : Env) (code : List Instr) (a : AsmState) (stop : ℕ) (t : MState) : Exit → Prop
  | .fall => StateTransition.Reaches (asmStep E code) a ⟨stop, t⟩
  | .jump l => ∀ pc, asmLabel code l = some pc → StateTransition.Reaches (asmStep E code) a ⟨pc, t⟩
  | .ret => AsmReturns E code a t

section

variable {E : Env} {code pre is post : List Instr} {s s' t : MState} {e : Exit} {stop : ℕ}
  {a b : AsmState}

theorem Lands.after (h : Lands E code b stop t e) (hrun : StateTransition.Reaches (asmStep E code) a b) :
    Lands E code a stop t e := by
  cases e with
  | fall => exact hrun.trans h
  | jump l => exact fun pc hpc => hrun.trans (h pc hpc)
  | ret => exact AsmReturns.after h hrun

theorem block_getElem? (i : Instr) : (pre ++ i :: is ++ post)[pre.length]? = some i := by
  simp

theorem block_cons (i : Instr) : pre ++ i :: is ++ post = (pre ++ [i]) ++ is ++ post := by
  simp

/-- A block in its place. -/
theorem lands_of_exec (hcode : code = pre ++ is ++ post) (h : exec E is s = some (t, e)) :
    Lands E code ⟨pre.length, s⟩ (pre.length + is.length) t e := by
  induction is generalizing pre s with
  | nil =>
    cases h
    exact .refl
  | cons i is ih =>
    have hi : code[pre.length]? = some i := by rw [hcode, block_getElem?]
    have hrest : ∀ {s'}, exec E is s' = some (t, e) →
        Lands E code ⟨pre.length + 1, s'⟩ (pre.length + (i :: is).length) t e := by
      intro s' h'
      have hlater := ih (hcode.trans (block_cons i)) h'
      rw [List.length_append, List.length_singleton, Nat.add_assoc, Nat.add_comm 1] at hlater
      exact hlater
    by_cases hjmp : ∃ l, i = .jmp l
    · obtain ⟨l, rfl⟩ := hjmp
      cases h
      intro pc hpc
      exact .single (by rw [asmStep_jmp hi, asmJump, hpc]; rfl)
    by_cases hjcc : ∃ c l, i = .jcc c l
    · obtain ⟨c, l, rfl⟩ := hjcc
      rw [exec] at h
      have hstep := asmStep_jcc (E := E) (s := s) hi
      by_cases hc : c.holds s.flags = true
      · rw [if_pos hc] at h hstep
        cases h
        intro pc hpc
        exact .single (by rw [hstep, asmJump, hpc]; rfl)
      · rw [if_neg hc] at h hstep
        exact (hrest h).after (.single hstep)
    by_cases hret : i = .ret
    · subst hret
      cases h
      exact ⟨_, hi, .refl⟩
    · have hjmp' : ∀ l, i = .jmp l → False := fun l hl => hjmp ⟨l, hl⟩
      have hjcc' : ∀ c l, i = .jcc c l → False := fun c l hl => hjcc ⟨c, l, hl⟩
      rw [exec.eq_5 _ _ _ _ hjmp' hjcc' hret] at h
      obtain ⟨s', hstep, h'⟩ := Option.bind_eq_some_iff.mp h
      have hgo : asmStep E code ⟨pre.length, s⟩ = some ⟨pre.length + 1, s'⟩ := by
        rw [asmStep_inline hi hjmp' hjcc' hret, hstep, Option.map_some]
      exact (hrest h').after (.single hgo)

end

end TinyC
