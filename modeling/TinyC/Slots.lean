import TinyC.Codegen

/-!
# Temps in their stack slots

The code of an instruction that works on integer temps loads slots into registers,
computes, and writes one slot back.
-/

namespace TinyC

open ByteMemory

/-- The eight bytes of temp `t`. -/
def slotOf (ra : RegAlloc) (s : MState) (t : ℕ) : BitVec 64 :=
  load s.mem (s.ea (ra.slot t) .rbp) 8

def setSlot (ra : RegAlloc) (s : MState) (t : ℕ) (v : BitVec 64) : MState :=
  { s with mem := store s.mem (s.ea (ra.slot t) .rbp) 8 v }

/-! ### Registers -/

@[simp] theorem setReg_reg_self (s : MState) (r : Reg) (v : BitVec 64) :
    (s.setReg r v).reg r = v := by
  simp [MState.setReg]

theorem setReg_reg_of_ne (s : MState) {r q : Reg} (v : BitVec 64) (h : q ≠ r) :
    (s.setReg r v).reg q = s.reg q := by
  simp [MState.setReg, h]

@[simp] theorem setReg_mem (s : MState) (r : Reg) (v : BitVec 64) :
    (s.setReg r v).mem = s.mem := rfl

@[simp] theorem setReg_flags (s : MState) (r : Reg) (v : BitVec 64) :
    (s.setReg r v).flags = s.flags := rfl

theorem ea_setReg_of_ne (s : MState) {r b : Reg} (v : BitVec 64) (d : ℤ) (h : b ≠ r) :
    (s.setReg r v).ea d b = s.ea d b := by
  rw [MState.ea, setReg_reg_of_ne s v h, MState.ea]

theorem slotOf_setReg (ra : RegAlloc) (s : MState) {r : Reg} (v : BitVec 64) (t : ℕ)
    (h : r ≠ .rbp) : slotOf ra (s.setReg r v) t = slotOf ra s t := by
  rw [slotOf, ea_setReg_of_ne s v _ h.symm, setReg_mem, slotOf]

@[simp] theorem setSlot_reg (ra : RegAlloc) (s : MState) (t : ℕ) (v : BitVec 64) :
    (setSlot ra s t v).reg = s.reg := rfl

@[simp] theorem slotOf_setSlot_self (ra : RegAlloc) (s : MState) (t : ℕ) (v : BitVec 64) :
    slotOf ra (setSlot ra s t v) t = v := by
  exact load_store_eight s.mem _ v

theorem writeReg_byte_zeroExt (s : MState) (r : Reg) (v : BitVec 64) :
    zeroExt 1 ((s.writeReg .byte r v).reg r) = zeroExt 1 v := by
  simp only [MState.writeReg, setReg_reg_self]
  apply BitVec.eq_of_getLsbD_eq
  intro i hi
  by_cases h : i < 8
  · simp [zeroExt, h, hi]
  · simp [zeroExt, h]

/-! ### Straight-line code -/

theorem exec_append {E : Env} {is js : List Instr} {s s' : MState}
    (h : exec E is s = some (s', .fall)) : exec E (is ++ js) s = exec E js s' := by
  fun_induction exec E is s with
  | case1 s => simpa using congrArg (fun x => exec E js x.1) (Option.some.inj h)
  | case2 s l is => simp at h
  | case3 s c l is hc => simp at h
  | case4 s c l is hc ih => simpa [exec, hc] using ih h
  | case5 s is => simp at h
  | case6 s i is h1 h2 h3 ih =>
    obtain ⟨s₁, hs₁, hrest⟩ := Option.bind_eq_some_iff.mp h
    rw [List.cons_append, exec.eq_5 _ _ _ _ h1 h2 h3, hs₁]
    exact ih s₁ hrest

/-- A fault is not undone by what follows. -/
theorem exec_append_fault {E : Env} {is js : List Instr} {s : MState} (h : exec E is s = none) :
    exec E (is ++ js) s = none := by
  fun_induction exec E is s with
  | case1 s => cases h
  | case2 s l is => cases h
  | case3 s c l is hc => cases h
  | case4 s c l is hc ih => simpa [exec, hc] using ih h
  | case5 s is => cases h
  | case6 i is s h1 h2 h3 ih =>
    rw [List.cons_append, exec.eq_5 _ _ _ _ h1 h2 h3]
    cases hstep : i.step E s with
    | none => rfl
    | some s₁ =>
      rw [hstep, Option.bind_some] at h
      exact ih s₁ h

/-- One instruction that is not a jump. -/
theorem exec_cons {E : Env} {i : Instr} {is : List Instr} {s s' : MState}
    (h : i.step E s = some s') : exec E (i :: is) s = exec E is s' := by
  have hjmp : ∀ l, i = .jmp l → False := by
    rintro l rfl
    cases h
  have hjcc : ∀ c l, i = .jcc c l → False := by
    rintro c l rfl
    cases h
  have hret : i = .ret → False := by
    rintro rfl
    cases h
  rw [exec.eq_5 _ _ _ _ hjmp hjcc hret, h]
  rfl

theorem exec_loadReg (E : Env) (ra : RegAlloc) (s : MState) (t : ℕ) (ty : Option CType) (r : Reg)
    (is : List Instr) :
    exec E (loadReg ra ⟨.temp t, ty⟩ r ++ is) s = exec E is (s.setReg r (slotOf ra s t)) := by
  have hget : s.get E .quad (.mem (ra.slot t) .rbp) = slotOf ra s t := rfl
  exact exec_cons (by rw [Instr.step, hget]; rfl)

theorem exec_storeReg (E : Env) (ra : RegAlloc) (s : MState) (t : ℕ) (ty : Option CType) (r : Reg)
    (is : List Instr) :
    exec E (storeReg ra ⟨.temp t, ty⟩ r ++ is) s = exec E is (setSlot ra s t (s.reg r)) := by
  have hget : s.get E .quad (.reg r) = s.reg r := zeroExt_eight _
  exact exec_cons (by rw [Instr.step, hget]; rfl)

theorem exec_storeReg_end (E : Env) (ra : RegAlloc) (s : MState) (t : ℕ) (ty : Option CType)
    (r : Reg) :
    exec E (storeReg ra ⟨.temp t, ty⟩ r) s = some (setSlot ra s t (s.reg r), .fall) := by
  have h := exec_storeReg E ra s t ty r []
  rwa [List.append_nil] at h

end TinyC
