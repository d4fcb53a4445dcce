import TinyC.Slots

/-!
# What straight-line code writes

The ranges of memory that instructions write themselves, in the order of the writes.
-/

namespace TinyC

open ByteMemory

/-- The bytes an instruction itself writes. -/
def Instr.writes (E : Env) (i : Instr) (s : MState) : List (Addr × ℕ) :=
  match i with
  | .mov w _ (.mem d b) => [(s.ea d b, w.bytes)]
  | .mov w _ (.sym name) => [(E.sym name, w.bytes)]
  | .movsStore dbl _ d b => [(s.ea d b, if dbl then 8 else 4)]
  | .push _ => [(s.reg .rsp - 8, 8)]
  | _ => []

/-- Neither a jump nor a call nor a return. -/
def Instr.inline : Instr → Bool
  | .callSym _ | .callReg _ | .jmp _ | .jcc _ _ | .ret => false
  | _ => true

/-- The writes of a block of such instructions, up to a fault. -/
def writesOf (E : Env) : List Instr → MState → List (Addr × ℕ)
  | [], _ => []
  | i :: is, s => i.writes E s ++ ((i.step E s).map (writesOf E is)).getD []

section

variable {E : Env} {i : Instr} {is js : List Instr} {s s' : MState}

theorem writesOf_cons (h : i.step E s = some s') :
    writesOf E (i :: is) s = i.writes E s ++ writesOf E is s' := by
  rw [writesOf, h]
  rfl

theorem exec_inline_cons (hi : i.inline = true) :
    exec E (i :: is) s = (i.step E s).bind fun s' => exec E is s' := by
  cases i <;> first | rfl | cases hi

/-! ### Operands -/

/-- The word that `loadReg` brings into `r`. -/
def operandWord (E : Env) (ra : RegAlloc) (s : MState) (r : Reg) (v : IRValue) : BitVec 64 :=
  match v.kind with
  | .none => s.reg r
  | .temp t => slotOf ra s t
  | .constInt c => c
  | .constFloat _ => 0
  | .global name => E.sym name

/-- The code `is` leads from `s` to `s'` without a write. -/
structure NoWrites (E : Env) (is : List Instr) (s s' : MState) : Prop where
  exec : ∀ js, exec E (is ++ js) s = TinyC.exec E js s'
  writes : ∀ js, writesOf E (is ++ js) s = writesOf E js s'

namespace NoWrites

theorem nil : NoWrites E [] s s := ⟨fun _ => rfl, fun _ => rfl⟩

theorem cons (h : i.step E s = some s') (hnone : i.writes E s = []) {t : MState}
    (hrest : NoWrites E is s' t) : NoWrites E (i :: is) s t := by
  constructor <;> intro js
  · rw [List.cons_append, exec_cons h, hrest.exec]
  · rw [List.cons_append, writesOf_cons h, hnone, List.nil_append, hrest.writes]

theorem trans {t : MState} (h : NoWrites E is s s') (h' : NoWrites E js s' t) :
    NoWrites E (is ++ js) s t := by
  constructor <;> intro ks
  · rw [List.append_assoc, h.exec, h'.exec]
  · rw [List.append_assoc, h.writes, h'.writes]

/-- A load into a register. -/
theorem loadReg (ra : RegAlloc) (v : IRValue) (r : Reg) :
    NoWrites E (loadReg ra v r) s (s.setReg r (operandWord E ra s r v)) := by
  obtain ⟨kind, ty⟩ := v
  cases kind with
  | none =>
    have hself : s.setReg r (s.reg r) = s := by
      rw [MState.setReg, Function.update_eq_self]
    rw [operandWord, hself]
    exact .nil
  | temp t => exact .cons rfl rfl .nil
  | constInt c =>
    refine .cons ?_ rfl .nil
    rw [Instr.step, MState.get, show Width.quad.bytes = 8 from rfl, zeroExt_eight]
    rfl
  | constFloat c =>
    refine .cons ?_ rfl .nil
    rw [Instr.step, MState.get, show Width.quad.bytes = 8 from rfl, zeroExt_eight, AluOp.eval,
      BitVec.xor_self]
    rfl
  | global name => exact .cons rfl rfl .nil

/-- A load into an `%xmm` register leaves the memory and every register but `%rax` alone. -/
theorem loadXmm (ra : RegAlloc) (v : IRValue) (x : Xmm) :
    ∃ s', NoWrites E (loadXmm ra v x) s s' ∧ s'.mem = s.mem ∧ ∀ r, r ≠ .rax → s'.reg r = s.reg r := by
  have hrax : ∀ (w : BitVec 64) (r : Reg), r ≠ .rax → (s.setReg .rax w).reg r = s.reg r :=
    fun w r hr => setReg_reg_of_ne s w hr
  obtain ⟨kind, ty⟩ := v
  cases kind with
  | none => exact ⟨s, .nil, rfl, fun _ _ => rfl⟩
  | temp t =>
    refine ⟨_, .cons rfl rfl .nil, ?_, ?_⟩
    · rfl
    · exact fun _ _ => rfl
  | constInt c =>
    refine ⟨_, .cons rfl rfl (.cons rfl rfl .nil), ?_, ?_⟩
    · rfl
    · exact hrax _
  | constFloat c =>
    rw [TinyC.loadXmm]
    dsimp only
    split
    · refine ⟨_, .cons rfl rfl (.cons rfl rfl .nil), ?_, ?_⟩
      · rfl
      · exact hrax _
    · refine ⟨_, .cons rfl rfl (.cons rfl rfl .nil), ?_, ?_⟩
      · rfl
      · exact hrax _
  | global name =>
    refine ⟨_, .cons rfl rfl (.cons rfl rfl .nil), ?_, ?_⟩
    · rfl
    · exact hrax _

end NoWrites

end

/-! ### Stores -/

/-- How many bytes a store moves. -/
def storeBytes (Γ : TypeEnv) (ty : Option CType) : ℕ :=
  if isFpType ty then (if isDoubleType ty then 8 else 4)
  else (storeWidth (sizeOrEight Γ ty)).bytes

section

variable {E : Env} {Γ : TypeEnv} {ra : RegAlloc} {s : MState} {ins : IRInstr}

private theorem ea_zero (s : MState) (r : Reg) : s.ea 0 r = s.reg r := by
  rw [MState.ea, BitVec.ofInt_ofNat]
  exact BitVec.add_zero _

theorem store_zeroExt (m : Mem) (a : Addr) (n : ℕ) (hn : n ≤ 8) (v : BitVec 64) :
    store m a n (zeroExt n v) = store m a n v := by
  funext x
  unfold store
  by_cases h : (x - a).toNat < n
  · rw [if_pos h, if_pos h, byteOf_zeroExt v n _ (by omega), if_pos h]
  · rw [if_neg h, if_neg h]

theorem Width.bytes_le (w : Width) : w.bytes ≤ 8 := by cases w <;> decide

/-- A store of a word: the low bytes of the source, at the address. -/
theorem exec_store_word (f : IRFunc) (ra : RegAlloc) (hop : ins.op = .store)
    (hfp : isFpType (storeType ins) = false) :
    ∃ s', exec E (codegenInstr Γ f ra ins) s = some (s', .fall) ∧
      s'.mem = store s.mem (operandWord E ra s .r10 ins.dst)
        (storeBytes Γ (storeType ins)) (operandWord E ra s .rax ins.src1) ∧
      s'.reg .rbp = s.reg .rbp ∧
      writesOf E (codegenInstr Γ f ra ins) s =
        [(operandWord E ra s .r10 ins.dst, storeBytes Γ (storeType ins))] := by
  let w := storeWidth (sizeOrEight Γ (storeType ins))
  have hbytes : storeBytes Γ (storeType ins) = w.bytes := by
    rw [storeBytes, hfp]
    rfl
  have hcode : codegenInstr Γ f ra ins = (loadReg ra ins.dst .r10 ++ loadReg ra ins.src1 .rax) ++
      [.mov w (.reg .rax) (.mem 0 .r10)] := by
    rw [codegenInstr, hop]
    dsimp only
    rw [hfp, List.append_assoc]
    rfl
  let a := operandWord E ra s .r10 ins.dst
  let s₁ := s.setReg .r10 a
  have hsrc : operandWord E ra s₁ .rax ins.src1 = operandWord E ra s .rax ins.src1 := by
    unfold operandWord
    cases ins.src1.kind with
    | none => exact setReg_reg_of_ne s a (by decide)
    | temp t => exact slotOf_setReg ra s a t (by decide)
    | _ => rfl
  let v := operandWord E ra s .rax ins.src1
  let s₂ := s₁.setReg .rax v
  have hload : NoWrites E (loadReg ra ins.dst .r10 ++ loadReg ra ins.src1 .rax) s s₂ := by
    have h := (NoWrites.loadReg (E := E) (s := s) ra ins.dst .r10).trans
      (NoWrites.loadReg (E := E) (s := s₁) ra ins.src1 .rax)
    rwa [hsrc] at h
  have haddr : s₂.ea 0 .r10 = a := by
    rw [ea_zero, setReg_reg_of_ne s₁ v (by decide), setReg_reg_self]
  have hval : s₂.get E w (.reg .rax) = zeroExt w.bytes v := by
    rw [MState.get, setReg_reg_self]
  have hstep : (Instr.mov w (.reg .rax) (.mem 0 .r10)).step E s₂ =
      some { s₂ with mem := store s.mem a w.bytes v } := by
    rw [Instr.step, hval, MState.put, haddr, store_zeroExt _ _ _ w.bytes_le]
    rfl
  rw [hcode, hbytes]
  have hbp : s₂.reg .rbp = s.reg .rbp := by
    rw [setReg_reg_of_ne _ _ (by decide), setReg_reg_of_ne _ _ (by decide)]
  refine ⟨{ s₂ with mem := store s.mem a w.bytes v }, ?_, rfl, hbp, ?_⟩
  · rw [hload.exec, exec_cons hstep]
    rfl
  · rw [hload.writes, writesOf_cons hstep, Instr.writes, haddr]
    rfl

end

end TinyC
