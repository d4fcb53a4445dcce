import TinyC.MemoryWrites
import TinyC.OperatorSelection
import TinyC.CastValue

/-!
# Straight-line code on temps

Loads, stores and integer operators, as a machine with one word for each temp and a memory. The
code of an instruction does on the stack slots what the machine does on the temps, as long as the
objects it accesses are clear of the slots.
-/

namespace TinyC

open ByteMemory

/-! ### The machine -/

structure WordState where
  temp : ℕ → BitVec 64
  mem : Mem

def WordState.setTemp (σ : WordState) (t : ℕ) (w : BitVec 64) : WordState :=
  { σ with temp := Function.update σ.temp t w }

@[simp] theorem WordState.setTemp_self (σ : WordState) (t : ℕ) (w : BitVec 64) :
    (σ.setTemp t w).temp t = w := Function.update_self ..

theorem WordState.setTemp_of_ne (σ : WordState) {t u : ℕ} (w : BitVec 64) (h : u ≠ t) :
    (σ.setTemp t w).temp u = σ.temp u := Function.update_of_ne h ..

@[simp] theorem WordState.setTemp_mem (σ : WordState) (t : ℕ) (w : BitVec 64) :
    (σ.setTemp t w).mem = σ.mem := rfl

/-- The word of an operand. -/
def WordState.word (E : Env) (σ : WordState) (v : IRValue) : BitVec 64 :=
  match v.kind with
  | .temp t => σ.temp t
  | .constInt c => c
  | .global name => E.sym name
  | .constFloat _ | .none => 0

/-- How many bytes an access to an object of the type moves between memory and a word. -/
def accessBytes (Γ : TypeEnv) (ty : Option CType) : ℕ := (storeWidth (sizeOrEight Γ ty)).bytes

/-- What a load of type `ty` gives. -/
def readWord (Γ : TypeEnv) (ty : Option CType) (m : Mem) (a : Addr) : BitVec 64 :=
  extendWord (sizeOrEight Γ ty) (ty.all typeIsSigned) (load m a (accessBytes Γ ty))

/-- The integer operators among the instructions, comparisons apart. -/
def IROp.isArith : IROp → Bool
  | .add | .sub | .mul | .div | .mod | .and | .or | .xor | .shl | .shr => true
  | _ => false

/-- One instruction; there is no next state after a division that faults. -/
def WordState.step (Γ : TypeEnv) (E : Env) (σ : WordState) (ins : IRInstr) : Option WordState :=
  match ins.op, ins.dst.kind with
  | .store, _ =>
      let mem := store σ.mem (σ.word E ins.dst) (accessBytes Γ (storeType ins))
        (σ.word E ins.src1)
      some { σ with mem := mem }
  | .load, .temp t => some (σ.setTemp t (readWord Γ ins.dst.type σ.mem (σ.word E ins.src1)))
  | op, .temp t =>
      (machineBinop op false (σ.word E ins.src1) (σ.word E ins.src2)).map (σ.setTemp t)
  | _, _ => none

def WordState.run (Γ : TypeEnv) (E : Env) : List IRInstr → WordState → Option WordState
  | [], σ => some σ
  | i :: is, σ => (σ.step Γ E i).bind (WordState.run Γ E is)

/-! ### Frames -/

/-- The slots of the temps `1, …, temps - 1` above the base pointer `bp`. -/
structure SlotFrame where
  ra : RegAlloc
  bp : BitVec 64
  temps : ℕ
  apart : ∀ t u, 1 ≤ t → t < temps → 1 ≤ u → u < temps → t ≠ u →
    Apart (bp + BitVec.ofInt 64 (ra.slot t)) 8 (bp + BitVec.ofInt 64 (ra.slot u)) 8

namespace SlotFrame

/-- The slots of a function, as `regalloc_run` lays them out. -/
def ofFunc (f : IRFunc) (bp : BitVec 64) (h : f.nextTemp ≤ 2 ^ 60) : SlotFrame where
  ra := regallocRun f
  bp := bp
  temps := f.nextTemp
  apart t u ht ht' hu hu' hne := by
    intro x hx hx'
    have hslot : ∀ k, 1 ≤ k → k < f.nextTemp → (regallocRun f).slot k = -(8 * k : ℕ) := by
      intro k hk hk'
      have hoff : (regallocRun f).slot k = -8 * k := if_pos ⟨hk, hk'⟩
      rw [hoff]
      push_cast
      ring
    rw [hslot t ht ht', BitVec.ofInt_neg, BitVec.ofInt_natCast] at hx
    rw [hslot u hu hu', BitVec.ofInt_neg, BitVec.ofInt_natCast] at hx'
    bv_omega

def addr (F : SlotFrame) (t : ℕ) : Addr := F.bp + BitVec.ofInt 64 (F.ra.slot t)

/-- Does the address belong to a slot? -/
def Owns (F : SlotFrame) (x : Addr) : Prop :=
  ∃ t, 1 ≤ t ∧ t < F.temps ∧ (x - F.addr t).toNat < 8

/-- The bytes are clear of the slots. -/
def Clear (F : SlotFrame) (a : Addr) (n : ℕ) : Prop := ∀ x, (x - a).toNat < n → ¬F.Owns x

/-- A constant, a symbol or a temp with a slot. -/
def Usable (F : SlotFrame) (v : IRValue) : Prop :=
  v.kind ≠ .none ∧ ∀ t, v.kind = .temp t → 1 ≤ t ∧ t < F.temps

/-- The slots hold the temps, and the rest of the memory agrees. -/
structure Holds (F : SlotFrame) (s : MState) (σ : WordState) : Prop where
  bp : s.reg .rbp = F.bp
  temp : ∀ t, 1 ≤ t → t < F.temps → slotOf F.ra s t = σ.temp t
  mem : ∀ x, ¬F.Owns x → s.mem x = σ.mem x

/-- The state of the machine that a state of the processor stands for. -/
def view (F : SlotFrame) (s : MState) : WordState := ⟨slotOf F.ra s, s.mem⟩

/-- An object that ends before the frame begins, counted from the base pointer up. -/
theorem ofFunc_clear {f : IRFunc} {bp : BitVec 64} {h : f.nextTemp ≤ 2 ^ 60} {a : Addr} {n : ℕ}
    (hlow : (a - bp).toNat + n + 8 * f.nextTemp ≤ 2 ^ 64) : (ofFunc f bp h).Clear a n := by
  rintro x hx ⟨t, ht, ht', hown⟩
  have hoff : (regallocRun f).slot t = -8 * t := if_pos ⟨ht, ht'⟩
  have hslot : (regallocRun f).slot t = -(8 * t : ℕ) := by
    rw [hoff]
    push_cast
    ring
  have htemps : t < f.nextTemp := ht'
  rw [addr] at hown
  change (x - (bp + BitVec.ofInt 64 ((regallocRun f).slot t))).toNat < 8 at hown
  rw [hslot, BitVec.ofInt_neg, BitVec.ofInt_natCast] at hown
  bv_omega

theorem holds_view (F : SlotFrame) {s : MState} (hbp : s.reg .rbp = F.bp) : F.Holds s (F.view s) :=
  ⟨hbp, fun _ _ _ => rfl, fun _ _ => rfl⟩

variable {F : SlotFrame} {s s' : MState} {σ : WordState} {a : Addr} {n t : ℕ} {w : BitVec 64}

theorem slot_ea (hbp : s.reg .rbp = F.bp) (t : ℕ) : s.ea (F.ra.slot t) .rbp = F.addr t := by
  rw [MState.ea, hbp, addr]

/-- A slot is written. -/
theorem Holds.setTemp (h : F.Holds s σ) (ht : 1 ≤ t) (ht' : t < F.temps)
    (hbp : s'.reg .rbp = s.reg .rbp) (hmem : s'.mem = store s.mem (F.addr t) 8 w) :
    F.Holds s' (σ.setTemp t w) := by
  have hbp' : s'.reg .rbp = F.bp := hbp.trans h.bp
  refine ⟨hbp', fun u hu hu' => ?_, fun x hx => ?_⟩
  · rw [slotOf, slot_ea hbp', hmem]
    by_cases hut : u = t
    · subst hut
      rw [load_store_eight, WordState.setTemp_self]
    · have happart : Apart (F.addr u) 8 (F.addr t) 8 := F.apart u t hu hu' ht ht' hut
      rw [load_store_apart (by omega) happart, WordState.setTemp_of_ne _ _ hut,
        ← h.temp u hu hu', slotOf, slot_ea h.bp]
  · have hout : ¬(x - F.addr t).toNat < 8 := fun hin => hx ⟨t, ht, ht', hin⟩
    rw [hmem, store_apply_of_not_lt hout]
    exact h.mem x hx

/-- An object clear of the slots is written. -/
theorem Holds.store (h : F.Holds s σ) (hclear : F.Clear a n)
    (hbp : s'.reg .rbp = s.reg .rbp) (hmem : s'.mem = store s.mem a n w) :
    F.Holds s' { σ with mem := store σ.mem a n w } := by
  have hbp' : s'.reg .rbp = F.bp := hbp.trans h.bp
  refine ⟨hbp', fun u hu hu' => ?_, fun x hx => ?_⟩
  · have happart : Apart (F.addr u) 8 a n := fun x hin hin' => hclear x hin' ⟨u, hu, hu', hin⟩
    rw [slotOf, slot_ea hbp', hmem, load_store_apart (by omega) happart, ← h.temp u hu hu', slotOf,
      slot_ea h.bp]
  · rw [hmem]
    by_cases hin : (x - a).toNat < n
    · exact (if_pos hin).trans (if_pos hin).symm
    · exact (if_neg hin).trans ((h.mem x hx).trans (if_neg hin).symm)

/-- An object clear of the slots is read. -/
theorem Holds.load (h : F.Holds s σ) (hclear : F.Clear a n) (hn : n ≤ 8) :
    ByteMemory.load s.mem a n = ByteMemory.load σ.mem a n := by
  apply load_congr
  intro k hk
  exact h.mem _ (hclear _ (by rwa [add_ofNat_sub_toNat a (by omega)]))

theorem Holds.operandWord (h : F.Holds s σ) {E : Env} {v : IRValue} (hv : F.Usable v) (r : Reg) :
    TinyC.operandWord E F.ra s r v = σ.word E v := by
  unfold TinyC.operandWord WordState.word
  cases hk : v.kind with
  | none => exact absurd hk hv.1
  | temp t => exact h.temp t (hv.2 t hk).1 (hv.2 t hk).2
  | _ => rfl

end SlotFrame

/-! ### Simulation -/

/-- The code `is` brings the word `w` into `r` and changes neither the memory nor the frame. -/
def Brings (E : Env) (is : List Instr) (s : MState) (r : Reg) (w : BitVec 64) : Prop :=
  ∃ s', NoWrites E is s s' ∧ s'.mem = s.mem ∧ s'.reg .rbp = s.reg .rbp ∧ s'.reg r = w

section

variable {E : Env} {Γ : TypeEnv} {f : IRFunc} {ra : RegAlloc} {s : MState} {ins : IRInstr}
  {is : List Instr} {r : Reg} {w x y : BitVec 64}

theorem operandWord_setReg {v : IRValue} (hv : v.kind ≠ .none) {q : Reg} (hr : r ≠ .rbp) :
    operandWord E ra (s.setReg r w) q v = operandWord E ra s q v := by
  unfold operandWord
  cases hk : v.kind with
  | none => exact absurd hk hv
  | temp t => exact slotOf_setReg ra s w t hr
  | _ => rfl

/-- The word goes to the slot of the destination. -/
theorem Brings.storeReg (h : Brings E is s r w) {dst : IRValue} {t : ℕ} (ht : dst.kind = .temp t) :
    ∃ s', exec E (is ++ storeReg ra dst r) s = some (s', .fall) ∧
      s'.reg .rbp = s.reg .rbp ∧ s'.mem = store s.mem (s.ea (ra.slot t) .rbp) 8 w := by
  obtain ⟨s₁, hrun, hmem, hbp, hw⟩ := h
  obtain ⟨kind, ty⟩ := dst
  cases ht
  have hea : s₁.ea (ra.slot t) .rbp = s.ea (ra.slot t) .rbp := by rw [MState.ea, hbp, MState.ea]
  refine ⟨_, (hrun.exec _).trans (exec_storeReg_end E ra s₁ t ty r), hbp, ?_⟩
  rw [setSlot, hea, hmem, hw]

theorem zeroExt_load {m : Mem} {a : Addr} {n : ℕ} : zeroExt n (load m a n) = load m a n := by
  apply byteOf_ext
  intro k hk
  rw [byteOf_zeroExt _ _ _ hk, byteOf_load _ _ _ _ hk]
  split <;> rfl

/-- The step of the load instruction proper. -/
theorem loadExtended_step (ty : Option CType) :
    (loadExtended (sizeOrEight Γ ty) (ty.all typeIsSigned)).step E s =
      some (s.setReg .rdx (readWord Γ ty s.mem (s.reg .rax))) := by
  have hea : s.ea 0 .rax = s.reg .rax := by
    rw [MState.ea, BitVec.ofInt_ofNat]
    exact BitVec.add_zero _
  have hzero : ∀ w : Width, (Instr.movzx w (.mem 0 .rax) .rdx).step E s =
      some (s.setReg .rdx (TwosComplement.extend false (8 * w.bytes)
        (load s.mem (s.reg .rax) w.bytes))) := by
    intro w
    rw [Instr.step, MState.get, hea]
    exact congrArg (fun v => some (s.setReg .rdx v)) zeroExt_load.symm
  have hsign : ∀ w : Width, (Instr.movsx w (.mem 0 .rax) .rdx).step E s =
      some (s.setReg .rdx (TwosComplement.extend true (8 * w.bytes)
        (load s.mem (s.reg .rax) w.bytes))) := by
    intro w
    rw [Instr.step, MState.get, hea]
    rfl
  have hlong : (Instr.mov .long (.mem 0 .rax) (.reg .rdx)).step E s =
      some (s.setReg .rdx (TwosComplement.extend false 32 (load s.mem (s.reg .rax) 4))) := by
    rw [Instr.step, MState.get, hea]
    rfl
  have hquad : (Instr.mov .quad (.mem 0 .rax) (.reg .rdx)).step E s =
      some (s.setReg .rdx (load s.mem (s.reg .rax) 8)) := by
    rw [Instr.step, MState.get, hea]
    rfl
  unfold loadExtended readWord accessBytes extendWord
  generalize sizeOrEight Γ ty = sz
  generalize ty.all typeIsSigned = signed
  by_cases h1 : sz = 1
  · subst h1
    cases signed with
    | false => exact hzero .byte
    | true => exact hsign .byte
  · by_cases h2 : sz = 2
    · subst h2
      cases signed with
      | false => exact hzero .word
      | true => exact hsign .word
    · by_cases h4 : sz = 4
      · subst h4
        cases signed with
        | false => exact hlong
        | true => exact hsign .long
      · simp only [h1, h2, h4, if_false, or_self, storeWidth]
        exact hquad

/-- The two operands of an operator in `%rax` and `%rcx`. -/
theorem noWrites_operands {a b : IRValue} (hb : b.kind ≠ .none) :
    NoWrites E (loadReg ra a .rax ++ loadReg ra b .rcx) s
      ((s.setReg .rax (operandWord E ra s .rax a)).setReg .rcx (operandWord E ra s .rcx b)) := by
  have h := (NoWrites.loadReg (E := E) (s := s) ra a .rax).trans
    (NoWrites.loadReg (E := E) (s := s.setReg .rax (operandWord E ra s .rax a)) ra b .rcx)
  rwa [operandWord_setReg hb (by decide)] at h

theorem NoWrites.single {i : Instr} {s' : MState} (h : i.step E s = some s')
    (hnone : i.writes E s = []) : NoWrites E [i] s s' := .cons h hnone .nil

/-- An operator with an instruction of its own. -/
theorem brings_binary (ra : RegAlloc) {op : IROp} {i : Instr} (hi : binaryInstr op = some i) {a b : IRValue}
    (hb : b.kind ≠ .none) :
    ∃ w, machineBinop op false (operandWord E ra s .rax a) (operandWord E ra s .rcx b) = some w ∧
      Brings E (loadReg ra a .rax ++ loadReg ra b .rcx ++ [i]) s .rax w := by
  obtain ⟨w, hw, hstep⟩ := binaryInstr_step E s hi (operandWord E ra s .rax a)
    (operandWord E ra s .rcx b) false
  have hnone : ∀ s, i.writes E s = [] := by
    intro s
    cases op <;> simp only [binaryInstr, Option.some.injEq, reduceCtorEq] at hi <;> subst hi <;> rfl
  refine ⟨w, hw, _, (noWrites_operands hb).trans (.single hstep (hnone _)), rfl, ?_, ?_⟩
  · rw [setReg_reg_of_ne _ _ (by decide), setReg_reg_of_ne _ _ (by decide),
      setReg_reg_of_ne _ _ (by decide)]
  · rw [setReg_reg_self]

/-- The operands of a division. `cqto` stands between the two loads. -/
theorem noWrites_dividend (ra : RegAlloc) {a b : IRValue} (hb : b.kind ≠ .none) :
    ∃ s', NoWrites E (loadReg ra a .rax ++ [.cqto] ++ loadReg ra b .rcx) s s' ∧
      s'.mem = s.mem ∧ s'.reg .rbp = s.reg .rbp ∧
      s'.reg .rdx = cqtoHigh (operandWord E ra s .rax a) ∧
      s'.reg .rax = operandWord E ra s .rax a ∧ s'.reg .rcx = operandWord E ra s .rcx b := by
  let x := operandWord E ra s .rax a
  let s₁ := s.setReg .rax x
  let s₂ := s₁.setReg .rdx (cqtoHigh x)
  have hcqto : Instr.cqto.step E s₁ = some s₂ := by
    rw [Instr.step, setReg_reg_self]
    rfl
  have hb₂ : operandWord E ra s₂ .rcx b = operandWord E ra s .rcx b := by
    rw [operandWord_setReg hb (by decide), operandWord_setReg hb (by decide)]
  have h := ((NoWrites.loadReg (E := E) (s := s) ra a .rax).trans (.single hcqto rfl)).trans
    (NoWrites.loadReg (E := E) (s := s₂) ra b .rcx)
  refine ⟨_, h, rfl, ?_, ?_, ?_, ?_⟩
  · rw [setReg_reg_of_ne _ _ (by decide), setReg_reg_of_ne _ _ (by decide),
      setReg_reg_of_ne _ _ (by decide)]
  · rw [setReg_reg_of_ne _ _ (by decide), setReg_reg_self]
  · rw [setReg_reg_of_ne _ _ (by decide), setReg_reg_of_ne _ _ (by decide), setReg_reg_self]
  · rw [setReg_reg_self, hb₂]

theorem brings_division (ra : RegAlloc) {a b : IRValue} (hb : b.kind ≠ .none) (rem : Bool) :
    (∀ w, machineBinop (if rem then .mod else .div) false (operandWord E ra s .rax a)
        (operandWord E ra s .rcx b) = some w →
      Brings E (loadReg ra a .rax ++ [.cqto] ++ loadReg ra b .rcx ++ [.idiv .rcx]) s
        (if rem then .rdx else .rax) w) ∧
    (machineBinop (if rem then .mod else .div) false (operandWord E ra s .rax a)
        (operandWord E ra s .rcx b) = none → ∀ js,
      exec E (loadReg ra a .rax ++ [.cqto] ++ loadReg ra b .rcx ++ [.idiv .rcx] ++ js) s = none) := by
  obtain ⟨s', hrun, hmem, hbp, hdx, hax, hcx⟩ := noWrites_dividend (E := E) (s := s) ra
    (a := a) hb
  generalize operandWord E ra s .rax a = x at hdx hax ⊢
  generalize operandWord E ra s .rcx b = y at hcx ⊢
  have hstep : (Instr.idiv .rcx).step E s' = (idivq (cqtoHigh x) x y).map fun qr =>
      (s'.setReg .rax qr.1).setReg .rdx qr.2 := by
    rw [Instr.step, hdx, hax, hcx]
  have hword : machineBinop (if rem then .mod else .div) false x y =
      (idivq (cqtoHigh x) x y).map fun qr => if rem then qr.2 else qr.1 := by
    cases rem <;> rfl
  rw [hword]
  cases hq : idivq (cqtoHigh x) x y with
  | none =>
    refine ⟨fun w hw => (by cases hw), fun _ js => ?_⟩
    rw [hq] at hstep
    rw [List.append_assoc, hrun.exec, List.singleton_append, exec_inline_cons rfl, hstep]
    rfl
  | some qr =>
    refine ⟨fun w hw => ?_, fun h => by cases h⟩
    cases hw
    rw [hq] at hstep
    refine ⟨_, hrun.trans (.single hstep rfl), hmem, ?_, ?_⟩
    · rw [setReg_reg_of_ne _ _ (by decide), setReg_reg_of_ne _ _ (by decide), hbp]
    · cases rem with
      | true => exact setReg_reg_self _ _ _
      | false =>
        refine (setReg_reg_of_ne _ _ (by decide)).trans ?_
        exact setReg_reg_self _ _ _

/-- The code of an operator brings its result into a register and stores it, or faults. -/
def ArithCode (E : Env) (Γ : TypeEnv) (f : IRFunc) (ra : RegAlloc) (s : MState) (ins : IRInstr) :
    Prop :=
  ∃ is r, codegenInstr Γ f ra ins = is ++ storeReg ra ins.dst r ∧
    (∀ w, machineBinop ins.op false (operandWord E ra s .rax ins.src1)
      (operandWord E ra s .rcx ins.src2) = some w → Brings E is s r w) ∧
    (machineBinop ins.op false (operandWord E ra s .rax ins.src1)
      (operandWord E ra s .rcx ins.src2) = none → ∀ js, exec E (is ++ js) s = none)

theorem arithCode (ra : RegAlloc) (harith : ins.op.isArith = true) (hfp : isFpType ins.dst.type = false)
    (hsrc : ins.src2.kind ≠ .none) : ArithCode E Γ f ra s ins := by
  have hbinary : ∀ i, binaryInstr ins.op = some i → codegenInstr Γ f ra ins =
      (loadReg ra ins.src1 .rax ++ loadReg ra ins.src2 .rcx ++ [i]) ++ storeReg ra ins.dst .rax →
      ArithCode E Γ f ra s ins := by
    intro i hi hcode
    obtain ⟨w, hw, hbrings⟩ := brings_binary (E := E) (s := s) ra hi (a := ins.src1) hsrc
    refine ⟨_, .rax, hcode, fun v hv => ?_, fun hnone => ?_⟩
    · rw [hw] at hv
      cases hv
      exact hbrings
    · rw [hw] at hnone
      cases hnone
  have hdivision : ∀ rem : Bool, ins.op = (if rem then .mod else .div) →
      codegenInstr Γ f ra ins = (loadReg ra ins.src1 .rax ++ [.cqto] ++ loadReg ra ins.src2 .rcx ++
        [.idiv .rcx]) ++ storeReg ra ins.dst (if rem then .rdx else .rax) →
      ArithCode E Γ f ra s ins := by
    intro rem hop hcode
    have h := brings_division (E := E) (s := s) ra (a := ins.src1) hsrc rem
    rw [← hop] at h
    exact ⟨_, _, hcode, h⟩
  cases hop : ins.op with
  | div => exact hdivision false hop (by simp [codegenInstr, hop, hfp])
  | mod => exact hdivision true hop (by simp [codegenInstr, hop])
  | add | sub | mul | and | or | xor | shl | shr =>
    rw [hop] at hbinary
    exact hbinary _ rfl (by simp [codegenInstr, hop, hfp, binaryInstr])
  | _ =>
    rw [hop] at harith
    cases harith

end

/-- The machine knows the instruction, and its operands have slots. -/
structure SlotFrame.Handles (F : SlotFrame) (ins : IRInstr) : Prop where
  op : ins.op = .store ∨ ins.op = .load ∨ ins.op.isArith = true
  src1 : F.Usable ins.src1
  src2 : ins.op.isArith = true → F.Usable ins.src2
  dst : F.Usable ins.dst
  result : ins.op ≠ .store → ∃ t, ins.dst.kind = .temp t
  word : isFpType (if ins.op = .store then storeType ins else ins.dst.type) = false

/-- The bytes of the object that an instruction accesses. -/
def WordState.access (Γ : TypeEnv) (E : Env) (σ : WordState) (ins : IRInstr) :
    Option (Addr × ℕ) :=
  match ins.op with
  | .store => some (σ.word E ins.dst, accessBytes Γ (storeType ins))
  | .load => some (σ.word E ins.src1, accessBytes Γ ins.dst.type)
  | _ => none

/-- The code can be run on the machine, and each object accessed on the way is clear of the
slots. -/
def SlotFrame.Runs (F : SlotFrame) (Γ : TypeEnv) (E : Env) : List IRInstr → WordState → Prop
  | [], _ => True
  | i :: is, σ => F.Handles i ∧ (∀ r, σ.access Γ E i = some r → F.Clear r.1 r.2) ∧
      ∀ σ', σ.step Γ E i = some σ' → SlotFrame.Runs F Γ E is σ'

/-- Lines of IR code, one after the other. -/
def execIr (E : Env) (Γ : TypeEnv) (f : IRFunc) (ra : RegAlloc) (is : List IRInstr) (s : MState) :
    Option (MState × Exit) := exec E (is.flatMap (codegenInstr Γ f ra)) s

/-- The code ends like the run of the machine, in a state that holds the machine's. -/
def SlotFrame.Simulates (F : SlotFrame) (r : Option (MState × Exit)) (σ : Option WordState) :
    Prop :=
  (σ = none → r = none) ∧ ∀ σ', σ = some σ' → ∃ s', r = some (s', .fall) ∧ F.Holds s' σ'

namespace SlotFrame

variable {F : SlotFrame} {E : Env} {Γ : TypeEnv} {s : MState} {σ : WordState} {ins : IRInstr}

private theorem simulates_store (f : IRFunc) (h : F.Holds s σ) (hins : F.Handles ins)
    (hop : ins.op = .store) (hclear : ∀ r, σ.access Γ E ins = some r → F.Clear r.1 r.2) :
    F.Simulates (exec E (codegenInstr Γ f F.ra ins) s) (σ.step Γ E ins) := by
  have hfp : isFpType (storeType ins) = false := by
    have hword := hins.word
    rwa [if_pos hop] at hword
  obtain ⟨s', hexec, hmem, hbp, -⟩ := exec_store_word (E := E) (Γ := Γ) (s := s) f F.ra
    hop hfp
  have hbytes : storeBytes Γ (storeType ins) = accessBytes Γ (storeType ins) := by
    rw [storeBytes, hfp]
    rfl
  let mem := store σ.mem (σ.word E ins.dst) (accessBytes Γ (storeType ins)) (σ.word E ins.src1)
  have hstep : σ.step Γ E ins = some { σ with mem := mem } := by
    rw [WordState.step, hop]
  have haccess : σ.access Γ E ins = some (σ.word E ins.dst, accessBytes Γ (storeType ins)) := by
    rw [WordState.access, hop]
  rw [h.operandWord hins.dst, h.operandWord hins.src1, hbytes] at hmem
  rw [hstep]
  refine ⟨fun h => (by cases h), fun σ' hσ' => ?_⟩
  cases hσ'
  exact ⟨s', hexec, h.store (hclear _ haccess) hbp hmem⟩

private theorem simulates_load (f : IRFunc) (h : F.Holds s σ) (hins : F.Handles ins)
    (hop : ins.op = .load) (hclear : ∀ r, σ.access Γ E ins = some r → F.Clear r.1 r.2) :
    F.Simulates (exec E (codegenInstr Γ f F.ra ins) s) (σ.step Γ E ins) := by
  have hfp : isFpType ins.dst.type = false := by
    have hword := hins.word
    rwa [if_neg (by rw [hop]; decide)] at hword
  obtain ⟨t, ht⟩ := hins.result (by rw [hop]; decide)
  obtain ⟨ht₁, ht₂⟩ := hins.dst.2 t ht
  have hcode : codegenInstr Γ f F.ra ins = (loadReg F.ra ins.src1 .rax ++
      [loadExtended (sizeOrEight Γ ins.dst.type) (ins.dst.type.all typeIsSigned)]) ++
      storeReg F.ra ins.dst .rdx := by
    simp [codegenInstr, hop, hfp]
  let a := σ.word E ins.src1
  have ha : operandWord E F.ra s .rax ins.src1 = a := h.operandWord hins.src1 .rax
  have haccess : σ.access Γ E ins = some (a, accessBytes Γ ins.dst.type) := by
    rw [WordState.access, hop]
  have hread : readWord Γ ins.dst.type s.mem a = readWord Γ ins.dst.type σ.mem a := by
    rw [readWord, readWord, h.load (hclear _ haccess) (Width.bytes_le _)]
  have hload := NoWrites.loadReg (E := E) (s := s) F.ra ins.src1 .rax
  rw [ha] at hload
  have hstep := loadExtended_step (E := E) (Γ := Γ) (s := s.setReg .rax a) ins.dst.type
  rw [setReg_reg_self, setReg_mem, hread] at hstep
  have hnone : (loadExtended (sizeOrEight Γ ins.dst.type) (ins.dst.type.all typeIsSigned)).writes E
      (s.setReg .rax a) = [] := by
    unfold loadExtended
    split_ifs <;> rfl
  have hbrings : Brings E (loadReg F.ra ins.src1 .rax ++
      [loadExtended (sizeOrEight Γ ins.dst.type) (ins.dst.type.all typeIsSigned)]) s .rdx
      (readWord Γ ins.dst.type σ.mem a) := by
    refine ⟨_, hload.trans (.single hstep hnone), rfl, ?_, setReg_reg_self _ _ _⟩
    rw [setReg_reg_of_ne _ _ (by decide), setReg_reg_of_ne _ _ (by decide)]
  obtain ⟨s', hexec, hbp, hmem⟩ := hbrings.storeReg ht
  rw [slot_ea h.bp] at hmem
  have hσ : σ.step Γ E ins = some (σ.setTemp t (readWord Γ ins.dst.type σ.mem a)) := by
    rw [WordState.step, hop, ht]
  rw [hσ, hcode]
  refine ⟨fun h => (by cases h), fun σ' hσ' => ?_⟩
  cases hσ'
  exact ⟨s', hexec, h.setTemp ht₁ ht₂ hbp hmem⟩

private theorem simulates_arith (f : IRFunc) (h : F.Holds s σ) (hins : F.Handles ins)
    (harith : ins.op.isArith = true) :
    F.Simulates (exec E (codegenInstr Γ f F.ra ins) s) (σ.step Γ E ins) := by
  have hop : ins.op ≠ .store := by
    intro hop
    rw [hop] at harith
    cases harith
  have hfp : isFpType ins.dst.type = false := by
    have hword := hins.word
    rwa [if_neg hop] at hword
  obtain ⟨t, ht⟩ := hins.result hop
  obtain ⟨ht₁, ht₂⟩ := hins.dst.2 t ht
  obtain ⟨is, r, hcode, hsome, hnone⟩ := arithCode (E := E) (Γ := Γ) (f := f) (s := s) F.ra
    harith hfp (hins.src2 harith).1
  rw [h.operandWord hins.src1, h.operandWord (hins.src2 harith)] at hsome hnone
  have hstep : σ.step Γ E ins = (machineBinop ins.op false (σ.word E ins.src1)
      (σ.word E ins.src2)).map (σ.setTemp t) := by
    rw [WordState.step, ht]
    cases hi : ins.op <;> first | rfl | (rw [hi] at harith; cases harith)
  rw [hcode, hstep]
  cases hw : machineBinop ins.op false (σ.word E ins.src1) (σ.word E ins.src2) with
  | none => exact ⟨fun _ => hnone hw _, fun _ h => by cases h⟩
  | some w =>
    refine ⟨fun h => (by cases h), fun σ' hσ' => ?_⟩
    cases hσ'
    obtain ⟨s', hexec, hbp, hmem⟩ := (hsome w hw).storeReg ht
    rw [slot_ea h.bp] at hmem
    exact ⟨s', hexec, h.setTemp ht₁ ht₂ hbp hmem⟩

/-- One instruction. -/
theorem simulates_instr (f : IRFunc) (h : F.Holds s σ) (hins : F.Handles ins)
    (hclear : ∀ r, σ.access Γ E ins = some r → F.Clear r.1 r.2) :
    F.Simulates (exec E (codegenInstr Γ f F.ra ins) s) (σ.step Γ E ins) := by
  rcases hins.op with hop | hop | harith
  · exact simulates_store f h hins hop hclear
  · exact simulates_load f h hins hop hclear
  · exact simulates_arith f h hins harith

/-- Straight-line code does on the slots what the machine does on the temps. -/
theorem simulates (f : IRFunc) {is : List IRInstr} (h : F.Holds s σ) (hruns : F.Runs Γ E is σ) :
    F.Simulates (execIr E Γ f F.ra is s) (σ.run Γ E is) := by
  induction is generalizing s σ with
  | nil =>
    refine ⟨fun h => (by cases h), fun σ' hσ' => ?_⟩
    cases hσ'
    exact ⟨s, rfl, h⟩
  | cons i is ih =>
    obtain ⟨hins, hclear, hrest⟩ := hruns
    obtain ⟨hnone, hsome⟩ := simulates_instr f h hins hclear
    rw [execIr, List.flatMap_cons, WordState.run]
    cases hstep : σ.step Γ E i with
    | none =>
      exact ⟨fun _ => exec_append_fault (hnone hstep), fun _ h => by cases h⟩
    | some σ₁ =>
      obtain ⟨s₁, hexec, h₁⟩ := hsome σ₁ hstep
      rw [exec_append hexec]
      exact ih h₁ (hrest σ₁ hstep)

end SlotFrame

end TinyC
