import TinyC.TempFlow
import TinyC.WordIr

/-!
# The code of integer instructions

The lines of an instruction that the machine on words knows do its work on the stack slots.
-/

namespace TinyC

open ByteMemory

/-- The frame and the objects go together: symbols and storage are where the code finds them, and
what may be accessed is clear of the slots. -/
structure SlotFrame.Houses (F : SlotFrame) (E : Env) (K : ObjectLayout) : Prop where
  sym : K.sym = E.sym
  place : ∀ t, K.place t = F.bp + BitVec.ofInt 64 (F.ra.allocaOff t)
  clear : ∀ a n, K.valid a n = true → F.Clear a n

/-- The code `is` brings the word `w` into `r` and changes neither the memory nor the frame. -/
structure Carries (E : Env) (is : List Instr) (s : MState) (r : Reg) (w : BitVec 64) (s' : MState) :
    Prop where
  runs : RunsTo E is s s'
  mem : s'.mem = s.mem
  rbp : s'.reg .rbp = s.reg .rbp
  word : s'.reg r = w

section

variable {E : Env} {s s' s₁ : MState} {is js : List Instr} {r q : Reg} {w x : BitVec 64} {i : Instr}
  {ra : RegAlloc} {dst : IRValue} {t : ℕ}

namespace Carries

theorem loadReg (ra : RegAlloc) (v : IRValue) (hr : Reg.rbp ≠ r) :
    Carries E (loadReg ra v r) s r (operandWord E ra s r v)
      (s.setReg r (operandWord E ra s r v)) where
  runs := (NoWrites.loadReg ra v r).exec
  mem := rfl
  rbp := setReg_reg_of_ne _ _ hr
  word := setReg_reg_self _ _ _

/-- One more line. -/
theorem step (h : Carries E is s r x s₁) (hi : i.step E s₁ = some s') (hmem : s'.mem = s₁.mem)
    (hrbp : s'.reg .rbp = s₁.reg .rbp) (hw : s'.reg q = w) : Carries E (is ++ [i]) s q w s' where
  runs := h.runs.append (.of_step hi)
  mem := hmem.trans h.mem
  rbp := hrbp.trans h.rbp
  word := hw

/-- The word goes to the slot of a temp. -/
theorem storeReg (h : Carries E is s r w s₁) (ht : dst.kind = .temp t) :
    ∃ s', exec E (is ++ storeReg ra dst r) s = some (s', .fall) ∧
      s'.reg .rbp = s.reg .rbp ∧ s'.mem = store s.mem (s.ea (ra.slot t) .rbp) 8 w := by
  obtain ⟨kind, ty⟩ := dst
  cases ht
  have hea : s₁.ea (ra.slot t) .rbp = s.ea (ra.slot t) .rbp := by rw [MState.ea, h.rbp, MState.ea]
  refine ⟨_, (h.runs _).trans (exec_storeReg_end E ra s₁ t ty r), h.rbp, ?_⟩
  rw [setSlot, hea, h.mem, h.word]

/-- The extension of the low bytes. -/
theorem extendRax (h : Carries E is s .rax x s₁) (sz : ℤ) (isSigned : Bool) :
    Carries E (is ++ extendRax sz isSigned) s .rax (extendWord sz isSigned x)
      (s₁.setReg .rax (extendWord sz isSigned x)) where
  runs := h.runs.append fun js => by rw [exec_extendRax, h.word]
  mem := h.mem
  rbp := (setReg_reg_of_ne _ _ (by decide)).trans h.rbp
  word := setReg_reg_self _ _ _

/-- The two operands of a comparison or of an operator. -/
theorem operands (ra : RegAlloc) (a : IRValue) {b : IRValue} (hb : b.kind ≠ .none) :
    ∃ s', RunsTo E (TinyC.loadReg ra a .rax ++ TinyC.loadReg ra b .rcx) s s' ∧ s'.mem = s.mem ∧
      s'.reg .rbp = s.reg .rbp ∧ s'.reg .rax = operandWord E ra s .rax a ∧
      s'.reg .rcx = operandWord E ra s .rcx b := by
  refine ⟨_, (noWrites_operands hb).exec, rfl, ?_, ?_, setReg_reg_self _ _ _⟩
  · rw [setReg_reg_of_ne _ _ (by decide), setReg_reg_of_ne _ _ (by decide)]
  · rw [setReg_reg_of_ne _ _ (by decide), setReg_reg_self]

/-- A condition becomes a word. -/
theorem setCond (c : Cond) (h : RunsTo E is s s₁) (hmem : s₁.mem = s.mem)
    (hrbp : s₁.reg .rbp = s.reg .rbp) :
    ∃ s', Carries E (is ++ [.set c, .movzx .byte (.reg .rax) .rax]) s .rax
      (if c.holds s₁.flags then 1 else 0) s' := by
  let v : BitVec 64 := if c.holds s₁.flags then 1 else 0
  let s₂ := s₁.writeReg .byte .rax v
  refine ⟨s₂.setReg .rax (s₂.get E .byte (.reg .rax)), h.append ?_, hmem, ?_, ?_⟩
  · exact (RunsTo.of_step (show (Instr.set c).step E s₁ = some s₂ from rfl)).append (.of_step rfl)
  · have hrbp₂ : s₂.reg .rbp = s₁.reg .rbp := setReg_reg_of_ne s₁ _ (by decide)
    exact (setReg_reg_of_ne s₂ _ (by decide)).trans (hrbp₂.trans hrbp)
  · have hbyte := writeReg_byte_zeroExt s₁ .rax v
    refine (setReg_reg_self _ _ _).trans (hbyte.trans ?_)
    by_cases hc : c.holds s₁.flags = true <;> simp [v, hc, zeroExt]

end Carries

end

/-! ### Values -/

section

variable {Γ : TypeEnv} {E : Env} {K : ObjectLayout} {F : SlotFrame} {s : MState} {ins : IRInstr}
  {m m' : Mem} {τ τ' : ℕ → BitVec 64} {v : IRValue} {w x y : BitVec 64} {t : ℕ}

theorem IRInstr.Within.usable (h : ins.Within F.temps) (hv : v ∈ ins.values)
    (hne : v.kind ≠ .none) : F.Usable v := ⟨hne, h v hv⟩

theorem SlotFrame.Holds.operand_eq (h : F.Holds s ⟨τ, m⟩) (hK : F.Houses E K) (hv : F.Usable v)
    (r : Reg) : TinyC.operandWord E F.ra s r v = K.operand τ v := by
  rw [h.operandWord hv]
  unfold WordState.word ObjectLayout.operand
  rw [hK.sym]
  cases v.kind <;> rfl

/-- The code of an instruction brings its word into `%rax` and from there to the slot. -/
def YieldsRax (Γ : TypeEnv) (E : Env) (f : IRFunc) (ra : RegAlloc) (ins : IRInstr) (s : MState)
    (w : BitVec 64) : Prop :=
  ∃ is s', codegenInstr Γ f ra ins = is ++ storeReg ra ins.dst .rax ∧ Carries E is s .rax w s'

variable {f : IRFunc} {ra : RegAlloc}

theorem YieldsRax.exec (h : YieldsRax Γ E f ra ins s w) (ht : ins.dst.kind = .temp t) :
    ∃ s', exec E (codegenInstr Γ f ra ins) s = some (s', .fall) ∧ s'.reg .rbp = s.reg .rbp ∧
      s'.mem = store s.mem (s.ea (ra.slot t) .rbp) 8 w := by
  obtain ⟨is, s₁, hcode, hcarries⟩ := h
  rw [hcode]
  exact hcarries.storeReg ht

/-- An operator with one operand and one line. -/
theorem yieldsRax_unary {i : Instr}
    (hcode : codegenInstr Γ f ra ins = loadReg ra ins.src1 .rax ++ i :: storeReg ra ins.dst .rax)
    (hi : ∀ s' : MState, s'.reg .rax = operandWord E ra s .rax ins.src1 →
      i.step E s' = some (s'.setReg .rax w)) : YieldsRax Γ E f ra ins s w := by
  have hload := Carries.loadReg (E := E) (s := s) ra ins.src1 (r := .rax) (by decide)
  have hrbp : ∀ s' : MState, (s'.setReg .rax w).reg .rbp = s'.reg .rbp :=
    fun s' => setReg_reg_of_ne s' w (by decide)
  refine ⟨loadReg ra ins.src1 .rax ++ [i], _, ?_, hload.step (hi _ hload.word) rfl (hrbp _)
    (setReg_reg_self _ _ _)⟩
  rw [hcode, List.append_assoc, List.singleton_append]

theorem yieldsRax_extend {sz : ℤ} {b : Bool}
    (hcode : codegenInstr Γ f ra ins =
      loadReg ra ins.src1 .rax ++ extendRax sz b ++ storeReg ra ins.dst .rax) :
    YieldsRax Γ E f ra ins s (extendWord sz b (operandWord E ra s .rax ins.src1)) :=
  ⟨_, _, hcode, (Carries.loadReg ra ins.src1 (by decide)).extendRax sz b⟩

theorem yieldsRax_copy
    (hcode : codegenInstr Γ f ra ins = loadReg ra ins.src1 .rax ++ storeReg ra ins.dst .rax) :
    YieldsRax Γ E f ra ins s (operandWord E ra s .rax ins.src1) :=
  ⟨_, _, hcode, .loadReg ra ins.src1 (by decide)⟩

theorem yieldsRax_compare {c : Cond}
    (hcode : codegenInstr Γ f ra ins = loadReg ra ins.src1 .rax ++ loadReg ra ins.src2 .rcx ++
      [.cmp .rcx .rax, .set c, .movzx .byte (.reg .rax) .rax] ++ storeReg ra ins.dst .rax)
    (hsrc : ins.src2.kind ≠ .none) (hx : operandWord E ra s .rax ins.src1 = x)
    (hy : operandWord E ra s .rcx ins.src2 = y) :
    YieldsRax Γ E f ra ins s (if c.holds ⟨x == y, x.ult y, x.slt y⟩ then 1 else 0) := by
  obtain ⟨s₁, hruns, hmem, hrbp, hax, hcx⟩ := Carries.operands (E := E) (s := s) ra ins.src1 hsrc
  let s₂ : MState := { s₁ with flags := ⟨x == y, x.ult y, x.slt y⟩ }
  have hcmp : (Instr.cmp .rcx .rax).step E s₁ = some s₂ := by
    rw [Instr.step, hax, hcx, hx, hy]
  obtain ⟨s', hset⟩ := Carries.setCond (s := s) c (hruns.append (.of_step hcmp)) hmem hrbp
  refine ⟨_, s', ?_, hset⟩
  rw [hcode]
  simp

/-- The instructions whose result is in `%rax` when it is stored, loads and operators apart. -/
def IROp.isUnaryOrTest : IROp → Bool
  | .neg | .not | .sext | .zext | .trunc | .eq | .ne | .lt | .le | .gt | .ge => true
  | _ => false

theorem yieldsRax_of_irWord (hcode : ins.isWordCode = true) (hop : ins.op.isUnaryOrTest = true)
    (hx : operandWord E ra s .rax ins.src1 = x) (hy : operandWord E ra s .rcx ins.src2 = y)
    (hw : irWord Γ ins x y = some w) : YieldsRax Γ E f ra ins s w := by
  have htest : ∀ op, ins.op = op → (op = .eq ∨ op = .ne ∨ op = .lt ∨ op = .le ∨ op = .gt ∨ op = .ge) →
      YieldsRax Γ E f ra ins s w := by
    intro op h hcmp
    let u := isUnsigned ins.src1.type || isUnsigned ins.src2.type
    have hfp : ins.src2.kind ≠ .none ∧ isFpType ins.src1.type = false ∧
        isFpType ins.src2.type = false := by
      unfold IRInstr.isWordCode at hcode
      rcases hcmp with rfl | rfl | rfl | rfl | rfl | rfl <;> simp [h] at hcode <;> tauto
    have hlines : codegenInstr Γ f ra ins = loadReg ra ins.src1 .rax ++ loadReg ra ins.src2 .rcx ++
        [.cmp .rcx .rax, .set (cmpCond u op), .movzx .byte (.reg .rax) .rax] ++
          storeReg ra ins.dst .rax := by
      rcases hcmp with rfl | rfl | rfl | rfl | rfl | rfl <;>
        simp [codegenInstr, h, hfp.2.1, hfp.2.2, u]
    have hval : w = if (cmpCond u op).holds ⟨x == y, x.ult y, x.slt y⟩ then 1 else 0 := by
      unfold irWord at hw
      rcases hcmp with rfl | rfl | rfl | rfl | rfl | rfl <;> simp only [h] at hw <;>
        exact (Option.some.inj hw).symm
    rw [hval]
    exact yieldsRax_compare hlines hfp.1 hx hy
  have hw' := hw
  unfold irWord at hw'
  cases h : ins.op with
  | neg =>
    simp only [h] at hw'
    refine yieldsRax_unary (i := .neg .rax) (by simp [codegenInstr, h]) fun s' hs' => ?_
    rw [Instr.step, hs', hx, ← Option.some.inj hw']
  | not =>
    simp only [h] at hw'
    refine yieldsRax_unary (i := .not .rax) (by simp [codegenInstr, h]) fun s' hs' => ?_
    rw [Instr.step, hs', hx, ← Option.some.inj hw']
  | sext =>
    simp only [h] at hw'
    rw [← Option.some.inj hw', ← hx]
    exact yieldsRax_extend (by simp [codegenInstr, h])
  | zext =>
    simp only [h] at hw'
    rw [← Option.some.inj hw', ← hx]
    by_cases h4 : sizeOrEight Γ ins.src1.type = 4
    · rw [if_pos h4]
      exact yieldsRax_copy (by simp [codegenInstr, h, h4])
    · rw [if_neg h4]
      exact yieldsRax_extend (by simp [codegenInstr, h, h4])
  | trunc =>
    simp only [h] at hw'
    rw [← Option.some.inj hw', ← hx]
    cases hty : ins.dst.type with
    | none => exact yieldsRax_copy (by simp [codegenInstr, h, hty])
    | some ty => exact yieldsRax_extend (by simp [codegenInstr, h, hty])
  | eq | ne | lt | le | gt | ge => exact htest _ h (by simp)
  | _ => simp [IROp.isUnaryOrTest, h] at hop

/-- What `isWordCode` says of the destination. -/
theorem isWordCode_dst (hcode : ins.isWordCode = true)
    (hop : ins.op ∉ [.label, .jmp, .ret, .jz, .jnz, .store]) : ∃ t, ins.dst.kind = .temp t := by
  unfold IRInstr.isWordCode at hcode
  cases hkind : ins.dst.kind with
  | temp t => exact ⟨t, rfl⟩
  | _ => cases h : ins.op <;> simp [h, hkind] at hcode hop

/-- The word of a slot is written. -/
theorem SlotFrame.Holds.written {s' : MState} {b : BitVec 64} {k : ℕ}
    (h : F.Holds s ⟨τ, m⟩) (hk : 1 ≤ k) (hk' : k < F.temps) (hkind : v.kind = .temp k)
    (hrbp : s'.reg .rbp = s.reg .rbp)
    (hmem : s'.mem = ByteMemory.store s.mem (s.ea (F.ra.slot k) .rbp) 8 b) :
    F.Holds s' ⟨IrMachine.writeTemp τ v b, m⟩ := by
  rw [slot_ea h.bp] at hmem
  have hτ : IrMachine.writeTemp τ v b = Function.update τ k b := by
    rw [IrMachine.writeTemp, hkind]
  rw [hτ]
  exact h.setTemp hk hk' hrbp hmem

theorem machineBinop_arith {op : IROp} (hop : op.isArith = true) (u : Bool) :
    machineBinop op u x y = machineBinop op false x y := by
  cases op <;> first | rfl | cases hop

theorem irWord_arith (hop : ins.op.isArith = true) :
    irWord Γ ins x y = machineBinop ins.op false x y := by
  rw [← machineBinop_arith hop (isUnsigned ins.src1.type || isUnsigned ins.src2.type), irWord]
  cases h : ins.op <;> first | rfl | simp [IROp.isArith, h] at hop

theorem irValue_other (hload : ins.op ≠ .load) (halloca : ins.op ≠ .alloca) :
    K.irValue Γ ins m τ = irWord Γ ins (K.operand τ ins.src1) (K.operand τ ins.src2) := by
  unfold ObjectLayout.irValue
  cases h : ins.op <;> first | rfl | exact absurd h hload | exact absurd h halloca

/-- The machine of straight-line code knows the loads, the stores and the operators. -/
theorem handles_of_isWordCode (hcode : ins.isWordCode = true) (hin : ins.Within F.temps)
    (hop : ins.op = .store ∨ ins.op = .load ∨ ins.op.isArith = true) : F.Handles ins := by
  have huse : ∀ v ∈ ins.values, v.kind ≠ .none → F.Usable v := fun v hv hne => hin.usable hv hne
  have hdst : ins.op ≠ .store → ∃ t, ins.dst.kind = .temp t := by
    intro hne
    refine isWordCode_dst hcode ?_
    rcases hop with h | h | h
    · exact absurd h hne
    · simp [h]
    · intro hmem
      cases hi : ins.op <;> simp_all [IROp.isArith]
  have hcode' := hcode
  unfold IRInstr.isWordCode at hcode'
  have hkinds : ins.src1.kind ≠ .none ∧ (ins.op.isArith = true → ins.src2.kind ≠ .none) ∧
      ins.dst.kind ≠ .none ∧
      isFpType (if ins.op = .store then storeType ins else ins.dst.type) = false := by
    rcases hop with h | h | h
    · simp [h] at hcode'
      simp [h, IROp.isArith]
      tauto
    · obtain ⟨t, ht⟩ := hdst (by simp [h])
      simp [h] at hcode'
      simp [h, IROp.isArith, ht]
      tauto
    · obtain ⟨t, ht⟩ := hdst (by rintro h'; simp [h', IROp.isArith] at h)
      rw [ht]
      cases hi : ins.op <;> simp [IROp.isArith, hi] at h <;> simp [hi] at hcode' <;> simp <;> tauto
  exact ⟨hop, huse _ (by simp [IRInstr.values]) hkinds.1,
    fun h => huse _ (by simp [IRInstr.values]) (hkinds.2.1 h),
    huse _ (by simp [IRInstr.values]) hkinds.2.2.1, hdst, hkinds.2.2.2⟩

theorem word_eq_operand (hK : F.Houses E K) (v : IRValue) :
    (⟨τ, m⟩ : WordState).word E v = K.operand τ v := by
  unfold WordState.word ObjectLayout.operand
  rw [hK.sym]
  cases v.kind <;> rfl

theorem exec_storeCode (f : IRFunc) (h : F.Holds s ⟨τ, m⟩) (hK : F.Houses E K)
    (hins : F.Handles ins) (hop : ins.op = .store) (heff : K.irStore Γ ins m τ = some m') :
    ∃ s', exec E (codegenInstr Γ f F.ra ins) s = some (s', .fall) ∧ F.Holds s' ⟨τ, m'⟩ := by
  obtain ⟨hvalid, heff⟩ := Option.ite_none_right_eq_some.mp heff
  refine (F.simulates_instr f h hins fun r hr => ?_).2 ⟨τ, m'⟩ ?_
  · rw [WordState.access, hop] at hr
    cases hr
    rw [word_eq_operand hK]
    exact hK.clear _ _ hvalid
  · rw [WordState.step, hop]
    simp only [word_eq_operand hK]
    rw [← Option.some.inj heff]

theorem exec_loadCode (f : IRFunc) (h : F.Holds s ⟨τ, m⟩) (hK : F.Houses E K)
    (hins : F.Handles ins) (hop : ins.op = .load) (heff : K.irValue Γ ins m τ = some w) :
    ∃ s', exec E (codegenInstr Γ f F.ra ins) s = some (s', .fall) ∧
      F.Holds s' ⟨IrMachine.writeTemp τ ins.dst w, m⟩ := by
  obtain ⟨t, ht⟩ := hins.result (by simp [hop])
  rw [ObjectLayout.irValue, hop, ht] at heff
  obtain ⟨hvalid, heff⟩ := Option.ite_none_right_eq_some.mp heff
  refine (F.simulates_instr f h hins fun r hr => ?_).2 _ ?_
  · rw [WordState.access, hop] at hr
    cases hr
    rw [word_eq_operand hK]
    exact hK.clear _ _ hvalid
  · rw [WordState.step, hop, ht]
    simp only [word_eq_operand hK, Option.some.inj heff]
    rw [IrMachine.writeTemp, ht]
    rfl

theorem exec_arithCode (f : IRFunc) (h : F.Holds s ⟨τ, m⟩) (hK : F.Houses E K)
    (hins : F.Handles ins) (hop : ins.op.isArith = true) (heff : K.irValue Γ ins m τ = some w) :
    ∃ s', exec E (codegenInstr Γ f F.ra ins) s = some (s', .fall) ∧
      F.Holds s' ⟨IrMachine.writeTemp τ ins.dst w, m⟩ := by
  have hne : ins.op ≠ .store ∧ ins.op ≠ .load ∧ ins.op ≠ .alloca := by
    refine ⟨?_, ?_, ?_⟩ <;> intro hi <;> simp [IROp.isArith, hi] at hop
  obtain ⟨t, ht⟩ := hins.result hne.1
  rw [irValue_other hne.2.1 hne.2.2, irWord_arith hop] at heff
  refine (F.simulates_instr f h hins fun r hr => ?_).2 _ ?_
  · rw [WordState.access] at hr
    cases hi : ins.op <;> simp [hi] at hr hne
  · have hstep : (⟨τ, m⟩ : WordState).step Γ E ins = (machineBinop ins.op false
        (K.operand τ ins.src1) (K.operand τ ins.src2)).map (WordState.setTemp ⟨τ, m⟩ t) := by
      rw [WordState.step, ht]
      simp only [word_eq_operand hK]
      cases hi : ins.op <;> first | rfl | cases (hi ▸ hop : IROp.isArith _ = true)
    rw [hstep, heff, IrMachine.writeTemp, ht]
    rfl

theorem exec_allocaCode (f : IRFunc) (h : F.Holds s ⟨τ, m⟩) (hK : F.Houses E K)
    (hin : ins.Within F.temps) (hcode : ins.isWordCode = true) (hop : ins.op = .alloca)
    (heff : K.irValue Γ ins m τ = some w) :
    ∃ s', exec E (codegenInstr Γ f F.ra ins) s = some (s', .fall) ∧
      F.Holds s' ⟨IrMachine.writeTemp τ ins.dst w, m⟩ := by
  obtain ⟨t, ht⟩ := isWordCode_dst hcode (by simp [hop])
  obtain ⟨ht₁, ht₂⟩ := hin ins.dst (by simp [IRInstr.values]) t ht
  rw [ObjectLayout.irValue, hop, ht] at heff
  have hw : s.ea (F.ra.allocaOff t) .rbp = w := by
    rw [MState.ea, h.bp, ← hK.place t]
    exact Option.some.inj heff
  let s₁ := s.setReg .rax w
  have hlea : (Instr.lea (.mem (F.ra.allocaOff t) .rbp) .rax).step E s = some s₁ := by
    rw [Instr.step, hw]
  have hcarries : Carries E [.lea (.mem (F.ra.allocaOff t) .rbp) .rax] s .rax w s₁ :=
    ⟨.of_step hlea, rfl, setReg_reg_of_ne s w (by decide), setReg_reg_self s .rax w⟩
  obtain ⟨s', hexec, hrbp, hmem⟩ := hcarries.storeReg ht
  have hlines : codegenInstr Γ f F.ra ins =
      [.lea (.mem (F.ra.allocaOff t) .rbp) .rax] ++ storeReg F.ra ins.dst .rax := by
    simp [codegenInstr, hop, ht]
  rw [hlines]
  exact ⟨s', hexec, h.written ht₁ ht₂ ht hrbp hmem⟩

theorem exec_unaryOrTestCode (f : IRFunc) (h : F.Holds s ⟨τ, m⟩) (hK : F.Houses E K)
    (hin : ins.Within F.temps) (hcode : ins.isWordCode = true) (hop : ins.op.isUnaryOrTest = true)
    (heff : K.irValue Γ ins m τ = some w) :
    ∃ s', exec E (codegenInstr Γ f F.ra ins) s = some (s', .fall) ∧
      F.Holds s' ⟨IrMachine.writeTemp τ ins.dst w, m⟩ := by
  have hne : ins.op ≠ .load ∧ ins.op ≠ .alloca := by
    refine ⟨?_, ?_⟩ <;> intro hi <;> simp [IROp.isUnaryOrTest, hi] at hop
  obtain ⟨t, ht⟩ := isWordCode_dst hcode (by
    intro hmem
    cases hi : ins.op <;> simp [IROp.isUnaryOrTest, hi] at hop hmem)
  obtain ⟨ht₁, ht₂⟩ := hin ins.dst (by simp [IRInstr.values]) t ht
  have hx : operandWord E F.ra s .rax ins.src1 = K.operand τ ins.src1 := by
    refine h.operand_eq hK (hin.usable (by simp [IRInstr.values]) ?_) _
    unfold IRInstr.isWordCode at hcode
    cases hi : ins.op <;> simp [hi, IROp.isUnaryOrTest] at hop <;> simp [hi] at hcode <;> tauto
  rw [irValue_other hne.1 hne.2] at heff
  have hw : irWord Γ ins (K.operand τ ins.src1) (operandWord E F.ra s .rcx ins.src2) = some w := by
    by_cases hnone : ins.src2.kind = .none
    · unfold IRInstr.isWordCode at hcode
      unfold irWord at heff ⊢
      cases hi : ins.op <;> simp [hi, IROp.isUnaryOrTest] at hop <;> simp [hi, hnone] at hcode <;>
        simpa [hi] using heff
    · rw [h.operand_eq hK (hin.usable (by simp [IRInstr.values]) hnone)]
      exact heff
  obtain ⟨s', hexec, hrbp, hmem⟩ := (yieldsRax_of_irWord (f := f) hcode hop hx rfl hw).exec ht
  exact ⟨s', hexec, h.written ht₁ ht₂ ht hrbp hmem⟩

/-- The copy of a word from one temp to another. -/
theorem exec_copyCode (f : IRFunc) (h : F.Holds s ⟨τ, m⟩) (hK : F.Houses E K)
    (hin : ins.Within F.temps) (hcode : ins.isWordCode = true) (hop : ins.op = .copy)
    (hsrc : ins.src1.kind ≠ .none) :
    ∃ s', exec E (codegenInstr Γ f F.ra ins) s = some (s', .fall) ∧
      F.Holds s' ⟨IrMachine.writeTemp τ ins.dst (K.operand τ ins.src1), m⟩ := by
  obtain ⟨t, ht⟩ := isWordCode_dst hcode (by simp [hop])
  obtain ⟨ht₁, ht₂⟩ := hin ins.dst (by simp [IRInstr.values]) t ht
  have hfacts : isFpType ins.dst.type = false ∧ isFpType ins.src1.type = false := by
    unfold IRInstr.isWordCode at hcode
    simp [hop, hsrc] at hcode
    tauto
  have hlines : codegenInstr Γ f F.ra ins =
      loadReg F.ra ins.src1 .rax ++ storeReg F.ra ins.dst .rax := by
    simp [codegenInstr, hop, hsrc, hfacts.1, hfacts.2]
  obtain ⟨s', hexec, hrbp, hmem⟩ := (yieldsRax_copy (E := E) (s := s) hlines).exec ht
  rw [h.operand_eq hK (hin.usable (by simp [IRInstr.values]) hsrc)] at hmem
  exact ⟨s', hexec, h.written ht₁ ht₂ ht hrbp hmem⟩

/-- An instruction that leaves some memory does on the slots what it does on the temps. -/
theorem exec_effectCode (f : IRFunc) (h : F.Holds s ⟨τ, m⟩) (hK : F.Houses E K)
    (hin : ins.Within F.temps) (hcode : ins.isWordCode = true)
    (heff : (K.machine Γ).effect ins (some m) τ = (some m', τ')) :
    ∃ s', exec E (codegenInstr Γ f F.ra ins) s = some (s', .fall) ∧ F.Holds s' ⟨τ', m'⟩ := by
  obtain ⟨m₀, hm₀, hstore | hvalue⟩ := ObjectLayout.effect_cases heff
  · obtain ⟨hop, hstore, rfl⟩ := hstore
    cases hm₀
    exact exec_storeCode f h hK (handles_of_isWordCode hcode hin (.inl hop)) hop hstore
  · obtain ⟨hop, rfl, w, hw, rfl⟩ := hvalue
    cases hm₀
    by_cases hload : ins.op = .load
    · exact exec_loadCode f h hK (handles_of_isWordCode hcode hin (.inr (.inl hload))) hload hw
    by_cases halloca : ins.op = .alloca
    · exact exec_allocaCode f h hK hin hcode halloca hw
    by_cases harith : ins.op.isArith = true
    · exact exec_arithCode f h hK (handles_of_isWordCode hcode hin (.inr (.inr harith))) harith hw
    · refine exec_unaryOrTestCode f h hK hin hcode ?_ hw
      rw [irValue_other hload halloca] at hw
      unfold irWord at hw
      cases hi : ins.op <;> simp [hi, IROp.isArith] at harith <;> simp [hi] at hw <;> rfl

end

end TinyC
