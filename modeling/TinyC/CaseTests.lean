import TinyC.IrGenStmt
import TinyC.Slots

/-!
# The comparisons of a switch, as code

The test of a case leaves its outcome in the slot of a temp of its own, so it does not disturb
the tests that follow.
-/

namespace TinyC

open ByteMemory

/-- Does the test of a case with the value `val` succeed? A double is compared as one, an integer
by the eight bytes of its slot. -/
def caseTest (E : Env) (ra : RegAlloc) (s : MState) (t : ℕ) (ty : CType) (val : BitVec 64) : Bool :=
  if isDoubleType (some ty) then (E.fp.compare (slotOf ra s t) (E.fp.ofInt true val)).zf
  else slotOf ra s t == val

/-- Values whose tests look at the whole slot: all but those of single precision, which are
compared with bits of the registers that no instruction of the test has written. -/
def ComparesSlot (ty : CType) : Prop := isFpType (some ty) = isDoubleType (some ty)

/-- Compares the value of a switch with that of a case. -/
def caseEq (sv : IRValue) (ty : CType) (n : ℕ) (val : BitVec 64) : IRInstr :=
  { op := .eq, dst := irvTemp n typeInt, src1 := sv, src2 := irvInt val ty }

def caseJump (n l : ℕ) : IRInstr := { op := .jnz, src1 := irvTemp n typeInt, labelId := l }

/-- The instructions that `genDispatch` emits, the first of their temps being `n`. -/
def caseTests (sv : IRValue) (ty : CType) : ℕ → List CaseEntry → List IRInstr
  | _, [] => []
  | n, ce :: ces =>
      if ce.isDefault then caseTests sv ty n ces
      else caseEq sv ty n ce.val :: caseJump n ce.labelId :: caseTests sv ty (n + 1) ces

/-- How many temps the tests take. -/
def testCount : List CaseEntry → ℕ
  | [] => 0
  | ce :: ces => if ce.isDefault then testCount ces else testCount ces + 1

theorem run_genDispatch (sv : IRValue) (ty : CType) (ces : List CaseEntry) (g : IrGen) :
    genDispatch sv ty ces g = ((), { g with
      func := { g.func with
        instrs := g.func.instrs ++ caseTests sv ty g.func.nextTemp ces
        nextTemp := g.func.nextTemp + testCount ces } }) := by
  induction ces generalizing g with
  | nil =>
    rw [genDispatch, caseTests, testCount, List.append_nil]
    rfl
  | cons ce ces ih =>
    have hrun : genDispatch sv ty (ce :: ces) g =
        genDispatch sv ty ces (genCaseTest sv ty ce g).2 := rfl
    rw [hrun, ih, genCaseTest, caseTests, testCount]
    by_cases h : ce.isDefault = true
    · rw [if_pos h, if_pos h, if_pos h]
      rfl
    · rw [if_neg h, if_neg h, if_neg h]
      have htest : ∀ g, ((emitTo typeInt .eq sv (irvInt ce.val ty) >>= fun cmp =>
          emitJnz cmp ce.labelId) g).2 = { g with
            func := { g.func with
              nextTemp := g.func.nextTemp + 1
              instrs := g.func.instrs ++
                [caseEq sv ty g.func.nextTemp ce.val] ++
                [caseJump g.func.nextTemp ce.labelId] } } := fun _ => rfl
      rw [htest]
      simp only [List.append_assoc, List.cons_append, List.nil_append, Nat.add_assoc,
        Nat.add_comm 1]

/-! ### One test -/

/-- From `s` the code comes to `s'`, whatever stands after it. -/
def RunsTo (E : Env) (is : List Instr) (s s' : MState) : Prop :=
  ∀ js, exec E (is ++ js) s = exec E js s'

theorem RunsTo.append {E : Env} {is js : List Instr} {s s' s'' : MState} (h : RunsTo E is s s')
    (h' : RunsTo E js s' s'') : RunsTo E (is ++ js) s s'' := fun ks => by
  rw [List.append_assoc, h, h']

theorem RunsTo.of_step {E : Env} {i : Instr} {s s' : MState} (h : i.step E s = some s') :
    RunsTo E [i] s s' := fun _ => exec_cons h

/-- The outcome of a comparison is taken from the zero flag to the slot of `n`. -/
theorem runsTo_setEqual (E : Env) (ra : RegAlloc) (s : MState) (n : ℕ) (ty : CType) :
    ∃ s', RunsTo E ([.set .e, .movzx .byte (.reg .rax) .rax] ++ storeReg ra (irvTemp n ty) .rax)
        s s' ∧
      s'.mem = store s.mem (s.ea (ra.slot n) .rbp) 8 (if s.flags.zf then 1 else 0) ∧
      s'.reg .rbp = s.reg .rbp := by
  let v : BitVec 64 := if s.flags.zf then 1 else 0
  let s₁ := s.writeReg .byte .rax v
  let s₂ := s₁.setReg .rax (s₁.get E .byte (.reg .rax))
  have hrax : s₂.reg .rax = v := by
    have hbyte := writeReg_byte_zeroExt s .rax v
    have hget : s₂.reg .rax = zeroExt 1 (s₁.reg .rax) := setReg_reg_self _ _ _
    rw [hget, hbyte]
    by_cases h : s.flags.zf = true <;> simp [v, h, zeroExt]
  have hrbp : s₂.reg .rbp = s.reg .rbp := by
    have h₁ : s₁.reg .rbp = s.reg .rbp := setReg_reg_of_ne s _ (by decide)
    exact (setReg_reg_of_ne s₁ _ (by decide)).trans h₁
  have hea : s₂.ea (ra.slot n) .rbp = s.ea (ra.slot n) .rbp := by rw [MState.ea, hrbp, MState.ea]
  refine ⟨setSlot ra s₂ n (s₂.reg .rax), ?_, ?_, hrbp⟩
  · refine RunsTo.append (fun js => ?_) fun js => exec_storeReg E ra s₂ n (some ty) .rax js
    rw [List.cons_append, exec_cons (show (Instr.set .e).step E s = some s₁ from rfl)]
    exact exec_cons rfl
  · change store s₂.mem (s₂.ea (ra.slot n) .rbp) 8 (s₂.reg .rax) = _
    rw [hea, hrax]
    rfl

section

variable (E : Env) (Γ : TypeEnv) (f : IRFunc) (ra : RegAlloc) (s : MState)

/-- Up to the comparison only registers change, and the zero flag tells its outcome. -/
theorem runsTo_compare (t : ℕ) {ty : CType} (hty : ComparesSlot ty) (n : ℕ) (val : BitVec 64) :
    ∃ (is : List Instr) (s' : MState),
      codegenInstr Γ f ra (caseEq (irvTemp t ty) ty n val) =
        is ++ ([.set .e, .movzx .byte (.reg .rax) .rax] ++ storeReg ra (irvTemp n typeInt) .rax) ∧
      RunsTo E is s s' ∧ s'.mem = s.mem ∧ s'.reg .rbp = s.reg .rbp ∧
      s'.flags.zf = caseTest E ra s t ty val := by
  by_cases hdbl : isDoubleType (some ty) = true
  · have hfp : isFpType (some ty) = true := hty.trans hdbl
    let s₁ := s.setXmm 0 (slotOf ra s t)
    let s₂ := s₁.setReg .rax val
    let s₃ := s₂.writeXmm true 1 (E.fp.ofInt true (s₂.reg .rax))
    let s₄ : MState := { s₃ with flags := E.fp.compare (s₃.xmm 0) (s₃.xmm 1) }
    have hcode : codegenInstr Γ f ra (caseEq (irvTemp t ty) ty n val) =
        ([.movsLoad true (ra.slot t) .rbp 0] ++ [.mov .quad (.imm val) (.reg .rax)] ++
          [.cvtsi2s true .rax 1] ++ [.ucomisd 1 0]) ++
        ([.set .e, .movzx .byte (.reg .rax) .rax] ++ storeReg ra (irvTemp n typeInt) .rax) := by
      simp only [codegenInstr, caseEq, irvTemp, irvInt, hfp, hdbl, Bool.true_or, if_true, loadXmm,
        cmpCond, List.cons_append, List.nil_append]
    have hmov : (Instr.mov .quad (.imm val) (.reg .rax)).step E s₁ = some s₂ := by
      have hget : s₁.get E .quad (.imm val) = val := zeroExt_eight val
      rw [Instr.step, hget]
      rfl
    have hrax : s₂.reg .rax = val := setReg_reg_self _ _ _
    have hx₀ : s₃.xmm 0 = slotOf ra s t := by
      simp [s₃, s₂, s₁, MState.writeXmm, MState.setXmm, MState.setReg]
    have hx₁ : s₃.xmm 1 = E.fp.ofInt true val := by
      simp [s₃, MState.writeXmm, MState.setXmm, hrax]
    refine ⟨_, s₄, hcode, ?_, rfl, ?_, ?_⟩
    · exact (((RunsTo.of_step rfl).append (.of_step hmov)).append
        (.of_step (show _ = some s₃ from rfl))).append (.of_step rfl)
    · have hne : Reg.rbp ≠ .rax := by decide
      exact setReg_reg_of_ne s₁ val hne
    · rw [caseTest, if_pos hdbl]
      exact congrArg Flags.zf (congrArg₂ E.fp.compare hx₀ hx₁)
  · have hfp : isFpType (some ty) = false := hty.trans (Bool.eq_false_iff.mpr hdbl)
    let s₁ := s.setReg .rax (slotOf ra s t)
    let s₂ := s₁.setReg .rcx val
    let a := s₂.reg .rax
    let b := s₂.reg .rcx
    let s₃ : MState := { s₂ with flags := ⟨a == b, a.ult b, a.slt b⟩ }
    have hcode : codegenInstr Γ f ra (caseEq (irvTemp t ty) ty n val) =
        (loadReg ra (irvTemp t ty) .rax ++ [.mov .quad (.imm val) (.reg .rcx)] ++ [.cmp .rcx .rax]) ++
        ([.set .e, .movzx .byte (.reg .rax) .rax] ++ storeReg ra (irvTemp n typeInt) .rax) := by
      simp [codegenInstr, caseEq, irvTemp, irvInt, hfp, loadReg, cmpCond]
    have hmov : (Instr.mov .quad (.imm val) (.reg .rcx)).step E s₁ = some s₂ := by
      have hget : s₁.get E .quad (.imm val) = val := zeroExt_eight val
      rw [Instr.step, hget]
      rfl
    have ha : a = slotOf ra s t := (setReg_reg_of_ne s₁ _ (by decide)).trans (setReg_reg_self _ _ _)
    have hb : b = val := setReg_reg_self _ _ _
    refine ⟨_, s₃, hcode, ?_, rfl, ?_, ?_⟩
    · exact (RunsTo.append (fun js => exec_loadReg E ra s t (some ty) .rax js) (.of_step hmov)).append
        (.of_step rfl)
    · have hne : Reg.rbp ≠ .rcx := by decide
      have hne' : Reg.rbp ≠ .rax := by decide
      exact (setReg_reg_of_ne s₁ val hne).trans (setReg_reg_of_ne s _ hne')
    · rw [caseTest, if_neg hdbl, ← ha, ← hb]

/-- The comparison leaves its outcome in the slot of its temp. -/
theorem runsTo_caseEq (t : ℕ) {ty : CType} (hty : ComparesSlot ty) (n : ℕ) (val : BitVec 64) :
    ∃ s', RunsTo E (codegenInstr Γ f ra (caseEq (irvTemp t ty) ty n val)) s s' ∧
      s'.mem = store s.mem (s.ea (ra.slot n) .rbp) 8 (if caseTest E ra s t ty val then 1 else 0) ∧
      s'.reg .rbp = s.reg .rbp := by
  obtain ⟨is, s₁, hcode, hrun, hmem, hrbp, hzf⟩ := runsTo_compare E Γ f ra s t hty n val
  obtain ⟨s', hrun', hmem', hrbp'⟩ := runsTo_setEqual E ra s₁ n typeInt
  refine ⟨s', hcode ▸ hrun.append hrun', ?_, hrbp'.trans hrbp⟩
  rw [hmem', hmem, hzf, MState.ea, hrbp, MState.ea]

/-- The jump to a case is taken if the slot of its temp is not zero. -/
theorem exec_caseJump (n l : ℕ) (js : List Instr) :
    ∃ s', s'.mem = s.mem ∧ s'.reg .rbp = s.reg .rbp ∧
      exec E (codegenInstr Γ f ra (caseJump n l) ++ js) s =
        if slotOf ra s n = 0 then exec E js s' else some (s', .jump (l : ℤ)) := by
  let s₁ := s.setReg .rax (slotOf ra s n)
  let r := s₁.reg .rax &&& s₁.reg .rax
  let s₂ : MState := { s₁ with flags := ⟨r == 0, false, r.msb⟩ }
  have hr : r = slotOf ra s n := by
    have hself : r = s₁.reg .rax := BitVec.and_self
    rw [hself, setReg_reg_self]
  have hne : Reg.rbp ≠ .rax := by decide
  refine ⟨s₂, rfl, setReg_reg_of_ne s (slotOf ra s n) hne, ?_⟩
  have hcode : codegenInstr Γ f ra (caseJump n l) ++ js =
      loadReg ra ⟨.temp n, some typeInt⟩ .rax ++ (.test .rax .rax :: .jcc .ne l :: js) := by
    simp [codegenInstr, caseJump, irvTemp]
  rw [hcode, exec_loadReg, exec_cons (show Instr.step E (.test .rax .rax) s₁ = some s₂ from rfl), exec]
  have hzf : s₂.flags.zf = (slotOf ra s n == 0) := by rw [← hr]
  by_cases hzero : slotOf ra s n = 0
  · rw [if_pos hzero, if_neg]
    simp [Cond.holds, hzf, hzero]
  · rw [if_neg hzero, if_pos]
    have hbeq : (slotOf ra s n == 0) = false := beq_eq_false_iff_ne.mpr hzero
    rw [Cond.holds, hzf, hbeq]
    rfl

end

/-! ### All tests -/

/-- The tests of a switch in their order: the first that succeeds jumps to its case, and if none
does the last jump is taken. -/
def Selects (E : Env) (ra : RegAlloc) (s : MState) (t : ℕ) (ty : CType) (ces : List CaseEntry)
    (d l : ℕ) : Prop :=
  (∃ ce ∈ ces, ce.isDefault = false ∧ caseTest E ra s t ty ce.val = true ∧ l = ce.labelId) ∨
    (∀ ce ∈ ces, ce.isDefault = false → caseTest E ra s t ty ce.val = false) ∧ l = d

section

variable {E : Env} {Γ : TypeEnv} {f : IRFunc} {s s' : MState} {t n : ℕ} {ty : CType}

theorem slot_regallocRun {k : ℕ} (hk : 1 ≤ k) (h : k < f.nextTemp) :
    (regallocRun f).slot k = -8 * k := if_pos ⟨hk, h⟩

/-- Slots of two temps do not meet. -/
theorem slots_apart (hf : f.nextTemp ≤ 2 ^ 31) (ht : 1 ≤ t) (htn : t < n) (hn : n < f.nextTemp)
    (s : MState) : Apart (s.ea ((regallocRun f).slot t) .rbp) 8 (s.ea ((regallocRun f).slot n) .rbp) 8 := by
  have hslot := slot_regallocRun (f := f) ht (htn.trans hn)
  have hslot' := slot_regallocRun (f := f) (ht.trans htn.le) hn
  refine apart_of_offsets (s.reg .rbp) (.inr ?_) ?_ ?_ (by decide) (by decide)
  all_goals
    rw [hslot, hslot']
    omega

/-- A test reads nothing but the slot of the value. -/
theorem caseTest_congr {ra : RegAlloc} (hrbp : s'.reg .rbp = s.reg .rbp)
    (hmem : load s'.mem (s.ea (ra.slot t) .rbp) 8 = load s.mem (s.ea (ra.slot t) .rbp) 8)
    (val : BitVec 64) : caseTest E ra s' t ty val = caseTest E ra s t ty val := by
  have hea : s'.ea (ra.slot t) .rbp = s.ea (ra.slot t) .rbp := by rw [MState.ea, hrbp, MState.ea]
  rw [caseTest, caseTest, slotOf, slotOf, hea, hmem]

/-- The tests and the jump that is left if none succeeds. -/
def dispatchCode (t : ℕ) (ty : CType) (n : ℕ) (ces : List CaseEntry) (d : ℕ) : List IRInstr :=
  caseTests (irvTemp t ty) ty n ces ++ [{ op := .jmp, labelId := d }]

theorem Selects.cons {ra : RegAlloc} {ce : CaseEntry} {ces : List CaseEntry} {d l : ℕ}
    (hce : ce.isDefault = false → caseTest E ra s t ty ce.val = false)
    (h : Selects E ra s t ty ces d l) : Selects E ra s t ty (ce :: ces) d l := by
  rcases h with ⟨ce', hce', hrest⟩ | ⟨hnone, hl⟩
  · exact .inl ⟨ce', List.mem_cons_of_mem ce hce', hrest⟩
  · exact .inr ⟨List.forall_mem_cons.mpr ⟨hce, hnone⟩, hl⟩

theorem Selects.congr {ra : RegAlloc} {ces : List CaseEntry} {d l : ℕ}
    (heq : ∀ val, caseTest E ra s' t ty val = caseTest E ra s t ty val)
    (h : Selects E ra s' t ty ces d l) : Selects E ra s t ty ces d l := by
  simpa only [Selects, heq] using h

/-- The code of the tests leads to the selected label. -/
theorem exec_dispatchCode (hty : ComparesSlot ty) (hf : f.nextTemp ≤ 2 ^ 31) (ht : 1 ≤ t)
    (ces : List CaseEntry) (d : ℕ) (htn : t < n) (hn : n + testCount ces ≤ f.nextTemp) (s : MState) :
    ∃ s' l, exec E ((dispatchCode t ty n ces d).flatMap (codegenInstr Γ f (regallocRun f))) s =
        some (s', .jump ((l : ℕ) : ℤ)) ∧ Selects E (regallocRun f) s t ty ces d l := by
  induction ces generalizing n s with
  | nil => exact ⟨s, d, rfl, .inr ⟨fun ce hce => absurd hce List.not_mem_nil, rfl⟩⟩
  | cons ce ces ih =>
    rw [testCount] at hn
    by_cases hdef : ce.isDefault = true
    · rw [if_pos hdef] at hn
      obtain ⟨s', l, hexec, hsel⟩ := ih htn hn s
      have hcode : dispatchCode t ty n (ce :: ces) d = dispatchCode t ty n ces d := by
        rw [dispatchCode, caseTests, if_pos hdef, dispatchCode]
      refine ⟨s', l, hcode ▸ hexec, hsel.cons fun hce => ?_⟩
      rw [hdef] at hce
      cases hce
    · rw [if_neg hdef] at hn
      let ra := regallocRun f
      let rest := (dispatchCode t ty (n + 1) ces d).flatMap (codegenInstr Γ f ra)
      have hcode : (dispatchCode t ty n (ce :: ces) d).flatMap (codegenInstr Γ f ra) =
          codegenInstr Γ f ra (caseEq (irvTemp t ty) ty n ce.val) ++
            (codegenInstr Γ f ra (caseJump n ce.labelId) ++ rest) := by
        rw [dispatchCode, caseTests, if_neg hdef]
        rfl
      obtain ⟨s₁, hrun, hmem₁, hrbp₁⟩ := runsTo_caseEq E Γ f ra s t hty n ce.val
      obtain ⟨s₂, hmem₂, hrbp₂, hjump⟩ := exec_caseJump E Γ f ra s₁ n ce.labelId rest
      have hslot : slotOf ra s₁ n = if caseTest E ra s t ty ce.val then 1 else 0 := by
        have hea : s₁.ea (ra.slot n) .rbp = s.ea (ra.slot n) .rbp := by
          rw [MState.ea, hrbp₁, MState.ea]
        rw [slotOf, hea, hmem₁, load_store_eight]
      have hexec := (hrun _).trans hjump
      rw [← hcode, hslot] at hexec
      by_cases htest : caseTest E ra s t ty ce.val = true
      · rw [if_pos htest, if_neg (by decide)] at hexec
        exact ⟨s₂, ce.labelId, hexec, .inl ⟨ce, List.mem_cons_self, Bool.eq_false_iff.mpr hdef,
          htest, rfl⟩⟩
      · rw [if_neg htest, if_pos rfl] at hexec
        obtain ⟨s', l, hexec', hsel⟩ := ih (htn.trans (Nat.lt_succ_self n)) (by omega) s₂
        -- the slot of the value is not the one that was written
        have hapart := slots_apart hf ht htn (show n < f.nextTemp by omega) s
        have hsame : ∀ val, caseTest E ra s₂ t ty val = caseTest E ra s t ty val :=
          caseTest_congr (hrbp₂.trans hrbp₁) (by
            rw [hmem₂, hmem₁, load_store_apart le_rfl hapart])
        exact ⟨s', l, hexec.trans hexec',
          (hsel.congr hsame).cons fun _ => Bool.eq_false_iff.mpr htest⟩

end

end TinyC
