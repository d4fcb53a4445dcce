import TinyC.Slots
import TinyC.Token

/-!
# Operator selection

What the code of an integer binary instruction leaves in its destination slot, as a
function of the words in its operand slots. Only comparisons consult the signedness of
their operands.
-/

namespace TinyC

def isComparison : TokenKind → Bool
  | .eq | .neq | .lt | .le | .gt | .ge => true
  | _ => false

/-- The high half `cqto` supplies. -/
def cqtoHigh (x : BitVec 64) : BitVec 64 := if x.msb then BitVec.allOnes 64 else 0

/-- The word left in the destination slot, from the words in the operand slots. -/
def machineBinop (op : IROp) (useUnsigned : Bool) (x y : BitVec 64) : Option (BitVec 64) :=
  match op with
  | .add => some (x + y)
  | .sub => some (x - y)
  | .mul => some (x * y)
  | .and => some (x &&& y)
  | .or => some (x ||| y)
  | .xor => some (x ^^^ y)
  | .shl => some (x <<< (y.toNat % 64))
  | .shr => some (x.sshiftRight (y.toNat % 64))
  | .div => (idivq (cqtoHigh x) x y).map Prod.fst
  | .mod => (idivq (cqtoHigh x) x y).map Prod.snd
  | op => some (if (cmpCond useUnsigned op).holds ⟨x == y, x.ult y, x.slt y⟩ then 1 else 0)

/-- The instruction `gen_expr` emits for a binary operator on temps. -/
def binopInstr (tk : TokenKind) (T dstTy : CType) (td t1 t2 : ℕ) : IRInstr :=
  { op := tokToIrBinop tk, dst := irvTemp td dstTy, src1 := irvTemp t1 T, src2 := irvTemp t2 T }

/-- What the exit state says about the destination. -/
def result (ra : RegAlloc) (td : ℕ) (p : MState × Exit) : BitVec 64 × Exit := (slotOf ra p.1 td, p.2)

section Exec

variable (E : Env) (Γ : TypeEnv) (f : IRFunc) (ra : RegAlloc) (s : MState)

private theorem exec_operands (T : CType) (t1 t2 : ℕ) (is : List Instr) :
    exec E (loadReg ra (irvTemp t1 T) .rax ++ (loadReg ra (irvTemp t2 T) .rcx ++ is)) s =
      exec E is ((s.setReg .rax (slotOf ra s t1)).setReg .rcx (slotOf ra s t2)) := by
  have hslot := slotOf_setReg ra s (r := .rax) (slotOf ra s t1) t2 (by decide)
  rw [irvTemp, exec_loadReg, irvTemp, exec_loadReg, hslot]

private theorem result_storeReg (td : ℕ) (ty : CType) (r : Reg) (s' : MState) :
    (exec E (storeReg ra (irvTemp td ty) r) s').map (result ra td) = some (s'.reg r, .fall) := by
  rw [irvTemp, exec_storeReg_end, Option.map_some, result, slotOf_setSlot_self]

private theorem get_rcx (s' : MState) : s'.get E .quad (.reg .rcx) = s'.reg .rcx :=
  ByteMemory.zeroExt_eight _

private theorem operands_rax (x y : BitVec 64) :
    ((s.setReg .rax x).setReg .rcx y).reg .rax = x := by
  rw [setReg_reg_of_ne _ _ (by decide), setReg_reg_self]

theorem binaryInstr_step {op : IROp} {i : Instr} (hi : binaryInstr op = some i)
    (x y : BitVec 64) (u : Bool) :
    ∃ v, machineBinop op u x y = some v ∧ i.step E ((s.setReg .rax x).setReg .rcx y) =
      some (((s.setReg .rax x).setReg .rcx y).setReg .rax v) := by
  cases op <;> simp only [binaryInstr, Option.some.injEq, reduceCtorEq] at hi <;> subst hi <;>
    refine ⟨_, rfl, ?_⟩ <;>
    simp only [Instr.step, AluOp.eval, get_rcx, operands_rax, setReg_reg_self]

private theorem result_binary {op : IROp} {i : Instr} (hi : binaryInstr op = some i) (td : ℕ)
    (T : CType) (t1 t2 : ℕ) (u : Bool) :
    (exec E (loadReg ra (irvTemp t1 T) .rax ++ (loadReg ra (irvTemp t2 T) .rcx ++
      (i :: storeReg ra (irvTemp td T) .rax))) s).map (result ra td) =
      (machineBinop op u (slotOf ra s t1) (slotOf ra s t2)).map (·, .fall) := by
  obtain ⟨v, hv, hstep⟩ := binaryInstr_step E s hi (slotOf ra s t1) (slotOf ra s t2) u
  rw [exec_operands, exec_cons hstep, result_storeReg, setReg_reg_self, hv, Option.map_some]

/-- `cqto` stands between the two loads, so `%rdx` is set when the divisor is read. -/
private theorem exec_division (T : CType) (t1 t2 : ℕ) (is : List Instr) :
    exec E (loadReg ra (irvTemp t1 T) .rax ++ (.cqto :: (loadReg ra (irvTemp t2 T) .rcx ++ is))) s =
      exec E is (((s.setReg .rax (slotOf ra s t1)).setReg .rdx (cqtoHigh (slotOf ra s t1))).setReg
        .rcx (slotOf ra s t2)) := by
  have hcqto : Instr.cqto.step E (s.setReg .rax (slotOf ra s t1)) =
      some ((s.setReg .rax (slotOf ra s t1)).setReg .rdx (cqtoHigh (slotOf ra s t1))) := by
    rw [Instr.step, setReg_reg_self, cqtoHigh]
  have hslot := slotOf_setReg ra (s.setReg .rax (slotOf ra s t1)) (r := .rdx)
    (cqtoHigh (slotOf ra s t1)) t2 (by decide)
  have hslot' := slotOf_setReg ra s (r := .rax) (slotOf ra s t1) t2 (by decide)
  rw [irvTemp, exec_loadReg, exec_cons hcqto, irvTemp, exec_loadReg, hslot, hslot']

private theorem result_division (td : ℕ) (T : CType) (t1 t2 : ℕ) (rem : Bool) :
    (exec E (loadReg ra (irvTemp t1 T) .rax ++ (.cqto :: (loadReg ra (irvTemp t2 T) .rcx ++
      (.idiv .rcx :: storeReg ra (irvTemp td T) (if rem then .rdx else .rax))))) s).map
        (result ra td) =
      (idivq (cqtoHigh (slotOf ra s t1)) (slotOf ra s t1) (slotOf ra s t2)).map
        fun qr => (if rem then qr.2 else qr.1, .fall) := by
  rw [exec_division]
  generalize slotOf ra s t1 = x
  generalize slotOf ra s t2 = y
  set s' := ((s.setReg .rax x).setReg .rdx (cqtoHigh x)).setReg .rcx y with hs'
  have hdx : s'.reg .rdx = cqtoHigh x := by
    rw [hs', setReg_reg_of_ne _ _ (by decide), setReg_reg_self]
  have hax : s'.reg .rax = x := by
    rw [hs', setReg_reg_of_ne _ _ (by decide), setReg_reg_of_ne _ _ (by decide), setReg_reg_self]
  have hcx : s'.reg .rcx = y := by rw [hs', setReg_reg_self]
  cases hq : idivq (cqtoHigh x) x y with
  | none => simp [exec, Instr.step, hdx, hax, hcx, hq]
  | some qr =>
    have hstep : (Instr.idiv .rcx).step E s' =
        some ((s'.setReg .rax qr.1).setReg .rdx qr.2) := by
      rw [Instr.step, hdx, hax, hcx, hq, Option.map_some]
    rw [exec_cons hstep, result_storeReg, Option.map_some]
    cases rem with
    | true => rw [if_pos rfl, if_pos rfl, setReg_reg_self]
    | false =>
      simp only [Bool.false_eq_true, if_false]
      rw [setReg_reg_of_ne _ _ (by decide), setReg_reg_self]

private theorem result_comparison (td : ℕ) (T dstTy : CType) (t1 t2 : ℕ) (c : Cond) :
    (exec E (loadReg ra (irvTemp t1 T) .rax ++ (loadReg ra (irvTemp t2 T) .rcx ++
      (.cmp .rcx .rax :: .set c :: .movzx .byte (.reg .rax) .rax ::
        storeReg ra (irvTemp td dstTy) .rax))) s).map (result ra td) =
      some (if c.holds ⟨slotOf ra s t1 == slotOf ra s t2, (slotOf ra s t1).ult (slotOf ra s t2),
        (slotOf ra s t1).slt (slotOf ra s t2)⟩ then 1 else 0, .fall) := by
  rw [exec_operands]
  generalize slotOf ra s t1 = x
  generalize slotOf ra s t2 = y
  set s₁ := (s.setReg .rax x).setReg .rcx y with hs₁
  have hcmp : (Instr.cmp .rcx .rax).step E s₁ =
      some { s₁ with flags := ⟨x == y, x.ult y, x.slt y⟩ } := by
    rw [Instr.step, hs₁, operands_rax, setReg_reg_self]
  rw [exec_cons hcmp, exec_cons rfl, exec_cons rfl, result_storeReg, setReg_reg_self]
  generalize c.holds _ = b
  have hbyte := writeReg_byte_zeroExt { s₁ with flags := ⟨x == y, x.ult y, x.slt y⟩ } .rax
    (if b then 1 else 0)
  rw [MState.get, Width.bytes, hbyte]
  cases b <;> rfl

end Exec

/-- The operators the selection is about. -/
def binaryOperators : List TokenKind :=
  [.plus, .minus, .star, .slash, .percent, .amp, .pipe, .caret, .lshift, .rshift,
    .eq, .neq, .lt, .le, .gt, .ge]

section Code

variable (Γ : TypeEnv) (f : IRFunc) (ra : RegAlloc) {T : CType}
  (hT : isFpType (some T) = false) (dstTy : CType) (td t1 t2 : ℕ)

include hT

private theorem code_binary {tk : TokenKind} {i : Instr}
    (hi : binaryInstr (tokToIrBinop tk) = some i) :
    codegenInstr Γ f ra (binopInstr tk T T td t1 t2) =
      loadReg ra (irvTemp t1 T) .rax ++ (loadReg ra (irvTemp t2 T) .rcx ++
        (i :: storeReg ra (irvTemp td T) .rax)) := by
  have hTd : isFpType (irvTemp td T).type = false := hT
  generalize hop : tokToIrBinop tk = op at hi
  cases op <;> simp only [binaryInstr, Option.some.injEq, reduceCtorEq] at hi <;> subst hi <;>
    simp [codegenInstr, binopInstr, hop, hTd, binaryInstr]

private theorem code_comparison {tk : TokenKind} (htk : isComparison tk = true) :
    codegenInstr Γ f ra (binopInstr tk T dstTy td t1 t2) =
      loadReg ra (irvTemp t1 T) .rax ++ (loadReg ra (irvTemp t2 T) .rcx ++
        (.cmp .rcx .rax :: .set (cmpCond (typeIsUnsignedInteger T) (tokToIrBinop tk)) ::
          .movzx .byte (.reg .rax) .rax :: storeReg ra (irvTemp td dstTy) .rax)) := by
  have hT₁ : isFpType (irvTemp t1 T).type = false := hT
  have hT₂ : isFpType (irvTemp t2 T).type = false := hT
  have hu : isUnsigned (irvTemp t1 T).type = typeIsUnsignedInteger T := rfl
  have hu' : isUnsigned (irvTemp t2 T).type = typeIsUnsignedInteger T := rfl
  cases tk <;> simp only [isComparison, Bool.false_eq_true] at htk <;>
    simp [codegenInstr, binopInstr, tokToIrBinop, hT₁, hT₂, hu, hu']

private theorem code_division {tk : TokenKind} (htk : tk = .slash ∨ tk = .percent) :
    codegenInstr Γ f ra (binopInstr tk T T td t1 t2) =
      loadReg ra (irvTemp t1 T) .rax ++ (.cqto :: (loadReg ra (irvTemp t2 T) .rcx ++
        (.idiv .rcx :: storeReg ra (irvTemp td T) (if tk = .percent then .rdx else .rax)))) := by
  have hTd : isFpType (irvTemp td T).type = false := hT
  rcases htk with rfl | rfl <;> simp [codegenInstr, binopInstr, tokToIrBinop, hTd]

end Code

private theorem operator_cases {tk : TokenKind} (htk : tk ∈ binaryOperators) :
    (isComparison tk = false ∧ ∃ i, binaryInstr (tokToIrBinop tk) = some i) ∨
      isComparison tk = true ∨ tk = .slash ∨ tk = .percent := by
  cases tk <;> simp_all [binaryOperators, isComparison, tokToIrBinop, binaryInstr]

theorem machineBinop_comparison {tk : TokenKind} (htk : isComparison tk = true) (u : Bool)
    (x y : BitVec 64) :
    machineBinop (tokToIrBinop tk) u x y =
      some (if (cmpCond u (tokToIrBinop tk)).holds ⟨x == y, x.ult y, x.slt y⟩ then 1 else 0) := by
  cases tk <;> simp only [isComparison, Bool.false_eq_true] at htk <;> rfl

/-- The code of a binary instruction on integer temps, for every state it starts in. -/
theorem exec_binopInstr (E : Env) (Γ : TypeEnv) (f : IRFunc) (ra : RegAlloc) (s : MState)
    {tk : TokenKind} (htk : tk ∈ binaryOperators) {T : CType} (hT : isFpType (some T) = false)
    (dstTy : CType) (td t1 t2 : ℕ) :
    (exec E (codegenInstr Γ f ra
        (binopInstr tk T (if isComparison tk then dstTy else T) td t1 t2)) s).map (result ra td) =
      (machineBinop (tokToIrBinop tk) (typeIsUnsignedInteger T) (slotOf ra s t1)
        (slotOf ra s t2)).map (·, .fall) := by
  rcases operator_cases htk with ⟨hcmp, i, hi⟩ | hcmp | hdiv
  · rw [hcmp, if_neg (by simp), code_binary Γ f ra hT td t1 t2 hi]
    exact result_binary E ra s hi td T t1 t2 _
  · rw [hcmp, if_pos rfl, code_comparison Γ f ra hT dstTy td t1 t2 hcmp, result_comparison,
      machineBinop_comparison hcmp, Option.map_some]
  · have hcmp : isComparison tk = false := by rcases hdiv with rfl | rfl <;> rfl
    have hrem := result_division E ra s td T t1 t2 (tk = .percent)
    rw [hcmp, if_neg (by simp), code_division Γ f ra hT td t1 t2 hdiv]
    rcases hdiv with rfl | rfl
    · simpa [machineBinop, tokToIrBinop, Function.comp_def] using hrem
    · simpa [machineBinop, tokToIrBinop, Function.comp_def] using hrem

end TinyC
