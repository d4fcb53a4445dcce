import TinyC.CallLowering
import TinyC.Codegen
import Mathlib.Tactic.Ring

/-!
# Where arguments are

Where the caller's code leaves an argument and where the callee's code looks for it, read
off the emitted lines. Both follow one assignment, `locate`, made by a single pass over
the argument types.
-/

namespace TinyC

abbrev ArgReg := Reg ⊕ Xmm

/-- Stack offsets are relative to `%rsp` at the `callq`. -/
inductive ArgLoc where
  | regs (rs : List ArgReg)
  | stack (off : BitVec 64)
  deriving DecidableEq, Repr

/-! ### The assignment -/

/-- The registers of the eightbytes, in order. -/
def eightbyteRegs : List ABIClass → ℕ → ℕ → List ArgReg
  | [], _, _ => []
  | .integer :: cs, i, x => .inl (paramReg i) :: eightbyteRegs cs (i + 1) x
  | .sse :: cs, i, x => .inr (xmmReg x) :: eightbyteRegs cs i (x + 1)
  | _ :: cs, i, x => eightbyteRegs cs i x

/-- Does an argument go to the stack when `st` describes the ones before it? -/
def ArgState.spills (Γ : TypeEnv) (st : ArgState) (ty : CType) : Bool :=
  abiInMemory (abiClassify Γ ty) || !fitsRegs st.intRegsUsed st.sseRegsUsed (abiClassify Γ ty)

def locate (Γ : TypeEnv) (st : ArgState) (ty : CType) : ArgLoc :=
  if st.spills Γ ty then .stack (BitVec.ofInt 64 st.stackOffset)
  else .regs (eightbyteRegs (abiClassify Γ ty).classes st.intRegsUsed st.sseRegsUsed)

/-- The state before the first argument, the stack area starting at offset 0. -/
def startState (sret : Bool) : ArgState := ⟨if sret then 1 else 0, 0, 0⟩

/-! ### Reading the emitted lines -/

/-- The argument register an instruction writes. -/
def Instr.argDest : Instr → Option ArgReg
  | .mov _ _ (.reg r) | .movzx _ _ r | .movsx _ _ r | .movabs _ r | .lea _ r | .alu _ _ r =>
      if r ∈ paramRegs then some (.inl r) else none
  | .movsLoad _ _ _ x | .movToXmm _ _ x | .cvtsi2s _ _ x => some (.inr x)
  | _ => none

/-- The argument register an instruction stores to memory. -/
def Instr.argSource : Instr → Option ArgReg
  | .mov _ (.reg r) (.mem _ _) => if r ∈ paramRegs then some (.inl r) else none
  | .movsStore _ x _ _ => some (.inr x)
  | _ => none

/-- How far an instruction lowers `%rsp`. -/
def Instr.rspDrop : Instr → BitVec 64
  | .alu .sub (.imm v) .rsp => v
  | .alu .add (.imm v) .rsp => -v
  | .push _ => 8
  | _ => 0

def rspDrop (code : List Instr) : BitVec 64 := (code.map Instr.rspDrop).sum

def Instr.keepsRsp : Instr → Bool
  | .alu .sub _ .rsp | .alu .add _ .rsp | .push _ => false
  | _ => true

/-- Where the lines `frag` of one argument leave it, `post` being the lines between them and
the `callq`: at the top of the stack if they start by making room there. -/
def callerLoc (frag post : List Instr) : ArgLoc :=
  if frag.head?.all Instr.keepsRsp then .regs (frag.filterMap Instr.argDest)
  else .stack (rspDrop post)

/-- The stack address, relative to `%rbp`, that the lines of one parameter copy from. -/
def Instr.stackSource : Instr → Option ℤ
  | .lea (.mem off .rbp) .r10 => some off
  | _ => none

/-- Where the lines of one parameter look for it. The return address and the saved `%rbp`
lie between `%rbp` and the stack arguments. -/
def calleeLoc (code : List Instr) : ArgLoc :=
  match code.findSome? Instr.stackSource with
  | some off => .stack (BitVec.ofInt 64 (off - 16))
  | none => .regs (code.filterMap Instr.argSource)

/-- The scalar types other than `void` and `long double`, and the aggregates. -/
def Passable : CType → Prop
  | .scalar .void _ | .scalar .ldouble _ => False
  | .scalar _ _ | .pointer _ _ | .enum _ _ | .agg _ _ _ => True
  | _ => False

/-! ### The counts -/

section Counts

variable (Γ : TypeEnv)

theorem next_eq (st : ArgState) (ty : CType) :
    st.next Γ ty =
      if st.spills Γ ty then { st with stackOffset := st.stackOffset + stackBytes Γ ty }
      else { st with
        intRegsUsed := st.intRegsUsed + (abiClassify Γ ty).needs.1
        sseRegsUsed := st.sseRegsUsed + (abiClassify Γ ty).needs.2 } := by
  unfold ArgState.next ArgState.spills
  cases hmem : abiInMemory (abiClassify Γ ty) <;>
    cases hfit : fitsRegs st.intRegsUsed st.sseRegsUsed (abiClassify Γ ty) <;> simp [hmem, hfit]

/-- The register counts do not depend on where the stack area starts. -/
theorem foldl_next_shift (tys : List CType) (i x : ℕ) (off d : ℤ) :
    tys.foldl (ArgState.next Γ) ⟨i, x, off + d⟩ =
      { tys.foldl (ArgState.next Γ) ⟨i, x, off⟩ with
        stackOffset := (tys.foldl (ArgState.next Γ) ⟨i, x, off⟩).stackOffset + d } := by
  induction tys generalizing i x off with
  | nil => rfl
  | cons ty tys ih =>
    have hspills : (⟨i, x, off + d⟩ : ArgState).spills Γ ty = (⟨i, x, off⟩ : ArgState).spills Γ ty :=
      rfl
    simp only [List.foldl_cons, next_eq, hspills]
    cases h : (⟨i, x, off⟩ : ArgState).spills Γ ty with
    | true =>
      simp only [if_true]
      rw [show off + d + stackBytes Γ ty = off + stackBytes Γ ty + d by ring]
      exact ih _ _ _
    | false =>
      simp only [Bool.false_eq_true, if_false]
      exact ih _ _ _

/-- The counting fold of the caller follows the same steps. -/
theorem foldl_argRegs (tys : List CType) (st : ArgState) :
    tys.foldl (argRegs Γ) (st.intRegsUsed, st.sseRegsUsed) =
      ((tys.foldl (ArgState.next Γ) st).intRegsUsed,
        (tys.foldl (ArgState.next Γ) st).sseRegsUsed) := by
  induction tys generalizing st with
  | nil => rfl
  | cons ty tys ih =>
    have hstep : argRegs Γ (st.intRegsUsed, st.sseRegsUsed) ty =
        ((st.next Γ ty).intRegsUsed, (st.next Γ ty).sseRegsUsed) := by
      rw [next_eq]
      unfold argRegs ArgState.spills
      cases hmem : abiInMemory (abiClassify Γ ty) <;>
        cases hfit : fitsRegs st.intRegsUsed st.sseRegsUsed (abiClassify Γ ty) <;>
        simp [hmem, hfit]
    rw [List.foldl_cons, List.foldl_cons, hstep, ih]

end Counts

/-! ### Classes -/

theorem mergeAt_length (cs : List ABIClass) (eb : ℕ) (c : ABIClass) :
    (mergeAt cs eb c).length = cs.length := List.length_modify _ _ _

theorem foldl_length {α β : Type} {g : List β → α → List β}
    (hg : ∀ cs a, (g cs a).length = cs.length) (l : List α) (cs : List β) :
    (l.foldl g cs).length = cs.length := by
  induction l generalizing cs with
  | nil => rfl
  | cons a l ih => rw [List.foldl_cons, ih, hg]

theorem allMemory_length (cs : List ABIClass) : (allMemory cs).length = cs.length :=
  List.length_map _

theorem classifyRange_length (Γ : TypeEnv) (ty : CType) (off : ℤ) (cs : List ABIClass) :
    (classifyRange Γ ty off cs).length = cs.length := by
  induction hd : ty.depth Γ.rank using Nat.strong_induction_on generalizing ty off cs with
  | _ d ih =>
    unfold classifyRange
    dsimp only
    by_cases heb : cs.length ≤ (off / 8).toNat
    · split <;> rfl
    · simp only [if_neg heb]
      split <;> try simp only [mergeAt_length, allMemory_length]
      · exact foldl_length (fun cs i => ih _ (by rw [← hd]; simp [CType.depth]) _ _ _ rfl) _ _
      · rename_i id _
        have hmerged := foldl_length (fun cs (f : { f // f ∈ (Γ.agg id).fields }) =>
          ih _ (by rw [← hd]; exact Γ.contained id f.1 f.2) f.1.type (off + f.1.offset) cs rfl)
          (Γ.agg id).fields.attach cs
        split
        · exact allMemory_length _
        · split
          · exact allMemory_length _
          · split
            · rw [allMemory_length, hmerged]
            · exact hmerged

/-- The eightbytes of an aggregate passed in registers cover its size. -/
theorem eightbytes_lt_size {Γ : TypeEnv} {ty : CType} (hmem : abiInMemory (abiClassify Γ ty) = false)
    {j : ℕ} (hj : j < (abiClassify Γ ty).classes.length) : 8 * (j : ℤ) < typeSizeof Γ ty := by
  revert hj hmem
  unfold abiClassify
  simp only
  split
  · simp
  · split
    · simp [abiInMemory]
    · intro _ hj
      rw [classifyRange_length, List.length_replicate] at hj
      omega

theorem classes_of_scalar {Γ : TypeEnv} {ty : CType} (hp : Passable ty)
    (hagg : isAggregateType (some ty) = false) :
    (abiClassify Γ ty).classes = [.integer] ∨ (abiClassify Γ ty).classes = [.sse] := by
  cases ty with
  | scalar k q => cases k <;> first | exact hp.elim | exact Or.inl rfl | exact Or.inr rfl
  | pointer p q => exact Or.inl rfl
  | enum id q => exact Or.inl rfl
  | agg u id q => cases hagg
  | array e n q => exact hp.elim
  | arrayUnsized e q => exact hp.elim
  | func r ps v q => exact hp.elim

/-! ### The caller -/

section Caller

variable {Γ : TypeEnv} (ra : RegAlloc)

theorem paramReg_mem (i : ℕ) : paramReg i ∈ paramRegs := by
  unfold paramReg
  by_cases h : i < paramRegs.length
  · rw [List.getD_eq_getElem _ _ h]
    exact List.getElem_mem h
  · rw [List.getD_eq_default _ _ (by omega)]
    decide

theorem loadReg_dest {v : IRValue} (hv : v.kind ≠ .none) (i : ℕ) :
    (loadReg ra v (paramReg i)).filterMap Instr.argDest = [.inl (paramReg i)] := by
  have hmem := paramReg_mem i
  unfold loadReg
  cases h : v.kind <;> simp_all [Instr.argDest]

theorem loadReg_scratch {v : IRValue} {r : Reg} (hr : r ∉ paramRegs) :
    (loadReg ra v r).filterMap Instr.argDest = [] := by
  unfold loadReg
  cases v.kind <;> simp [Instr.argDest, hr]

theorem loadXmm_dest {v : IRValue} (hv : v.kind ≠ .none) (x : Xmm) :
    (loadXmm ra v x).filterMap Instr.argDest = [.inr x] := by
  have hrax : Reg.rax ∉ paramRegs := by decide
  unfold loadXmm
  cases h : v.kind with
  | none => exact absurd h hv
  | temp t => rfl
  | constInt c => simp [Instr.argDest, hrax]
  | constFloat c => cases isDoubleType v.type <;> simp [Instr.argDest, hrax]
  | global name => simp [Instr.argDest, hrax]

theorem emitLoadEightbyte_dest (base : Reg) (off rem : ℤ) (i : ℕ) :
    (emitLoadEightbyteFromMem base off rem (paramReg i)).filterMap Instr.argDest =
      [.inl (paramReg i)] := by
  have hmem := paramReg_mem i
  unfold emitLoadEightbyteFromMem
  split
  · simp [Instr.argDest, hmem]
  · split
    · simp [Instr.argDest, hmem]
    · split <;> simp [Instr.argDest, hmem]

theorem loadEightbytes_dest (size : ℤ) (cs : List ABIClass) (j i x : ℕ) :
    (loadEightbytes size cs j i x).filterMap Instr.argDest = eightbyteRegs cs i x := by
  induction cs generalizing j i x with
  | nil => rfl
  | cons c cs ih =>
    cases c <;> simp [loadEightbytes, eightbyteRegs, emitLoadEightbyte_dest, Instr.argDest, ih]

theorem isAggregateType_argType (a : IRValue) :
    isAggregateType a.type = isAggregateType (some (argType a)) := by
  unfold argType
  cases a.type <;> rfl

theorem loadRegArg_dest {a : IRValue} (hp : Passable (argType a)) (hv : a.kind ≠ .none)
    (used : ℕ × ℕ) :
    (loadRegArg Γ ra used a).filterMap Instr.argDest =
      eightbyteRegs (abiClassify Γ (argType a)).classes used.1 used.2 := by
  unfold loadRegArg
  rw [isAggregateType_argType]
  cases h : isAggregateType (some (argType a)) with
  | true =>
    simp [loadReg_scratch ra (v := a) (r := .r11) (by decide), loadEightbytes_dest]
  | false =>
    rcases classes_of_scalar (Γ := Γ) hp h with hc | hc
    · simp [hc, loadReg_dest ra hv, eightbyteRegs]
    · simp [hc, loadXmm_dest ra hv, eightbyteRegs]

/-- The third pass adds what the counting pass adds. -/
theorem loadRegArgUse_eq {a : IRValue} (hp : Passable (argType a)) :
    loadRegArgUse Γ a = (abiClassify Γ (argType a)).needs := by
  unfold loadRegArgUse
  rw [isAggregateType_argType]
  cases h : isAggregateType (some (argType a)) with
  | true => simp
  | false =>
    rcases classes_of_scalar (Γ := Γ) hp h with hc | hc <;>
      simp [hc, ABIClassification.needs]

/-- The state before an argument, the arguments before it being `before`. -/
def stateBefore (Γ : TypeEnv) (sret : Bool) (before : List IRValue) : ArgState :=
  (before.map argType).foldl (ArgState.next Γ) (startState sret)

theorem stateBefore_append (sret : Bool) (before : List IRValue) (a : IRValue) :
    stateBefore Γ sret (before ++ [a]) = (stateBefore Γ sret before).next Γ (argType a) := by
  simp [stateBefore]

theorem argRegs_stateBefore (sret : Bool) (before : List IRValue) :
    (before.map argType).foldl (argRegs Γ) (sretRegs sret) =
      ((stateBefore Γ sret before).intRegsUsed, (stateBefore Γ sret before).sseRegsUsed) :=
  foldl_argRegs Γ (before.map argType) (startState sret)

/-- The push pass sends an argument to the stack exactly when the assignment does. -/
theorem goesToStack_eq (sret : Bool) (before : List IRValue) (a : IRValue) :
    goesToStack Γ sret before a = (stateBefore Γ sret before).spills Γ (argType a) := by
  unfold goesToStack ArgState.spills fitsRegs
  rw [argRegs_stateBefore]
  by_cases hmem : abiInMemory (abiClassify Γ (argType a)) = true
  · simp [hmem]
  · simp only [hmem]
    grind

/-- The lines that put one argument in place. -/
def argCode (Γ : TypeEnv) (ra : RegAlloc) (sret : Bool) (before : List IRValue) (a : IRValue) :
    List Instr :=
  if goesToStack Γ sret before a then pushArg Γ ra sret before a
  else loadRegArg Γ ra ((stateBefore Γ sret before).intRegsUsed,
    (stateBefore Γ sret before).sseRegsUsed) a

theorem pushArgs_append (sret : Bool) (before xs ys : List IRValue) :
    pushArgs Γ ra sret before (xs ++ ys) =
      pushArgs Γ ra sret (before ++ xs) ys ++ pushArgs Γ ra sret before xs := by
  induction xs generalizing before with
  | nil => simp [pushArgs]
  | cons a xs ih => simp [pushArgs, ih]

/-- What the third pass has emitted and counted when it comes to argument `a`. -/
theorem loadRegArgs_append (used : ArgState) (xs ys : List IRValue)
    (hp : ∀ a ∈ xs, Passable (argType a)) :
    ∃ pre, (loadRegArgs Γ ra (used.intRegsUsed, used.sseRegsUsed) (xs ++ ys)).1 =
      pre ++ (loadRegArgs Γ ra (((xs.map argType).foldl (ArgState.next Γ) used).intRegsUsed,
        ((xs.map argType).foldl (ArgState.next Γ) used).sseRegsUsed) ys).1 := by
  induction xs generalizing used with
  | nil => exact ⟨[], rfl⟩
  | cons a xs ih =>
    have hrest : ∀ b ∈ xs, Passable (argType b) := fun b hb => hp b (List.mem_cons_of_mem a hb)
    obtain ⟨pre, hpre⟩ := ih (used.next Γ (argType a)) hrest
    simp only [List.cons_append, loadRegArgs, List.map_cons, List.foldl_cons]
    rw [← ArgState.spills]
    by_cases h : used.spills Γ (argType a) = true
    · refine ⟨pre, ?_⟩
      rw [if_pos h, ← hpre, next_eq, if_pos h]
    · refine ⟨loadRegArg Γ ra (used.intRegsUsed, used.sseRegsUsed) a ++ pre, ?_⟩
      rw [if_neg h, loadRegArgUse_eq (hp a List.mem_cons_self), List.append_assoc, ← hpre,
        next_eq, if_neg h]

theorem rspDrop_append (xs ys : List Instr) : rspDrop (xs ++ ys) = rspDrop xs + rspDrop ys := by
  simp [rspDrop]

theorem rspDrop_of_keepsRsp {code : List Instr} (h : code.all Instr.keepsRsp = true) :
    rspDrop code = 0 := by
  induction code with
  | nil => rfl
  | cons i code ih =>
    rw [List.all_cons, Bool.and_eq_true] at h
    obtain ⟨hi, hcode⟩ := h
    have hzero : i.rspDrop = 0 := by
      unfold Instr.rspDrop
      split
      · cases hi
      · cases hi
      · cases hi
      · rfl
    have hrest := ih hcode
    simp only [rspDrop, List.map_cons, List.sum_cons] at hrest ⊢
    rw [hrest, hzero]
    rfl

theorem loadReg_keepsRsp (v : IRValue) (r : Reg) : (loadReg ra v r).all Instr.keepsRsp = true := by
  unfold loadReg
  cases v.kind <;> rfl

theorem loadXmm_keepsRsp (v : IRValue) (x : Xmm) : (loadXmm ra v x).all Instr.keepsRsp = true := by
  unfold loadXmm
  cases v.kind <;> try rfl
  cases isDoubleType v.type <;> rfl

theorem emitCopyBytes_keepsRsp (dst src : Reg) (size : ℤ) :
    (emitCopyBytes dst src size).all Instr.keepsRsp = true := by
  have hchunk : ∀ w off, (copyChunk w dst src off).all Instr.keepsRsp = true := fun _ _ => rfl
  have hif : ∀ (p : Prop) [Decidable p] (w : Width) (off : ℤ),
      (if p then copyChunk w dst src off else []).all Instr.keepsRsp = true := by
    intro p _ w off
    split <;> rfl
  unfold emitCopyBytes
  simp only [List.all_append, hif, List.all_flatMap, hchunk, Bool.and_true, List.all_eq_true,
    implies_true]

theorem loadEightbytes_keepsRsp (size : ℤ) (cs : List ABIClass) (j i x : ℕ) :
    (loadEightbytes size cs j i x).all Instr.keepsRsp = true := by
  have hemit : ∀ off rem r,
      (emitLoadEightbyteFromMem .r11 off rem r).all Instr.keepsRsp = true := by
    intro off rem r
    unfold emitLoadEightbyteFromMem
    split
    · rfl
    · split
      · rfl
      · split <;> rfl
  induction cs generalizing j i x with
  | nil => rfl
  | cons c cs ih => cases c <;> simp [loadEightbytes, ih, hemit, Instr.keepsRsp]

theorem loadRegArg_keepsRsp (used : ℕ × ℕ) (a : IRValue) :
    (loadRegArg Γ ra used a).all Instr.keepsRsp = true := by
  unfold loadRegArg
  dsimp only
  split
  · rw [List.all_append, loadReg_keepsRsp, loadEightbytes_keepsRsp]
    rfl
  · split
    · exact loadXmm_keepsRsp ra a _
    · exact loadReg_keepsRsp ra a _

theorem loadRegArgs_keepsRsp (used : ℕ × ℕ) (args : List IRValue) :
    (loadRegArgs Γ ra used args).1.all Instr.keepsRsp = true := by
  induction args generalizing used with
  | nil => rfl
  | cons a args ih =>
    unfold loadRegArgs
    dsimp only
    split
    · exact ih used
    · rw [List.all_append, loadRegArg_keepsRsp, ih]
      rfl

/-- The lines after the register pass leave `%rsp` alone. -/
theorem callTail_keepsRsp (ins : IRInstr) (n : ℕ) :
    (callTail ra ins n).all Instr.keepsRsp = true := by
  unfold callTail
  split <;> split <;> simp [Instr.keepsRsp, loadReg_keepsRsp]

theorem rspDrop_pushArg (sret : Bool) (before : List IRValue) (a : IRValue) :
    rspDrop (pushArg Γ ra sret before a) =
      if goesToStack Γ sret before a then BitVec.ofInt 64 (stackBytes Γ (argType a)) else 0 := by
  unfold pushArg
  split
  · rw [show ∀ i : Instr, ∀ is, rspDrop (i :: is) = i.rspDrop + rspDrop is from fun _ _ => rfl]
    rw [rspDrop_of_keepsRsp]
    · exact BitVec.add_zero _
    · split
      · rw [List.all_append, loadReg_keepsRsp, emitCopyBytes_keepsRsp]
        rfl
      · rw [List.all_append, loadReg_keepsRsp]
        rfl
  · rfl

/-- Pushing the arguments before `a` lowers `%rsp` to `a`'s offset. -/
theorem rspDrop_pushArgs (sret : Bool) (args : List IRValue) :
    rspDrop (pushArgs Γ ra sret [] args) =
      BitVec.ofInt 64 (stateBefore Γ sret args).stackOffset := by
  induction args using List.reverseRecOn with
  | nil => cases sret <;> rfl
  | append_singleton args a ih =>
    rw [pushArgs_append, rspDrop_append, ih, stateBefore_append, next_eq]
    simp only [List.nil_append, pushArgs]
    rw [rspDrop_pushArg, goesToStack_eq]
    by_cases h : (stateBefore Γ sret args).spills Γ (argType a) = true
    · rw [if_pos h, if_pos h, BitVec.ofInt_add, BitVec.add_comm]
    · rw [if_neg h, if_neg h]
      exact BitVec.zero_add _

private theorem callerLoc_pushArg {sret : Bool} {before : List IRValue} {a : IRValue}
    (h : goesToStack Γ sret before a = true) (post : List Instr) :
    callerLoc (pushArg Γ ra sret before a) post = .stack (rspDrop post) := by
  unfold pushArg
  rw [if_pos h]
  rfl

private theorem callerLoc_regs {code : List Instr} (h : code.all Instr.keepsRsp = true)
    (post : List Instr) : callerLoc code post = .regs (code.filterMap Instr.argDest) := by
  unfold callerLoc
  rw [if_pos]
  cases code with
  | nil => rfl
  | cons i code =>
    rw [List.all_cons, Bool.and_eq_true] at h
    exact h.1

/-- The code of the arguments before, at and after `a`, and where `a` is at the `callq`. -/
theorem callSetup_split (ins : IRInstr) {xs ys : List IRValue} {a : IRValue}
    (hargs : ins.callArgs = xs ++ a :: ys) (hp : ∀ b ∈ ins.callArgs, Passable (argType b))
    (hv : a.kind ≠ .none) :
    ∃ pre post, callSetup Γ ra ins = pre ++ argCode Γ ra ins.callSret xs a ++ post ∧
      callerLoc (argCode Γ ra ins.callSret xs a) post =
        locate Γ (stateBefore Γ ins.callSret xs) (argType a) := by
  have hpxs : ∀ b ∈ xs, Passable (argType b) := fun b hb => hp b (by rw [hargs]; simp [hb])
  have hpa : Passable (argType a) := hp a (by rw [hargs]; simp)
  have hpush : pushArgs Γ ra ins.callSret [] (xs ++ a :: ys) =
      pushArgs Γ ra ins.callSret (xs ++ [a]) ys ++ pushArg Γ ra ins.callSret xs a ++
        pushArgs Γ ra ins.callSret [] xs := by
    rw [pushArgs_append]
    rfl
  obtain ⟨loads, hloads⟩ := loadRegArgs_append (Γ := Γ) ra (startState ins.callSret) xs (a :: ys) hpxs
  have hused : ((startState ins.callSret).intRegsUsed, (startState ins.callSret).sseRegsUsed) =
      sretRegs ins.callSret := rfl
  rw [hused, ← stateBefore] at hloads
  unfold callSetup argCode locate
  dsimp only
  rw [hargs, hpush, goesToStack_eq]
  by_cases h : (stateBefore Γ ins.callSret xs).spills Γ (argType a) = true
  · have hstack : goesToStack Γ ins.callSret xs a = true := by rw [goesToStack_eq, h]
    rw [if_pos h, if_pos h]
    refine ⟨callAlign Γ ra ins ++ pushArgs Γ ra ins.callSret (xs ++ [a]) ys,
      pushArgs Γ ra ins.callSret [] xs ++
        ((loadRegArgs Γ ra (sretRegs ins.callSret) (xs ++ a :: ys)).1 ++
          callTail ra ins (loadRegArgs Γ ra (sretRegs ins.callSret) (xs ++ a :: ys)).2.2),
      by simp only [List.append_assoc], ?_⟩
    rw [callerLoc_pushArg ra hstack, rspDrop_append, rspDrop_append, rspDrop_pushArgs,
      rspDrop_of_keepsRsp (loadRegArgs_keepsRsp ra _ _), rspDrop_of_keepsRsp (callTail_keepsRsp ra _ _)]
    simp
  · have hcons : loadRegArgs Γ ra ((stateBefore Γ ins.callSret xs).intRegsUsed,
        (stateBefore Γ ins.callSret xs).sseRegsUsed) (a :: ys) =
        (loadRegArg Γ ra ((stateBefore Γ ins.callSret xs).intRegsUsed,
          (stateBefore Γ ins.callSret xs).sseRegsUsed) a ++ _, _) := if_neg h
    rw [if_neg h, if_neg h, hloads, hcons]
    refine ⟨callAlign Γ ra ins ++ pushArgs Γ ra ins.callSret (xs ++ [a]) ys ++
      pushArg Γ ra ins.callSret xs a ++ pushArgs Γ ra ins.callSret [] xs ++ loads, _,
      by simp only [List.append_assoc]; rfl, ?_⟩
    rw [callerLoc_regs (loadRegArg_keepsRsp ra _ _), loadRegArg_dest ra hpa hv]

end Caller

/-! ### The callee -/

section Callee

variable {Γ : TypeEnv} (ra : RegAlloc)

theorem emitStoreEightbyte_source {base : Reg} {off rem : ℤ} (hrem : 1 ≤ rem) (i : ℕ) :
    (emitStoreEightbyteToMem base off rem (paramReg i)).filterMap Instr.argSource =
      [.inl (paramReg i)] := by
  have hmem := paramReg_mem i
  unfold emitStoreEightbyteToMem
  rw [if_pos hrem]
  split
  · simp [Instr.argSource, hmem]
  · split
    · simp [Instr.argSource, hmem]
    · split <;> simp [Instr.argSource, hmem]

theorem emitStoreChunk_source (base : Reg) (off rem : ℤ) (i : ℕ) :
    (emitStoreChunk base off rem (paramReg i)).filterMap Instr.argSource = [.inl (paramReg i)] := by
  have hmem := paramReg_mem i
  unfold emitStoreChunk
  split
  · simp [Instr.argSource, hmem]
  · split
    · simp [Instr.argSource, hmem]
    · split <;> simp [Instr.argSource, hmem]

/-- The eightbytes that are left lie within the parameter's size. -/
theorem captureEightbytes_source (slot : ℤ) {size : ℤ} (toAddr : Bool) (cs : List ABIClass)
    (j i x : ℕ) (hsize : ∀ k < cs.length, 8 * ((j + k : ℕ) : ℤ) < size) :
    (captureEightbytes slot size toAddr cs j i x).filterMap Instr.argSource =
      eightbyteRegs cs i x := by
  induction cs generalizing j i x with
  | nil => rfl
  | cons c cs ih =>
    have hfirst : 1 ≤ size - 8 * (j : ℤ) := by
      have := hsize 0 (by simp)
      omega
    have hrest : ∀ k < cs.length, 8 * ((j + 1 + k : ℕ) : ℤ) < size := by
      intro k hk
      have := hsize (k + 1) (by simpa using hk)
      omega
    cases c with
    | integer =>
      cases toAddr <;>
        simp [captureEightbytes, eightbyteRegs, emitStoreEightbyte_source hfirst,
          emitStoreChunk_source, ih _ _ _ hrest]
    | sse => simp [captureEightbytes, eightbyteRegs, Instr.argSource, ih _ _ _ hrest]
    | _ => simp [captureEightbytes, eightbyteRegs, ih _ _ _ hrest]

theorem captureEightbytes_stackSource (slot size : ℤ) (toAddr : Bool) (cs : List ABIClass)
    (j i x : ℕ) :
    (captureEightbytes slot size toAddr cs j i x).findSome? Instr.stackSource = none := by
  have hmem : ∀ off rem r,
      (emitStoreEightbyteToMem .r11 off rem r).findSome? Instr.stackSource = none := by
    intro off rem r
    unfold emitStoreEightbyteToMem
    split
    · rfl
    · split
      · rfl
      · split
        · rfl
        · split <;> rfl
  have hchunk : ∀ off rem r, (emitStoreChunk .rbp off rem r).findSome? Instr.stackSource = none := by
    intro off rem r
    unfold emitStoreChunk
    split
    · rfl
    · split
      · rfl
      · split <;> rfl
  induction cs generalizing j i x with
  | nil => rfl
  | cons c cs ih =>
    cases c with
    | integer =>
      cases toAddr <;> simp [captureEightbytes, List.findSome?_append, hmem, hchunk, ih]
    | sse =>
      rw [captureEightbytes, List.findSome?_cons]
      exact ih _ _ _
    | _ => simp [captureEightbytes, ih]

theorem computeArgState_eq (f : IRFunc) (idx : ℕ) :
    computeArgState Γ f idx =
      let st := ((f.params.take idx).map Prod.snd).foldl (ArgState.next Γ)
        (startState (abiInMemory (abiClassify Γ f.retType)))
      { st with stackOffset := st.stackOffset + 16 } :=
  foldl_next_shift Γ _ _ 0 0 16

theorem calleeLoc_captureFromStack (dst : IRValue) (hdst : ∃ t ty, dst = irvTemp t ty)
    (slot size off : ℤ) (toAddr : Bool) :
    calleeLoc (captureFromStack ra dst slot size off toAddr) =
      .stack (BitVec.ofInt 64 (off - 16)) := by
  obtain ⟨t, ty, rfl⟩ := hdst
  cases toAddr <;> rfl

theorem calleeLoc_captureRegs {pre code : List Instr} {rs : List ArgReg}
    (hpre : pre.findSome? Instr.stackSource = none) (hpre' : pre.filterMap Instr.argSource = [])
    (hcode : code.findSome? Instr.stackSource = none) (hrs : code.filterMap Instr.argSource = rs) :
    calleeLoc (pre ++ code) = .regs rs := by
  unfold calleeLoc
  rw [List.findSome?_append, hpre, hcode]
  simp only [Option.or_self, List.filterMap_append, hpre', hrs, List.nil_append]

/-- Where the callee looks for parameter `idx`. -/
theorem calleeLoc_paramCopy (f : IRFunc) (idx : ℕ) (pty : CType) (addr t : ℕ) :
    calleeLoc (codegenInstr Γ f ra (paramCopy idx pty addr t)) =
      locate Γ (((f.params.take idx).map Prod.snd).foldl (ArgState.next Γ)
        (startState (abiInMemory (abiClassify Γ f.retType)))) pty := by
  have hstate := computeArgState_eq (Γ := Γ) f idx
  set st := ((f.params.take idx).map Prod.snd).foldl (ArgState.next Γ)
    (startState (abiInMemory (abiClassify Γ f.retType))) with hst
  obtain ⟨toAddr, dty, tid, hto, hcode⟩ : ∃ toAddr dty tid,
      toAddr = isAggregateType (some pty) ∧
      codegenInstr Γ f ra (paramCopy idx pty addr t) =
        if abiInMemory (abiClassify Γ pty) then
          captureFromStack ra (irvTemp tid dty) (ra.slot tid) (typeSizeof Γ pty) (st.stackOffset + 16)
            toAddr
        else if fitsRegs st.intRegsUsed st.sseRegsUsed (abiClassify Γ pty) then
          (if toAddr then loadReg ra (irvTemp tid dty) .r11 else []) ++
            captureEightbytes (ra.slot tid) (typeSizeof Γ pty) toAddr (abiClassify Γ pty).classes 0
              st.intRegsUsed st.sseRegsUsed
        else captureFromStack ra (irvTemp tid dty) (ra.slot tid) (typeSizeof Γ pty)
          (st.stackOffset + 16) toAddr := by
    cases hagg : isAggregateType (some pty) with
    | true =>
      refine ⟨true, typePointer pty .none, addr, rfl, ?_⟩
      simp [codegenInstr, paramCopy, hagg, irvNone, codegenParam, hstate, irvTemp]
    | false =>
      refine ⟨false, pty, t, rfl, ?_⟩
      have hnone : isAggregateType none = false := rfl
      simp [codegenInstr, paramCopy, hagg, irvNone, codegenParam, hstate, irvTemp, hnone]
  have hoff : st.stackOffset + 16 - 16 = st.stackOffset := by ring
  rw [hcode, locate, ArgState.spills]
  by_cases hmem : abiInMemory (abiClassify Γ pty) = true
  · rw [if_pos hmem, calleeLoc_captureFromStack ra _ ⟨_, _, rfl⟩, hoff, hmem]
    rfl
  · by_cases hfit : fitsRegs st.intRegsUsed st.sseRegsUsed (abiClassify Γ pty) = true
    · have hmem' : abiInMemory (abiClassify Γ pty) = false := by simpa using hmem
      rw [if_neg hmem, if_pos hfit, hmem', hfit]
      apply calleeLoc_captureRegs
      · cases toAddr <;> rfl
      · cases toAddr <;> rfl
      · exact captureEightbytes_stackSource _ _ _ _ _ _ _
      · apply captureEightbytes_source
        intro k hk
        simpa using eightbytes_lt_size hmem' hk
    · have hmem' : abiInMemory (abiClassify Γ pty) = false := by simpa using hmem
      have hfit' : fitsRegs st.intRegsUsed st.sseRegsUsed (abiClassify Γ pty) = false := by
        simpa using hfit
      rw [if_neg hmem, if_neg hfit, calleeLoc_captureFromStack ra _ ⟨_, _, rfl⟩, hoff, hmem', hfit']
      rfl

end Callee

/-- Caller and callee agree on where every argument is. The callee `f` has the type the call
was made through; argument `a` is at the position of parameter `idx`. -/
theorem caller_callee_agree (Γ : TypeEnv) (ra raf : RegAlloc) (caller f : IRFunc) (ret : CType)
    (ps : FuncParams) (variadic : Bool) (q : TypeQual)
    (hf : f.funcType = some (.func ret ps variadic q)) (dst callee : IRValue)
    {xs ys : List IRValue} {a : IRValue}
    (htypes : (xs ++ a :: ys).map argType = ps.toList.map Prod.snd)
    (hp : ∀ p ∈ ps.toList, Passable p.2) (hv : ∀ b ∈ xs ++ a :: ys, b.kind ≠ .none) (addr t : ℕ) :
    let ins := irCall Γ dst callee (xs ++ a :: ys) ret
    ∃ pre post, codegenInstr Γ caller ra ins = pre ++ argCode Γ ra ins.callSret xs a ++ post ++
        callInstr ins :: (callCleanup Γ ra ins ++ storeCallResult Γ ra ins) ∧
      callerLoc (argCode Γ ra ins.callSret xs a) post =
        calleeLoc (codegenInstr Γ f raf (paramCopy xs.length (argType a) addr t)) := by
  intro ins
  have hret : f.retType = ret := by rw [IRFunc.retType, hf]
  have hparams : f.params = ps.toList := by rw [IRFunc.params, hf]
  have hpass : ∀ b ∈ ins.callArgs, Passable (argType b) := by
    intro b hb
    have hmem : argType b ∈ ps.toList.map Prod.snd := htypes ▸ List.mem_map_of_mem hb
    obtain ⟨p, hp', heq⟩ := List.mem_map.mp hmem
    exact heq ▸ hp p hp'
  obtain ⟨pre, post, hcode, hloc⟩ := callSetup_split (Γ := Γ) ra ins (a := a) rfl hpass
    (hv a (by simp))
  have hbefore : (f.params.take xs.length).map Prod.snd = xs.map argType := by
    rw [hparams, List.map_take, ← htypes]
    simp
  refine ⟨pre, post, ?_, ?_⟩
  · have hcall : codegenInstr Γ caller ra ins = codegenCall Γ ra ins := rfl
    rw [hcall, codegenCall, hcode]
    simp only [List.append_assoc, List.cons_append, List.nil_append]
  · rw [hloc, calleeLoc_paramCopy, hbefore, hret]
    rfl

/-- The parameters of `void f(double, long, long, long, long, long, long, long)`: the last
one does not fit the registers. -/
def spillingParams : FuncParams :=
  .cons none typeDouble <| .cons none typeLong <| .cons none typeLong <| .cons none typeLong <|
    .cons none typeLong <| .cons none typeLong <| .cons none typeLong <| .cons none typeLong .nil

def spillingFunc : IRFunc :=
  { name := "f", funcType := some (.func typeVoid spillingParams false .none) }

def spillingArgs : List IRValue :=
  irvFloat 0 typeDouble :: (List.range 6).map fun t => irvTemp (t + 1) typeLong

theorem spilled_argument_found :
    let ins := irCall .empty (irvTemp 9 typeVoid) (irvGlobal "f" typeVoid)
      (spillingArgs ++ [irvTemp 7 typeLong]) typeVoid
    ∃ pre post, codegenInstr .empty spillingFunc (regallocRun spillingFunc) ins =
        pre ++ argCode .empty (regallocRun spillingFunc) ins.callSret spillingArgs
          (irvTemp 7 typeLong) ++ post ++
        callInstr ins :: (callCleanup .empty (regallocRun spillingFunc) ins ++
          storeCallResult .empty (regallocRun spillingFunc) ins) ∧
      callerLoc (argCode .empty (regallocRun spillingFunc) ins.callSret spillingArgs
          (irvTemp 7 typeLong)) post =
        calleeLoc (codegenInstr .empty spillingFunc (regallocRun spillingFunc)
          (paramCopy 7 typeLong 1 2)) :=
  caller_callee_agree .empty (regallocRun spillingFunc) (regallocRun spillingFunc) spillingFunc
    spillingFunc typeVoid spillingParams false .none rfl (irvTemp 9 typeVoid)
    (irvGlobal "f" typeVoid) (a := irvTemp 7 typeLong)
    (show (spillingArgs ++ irvTemp 7 typeLong :: []).map argType = spillingParams.toList.map Prod.snd
      from rfl)
    (by simp [spillingParams, FuncParams.toList, typeDouble, typeLong, Passable])
    (by decide) 1 2

/-- The eighth parameter lies right above the return address and the saved `%rbp`. -/
example : calleeLoc (codegenInstr .empty spillingFunc (regallocRun spillingFunc)
    (paramCopy 7 typeLong 1 2)) = .stack 0 := by decide

end TinyC
