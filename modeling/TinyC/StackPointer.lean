import TinyC.CallLocations
import TinyC.Slots
import TinyC.Lib.Rounding
import Mathlib.Logic.Relation

/-!
# The stack pointer

Between two instructions of the intermediate representation `%rsp` is `frame_size` below
`%rbp`. Only the code of a call moves it in between, down to a multiple of 16 at the `callq` and
back.
-/

namespace TinyC

open ByteMemory

/-! ### One instruction -/

/-- A called function puts `%rsp` and `%rbp` back. -/
structure Env.KeepsStack (E : Env) : Prop where
  rsp : ∀ t s, (E.call t s).reg .rsp = s.reg .rsp
  rbp : ∀ t s, (E.call t s).reg .rbp = s.reg .rbp

def Instr.isCall : Instr → Bool
  | .callSym _ | .callReg _ => true
  | _ => false

/-- Jumps and returns. -/
def Instr.leaves : Instr → Bool
  | .jmp _ | .jcc _ _ | .ret => true
  | _ => false

/-- The registers an instruction other than a call writes. -/
def Instr.dests : Instr → List Reg
  | .mov _ _ (.reg r) | .movzx _ _ r | .movsx _ _ r | .movabs _ r | .lea _ r | .alu _ _ r
  | .sal r | .sar r | .neg r | .not r | .cvtts2si _ _ r => [r]
  | .cqto => [.rdx]
  | .idiv _ => [.rax, .rdx]
  | .set _ => [.rax]
  | .push _ => [.rsp]
  | .leave => [.rbp, .rsp]
  | _ => []

/-- The instructions by which the code generator moves `%rsp`. -/
def Instr.movesRsp : Instr → Bool
  | .alu .sub (.imm _) .rsp | .alu .add (.imm _) .rsp | .push _ => true
  | _ => false

/-- Control goes on, `%rbp` is kept, and `%rsp` but for `rspDrop`. -/
def Instr.tame (i : Instr) : Bool :=
  !i.leaves && i.dests.all (· ≠ .rbp) && (i.dests.all (· ≠ .rsp) || i.movesRsp)

/-- Control goes on, neither register is changed, and nothing is called. -/
def Instr.quiet (i : Instr) : Bool :=
  !i.leaves && i.dests.all (fun r => r ≠ .rbp ∧ r ≠ .rsp) && !i.isCall

variable {E : Env} {i : Instr} {code : List Instr} {s s' : MState}

theorem writeReg_reg_of_ne (s : MState) (w : Width) {r q : Reg} (v : BitVec 64) (h : q ≠ r) :
    (s.writeReg w r v).reg q = s.reg q := by
  cases w <;> exact setReg_reg_of_ne s _ h

theorem step_reg_of_notMem {q : Reg} (h : i.step E s = some s') (hcall : i.isCall = false)
    (hq : q ∉ i.dests) : s'.reg q = s.reg q := by
  cases i with
  | mov w src dst =>
    cases h
    cases dst with
    | reg r => exact writeReg_reg_of_ne s w _ (by simpa [Instr.dests] using hq)
    | _ => rfl
  | lea src dst =>
    cases src <;> cases h <;> exact setReg_reg_of_ne s _ (by simpa [Instr.dests] using hq)
  | idiv src =>
    simp only [Instr.dests, List.mem_cons, List.not_mem_nil, or_false, not_or] at hq
    obtain ⟨qr, -, rfl⟩ := Option.map_eq_some_iff.mp h
    rw [setReg_reg_of_ne _ _ hq.2, setReg_reg_of_ne _ _ hq.1]
  | set c =>
    cases h
    exact writeReg_reg_of_ne s .byte _ (by simpa [Instr.dests] using hq)
  | leave =>
    simp only [Instr.dests, List.mem_cons, List.not_mem_nil, or_false, not_or] at hq
    cases h
    rw [setReg_reg_of_ne _ _ hq.2, setReg_reg_of_ne _ _ hq.1]
  | callSym _ | callReg _ => cases hcall
  | jmp _ | jcc _ _ | ret => cases h
  | push src =>
    cases h
    exact setReg_reg_of_ne s _ (by simpa [Instr.dests] using hq)
  | cmp _ _ | test _ _ | movsLoad _ _ _ _ | movsStore _ _ _ _ | movToXmm _ _ _ | sse _ _ _ _
  | ucomisd _ _ | cvtsi2s _ _ _ | label _ =>
    cases h
    rfl
  | _ =>
    cases h
    exact setReg_reg_of_ne s _ (by simpa [Instr.dests] using hq)

theorem rspDrop_of_notMem (h : Reg.rsp ∉ i.dests) : i.rspDrop = 0 := by
  unfold Instr.rspDrop
  split <;> simp_all [Instr.dests]

theorem step_tame (hE : E.KeepsStack) (h : i.step E s = some s') (ht : i.tame = true) :
    s'.reg .rsp = s.reg .rsp - i.rspDrop ∧ s'.reg .rbp = s.reg .rbp := by
  simp only [Instr.tame, Bool.and_eq_true, Bool.or_eq_true, List.all_eq_true, decide_eq_true_eq] at ht
  obtain ⟨⟨-, hrbp⟩, hrsp⟩ := ht
  have hbp : Reg.rbp ∉ i.dests := fun hmem => hrbp _ hmem rfl
  by_cases hcall : i.isCall = true
  · cases i <;> try cases hcall
    all_goals
      cases h
      exact ⟨(hE.rsp _ _).trans (BitVec.sub_zero _).symm, hE.rbp _ _⟩
  · rw [Bool.not_eq_true] at hcall
    refine ⟨?_, step_reg_of_notMem h hcall hbp⟩
    rcases hrsp with hrsp | hmoves
    · have hsp : Reg.rsp ∉ i.dests := fun hmem => hrsp _ hmem rfl
      rw [step_reg_of_notMem h hcall hsp, rspDrop_of_notMem hsp]
      exact (BitVec.sub_zero _).symm
    · have hquad : ∀ v, s.get E .quad (.imm v) = v := fun v => zeroExt_eight v
      unfold Instr.movesRsp at hmoves
      split at hmoves
      · cases h
        rw [setReg_reg_self, hquad]
        rfl
      · rename_i v
        cases h
        rw [setReg_reg_self, hquad]
        exact (sub_neg_eq_add (s.reg .rsp) v).symm
      · cases h
        exact setReg_reg_self s .rsp _
      · cases hmoves

/-! ### Straight-line code -/

/-- Tame code runs through and moves `%rsp` by what its lines say. -/
theorem exec_tame {e : Exit} (hE : E.KeepsStack) (h : exec E code s = some (s', e))
    (ht : ∀ i ∈ code, i.tame = true) :
    e = .fall ∧ s'.reg .rsp = s.reg .rsp - rspDrop code ∧ s'.reg .rbp = s.reg .rbp := by
  fun_induction exec E code s with
  | case1 s =>
    cases h
    exact ⟨rfl, (BitVec.sub_zero _).symm, rfl⟩
  | case2 l is s => cases ht _ List.mem_cons_self
  | case3 c l is s hc => cases ht _ List.mem_cons_self
  | case4 c l is s hc ih => cases ht _ List.mem_cons_self
  | case5 is s => cases ht _ List.mem_cons_self
  | case6 i is s h1 h2 h3 ih =>
    obtain ⟨s₁, hs₁, hrest⟩ := Option.bind_eq_some_iff.mp h
    obtain ⟨hsp₁, hbp₁⟩ := step_tame hE hs₁ (ht i List.mem_cons_self)
    obtain ⟨he, hsp, hbp⟩ := ih s₁ hrest fun i hi => ht i (List.mem_cons_of_mem _ hi)
    refine ⟨he, ?_, hbp.trans hbp₁⟩
    rw [hsp, hsp₁, show rspDrop (i :: is) = i.rspDrop + rspDrop is from rfl]
    ring

/-- Code that runs through hands over to the code after it. -/
theorem exec_append_inv {xs ys : List Instr} {r : MState × Exit}
    (ht : ∀ i ∈ xs, i.tame = true) (h : exec E (xs ++ ys) s = some r) :
    ∃ m, exec E xs s = some (m, .fall) ∧ exec E ys m = some r := by
  fun_induction exec E xs s with
  | case1 s => exact ⟨s, rfl, h⟩
  | case2 l is s => cases ht _ List.mem_cons_self
  | case3 c l is s hc => cases ht _ List.mem_cons_self
  | case4 c l is s hc ih => cases ht _ List.mem_cons_self
  | case5 is s => cases ht _ List.mem_cons_self
  | case6 i is s h1 h2 h3 ih =>
    rw [List.cons_append, exec.eq_5 _ _ _ _ h1 h2 h3] at h
    obtain ⟨s₁, hs₁, hrest⟩ := Option.bind_eq_some_iff.mp h
    obtain ⟨m, hm, hys⟩ := ih s₁ (fun i hi => ht i (List.mem_cons_of_mem _ hi)) hrest
    exact ⟨m, by rw [hs₁]; exact hm, hys⟩

/-- From `s`, the code comes to a `callq` in state `c`. -/
def AtCall (E : Env) (code : List Instr) (s c : MState) : Prop :=
  ∃ pre i post, code = pre ++ i :: post ∧ i.isCall = true ∧ exec E pre s = some (c, .fall)

/-- Code that neither moves `%rsp` or `%rbp` nor calls. -/
def Quiet (code : List Instr) : Prop := ∀ i ∈ code, i.quiet = true

namespace Quiet

variable {xs ys : List Instr}

theorem nil : Quiet [] := by simp [Quiet]

theorem append (hx : Quiet xs) (hy : Quiet ys) : Quiet (xs ++ ys) := fun i hi =>
  (List.mem_append.mp hi).elim (hx i) (hy i)

theorem cons (hi : i.quiet = true) (hx : Quiet xs) : Quiet (i :: xs) := by
  simpa [Quiet] using ⟨hi, hx⟩

theorem ite {p : Prop} [Decidable p] (hx : Quiet xs) (hy : Quiet ys) :
    Quiet (if p then xs else ys) := by
  split
  · exact hx
  · exact hy

theorem spec (h : Quiet xs) (hi : i ∈ xs) :
    i.leaves = false ∧ (∀ r ∈ i.dests, r ≠ .rbp ∧ r ≠ .rsp) ∧ i.isCall = false := by
  have hq := h i hi
  simp only [Instr.quiet, Bool.and_eq_true, List.all_eq_true, decide_eq_true_eq,
    Bool.not_eq_true'] at hq
  exact ⟨hq.1.1, hq.1.2, hq.2⟩

theorem tame (h : Quiet xs) : ∀ i ∈ xs, i.tame = true := by
  intro i hi
  obtain ⟨hleaves, hdests, -⟩ := h.spec hi
  simp only [Instr.tame, Bool.and_eq_true, Bool.or_eq_true, List.all_eq_true,
    decide_eq_true_eq, Bool.not_eq_true']
  exact ⟨⟨hleaves, fun r hr => (hdests r hr).1⟩, .inl fun r hr => (hdests r hr).2⟩

theorem noCall (h : Quiet xs) : ∀ i ∈ xs, i.isCall = false := fun _ hi => (h.spec hi).2.2

theorem rspDrop (h : Quiet xs) : rspDrop xs = 0 := by
  induction xs with
  | nil => rfl
  | cons i xs ih =>
    have hi : i.rspDrop = 0 := rspDrop_of_notMem fun hmem =>
      ((h.spec List.mem_cons_self).2.1 _ hmem).2 rfl
    have hxs := ih fun j hj => h j (List.mem_cons_of_mem i hj)
    rw [show TinyC.rspDrop (i :: xs) = i.rspDrop + TinyC.rspDrop xs from rfl, hi, hxs]
    rfl

theorem exec {e : Exit} (h : Quiet xs) (hE : E.KeepsStack) (hx : exec E xs s = some (s', e)) :
    s'.reg .rsp = s.reg .rsp ∧ s'.reg .rbp = s.reg .rbp := by
  obtain ⟨-, hsp, hbp⟩ := exec_tame hE hx h.tame
  rw [h.rspDrop] at hsp
  exact ⟨hsp.trans (BitVec.sub_zero _), hbp⟩

end Quiet

theorem atCall_append {xs ys : List Instr} {c : MState} (hx : ∀ j ∈ xs, j.isCall = false)
    (hy : ∀ j ∈ ys, j.isCall = false) (h : AtCall E (xs ++ i :: ys) s c) :
    exec E xs s = some (c, .fall) := by
  obtain ⟨pre, j, post, heq, hj, hpre⟩ := h
  rcases List.append_eq_append_iff.mp heq with ⟨zs, rfl, hzs⟩ | ⟨zs, rfl, hzs⟩
  · cases zs with
    | nil => simpa using hpre
    | cons z zs =>
      obtain ⟨rfl, rfl⟩ := List.cons.inj hzs
      have hmem := hy j (by simp)
      rw [hj] at hmem
      cases hmem
  · cases zs with
    | nil => simpa using hpre
    | cons z zs =>
      obtain ⟨rfl, rfl⟩ := List.cons.inj hzs
      have hmem := hx j (by simp)
      rw [hj] at hmem
      cases hmem

theorem not_atCall {xs : List Instr} {c : MState} (hx : ∀ j ∈ xs, j.isCall = false) :
    ¬AtCall E xs s c := by
  rintro ⟨pre, j, post, rfl, hj, -⟩
  have hmem := hx j (by simp)
  rw [hj] at hmem
  cases hmem

/-! ### The code of the instructions -/

section Pieces

variable (Γ : TypeEnv) (ra : RegAlloc)

/-- A register in which values may be loaded. -/
def Reg.Free (r : Reg) : Prop := r ≠ .rbp ∧ r ≠ .rsp

instance (r : Reg) : Decidable r.Free := inferInstanceAs (Decidable (_ ∧ _))

theorem paramReg_free (i : ℕ) : (paramReg i).Free := by
  have hmem := paramReg_mem i
  simp only [paramRegs, List.mem_cons, List.not_mem_nil, or_false] at hmem
  rcases hmem with h | h | h | h | h | h <;> rw [h] <;> decide

theorem retIntReg_free (i : ℕ) : (retIntReg i).Free := by
  unfold retIntReg
  split <;> decide

theorem quiet_loadReg (v : IRValue) {r : Reg} (hr : r.Free) : Quiet (loadReg ra v r) := by
  unfold loadReg
  cases v.kind <;> simp [Quiet, Instr.quiet, Instr.leaves, Instr.dests, Instr.isCall, hr.1, hr.2]

theorem quiet_storeReg (v : IRValue) (r : Reg) : Quiet (storeReg ra v r) := by
  unfold storeReg
  cases v.kind <;> simp [Quiet, Instr.quiet, Instr.leaves, Instr.dests, Instr.isCall]

theorem quiet_loadXmm (v : IRValue) (x : Xmm) : Quiet (loadXmm ra v x) := by
  unfold loadXmm
  cases v.kind <;> cases isDoubleType v.type <;>
    simp [Quiet, Instr.quiet, Instr.leaves, Instr.dests, Instr.isCall]

theorem quiet_storeXmm (v : IRValue) (x : Xmm) : Quiet (storeXmm ra v x) := by
  unfold storeXmm
  cases v.kind <;> simp [Quiet, Instr.quiet, Instr.leaves, Instr.dests, Instr.isCall]

theorem quiet_extendRax (sz : ℤ) (b : Bool) : Quiet (extendRax sz b) := by
  unfold extendRax
  cases b <;> split <;> try split <;> try split
  all_goals simp [Quiet, Instr.quiet, Instr.leaves, Instr.dests, Instr.isCall]

theorem quiet_normalizeRax (ty : Option CType) : Quiet (normalizeRaxToType Γ ty) := by
  unfold normalizeRaxToType
  split
  · exact .ite (quiet_extendRax _ _) .nil
  · exact .nil

theorem quiet_loadEightbyte (base : Reg) (off rem : ℤ) {dst : Reg} (hr : dst.Free) :
    Quiet (emitLoadEightbyteFromMem base off rem dst) := by
  unfold emitLoadEightbyteFromMem
  split <;> try split <;> try split
  all_goals simp [Quiet, Instr.quiet, Instr.leaves, Instr.dests, Instr.isCall, hr.1, hr.2]

theorem quiet_storeEightbyte (base : Reg) (off rem : ℤ) (src : Reg) :
    Quiet (emitStoreEightbyteToMem base off rem src) := by
  unfold emitStoreEightbyteToMem
  split <;> try split <;> try split <;> try split
  all_goals simp [Quiet, Instr.quiet, Instr.leaves, Instr.dests, Instr.isCall]

theorem quiet_storeChunk (base : Reg) (off rem : ℤ) (src : Reg) :
    Quiet (emitStoreChunk base off rem src) := by
  unfold emitStoreChunk
  split <;> try split <;> try split
  all_goals simp [Quiet, Instr.quiet, Instr.leaves, Instr.dests, Instr.isCall]

theorem quiet_copyBytes (dst src : Reg) (size : ℤ) : Quiet (emitCopyBytes dst src size) := by
  have hchunk : ∀ w off, Quiet (copyChunk w dst src off) := by
    simp [copyChunk, Quiet, Instr.quiet, Instr.leaves, Instr.dests, Instr.isCall]
  have hquads : Quiet ((List.range (size / 8).toNat).flatMap fun i =>
      copyChunk .quad dst src (8 * i)) := by
    intro i hi
    obtain ⟨k, -, hk⟩ := List.mem_flatMap.mp hi
    exact hchunk _ _ i hk
  exact ((hquads.append (.ite (hchunk _ _) .nil)).append (.ite (hchunk _ _) .nil)).append
    (.ite (hchunk _ _) .nil)

theorem quiet_captureEightbytes (slot size : ℤ) (toAddr : Bool) (cs : List ABIClass)
    (j i x : ℕ) : Quiet (captureEightbytes slot size toAddr cs j i x) := by
  induction cs generalizing j i x with
  | nil => exact .nil
  | cons c cs ih =>
    cases c with
    | integer =>
      refine .append ?_ (ih _ _ _)
      split
      · exact quiet_storeEightbyte _ _ _ _
      · exact quiet_storeChunk _ _ _ _
    | sse => exact .cons rfl (ih _ _ _)
    | _ => exact ih _ _ _

theorem quiet_captureFromStack (dst : IRValue) (slot size off : ℤ) (toAddr : Bool) :
    Quiet (captureFromStack ra dst slot size off toAddr) :=
  ((Quiet.ite (quiet_loadReg ra dst (by decide)) (.cons rfl .nil)).append
    (.cons rfl .nil)).append (quiet_copyBytes _ _ _)

theorem quiet_codegenParam (f : IRFunc) (ins : IRInstr) : Quiet (codegenParam Γ f ra ins) := by
  unfold codegenParam
  refine .ite (quiet_storeReg ra _ _) (.ite (quiet_captureFromStack ra _ _ _ _ _) (.ite ?_
    (quiet_captureFromStack ra _ _ _ _ _)))
  exact (Quiet.ite (quiet_loadReg ra _ (by decide)) .nil).append
    (quiet_captureEightbytes _ _ _ _ _ _ _)

theorem quiet_loadEightbytes (size : ℤ) (cs : List ABIClass) (j i x : ℕ) :
    Quiet (loadEightbytes size cs j i x) := by
  induction cs generalizing j i x with
  | nil => exact .nil
  | cons c cs ih =>
    cases c with
    | integer => exact (quiet_loadEightbyte _ _ _ (paramReg_free _)).append (ih _ _ _)
    | sse => exact .cons rfl (ih _ _ _)
    | _ => exact ih _ _ _

theorem quiet_storeResultEightbytes (size : ℤ) (cs : List ABIClass) (j i x : ℕ) :
    Quiet (storeResultEightbytes size cs j i x) := by
  induction cs generalizing j i x with
  | nil => exact .nil
  | cons c cs ih =>
    cases c with
    | integer => exact (quiet_storeChunk _ _ _ _).append (ih _ _ _)
    | sse => exact .cons rfl (ih _ _ _)
    | _ => exact ih _ _ _

theorem quiet_loadReturnEightbytes (size : ℤ) (cs : List ABIClass) (j i x : ℕ) :
    Quiet (loadReturnEightbytes size cs j i x) := by
  induction cs generalizing j i x with
  | nil => exact .nil
  | cons c cs ih =>
    cases c with
    | integer => exact (quiet_loadEightbyte _ _ _ (retIntReg_free _)).append (ih _ _ _)
    | sse => exact .cons rfl (ih _ _ _)
    | _ => exact ih _ _ _

theorem quiet_storeCallResult (ins : IRInstr) : Quiet (storeCallResult Γ ra ins) := by
  unfold storeCallResult
  split
  · refine .ite .nil (.ite (.cons rfl (quiet_storeResultEightbytes _ _ _ _ _))
      (.ite (quiet_storeXmm ra _ _) (.ite ?_ .nil)))
    exact (quiet_normalizeRax Γ _).append (quiet_storeReg ra _ _)
  · exact .nil

theorem quiet_loadRegArg (used : ℕ × ℕ) (a : IRValue) : Quiet (loadRegArg Γ ra used a) :=
  .ite ((quiet_loadReg ra a (by decide)).append (quiet_loadEightbytes _ _ _ _ _))
    (.ite (quiet_loadXmm ra a _) (quiet_loadReg ra a (paramReg_free _)))

theorem quiet_loadRegArgs (used : ℕ × ℕ) (args : List IRValue) :
    Quiet (loadRegArgs Γ ra used args).1 := by
  induction args generalizing used with
  | nil => exact .nil
  | cons a args ih =>
    unfold loadRegArgs
    dsimp only
    split
    · exact ih used
    · exact (quiet_loadRegArg Γ ra used a).append (ih _)

theorem quiet_callTail (ins : IRInstr) (n : ℕ) : Quiet (callTail ra ins n) := by
  unfold callTail
  refine .append (.append ?_ (.cons rfl .nil)) ?_
  · split
    · exact .cons rfl .nil
    · exact .nil
  · split
    · exact .nil
    · exact quiet_loadReg ra _ (by decide)

theorem quiet_loadExtended (sz : ℤ) (b : Bool) : (loadExtended sz b).quiet = true := by
  unfold loadExtended
  cases b <;> split <;> try split <;> try split
  all_goals rfl

theorem quiet_sseInstr (b : Bool) (op : IROp) : Quiet (sseInstr b op) := by
  cases op <;> first | exact .nil | exact .cons rfl .nil

theorem quiet_binaryInstr (op : IROp) : Quiet (binaryInstr op).toList := by
  cases op <;> first | exact .nil | exact .cons rfl .nil

/-- Only jumps, calls, returns and bulk copies are not quiet. -/
theorem quiet_codegenInstr (f : IRFunc) (ins : IRInstr)
    (hop : ins.op ∉ [.jmp, .jz, .jnz, .call, .ret, .memcpy]) :
    Quiet (codegenInstr Γ f ra ins) := by
  have hrax : ∀ v, Quiet (loadReg ra v .rax) := fun v => quiet_loadReg ra v (by decide)
  have hrcx : ∀ v, Quiet (loadReg ra v .rcx) := fun v => quiet_loadReg ra v (by decide)
  have hr10 : ∀ v, Quiet (loadReg ra v .r10) := fun v => quiet_loadReg ra v (by decide)
  have hstore := quiet_storeReg ra ins.dst
  have hxmm := quiet_loadXmm ra
  have hstoreXmm := quiet_storeXmm ra ins.dst
  unfold codegenInstr
  cases h : ins.op with
  | nop | globalDef => exact .nil
  | label => exact .cons rfl .nil
  | alloca =>
    dsimp only
    split
    · exact .cons rfl (hstore _)
    · exact .nil
  | load =>
    dsimp only
    exact (hrax _).append (.ite (.cons rfl (hstoreXmm _))
      (.cons (quiet_loadExtended _ _) (hstore _)))
  | store =>
    dsimp only
    exact (hr10 _).append (.ite ((hxmm _ _).append (.cons rfl .nil))
      ((hrax _).append (.cons rfl .nil)))
  | copy | loadImm =>
    dsimp only
    exact .ite (quiet_codegenParam Γ ra f ins)
      (.ite ((hxmm _ _).append (hstoreXmm _)) ((hrax _).append (hstore _)))
  | addr =>
    refine .append ?_ (hstore _)
    split
    · exact .cons rfl .nil
    · exact hrax _
  | add | sub | mul | and | or | xor | shl | shr =>
    dsimp only
    exact .ite ((((hxmm _ _).append (hxmm _ _)).append (quiet_sseInstr _ _)).append (hstoreXmm _))
      ((((hrax _).append (hrcx _)).append (quiet_binaryInstr _)).append (hstore _))
  | div =>
    dsimp only
    exact .ite (((hxmm _ _).append (hxmm _ _)).append (.cons rfl (hstoreXmm _)))
      (((hrax _).append (.cons rfl (hrcx _))).append (.cons rfl (hstore _)))
  | mod => exact ((hrax _).append (.cons rfl (hrcx _))).append (.cons rfl (hstore _))
  | neg | not => exact (hrax _).append (.cons rfl (hstore _))
  | eq | ne | lt | le | gt | ge =>
    dsimp only
    exact .ite ((((hxmm _ _).append (hxmm _ _)).append
        (.cons rfl (.cons rfl (.cons rfl .nil)))).append (hstore _))
      ((((hrax _).append (hrcx _)).append (.cons rfl (.cons rfl (.cons rfl .nil)))).append
        (hstore _))
  | sext => exact ((hrax _).append (quiet_extendRax _ _)).append (hstore _)
  | zext =>
    dsimp only
    exact ((hrax _).append (.ite .nil (quiet_extendRax _ _))).append (hstore _)
  | trunc =>
    refine ((hrax _).append ?_).append (hstore _)
    split
    · exact quiet_extendRax _ _
    · exact .nil
  | itof => exact (hrax _).append (.cons rfl (hstoreXmm _))
  | ftoi => exact (hxmm _ _).append (.cons rfl (hstore _))
  | jmp | jz | jnz | call | ret | memcpy => simp [h] at hop

end Pieces

/-! ### The code of a call -/

section Call

variable (Γ : TypeEnv) (ra : RegAlloc)

theorem stackBytes_nonneg (ty : CType) : 0 ≤ stackBytes Γ ty := by
  have h := Rounding.land_lnot_two_pow (max (typeSizeof Γ ty) 0 + 7) 3
  norm_num at h
  rw [stackBytes, h]
  omega

/-- What is pushed is counted. -/
theorem stackArgsBytes_eq (sret : Bool) (args : List IRValue) :
    stackArgsBytes Γ sret args = (stateBefore Γ sret args).stackOffset := by
  have hfold : ∀ st : ArgState, (args.foldl (fun (st : (ℕ × ℕ) × ℤ) a =>
      let ty := argType a
      let cls := abiClassify Γ ty
      if abiInMemory cls then (st.1, st.2 + stackBytes Γ ty)
      else if fitsRegs st.1.1 st.1.2 cls then (argRegs Γ st.1 ty, st.2)
      else (st.1, st.2 + stackBytes Γ ty)) ((st.intRegsUsed, st.sseRegsUsed), st.stackOffset)).2 =
        ((args.map argType).foldl (ArgState.next Γ) st).stackOffset := by
    induction args with
    | nil => exact fun _ => rfl
    | cons a args ih =>
      intro st
      rw [List.map_cons, List.foldl_cons, List.foldl_cons, ← ih]
      congr 1
      congr 1
      unfold ArgState.next argRegs
      cases hmem : abiInMemory (abiClassify Γ (argType a)) <;>
        cases hfit : fitsRegs st.intRegsUsed st.sseRegsUsed (abiClassify Γ (argType a)) <;>
        simp [hmem, hfit]
  exact hfold (startState sret)

theorem stackArgsBytes_append (sret : Bool) (args : List IRValue) (a : IRValue) :
    stackArgsBytes Γ sret (args ++ [a]) = stackArgsBytes Γ sret args +
      if goesToStack Γ sret args a then stackBytes Γ (argType a) else 0 := by
  rw [stackArgsBytes_eq, stackArgsBytes_eq, stateBefore_append, next_eq, goesToStack_eq]
  split
  · rfl
  · exact (add_zero _).symm

theorem stackArgsBytes_nonneg (sret : Bool) (args : List IRValue) :
    0 ≤ stackArgsBytes Γ sret args := by
  induction args using List.reverseRecOn with
  | nil => exact le_rfl
  | append_singleton args a ih =>
    rw [stackArgsBytes_append]
    split
    · exact add_nonneg ih (stackBytes_nonneg Γ _)
    · exact ih.trans (add_zero _).ge

theorem alignPad_nonneg (frame bytes : ℤ) : 0 ≤ alignPad frame bytes := by
  have hlt := Int.tmod_lt_of_pos (frame + bytes) (show (0 : ℤ) < 16 by norm_num)
  unfold alignPad
  split <;> omega

theorem alignPad_dvd (frame bytes : ℤ) : 16 ∣ frame + (alignPad frame bytes + bytes) := by
  have h := Int.mul_tdiv_add_tmod (frame + bytes) 16
  unfold alignPad
  split <;> omega

/-- No more registers are counted than there are. -/
theorem stateBefore_regs_le (sret : Bool) (before : List IRValue) :
    (stateBefore Γ sret before).intRegsUsed ≤ 6 ∧ (stateBefore Γ sret before).sseRegsUsed ≤ 8 := by
  induction before using List.reverseRecOn with
  | nil => cases sret <;> simp [stateBefore, startState]
  | append_singleton before a ih =>
    rw [stateBefore_append, next_eq]
    split
    · exact ih
    · rename_i h
      simp only [ArgState.spills, Bool.or_eq_true, Bool.not_eq_true', not_or, Bool.not_eq_false,
        fitsRegs, Bool.and_eq_true, decide_eq_true_eq] at h
      exact h.2

/-- An argument on the stack has a size. -/
theorem stackBytes_pos {sret : Bool} {before : List IRValue} {a : IRValue}
    (h : goesToStack Γ sret before a = true) : 8 ≤ stackBytes Γ (argType a) := by
  have hsize : 0 < typeSizeof Γ (argType a) := by
    by_contra hle
    have hcls : abiClassify Γ (argType a) = ⟨[]⟩ := if_pos (by omega)
    have hregs := stateBefore_regs_le Γ sret before
    rw [goesToStack_eq, ArgState.spills, hcls] at h
    simp [abiInMemory, fitsRegs, ABIClassification.needs, hregs.1, hregs.2] at h
  have hround := Rounding.land_lnot_two_pow (max (typeSizeof Γ (argType a)) 0 + 7) 3
  norm_num at hround
  rw [stackBytes, hround]
  omega

/-- The lines that put an argument at the top of the stack, once there is room. -/
def copyToTop (a : IRValue) : List Instr :=
  if isAggregateType a.type then
    loadReg ra a .r11 ++ emitCopyBytes .rsp .r11 (max (typeSizeof Γ (argType a)) 0)
  else loadReg ra a .rax ++ [.mov .quad (.reg .rax) (.mem 0 .rsp)]

/-- The line that makes room for an argument. -/
def makeRoom (a : IRValue) : Instr :=
  .alu .sub (.imm (BitVec.ofInt 64 (stackBytes Γ (argType a)))) .rsp

theorem quiet_copyToTop (a : IRValue) : Quiet (copyToTop Γ ra a) :=
  .ite ((quiet_loadReg ra a (by decide)).append (quiet_copyBytes _ _ _))
    ((quiet_loadReg ra a (by decide)).append (.cons rfl .nil))

theorem pushArg_eq {sret : Bool} {before : List IRValue} {a : IRValue}
    (h : goesToStack Γ sret before a = true) :
    pushArg Γ ra sret before a = makeRoom Γ a :: copyToTop Γ ra a := if_pos h

/-- Neither `%rbp` nor the control is touched, and `%rsp` only by what the lines say. -/
def Tame (code : List Instr) : Prop := ∀ i ∈ code, i.tame = true ∧ i.isCall = false

theorem Tame.append {xs ys : List Instr} (hx : Tame xs) (hy : Tame ys) : Tame (xs ++ ys) :=
  fun i hi => (List.mem_append.mp hi).elim (hx i) (hy i)

theorem Quiet.tameCode {xs : List Instr} (h : Quiet xs) : Tame xs := fun i hi =>
  ⟨h.tame i hi, h.noCall i hi⟩

theorem tame_pushArgs (sret : Bool) (before args : List IRValue) :
    Tame (pushArgs Γ ra sret before args) := by
  induction args generalizing before with
  | nil => exact Quiet.nil.tameCode
  | cons a args ih =>
    refine (ih _).append ?_
    cases h : goesToStack Γ sret before a with
    | true =>
      rw [pushArg_eq Γ ra h]
      refine List.forall_mem_cons.mpr ⟨⟨rfl, rfl⟩, (quiet_copyToTop Γ ra a).tameCode⟩
    | false =>
      rw [show pushArg Γ ra sret before a = [] by simp [pushArg, h]]
      exact Quiet.nil.tameCode

theorem tame_callSetup (ins : IRInstr) : Tame (callSetup Γ ra ins) := by
  refine .append (.append (.append ?_ (tame_pushArgs Γ ra _ _ _))
    (quiet_loadRegArgs Γ ra _ _).tameCode) (quiet_callTail ra ins _).tameCode
  unfold callAlign
  dsimp only
  split
  · exact List.forall_mem_cons.mpr ⟨⟨rfl, rfl⟩, Quiet.nil.tameCode⟩
  · exact Quiet.nil.tameCode

/-- The padding and the stack arguments lie between the frame and `%rsp` at the `callq`. -/
theorem rspDrop_callSetup (ins : IRInstr) :
    rspDrop (callSetup Γ ra ins) =
      BitVec.ofInt 64 (alignPad ra.frameSize (stackArgsBytes Γ ins.callSret ins.callArgs) +
        stackArgsBytes Γ ins.callSret ins.callArgs) := by
  have halign : rspDrop (callAlign Γ ra ins) =
      BitVec.ofInt 64 (alignPad ra.frameSize (stackArgsBytes Γ ins.callSret ins.callArgs)) := by
    unfold callAlign
    dsimp only
    split
    · exact add_zero _
    · rename_i h
      rw [not_ne_iff.mp h]
      rfl
  unfold callSetup
  dsimp only
  rw [rspDrop_append, rspDrop_append, rspDrop_append, halign, rspDrop_pushArgs,
    (quiet_loadRegArgs Γ ra _ _).rspDrop, (quiet_callTail ra ins _).rspDrop, BitVec.ofInt_add,
    stackArgsBytes_eq]
  simp

theorem tame_callCleanup (ins : IRInstr) : Tame (callCleanup Γ ra ins) := by
  unfold callCleanup
  dsimp only
  split
  · exact List.forall_mem_cons.mpr ⟨⟨rfl, rfl⟩, Quiet.nil.tameCode⟩
  · exact Quiet.nil.tameCode

/-- After the call what was taken is given back. -/
theorem rspDrop_callCleanup (ins : IRInstr) :
    rspDrop (callCleanup Γ ra ins) = -rspDrop (callSetup Γ ra ins) := by
  have hpad := alignPad_nonneg ra.frameSize (stackArgsBytes Γ ins.callSret ins.callArgs)
  have hbytes := stackArgsBytes_nonneg Γ ins.callSret ins.callArgs
  rw [rspDrop_callSetup, add_comm]
  unfold callCleanup
  dsimp only
  split
  · exact add_zero _
  · rw [show stackArgsBytes Γ ins.callSret ins.callArgs +
      alignPad ra.frameSize (stackArgsBytes Γ ins.callSret ins.callArgs) = 0 by omega]
    rfl

end Call

/-! ### Whole functions -/

/-- Between two instructions of the intermediate representation. -/
def Balanced (ra : RegAlloc) (s : MState) : Prop :=
  s.reg .rsp = s.reg .rbp - BitVec.ofInt 64 ra.frameSize

theorem frameSize_dvd (f : IRFunc) : 16 ∣ (regallocRun f).frameSize := by
  unfold regallocRun
  dsimp only
  split
  · exact dvd_rfl
  · have h := Rounding.dvd_land_lnot
      ((f.instrs.foldl allocaStep (8 * (f.nextTemp : ℤ), fun _ => 0)).1 + 15) 4
    norm_num at h
    exact h

theorem aligned_sub {v : BitVec 64} {k : ℤ} (hv : 16 ∣ v.toNat) (hk : 16 ∣ k) :
    16 ∣ (v - BitVec.ofInt 64 k).toNat := by
  rw [BitVec.toNat_sub, BitVec.toNat_ofInt]
  omega

/-- What the second pass takes from the stack, in bytes. -/
def pushedBytes (Γ : TypeEnv) (sret : Bool) : List IRValue → List IRValue → ℤ
  | _, [] => 0
  | before, a :: rest =>
      pushedBytes Γ sret (before ++ [a]) rest +
        if goesToStack Γ sret before a then stackBytes Γ (argType a) else 0

theorem pushedBytes_append (Γ : TypeEnv) (sret : Bool) (before xs : List IRValue) (a : IRValue) :
    pushedBytes Γ sret before (xs ++ [a]) = pushedBytes Γ sret before xs +
      if goesToStack Γ sret (before ++ xs) a then stackBytes Γ (argType a) else 0 := by
  induction xs generalizing before with
  | nil => simp [pushedBytes]
  | cons x xs ih =>
    simp only [List.cons_append, pushedBytes, ih, List.append_assoc, List.nil_append]
    ring

/-- The backward pass takes what the first pass counts. -/
theorem pushedBytes_eq (Γ : TypeEnv) (sret : Bool) (args : List IRValue) :
    pushedBytes Γ sret [] args = stackArgsBytes Γ sret args := by
  induction args using List.reverseRecOn with
  | nil => rfl
  | append_singleton args a ih =>
    rw [pushedBytes_append, stackArgsBytes_append, ih, List.nil_append]

theorem stackArgsBytes_eq_zero {Γ : TypeEnv} {sret : Bool} {xs : List IRValue}
    (h : ∀ ys b zs, xs = ys ++ b :: zs → goesToStack Γ sret ys b = false) :
    stackArgsBytes Γ sret xs = 0 := by
  induction xs using List.reverseRecOn with
  | nil => rfl
  | append_singleton xs a ih =>
    have hxs : stackArgsBytes Γ sret xs = 0 := ih fun ys b zs hsplit =>
      h ys b (zs ++ [a]) (by rw [hsplit]; simp)
    rw [stackArgsBytes_append, hxs, h xs a [] rfl]
    rfl

theorem stackArgsBytes_le (Γ : TypeEnv) (sret : Bool) (xs ys : List IRValue) :
    stackArgsBytes Γ sret xs ≤ stackArgsBytes Γ sret (xs ++ ys) := by
  induction ys using List.reverseRecOn with
  | nil => rw [List.append_nil]
  | append_singleton ys a ih =>
    rw [← List.append_assoc, stackArgsBytes_append]
    split
    · exact ih.trans (le_add_of_nonneg_right (stackBytes_nonneg Γ _))
    · exact ih.trans (add_zero _).ge

section Function

variable {Γ : TypeEnv} {f : IRFunc} {ra : RegAlloc} {ins : IRInstr} {c : MState}

/-- `%rsp` at the `callq`. -/
theorem callSetup_rsp (hE : E.KeepsStack) (hs : Balanced ra s)
    (h : exec E (callSetup Γ ra ins) s = some (c, .fall)) :
    c.reg .rsp = s.reg .rbp - BitVec.ofInt 64 (ra.frameSize +
      (alignPad ra.frameSize (stackArgsBytes Γ ins.callSret ins.callArgs) +
        stackArgsBytes Γ ins.callSret ins.callArgs)) := by
  have hsp := (exec_tame hE h fun i hi => (tame_callSetup Γ ra ins i hi).1).2.1
  rw [hsp, hs, rspDrop_callSetup, BitVec.ofInt_add ra.frameSize]
  ring

/-- After the `callq` nothing is called. -/
theorem tame_callRest (Γ : TypeEnv) (ra : RegAlloc) (ins : IRInstr) :
    Tame (callCleanup Γ ra ins ++ storeCallResult Γ ra ins) :=
  (tame_callCleanup Γ ra ins).append (quiet_storeCallResult Γ ra ins).tameCode

theorem codegenCall_eq (Γ : TypeEnv) (ra : RegAlloc) (ins : IRInstr) :
    codegenCall Γ ra ins = callSetup Γ ra ins ++
      callInstr ins :: (callCleanup Γ ra ins ++ storeCallResult Γ ra ins) := by
  simp [codegenCall]

theorem callInstr_tame (ins : IRInstr) : (callInstr ins).tame = true := by
  unfold callInstr
  split <;> rfl

theorem callInstr_rspDrop (ins : IRInstr) : (callInstr ins).rspDrop = 0 := by
  unfold callInstr
  split <;> rfl

/-- The state at the `callq` is that after the code before it. -/
theorem atCall_codegenCall (h : AtCall E (codegenCall Γ ra ins) s c) :
    exec E (callSetup Γ ra ins) s = some (c, .fall) := by
  rw [codegenCall_eq] at h
  exact atCall_append (fun j hj => (tame_callSetup Γ ra ins j hj).2)
    (fun j hj => (tame_callRest Γ ra ins j hj).2) h

/-- A call gives back what it takes. -/
theorem rspDrop_codegenCall (Γ : TypeEnv) (ra : RegAlloc) (ins : IRInstr) :
    rspDrop (codegenCall Γ ra ins) = 0 := by
  rw [codegenCall_eq, rspDrop_append,
    show ∀ i : Instr, ∀ is, rspDrop (i :: is) = i.rspDrop + rspDrop is from fun _ _ => rfl,
    rspDrop_append, rspDrop_callCleanup, (quiet_storeCallResult Γ ra ins).rspDrop,
    callInstr_rspDrop]
  ring

theorem tame_codegenCall (Γ : TypeEnv) (ra : RegAlloc) (ins : IRInstr) :
    ∀ i ∈ codegenCall Γ ra ins, i.tame = true := by
  rw [codegenCall_eq]
  intro i hi
  rcases List.mem_append.mp hi with hset | hrest
  · exact (tame_callSetup Γ ra ins i hset).1
  · rcases List.mem_cons.mp hrest with rfl | hrest
    · exact callInstr_tame ins
    · exact (tame_callRest Γ ra ins i hrest).1

/-- An argument on the stack is put where the arguments before it leave room below it. -/
theorem stackArg_place (hE : E.KeepsStack) {xs ys : List IRValue} {a : IRValue}
    (hargs : ins.callArgs = xs ++ a :: ys) (ha : goesToStack Γ ins.callSret xs a = true)
    (h : exec E (callSetup Γ ra ins) s = some (c, .fall)) :
    ∃ pre post m, callSetup Γ ra ins = pre ++ (copyToTop Γ ra a ++ post) ∧
      exec E pre s = some (m, .fall) ∧
      m.reg .rsp = c.reg .rsp + BitVec.ofInt 64 (stackArgsBytes Γ ins.callSret xs) := by
  have hpush : pushArgs Γ ra ins.callSret [] (xs ++ a :: ys) =
      pushArgs Γ ra ins.callSret (xs ++ [a]) ys ++
        (makeRoom Γ a :: copyToTop Γ ra a) ++ pushArgs Γ ra ins.callSret [] xs := by
    rw [pushArgs_append, ← pushArg_eq Γ ra ha]
    rfl
  let regArgs := loadRegArgs Γ ra (sretRegs ins.callSret) ins.callArgs
  let pre := callAlign Γ ra ins ++ pushArgs Γ ra ins.callSret (xs ++ [a]) ys ++ [makeRoom Γ a]
  let post := pushArgs Γ ra ins.callSret [] xs ++ regArgs.1 ++ callTail ra ins regArgs.2.2
  have hsplit : callSetup Γ ra ins = pre ++ (copyToTop Γ ra a ++ post) := by
    rw [show callSetup Γ ra ins = callAlign Γ ra ins ++
      pushArgs Γ ra ins.callSret [] ins.callArgs ++ regArgs.1 ++ callTail ra ins regArgs.2.2
        from rfl, show pushArgs Γ ra ins.callSret [] ins.callArgs =
      pushArgs Γ ra ins.callSret [] (xs ++ a :: ys) by rw [hargs], hpush]
    simp [pre, post]
  have htame : ∀ i ∈ pre ++ (copyToTop Γ ra a ++ post), i.tame = true := fun i hi =>
    (tame_callSetup Γ ra ins i (hsplit ▸ hi)).1
  rw [hsplit] at h
  obtain ⟨m, hm, hrest⟩ := exec_append_inv (fun i hi => htame i (List.mem_append_left _ hi)) h
  obtain ⟨-, hsp, -⟩ := exec_tame hE hrest fun i hi => htame i (List.mem_append_right _ hi)
  have hdrop : rspDrop (copyToTop Γ ra a ++ post) =
      BitVec.ofInt 64 (stackArgsBytes Γ ins.callSret xs) := by
    rw [rspDrop_append, rspDrop_append, rspDrop_append, (quiet_copyToTop Γ ra a).rspDrop,
      rspDrop_pushArgs, (quiet_loadRegArgs Γ ra _ _).rspDrop, (quiet_callTail ra ins _).rspDrop,
      stackArgsBytes_eq]
    simp
  refine ⟨pre, post, m, hsplit, hm, ?_⟩
  rw [hsp, hdrop]
  exact (sub_add_cancel _ _).symm

/-- How the code of a call uses the stack. -/
structure CallStack (E : Env) (Γ : TypeEnv) (f : IRFunc) (ra : RegAlloc) (ins : IRInstr)
    (s : MState) : Prop where
  counted : pushedBytes Γ ins.callSret [] ins.callArgs =
    stackArgsBytes Γ ins.callSret ins.callArgs
  pushed : rspDrop (pushArgs Γ ra ins.callSret [] ins.callArgs) =
    BitVec.ofInt 64 (pushedBytes Γ ins.callSret [] ins.callArgs)
  /-- A stack argument is copied to where `%rsp` is, and that is the size of the stack arguments
  before it above `%rsp` at the `callq`. -/
  placed : ∀ xs a ys c, ins.callArgs = xs ++ a :: ys → goesToStack Γ ins.callSret xs a = true →
    AtCall E (codegenInstr Γ f ra ins) s c →
    ∃ pre post m, codegenInstr Γ f ra ins = pre ++ (copyToTop Γ ra a ++ post) ∧
      exec E pre s = some (m, .fall) ∧
      m.reg .rsp = c.reg .rsp + BitVec.ofInt 64 (stackArgsBytes Γ ins.callSret xs)
  first : ∀ xs, (∀ ys b zs, xs = ys ++ b :: zs → goesToStack Γ ins.callSret ys b = false) →
    stackArgsBytes Γ ins.callSret xs = 0
  later : ∀ xs a ys, goesToStack Γ ins.callSret xs a = true →
    stackArgsBytes Γ ins.callSret xs + 8 ≤ stackArgsBytes Γ ins.callSret (xs ++ a :: ys)

theorem callStack (hE : E.KeepsStack) (hop : ins.op = .call) : CallStack E Γ f ra ins s where
  counted := pushedBytes_eq Γ _ _
  pushed := by rw [rspDrop_pushArgs, pushedBytes_eq, stackArgsBytes_eq]
  placed xs a ys c hargs ha hc := by
    rw [codegenInstr, hop] at hc
    obtain ⟨pre, post, m, hsplit, hm, hsp⟩ :=
      stackArg_place hE hargs ha (atCall_codegenCall hc)
    refine ⟨pre, post ++ callInstr ins :: (callCleanup Γ ra ins ++ storeCallResult Γ ra ins), m,
      ?_, hm, hsp⟩
    rw [show codegenInstr Γ f ra ins = codegenCall Γ ra ins by simp only [codegenInstr, hop],
      codegenCall_eq, hsplit]
    simp only [List.append_assoc]
  first _ h := stackArgsBytes_eq_zero h
  later xs a ys ha := by
    have hle := stackArgsBytes_le Γ ins.callSret (xs ++ [a]) ys
    have hpos := stackBytes_pos Γ ha
    rw [stackArgsBytes_append, if_pos ha] at hle
    rw [List.append_cons]
    omega

/-! ### Instruction by instruction -/

/-- Quiet code around one `callq`. -/
def CallsOnce (code : List Instr) : Prop :=
  ∃ xs i ys, code = xs ++ i :: ys ∧ Quiet xs ∧ i.tame = true ∧ i.rspDrop = 0 ∧ Quiet ys

namespace CallsOnce

theorem tame (h : CallsOnce code) : ∀ i ∈ code, i.tame = true := by
  obtain ⟨xs, i, ys, rfl, hx, hi, -, hy⟩ := h
  intro j hj
  rcases List.mem_append.mp hj with hj | hj
  · exact hx.tame j hj
  · rcases List.mem_cons.mp hj with rfl | hj
    · exact hi
    · exact hy.tame j hj

theorem rspDrop (h : CallsOnce code) : rspDrop code = 0 := by
  obtain ⟨xs, i, ys, rfl, hx, -, hi, hy⟩ := h
  rw [rspDrop_append, hx.rspDrop,
    show TinyC.rspDrop (i :: ys) = i.rspDrop + TinyC.rspDrop ys from rfl, hi, hy.rspDrop]
  rfl

/-- At the `callq` the stack pointer is as before. -/
theorem atCall (h : CallsOnce code) (hE : E.KeepsStack) {rest : List Instr}
    (hrest : ∀ j ∈ rest, j.isCall = false) {c : MState} (hc : AtCall E (code ++ rest) s c) :
    c.reg .rsp = s.reg .rsp := by
  obtain ⟨xs, i, ys, rfl, hx, -, -, hy⟩ := h
  rw [List.append_assoc, List.cons_append] at hc
  have hxs := atCall_append hx.noCall (fun j hj => (List.mem_append.mp hj).elim (hy.noCall j)
    (hrest j)) hc
  exact (hx.exec hE hxs).1

end CallsOnce

theorem callsOnce_memcpy (Γ : TypeEnv) (f : IRFunc) (ra : RegAlloc) {ins : IRInstr}
    (hop : ins.op = .memcpy) : CallsOnce (codegenInstr Γ f ra ins) := by
  refine ⟨loadReg ra ins.dst .rdi ++ loadReg ra ins.src1 .rsi ++ loadReg ra ins.src2 .rdx,
    .callSym "memcpy", [], by simp only [codegenInstr, hop], ?_, rfl, rfl, .nil⟩
  exact ((quiet_loadReg ra _ (by decide)).append (quiet_loadReg ra _ (by decide))).append
    (quiet_loadReg ra _ (by decide))

/-- A returned value is put in place quietly, or by copying it. -/
theorem returnValue_calls (Γ : TypeEnv) (f : IRFunc) (ra : RegAlloc) (v : IRValue) :
    Quiet (returnValue Γ f ra v) ∨ CallsOnce (returnValue Γ f ra v) := by
  have hload : ∀ (v : IRValue) {r : Reg}, r.Free → Quiet (loadReg ra v r) := fun v _ hr =>
    quiet_loadReg ra v hr
  unfold returnValue
  cases hk : v.kind with
  | none => exact .inl .nil
  | _ =>
    dsimp only
    split
    · refine .inr ⟨_ ++ _ ++ [_], .callSym "memcpy", _, by
        simp only [List.append_assoc, List.cons_append, List.nil_append]; rfl, ?_, rfl, rfl, ?_⟩
      · exact ((hload _ (by decide)).append (hload _ (by decide))).append (.cons rfl .nil)
      · exact hload _ (by decide)
    · left
      refine .ite ?_ (.ite (quiet_loadXmm ra v 0) (.ite ((hload v (by decide)).append ?_) .nil))
      · first
          | exact .nil
          | exact (hload v (by decide)).append (quiet_loadReturnEightbytes _ _ _ _ _)
      · split
        · exact quiet_normalizeRax Γ _
        · exact .nil

/-- At every `callq` of the code of one instruction the stack pointer is a multiple of 16. -/
theorem atCall_aligned (hE : E.KeepsStack) (hdvd : 16 ∣ ra.frameSize) (hs : Balanced ra s)
    (halign : 16 ∣ (s.reg .rbp).toNat) (hc : AtCall E (codegenInstr Γ f ra ins) s c) :
    16 ∣ (c.reg .rsp).toNat := by
  have hhere : 16 ∣ (s.reg .rsp).toNat := by
    rw [hs]
    exact aligned_sub halign hdvd
  have hquiet : ∀ {code}, Quiet code → ¬AtCall E code s c := fun hq => not_atCall hq.noCall
  have hjcc : ∀ cc, ∀ j ∈ loadReg ra ins.src1 .rax ++ [.test .rax .rax, .jcc cc ins.labelId],
      j.isCall = false := by
    intro cc j hj
    rcases List.mem_append.mp hj with hj | hj
    · exact (quiet_loadReg ra ins.src1 (by decide)).noCall j hj
    · rcases List.mem_cons.mp hj with rfl | hj
      · rfl
      · rw [List.mem_singleton.mp hj]
        rfl
  by_cases hop : ins.op ∉ [.jmp, .jz, .jnz, .call, .ret, .memcpy]
  · exact absurd hc (hquiet (quiet_codegenInstr Γ ra f ins hop))
  · simp only [List.mem_cons, List.not_mem_nil, or_false, not_not] at hop
    rcases hop with hop | hop | hop | hop | hop | hop
    · rw [codegenInstr, hop] at hc
      exact absurd hc (not_atCall (by simp [Instr.isCall]))
    · rw [codegenInstr, hop] at hc
      exact absurd hc (not_atCall (hjcc _))
    · rw [codegenInstr, hop] at hc
      exact absurd hc (not_atCall (hjcc _))
    · rw [codegenInstr, hop] at hc
      rw [callSetup_rsp hE hs (atCall_codegenCall hc)]
      exact aligned_sub halign (alignPad_dvd _ _)
    · rw [codegenInstr, hop] at hc
      have hleave : ∀ j ∈ [Instr.leave, .ret], j.isCall = false := by simp [Instr.isCall]
      rcases returnValue_calls Γ f ra ins.src1 with hq | hcalls
      · refine absurd hc (not_atCall fun j hj => ?_)
        exact (List.mem_append.mp hj).elim (hq.noCall j) (hleave j)
      · rw [hcalls.atCall hE hleave hc]
        exact hhere
    · have hcalls := callsOnce_memcpy Γ f ra hop
      rw [← List.append_nil (codegenInstr Γ f ra ins)] at hc
      rw [hcalls.atCall hE (by simp) hc]
      exact hhere

/-- The registers after a jump or past it. -/
theorem exec_jcc {xs : List Instr} {cc : Cond} {l : ℤ} {e : Exit} (hE : E.KeepsStack)
    (hx : Quiet xs) (h : exec E (xs ++ [.jcc cc l]) s = some (s', e)) :
    s'.reg .rsp = s.reg .rsp ∧ s'.reg .rbp = s.reg .rbp := by
  obtain ⟨m, hm, hjcc⟩ := exec_append_inv hx.tame h
  have hs' : s' = m := by
    rw [exec] at hjcc
    split at hjcc <;> cases hjcc <;> rfl
  rw [hs']
  exact hx.exec hE hm

/-- The code of one instruction, however it is left but by a return, puts the stack pointer
back. -/
theorem balanced_codegenInstr {e : Exit} (hE : E.KeepsStack) (hs : Balanced ra s)
    (h : exec E (codegenInstr Γ f ra ins) s = some (s', e)) (he : e ≠ .ret) :
    Balanced ra s' ∧ s'.reg .rbp = s.reg .rbp := by
  have hkeep : s'.reg .rsp = s.reg .rsp ∧ s'.reg .rbp = s.reg .rbp →
      Balanced ra s' ∧ s'.reg .rbp = s.reg .rbp := by
    rintro ⟨hsp, hbp⟩
    exact ⟨by rw [Balanced, hsp, hbp]; exact hs, hbp⟩
  have htame : ∀ {code}, exec E code s = some (s', e) → (∀ i ∈ code, i.tame = true) →
      rspDrop code = 0 → s'.reg .rsp = s.reg .rsp ∧ s'.reg .rbp = s.reg .rbp := by
    intro code hcode ht hdrop
    obtain ⟨-, hsp, hbp⟩ := exec_tame hE hcode ht
    rw [hdrop] at hsp
    exact ⟨hsp.trans (BitVec.sub_zero _), hbp⟩
  have hrax := quiet_loadReg ra ins.src1 (show Reg.rax.Free by decide)
  have htest : Quiet (loadReg ra ins.src1 .rax ++ [.test .rax .rax]) := hrax.append (.cons rfl .nil)
  apply hkeep
  by_cases hop : ins.op ∉ [.jmp, .jz, .jnz, .call, .ret, .memcpy]
  · exact (quiet_codegenInstr Γ ra f ins hop).exec hE h
  · simp only [List.mem_cons, List.not_mem_nil, or_false, not_not] at hop
    rcases hop with hop | hop | hop | hop | hop | hop
    · rw [codegenInstr, hop] at h
      cases h
      exact ⟨rfl, rfl⟩
    · rw [codegenInstr, hop] at h
      exact exec_jcc hE htest (by simpa using h)
    · rw [codegenInstr, hop] at h
      exact exec_jcc hE htest (by simpa using h)
    · rw [codegenInstr, hop] at h
      exact htame h (tame_codegenCall Γ ra ins) (rspDrop_codegenCall Γ ra ins)
    · rw [codegenInstr, hop] at h
      have hret : ∀ i ∈ returnValue Γ f ra ins.src1, i.tame = true :=
        (returnValue_calls Γ f ra ins.src1).elim Quiet.tame CallsOnce.tame
      obtain ⟨m, -, hrest⟩ := exec_append_inv hret h
      cases hrest
      exact absurd rfl he
    · have hcalls := callsOnce_memcpy Γ f ra hop
      exact htame h hcalls.tame hcalls.rspDrop

end Function

/-! ### Runs -/

/-- One instruction of the intermediate representation, run as machine code. -/
inductive CodeStep (E : Env) (Γ : TypeEnv) (f : IRFunc) : ℕ × MState → ℕ × MState → Prop where
  | fall {pc ins s s'} : f.instrs[pc]? = some ins →
      exec E (codegenInstr Γ f (regallocRun f) ins) s = some (s', .fall) →
      CodeStep E Γ f (pc, s) (pc + 1, s')
  | jump {pc ins s s' l pc' target} : f.instrs[pc]? = some ins →
      exec E (codegenInstr Γ f (regallocRun f) ins) s = some (s', .jump l) →
      f.instrs[pc']? = some target → target.op = .label → target.labelId = l →
      CodeStep E Γ f (pc, s) (pc', s')

/-- The states a function comes to between two of its instructions. -/
def CodeRun (E : Env) (Γ : TypeEnv) (f : IRFunc) : ℕ × MState → ℕ × MState → Prop :=
  Relation.ReflTransGen (CodeStep E Γ f)

section Run

variable {Γ : TypeEnv} {f : IRFunc} {s₀ s₁ : MState}

theorem balanced_step {p q : ℕ × MState} (hE : E.KeepsStack) (h : CodeStep E Γ f p q)
    (hs : Balanced (regallocRun f) p.2) :
    Balanced (regallocRun f) q.2 ∧ q.2.reg .rbp = p.2.reg .rbp := by
  cases h with
  | fall _ hx => exact balanced_codegenInstr hE hs hx nofun
  | jump _ hx => exact balanced_codegenInstr hE hs hx nofun

theorem balanced_run {p q : ℕ × MState} (hE : E.KeepsStack) (h : CodeRun E Γ f p q)
    (hs : Balanced (regallocRun f) p.2) :
    Balanced (regallocRun f) q.2 ∧ q.2.reg .rbp = p.2.reg .rbp := by
  induction h with
  | refl => exact ⟨hs, rfl⟩
  | tail _ hstep ih =>
    obtain ⟨hbal, hbp⟩ := balanced_step hE hstep ih.1
    exact ⟨hbal, hbp.trans ih.2⟩

theorem balanced_prologue {ra : RegAlloc} (h : exec E (prologue ra) s₀ = some (s₁, .fall)) :
    Balanced ra s₁ := by
  cases h
  have hquad : ∀ v : BitVec 64, zeroExt 8 v = v := zeroExt_eight
  simp only [Balanced, MState.put, MState.writeReg, MState.get, Width.bytes, hquad, AluOp.eval]
  rw [setReg_reg_self, setReg_reg_self, setReg_reg_of_ne _ _ (by decide), setReg_reg_self,
    setReg_reg_of_ne _ _ (by decide), setReg_reg_self]

/-- From the prologue on, along every path: between two instructions `%rsp` is `frame_size`
below `%rbp`, at every `callq` it is a multiple of 16, and the stack arguments of a call are
counted as they are pushed, the first at `%rsp` and the later ones above it. -/
theorem stack_pointer_balanced {s : MState} {pc : ℕ} (hE : E.KeepsStack)
    (hpro : exec E (prologue (regallocRun f)) s₀ = some (s₁, .fall))
    (halign : 16 ∣ (s₁.reg .rbp).toNat) (hrun : CodeRun E Γ f (0, s₁) (pc, s)) :
    Balanced (regallocRun f) s ∧
      ∀ ins, f.instrs[pc]? = some ins →
        (∀ s' e, exec E (codegenInstr Γ f (regallocRun f) ins) s = some (s', e) → e ≠ .ret →
          Balanced (regallocRun f) s') ∧
        (∀ c, AtCall E (codegenInstr Γ f (regallocRun f) ins) s c → 16 ∣ (c.reg .rsp).toNat) ∧
        (ins.op = .call → CallStack E Γ f (regallocRun f) ins s) := by
  obtain ⟨hbal, hbp⟩ := balanced_run hE hrun (balanced_prologue hpro)
  have hhere : 16 ∣ (s.reg .rbp).toNat := by
    rw [hbp]
    exact halign
  refine ⟨hbal, fun ins _ => ⟨?_, ?_, callStack hE⟩⟩
  · intro s' e hx he
    exact (balanced_codegenInstr hE hbal hx he).1
  · intro c hc
    exact atCall_aligned hE (frameSize_dvd f) hbal hhere hc

end Run

/-- Called functions that do nothing. -/
def transparentEnv : Env where
  fp := ⟨fun _ _ v _ => v, fun _ _ => {}, fun _ v => v, fun _ v => v⟩
  sym _ := 0
  call _ s := s

/-- `f(0.0, 1, …, 7)`, whose last argument goes to the stack. -/
def spillingCaller : IRFunc :=
  { name := "g"
    funcType := none
    instrs := [irCall .empty (irvTemp 9 typeVoid) (irvGlobal "f" typeVoid)
      (spillingArgs ++ [irvTemp 7 typeLong]) typeVoid]
    nextTemp := 10 }

/-- `%rsp` is 8 short of a multiple of 16 when a function is entered. -/
def enteredState : MState := ⟨fun _ => 4104, fun _ => 0, {}, fun _ => 0⟩

/-- After the prologue. -/
def readyState : MState :=
  ((exec transparentEnv (prologue (regallocRun spillingCaller)) enteredState).get rfl).1

theorem stack_pointer_at_spilling_call :
    Balanced (regallocRun spillingCaller) readyState ∧
      ∀ ins, spillingCaller.instrs[0]? = some ins →
        (∀ s' e, exec transparentEnv (codegenInstr .empty spillingCaller (regallocRun spillingCaller) ins)
            readyState = some (s', e) → e ≠ .ret → Balanced (regallocRun spillingCaller) s') ∧
        (∀ c, AtCall transparentEnv (codegenInstr .empty spillingCaller (regallocRun spillingCaller) ins)
            readyState c → 16 ∣ (c.reg .rsp).toNat) ∧
        (ins.op = .call →
          CallStack transparentEnv .empty spillingCaller (regallocRun spillingCaller) ins readyState) :=
  stack_pointer_balanced (show transparentEnv.KeepsStack from ⟨fun _ _ => rfl, fun _ _ => rfl⟩)
    (show exec transparentEnv (prologue (regallocRun spillingCaller)) enteredState =
      some (readyState, .fall) from rfl)
    (show 16 ∣ (4096#64).toNat by decide) .refl

example : goesToStack .empty false spillingArgs (irvTemp 7 typeLong) = true := by decide

end TinyC
