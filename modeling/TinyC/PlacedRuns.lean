import TinyC.Designation

/-!
# Runs of address arithmetic

A run of the code of an expression is one of the code of its parts. The sums, differences and
products on the way to an address are those of words.
-/

namespace TinyC

open ByteMemory

section

variable {Γ : TypeEnv} {N : Bindings} {W : Type} {A : AddressMachine W} {R : Residence}
  {F : List IRInstr} {α β : Type} {m : Gen α} {k : α → Gen β} {g : IrGen}
  {s : IrState W (BitVec 64)} {v : IRValue} {own : Set ℕ}

theorem genExpr_completes (Γ : TypeEnv) (A : AddressMachine W) (e : Expr) :
    Completes A.toLiveMachine ∅ (genExpr Γ e) := (Completes.rules.node Γ e).expr ∅

theorem genLvalue_completes (Γ : TypeEnv) (A : AddressMachine W) (e : Expr) :
    Completes A.toLiveMachine ∅ (genLvalue Γ e) := (Completes.rules.node Γ e).lvalue ∅

theorem IRValue.HasSlot.operand_eq {n : ℕ} {τ τ' : ℕ → BitVec 64} (hv : v.HasSlot n)
    (h : ∀ t < n, τ' t = τ t) : A.operand τ' v = A.operand τ v := by
  rw [A.operand_eq, A.operand_eq, ObjectLayout.operand, ObjectLayout.operand]
  cases hk : v.kind with
  | temp t => exact h t (hv.2 t hk).2
  | _ => rfl

namespace PlacedRun

theorem traverses (h : PlacedRun N A F m g s) (hm : Completes A.toLiveMachine ∅ m) :
    Traverses A.toLiveMachine F g.pos (m g).2.pos ∅ g.func.nextTemp s (A.after F m g s) :=
  h.stands.traverses hm

/-- The code leaves operands alone that were there before. -/
theorem operand_after (h : PlacedRun N A F m g s) (hm : Completes A.toLiveMachine ∅ m)
    (hv : v.HasSlot g.func.nextTemp) :
    A.operand (A.after F m g s).temps v = A.operand s.temps v :=
  hv.operand_eq fun t ht => (h.traverses hm).frame h.live t (Set.notMem_empty t) ht

theorem after_eq (h : PlacedRun N A F (m >>= k) g s) (hm : Completes A.toLiveMachine ∅ m)
    (hk : Completes A.toLiveMachine own (k (m g).1)) :
    A.after F (m >>= k) g s = A.after F (k (m g).1) (m g).2 (A.after F m g s) :=
  after_bind h.stands hm hk

theorem word_eq {k : α → Gen IRValue} (h : PlacedRun N A F (m >>= k) g s)
    (hm : Completes A.toLiveMachine ∅ m) (hk : Completes A.toLiveMachine own (k (m g).1)) :
    A.word F (m >>= k) g s = A.word F (k (m g).1) (m g).2 (A.after F m g s) :=
  congrArg (fun s' : IrState W (BitVec 64) => A.operand s'.temps (k (m g).1 (m g).2).1)
    (h.after_eq hm hk)

/-- The code of the first of two generators is run. -/
theorem first (h : PlacedRun N A F (m >>= k) g s) (hm : Completes A.toLiveMachine ∅ m)
    (hk : Completes A.toLiveMachine own (k (m g).1)) : PlacedRun N A F m g s where
  ready := h.ready
  binds := h.binds
  reserved := h.reserved
  stands := h.stands.first hk
  live := by
    have hlive := h.live
    rw [h.after_eq hm hk] at hlive
    exact ((h.stands.second hm hk).traverses hk).still hlive

theorem reserved_after (h : PlacedRun N A F m g s) (hm : Completes A.toLiveMachine ∅ m) :
    Reserved A.layout N (A.after F m g s).temps := fun x t ht =>
  ((h.traverses hm).frame h.live t (Set.notMem_empty t) (h.binds.slot_lt h.ready ht)).trans
    (h.reserved x t ht)

/-- So is that of the second. -/
theorem second (h : PlacedRun N A F (m >>= k) g s) (hm : Completes A.toLiveMachine ∅ m)
    (hext : Emits m) (hk : Completes A.toLiveMachine own (k (m g).1)) :
    PlacedRun N A F (k (m g).1) (m g).2 (A.after F m g s) where
  ready := h.ready.extends (hext g)
  binds := h.binds.of_scope_eq (hext g).scope
  reserved := (h.first hm hk).reserved_after hm
  stands := h.stands.second hm hk
  live := h.after_eq hm hk ▸ h.live

theorem newTemp {k : ℕ → Gen α} (h : PlacedRun N A F (newTemp >>= k) g s) :
    PlacedRun N A F (k g.func.nextTemp) (TinyC.newTemp g).2 s where
  ready := h.ready.extends (Emits.newTemp g)
  binds := h.binds
  reserved := h.reserved
  stands := ⟨h.stands.nodup, h.stands.code, h.stands.pc⟩
  live := h.live

theorem word_pure (h : PlacedRun N A F (pure v : Gen IRValue) g s) :
    A.word F (pure v) g s = A.operand s.temps v :=
  congrArg (fun s' : IrState W (BitVec 64) => A.operand s'.temps v)
    (after_eq_of_pos_eq h.stands rfl)

end PlacedRun

/-! ### Address arithmetic -/

/-- `+`, `-` and `*` on words. -/
def IROp.onWords : IROp → Option (BitVec 64 → BitVec 64 → BitVec 64)
  | .add => some (· + ·)
  | .sub => some (· - ·)
  | .mul => some (· * ·)
  | _ => none

namespace PlacedRun

variable {ins : IRInstr} {t : ℕ} {ty : CType} {a b : IRValue}

/-- An instruction and then the temp it writes. -/
theorem word_emit (h : PlacedRun N A F (emit ins >>= fun _ => pure (irvTemp t ty)) g s)
    (hop : ins.op.performs) :
    A.word F (emit ins >>= fun _ => pure (irvTemp t ty)) g s =
        (A.effect ins s.world s.temps).2 t ∧
      A.live (A.effect ins s.world s.temps).1 := by
  have hemit : Stands F (emit ins) g s := ⟨h.stands.nodup, h.stands.code, h.stands.pc⟩
  have hend : A.after F (emit ins >>= fun _ => pure (irvTemp t ty)) g s = A.perform s ins :=
    TinyC.after_emit hemit (step_of_performs (h.stands.pc ▸ instr_at h.stands.code) hop) rfl
  have hlive := h.live
  rw [hend] at hlive
  refine ⟨?_, hlive⟩
  change A.operand (A.after F _ g s).temps (irvTemp t ty) = _
  rw [hend]
  rfl

theorem word_arith {op : IROp} {f : BitVec 64 → BitVec 64 → BitVec 64}
    (hop : IROp.onWords op = some f)
    (h : PlacedRun N A F (emit { op := op, dst := irvTemp t ty, src1 := a, src2 := b } >>= fun _ =>
      pure (irvTemp t ty)) g s) :
    A.word F (emit { op := op, dst := irvTemp t ty, src1 := a, src2 := b } >>= fun _ =>
      pure (irvTemp t ty)) g s = f (A.operand s.temps a) (A.operand s.temps b) := by
  have hperforms : op.performs := by cases op <;> first | rfl | cases hop
  obtain ⟨hword, hlive⟩ := h.word_emit hperforms
  rw [hword]
  cases op <;> cases hop
  · exact A.add rfl rfl hlive
  · exact A.sub rfl rfl hlive
  · exact A.mul rfl rfl hlive

theorem word_emitTo {op : IROp} {f : BitVec 64 → BitVec 64 → BitVec 64}
    (hop : IROp.onWords op = some f) (h : PlacedRun N A F (emitTo ty op a b) g s) :
    A.word F (emitTo ty op a b) g s = f (A.operand s.temps a) (A.operand s.temps b) := by
  have hword := h.newTemp.word_arith hop
  exact hword

theorem word_genScaled {n : ℤ} (h : PlacedRun N A F (genScaled v n) g s) :
    A.word F (genScaled v n) g s = A.operand s.temps v * BitVec.ofInt 64 n := by
  unfold genScaled at h ⊢
  split at h
  · rename_i hn
    rw [if_pos hn, h.word_pure, hn]
    exact (BitVec.mul_one _).symm
  · rename_i hn
    rw [if_neg hn, h.word_emitTo rfl, A.operand_eq _ (irvInt _ _)]
    rfl

theorem word_genAddrOffset {n : ℤ} (h : PlacedRun N A F (genAddrOffset a n ty) g s) :
    A.word F (genAddrOffset a n ty) g s = A.operand s.temps a + BitVec.ofInt 64 n := by
  unfold genAddrOffset at h ⊢
  split at h
  · rename_i hzero
    rw [if_pos hzero, h.word_pure, of_decide_eq_true (Bool.and_eq_true_iff.mp hzero).1]
    exact (BitVec.add_zero _).symm
  · rename_i hzero
    rw [if_neg hzero, h.word_emitTo (f := (· + ·)) rfl, A.operand_eq _ (irvInt _ _)]
    rfl

/-- A scaled operand is added to another one or subtracted from it. -/
theorem word_scaledSum {op : IROp} {f : BitVec 64 → BitVec 64 → BitVec 64} {n : ℤ}
    (hop : IROp.onWords op = some f) (ha : a.HasSlot g.func.nextTemp)
    (h : PlacedRun N A F (genScaled v n >>= fun w =>
      emit { op := op, dst := irvTemp t ty, src1 := a, src2 := w } >>= fun _ =>
        pure (irvTemp t ty)) g s) :
    A.word F (genScaled v n >>= fun w =>
      emit { op := op, dst := irvTemp t ty, src1 := a, src2 := w } >>= fun _ =>
        pure (irvTemp t ty)) g s =
      f (A.operand s.temps a) (A.operand s.temps v * BitVec.ofInt 64 n) := by
  have hscaled : Completes A.toLiveMachine ∅ (genScaled v n) := Completes.rules.genScaled v n
  have hstraight : op.straight := by cases op <;> first | rfl | cases hop
  have hrest : ∀ w, Completes A.toLiveMachine {t}
      (emit { op := op, dst := irvTemp t ty, src1 := a, src2 := w } >>= fun _ =>
        (pure (irvTemp t ty) : Gen IRValue)) := fun w =>
    Completes.rules.seq (Completes.rules.emit hstraight (.inr fun u hu => by cases hu; rfl)) _
  have hfirst := h.first hscaled (hrest _)
  have hsecond := h.second hscaled (Emits.genScaled v n) (hrest _)
  rw [h.word_eq hscaled (hrest _), hsecond.word_arith hop, hfirst.operand_after hscaled ha]
  exact congrArg (f _) hfirst.word_genScaled

end PlacedRun

/-- The code of two operands is run, one after the other, and then that of `k`. -/
structure RunOfOperands (Γ : TypeEnv) (N : Bindings) (A : AddressMachine W) (F : List IRInstr)
    (l r : Expr) (k : IRValue → IRValue → Gen IRValue) (g : IrGen) (s : IrState W (BitVec 64)) :
    Prop where
  left : PlacedRun N A F (genExpr Γ l) g s
  right : PlacedRun N A F (genExpr Γ r) (genExpr Γ l g).2 (A.after F (genExpr Γ l) g s)
  rest : PlacedRun N A F (k (genExpr Γ l g).1 (genExpr Γ r (genExpr Γ l g).2).1)
    (genExpr Γ r (genExpr Γ l g).2).2
    (A.after F (genExpr Γ r) (genExpr Γ l g).2 (A.after F (genExpr Γ l) g s))
  word : A.word F (genExpr Γ l >>= fun lv => genExpr Γ r >>= k lv) g s =
    A.word F (k (genExpr Γ l g).1 (genExpr Γ r (genExpr Γ l g).2).1)
      (genExpr Γ r (genExpr Γ l g).2).2
      (A.after F (genExpr Γ r) (genExpr Γ l g).2 (A.after F (genExpr Γ l) g s))
  leftWord : A.operand (A.after F (genExpr Γ r) (genExpr Γ l g).2
    (A.after F (genExpr Γ l) g s)).temps (genExpr Γ l g).1 = A.word F (genExpr Γ l) g s
  leftSlot : (genExpr Γ l g).1.HasSlot (genExpr Γ r (genExpr Γ l g).2).2.func.nextTemp
  rightSlot : (genExpr Γ r (genExpr Γ l g).2).1.HasSlot
    (genExpr Γ r (genExpr Γ l g).2).2.func.nextTemp

theorem PlacedRun.operands {l r : Expr} {k : IRValue → IRValue → Gen IRValue}
    (h : PlacedRun N A F (genExpr Γ l >>= fun lv => genExpr Γ r >>= k lv) g s)
    (hk : ∀ lv rv, Completes A.toLiveMachine ∅ (k lv rv)) :
    RunOfOperands Γ N A F l r k g s := by
  have hl := genExpr_completes Γ A l
  have hr := genExpr_completes Γ A r
  have hrest : ∀ lv, Completes A.toLiveMachine ∅ (genExpr Γ r >>= k lv) := fun lv =>
    Completes.rules.bind hr (hk lv)
  have hleft := h.first hl (hrest _)
  have hsecond := h.second hl (genNode_emits Γ l).expr (hrest _)
  have hright := hsecond.first hr (hk _ _)
  have hslot := (genNode_givesSlots Γ l).expr g h.ready
  exact
    { left := hleft
      right := hright
      rest := hsecond.second hr (genNode_emits Γ r).expr (hk _ _)
      word := (h.word_eq hl (hrest _)).trans (hsecond.word_eq hr (hk _ _))
      leftWord := hright.operand_after hr hslot
      leftSlot := hslot.mono ((genNode_emits Γ r).expr _).temps
      rightSlot := (genNode_givesSlots Γ r).expr _ hright.ready }

/-- The code of `a + v * n` or `a - v * n`, which takes the temp of the result first. -/
def scaledSum (op : IROp) (ty : CType) (a v : IRValue) (n : ℤ) : Gen IRValue :=
  newTemp >>= fun t => genScaled v n >>= fun w =>
    emit { op := op, dst := irvTemp t ty, src1 := a, src2 := w } >>= fun _ => pure (irvTemp t ty)

theorem scaledSum_completes {op : IROp} (hop : op.straight) (ty : CType) (a v : IRValue) (n : ℤ) :
    Completes A.toLiveMachine ∅ (scaledSum op ty a v n) :=
  Completes.rules.newTemp_bind fun _ => Completes.rules.bind (Completes.rules.genScaled _ _)
    fun _ => Completes.rules.seq (Completes.rules.emit hop (writesIn_temp rfl _)) _

theorem PlacedRun.word_scaledSum_temp {op : IROp} {f : BitVec 64 → BitVec 64 → BitVec 64} {n : ℤ}
    {a : IRValue} {ty : CType} (hop : IROp.onWords op = some f) (ha : a.HasSlot g.func.nextTemp)
    (h : PlacedRun N A F (scaledSum op ty a v n) g s) :
    A.word F (scaledSum op ty a v n) g s =
      f (A.operand s.temps a) (A.operand s.temps v * BitVec.ofInt 64 n) := by
  have hword := h.newTemp.word_scaledSum hop (ha.mono (Nat.le_succ _))
  exact hword

/-! ### A machine on which all code runs -/

/-- What an instruction leaves in its temp where nothing is undefined. What is left open is
zero. -/
def freeWord (K : ObjectLayout) (ins : IRInstr) (τ : ℕ → BitVec 64) : BitVec 64 :=
  match ins.op, ins.dst.kind with
  | .alloca, .temp t => K.place t
  | .add, _ => K.operand τ ins.src1 + K.operand τ ins.src2
  | .sub, _ => K.operand τ ins.src1 - K.operand τ ins.src2
  | .mul, _ => K.operand τ ins.src1 * K.operand τ ins.src2
  | _, _ => 0

def freeEffect (K : ObjectLayout) (ins : IRInstr) (τ : ℕ → BitVec 64) : ℕ → BitVec 64 :=
  if ins.usesDst && ins.op ≠ .copy then τ else IrMachine.writeTemp τ ins.dst (freeWord K ins τ)

theorem freeEffect_dst {K : ObjectLayout} {ins : IRInstr} {τ : ℕ → BitVec 64} {t : ℕ}
    (huses : ins.usesDst = false) (ht : ins.dst.kind = .temp t) :
    freeEffect K ins τ t = freeWord K ins τ := by
  rw [freeEffect, huses, Bool.false_and, if_neg Bool.false_ne_true, IrMachine.writeTemp, ht]
  exact Function.update_self ..

def freeIrMachine (K : ObjectLayout) : IrMachine Unit (BitVec 64) where
  literal v := K.operand (fun _ => 0) v
  isTrue w := w ≠ 0
  effect ins _ τ := ((), freeEffect K ins τ)

theorem freeIrMachine_operand (K : ObjectLayout) (τ : ℕ → BitVec 64) (v : IRValue) :
    (freeIrMachine K).operand τ v = K.operand τ v := by
  obtain ⟨kind, ty⟩ := v
  cases kind <;> rfl

theorem freeMachine_arith {K : ObjectLayout} {ins : IRInstr} {τ : ℕ → BitVec 64} {t : ℕ}
    {f : BitVec 64 → BitVec 64 → BitVec 64} (hop : IROp.onWords ins.op = some f)
    (ht : ins.dst.kind = .temp t) : freeEffect K ins τ t =
      f ((freeIrMachine K).operand τ ins.src1) ((freeIrMachine K).operand τ ins.src2) := by
  have huses : ins.usesDst = false := by
    unfold IRInstr.usesDst
    cases hins : ins.op <;> first | rfl | (rw [hins] at hop; cases hop)
  rw [freeEffect_dst huses ht, freeIrMachine_operand, freeIrMachine_operand, freeWord]
  cases hins : ins.op <;> rw [hins] at hop <;> cases hop <;> rfl

/-- A machine on which nothing is undefined. -/
def freeMachine (K : ObjectLayout) : AddressMachine Unit where
  toIrMachine := freeIrMachine K
  live _ := True
  still _ := trivial
  frame {i _ τ own} hwrites _ t ht := by
    change freeEffect K i τ t = τ t
    rcases hwrites with ⟨huses, hcopy⟩ | hown
    · rw [freeEffect, if_pos (by simp [huses, hcopy])]
    · unfold freeEffect
      split
      · rfl
      · exact writeTemp_of_ne (fun hdst => ht (hown t hdst)) _
  layout := K
  literal_eq _ := rfl
  alloca {i w τ t} hop ht _ := by
    have huses : i.usesDst = false := by rw [IRInstr.usesDst, hop]
    refine (freeEffect_dst huses ht).trans ?_
    rw [freeWord, hop, ht]
  add hop ht _ := freeMachine_arith (by rw [hop]; rfl) ht
  sub hop ht _ := freeMachine_arith (by rw [hop]; rfl) ht
  mul hop ht _ := freeMachine_arith (by rw [hop]; rfl) ht

/-- Symbols, and what no storage is reserved for, lie apart from the storage of activations. -/
def apartLayout : ObjectLayout where
  sym _ := 1
  place _ := 0
  valid _ _ := true

def apartResidence : Residence where
  permanent _ := 1
  passed _ := 1

/-- Whatever the scope of the generator, its code is run somewhere. -/
theorem exists_placedRun {m : Gen α} (hm : Emits m) (hready : g.Ready) (hbinds : Binds N g) :
    ∃ g' F s, PlacedRun N (freeMachine apartLayout) F m g' s := by
  let g' : IrGen := { g with func := { g.func with instrs := [] } }
  have hnodup : (labelsOf (m g').2.func.instrs).Nodup :=
    (hm g').toAppendsWith.nodup List.nodup_nil fun l hl => absurd hl List.not_mem_nil
  exact ⟨g', (m g').2.func.instrs, ⟨0, (), fun _ => 0⟩,
    ⟨⟨hready.temps, hready.scope⟩, hbinds, fun _ _ _ => rfl, ⟨hnodup, List.prefix_rfl, rfl⟩,
      trivial⟩⟩

end

end TinyC
