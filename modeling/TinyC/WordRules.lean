import TinyC.StoreWidth
import TinyC.WordMachine
import TinyC.SlotValues

/-!
# Rules for generators of straight-line code

What a generator emits is run on the words of the temps. `Does` says that the run ends and what
holds of the value, of the generator and of the words after it.
-/

namespace TinyC

open ByteMemory

/-- The code that `m` emits in `g` runs from `σ`, and `Q` holds after it. -/
def Does {α : Type} (F : SlotFrame) (Γ : TypeEnv) (E : Env) (m : Gen α) (g : IrGen) (σ : WordState)
    (Q : α → IrGen → WordState → Prop) : Prop :=
  ∃ code σ', (m g).2.func.instrs = g.func.instrs ++ code ∧ F.Runs Γ E code σ ∧
    σ.run Γ E code = some σ' ∧ Q (m g).1 (m g).2 σ'

section

variable {F : SlotFrame} {Γ : TypeEnv} {E : Env} {g : IrGen} {σ σ' : WordState}
  {is js : List IRInstr}

theorem WordState.run_append (h : σ.run Γ E is = some σ') :
    σ.run Γ E (is ++ js) = σ'.run Γ E js := by
  induction is generalizing σ with
  | nil =>
    cases h
    rfl
  | cons i is ih =>
    obtain ⟨σ₁, hstep, hrest⟩ := Option.bind_eq_some_iff.mp h
    rw [List.cons_append, WordState.run, hstep]
    exact ih hrest

theorem SlotFrame.Runs.append (h : F.Runs Γ E is σ)
    (h' : ∀ σ', σ.run Γ E is = some σ' → F.Runs Γ E js σ') : F.Runs Γ E (is ++ js) σ := by
  induction is generalizing σ with
  | nil => exact h' σ rfl
  | cons i is ih =>
    obtain ⟨hins, hclear, hrest⟩ := h
    refine ⟨hins, hclear, fun σ₁ hstep => ih (hrest σ₁ hstep) fun σ' hrun => h' σ' ?_⟩
    rw [WordState.run, hstep]
    exact hrun

namespace Does

variable {α β : Type} {Q R : α → IrGen → WordState → Prop}

theorem pure {a : α} (h : Q a g σ) : Does F Γ E (Pure.pure a) g σ Q :=
  ⟨[], σ, (List.append_nil _).symm, trivial, rfl, h⟩

theorem bind {m : Gen α} {k : α → Gen β} {S : β → IrGen → WordState → Prop}
    (h : Does F Γ E m g σ fun a g' σ' => Does F Γ E (k a) g' σ' S) :
    Does F Γ E (m >>= k) g σ S := by
  obtain ⟨code, σ₁, hcode, hruns, hrun, code', σ₂, hcode', hruns', hrun', hS⟩ := h
  refine ⟨code ++ code', σ₂, ?_, hruns.append fun σ' hσ' => ?_, ?_, hS⟩
  · exact hcode'.trans (by rw [hcode, List.append_assoc])
  · rw [hrun] at hσ'
    cases hσ'
    exact hruns'
  · rw [WordState.run_append hrun, hrun']

theorem andThen {m : Gen α} {k : α → Gen β} {S : β → IrGen → WordState → Prop}
    (h : Does F Γ E m g σ Q) (hk : ∀ a g' σ', Q a g' σ' → Does F Γ E (k a) g' σ' S) :
    Does F Γ E (m >>= k) g σ S := by
  obtain ⟨code, σ₁, hcode, hruns, hrun, hq⟩ := h
  exact bind ⟨code, σ₁, hcode, hruns, hrun, hk _ _ _ hq⟩

theorem mono {m : Gen α} (h : Does F Γ E m g σ Q) (hQ : ∀ a g' σ', Q a g' σ' → R a g' σ') :
    Does F Γ E m g σ R := by
  obtain ⟨code, σ', hcode, hruns, hrun, hq⟩ := h
  exact ⟨code, σ', hcode, hruns, hrun, hQ _ _ _ hq⟩

/-- One instruction. -/
theorem emit {ins : IRInstr} {Q : Unit → IrGen → WordState → Prop} (hins : F.Handles ins)
    (hclear : ∀ r, σ.access Γ E ins = some r → F.Clear r.1 r.2)
    (hstep : σ.step Γ E ins = some σ') (h : Q () (emit ins g).2 σ') :
    Does F Γ E (emit ins) g σ Q := by
  refine ⟨[ins], σ', rfl, ⟨hins, hclear, fun _ _ => trivial⟩, ?_, h⟩
  rw [WordState.run, hstep]
  rfl

end Does

/-! ### Words that are kept -/

theorem SlotFrame.usable_of_hasSlot {v : IRValue} {n : ℕ} (h : v.HasSlot n) (hn : n ≤ F.temps) :
    F.Usable v := h.mono hn

/-- The temps taken before `n` and the memory are as they were. -/
structure WordState.Keeps (n : ℕ) (σ σ' : WordState) : Prop where
  temp : ∀ t < n, σ'.temp t = σ.temp t
  mem : σ'.mem = σ.mem

namespace WordState.Keeps

variable {n n' : ℕ} {σ'' : WordState}

theorem refl (n : ℕ) (σ : WordState) : Keeps n σ σ := ⟨fun _ _ => rfl, rfl⟩

theorem trans (h : Keeps n σ σ') (h' : Keeps n' σ' σ'') (hn : n ≤ n') : Keeps n σ σ'' :=
  ⟨fun t ht => (h'.temp t (ht.trans_le hn)).trans (h.temp t ht), h'.mem.trans h.mem⟩

theorem setTemp (σ : WordState) (n : ℕ) (w : BitVec 64) : Keeps n σ (σ.setTemp n w) :=
  ⟨fun _ ht => σ.setTemp_of_ne w ht.ne, rfl⟩

theorem word (h : Keeps n σ σ') {v : IRValue} (hv : v.HasSlot n) : σ'.word E v = σ.word E v := by
  unfold WordState.word
  cases hk : v.kind with
  | temp u => exact h.temp u (hv.2 u hk).2
  | _ => rfl

end WordState.Keeps

/-! ### Values -/

/-- Of a value computed in `g`: it is the word `w`, it has a slot, and what was there is kept. -/
structure Yielded (E : Env) (g : IrGen) (σ : WordState) (w : BitVec 64) (v : IRValue) (g' : IrGen)
    (σ' : WordState) : Prop where
  word : σ'.word E v = w
  slot : v.HasSlot g'.func.nextTemp
  temps : g.func.nextTemp ≤ g'.func.nextTemp
  keeps : σ.Keeps g.func.nextTemp σ'

theorem isArith_ne_store {op : IROp} (hop : op.isArith = true) : op ≠ .store := by
  rintro rfl
  cases hop

section

variable {op : IROp} {t : ℕ} {ty : CType} {a b : IRValue}

theorem WordState.step_arith (hop : op.isArith = true) :
    σ.step Γ E { op := op, dst := irvTemp t ty, src1 := a, src2 := b } =
      (machineBinop op false (σ.word E a) (σ.word E b)).map (σ.setTemp t) := by
  cases op <;> first | rfl | cases hop

theorem WordState.access_arith (hop : op.isArith = true) :
    σ.access Γ E { op := op, dst := irvTemp t ty, src1 := a, src2 := b } = none := by
  cases op <;> first | rfl | cases hop

end

namespace Does

variable {Q : IRValue → IrGen → WordState → Prop} {a b : IRValue} {ty : CType} {w : BitVec 64}

theorem handles_result {op : IROp} (hop : op ≠ .store) (hknown : op = .load ∨ op.isArith = true)
    (hty : isFpType (some ty) = false) {t : ℕ} (ht : 1 ≤ t) (htF : t < F.temps) (ha : F.Usable a)
    (hb : op.isArith = true → F.Usable b) :
    F.Handles { op := op, dst := irvTemp t ty, src1 := a, src2 := b } where
  op := .inr hknown
  src1 := ha
  src2 := hb
  dst := IRValue.HasSlot.temp ty ht htF
  result _ := ⟨t, rfl⟩
  word := by rw [if_neg hop]; exact hty

/-- An operator on two values at hand. -/
theorem emitTo {op : IROp} (hop : op.isArith = true) (hty : isFpType (some ty) = false)
    (hg : 1 ≤ g.func.nextTemp) (hF : g.func.nextTemp < F.temps) (ha : a.HasSlot g.func.nextTemp)
    (hb : b.HasSlot g.func.nextTemp)
    (hw : machineBinop op false (σ.word E a) (σ.word E b) = some w) :
    Does F Γ E (emitTo ty op a b) g σ fun v g' σ' => Yielded E g σ w v g' σ' ∧
      g'.func.nextTemp = g.func.nextTemp + 1 ∧ v.type = some ty := by
  let ins : IRInstr := { op := op, dst := irvTemp g.func.nextTemp ty, src1 := a, src2 := b }
  refine ⟨[ins], σ.setTemp g.func.nextTemp w, rfl, ⟨?_, ?_, fun _ _ => trivial⟩, ?_,
    ⟨?_, ?_, Nat.le_succ _, ?_⟩, rfl, rfl⟩
  · exact handles_result (isArith_ne_store hop) (.inr hop) hty hg hF (ha.mono hF.le)
      fun _ => hb.mono hF.le
  · intro r hr
    rw [WordState.access_arith hop] at hr
    cases hr
  · rw [WordState.run, WordState.step_arith hop, hw]
    rfl
  · exact WordState.setTemp_self _ _ _
  · exact .temp ty hg (Nat.lt_succ_self _)
  · exact .setTemp _ _ _

/-- A load from an object clear of the slots. -/
theorem genLoad (hty : isFpType (some ty) = false) (hg : 1 ≤ g.func.nextTemp)
    (hF : g.func.nextTemp < F.temps) (ha : a.HasSlot g.func.nextTemp)
    (hclear : F.Clear (σ.word E a) (accessBytes Γ (some ty))) :
    Does F Γ E (genLoad a ty) g σ fun v g' σ' =>
      Yielded E g σ (readWord Γ (some ty) σ.mem (σ.word E a)) v g' σ' ∧
        g'.func.nextTemp = g.func.nextTemp + 1 := by
  let ins : IRInstr := { op := .load, dst := irvTemp g.func.nextTemp ty, src1 := a, src2 := irvNone }
  let w := readWord Γ (some ty) σ.mem (σ.word E a)
  refine ⟨[ins], σ.setTemp g.func.nextTemp w, rfl, ⟨?_, ?_, fun _ _ => trivial⟩, rfl,
    ⟨?_, ?_, Nat.le_succ _, ?_⟩, rfl⟩
  · have hstore : IROp.load ≠ .store := by decide
    exact handles_result hstore (.inl rfl) hty hg hF (ha.mono hF.le) nofun
  · intro r hr
    cases hr
    exact hclear
  · exact WordState.setTemp_self _ _ _
  · exact .temp ty hg (Nat.lt_succ_self _)
  · exact .setTemp _ _ _

/-- A store to an object clear of the slots. -/
theorem genStore {v : IRValue} {n : ℕ} (hn : n = accessBytes Γ (pointeeOrStored a.type v.type))
    (hty : isFpType (pointeeOrStored a.type v.type) = false) (ha : a.HasSlot g.func.nextTemp)
    (hv : v.HasSlot g.func.nextTemp) (hF : g.func.nextTemp ≤ F.temps)
    (hclear : F.Clear (σ.word E a) n) :
    Does F Γ E (genStore a v) g σ fun _ g' σ' =>
      σ' = ⟨σ.temp, store σ.mem (σ.word E a) n (σ.word E v)⟩ ∧
        g'.func.nextTemp = g.func.nextTemp := by
  subst hn
  have hgoes : storeType { op := .store, dst := a, src1 := v } = pointeeOrStored a.type v.type :=
    rfl
  refine emit ⟨.inl rfl, hv.mono hF, nofun, ha.mono hF, fun h => absurd rfl h, ?_⟩ ?_ rfl ⟨rfl, rfl⟩
  · rw [if_pos rfl, hgoes]
    exact hty
  · intro r hr
    cases hr
    exact hclear

end Does

/-! ### Faults -/

/-- The code that `m` emits in `g` faults when it is run from `σ`. -/
def Stops {α : Type} (F : SlotFrame) (Γ : TypeEnv) (E : Env) (m : Gen α) (g : IrGen)
    (σ : WordState) : Prop :=
  ∃ code, (m g).2.func.instrs = g.func.instrs ++ code ∧ F.Runs Γ E code σ ∧
    σ.run Γ E code = none

theorem WordState.run_append_fault (h : σ.run Γ E is = none) : σ.run Γ E (is ++ js) = none := by
  induction is generalizing σ with
  | nil => cases h
  | cons i is ih =>
    rw [List.cons_append, WordState.run]
    rw [WordState.run] at h
    cases hstep : σ.step Γ E i with
    | none => rfl
    | some σ₁ =>
      rw [hstep] at h
      exact ih h

namespace Stops

variable {α β : Type} {m : Gen α} {k : α → Gen β}

/-- What comes after a fault is not run. -/
theorem bind_left (h : Stops F Γ E m g σ) (hk : ∀ a, Emits (k a)) :
    Stops F Γ E (m >>= k) g σ := by
  obtain ⟨code, hcode, hruns, hrun⟩ := h
  obtain ⟨rest, hrest, -⟩ := (hk (m g).1 (m g).2).code
  refine ⟨code ++ rest, hrest.trans (by rw [hcode, List.append_assoc]), hruns.append ?_,
    WordState.run_append_fault hrun⟩
  intro σ' hσ'
  rw [hrun] at hσ'
  cases hσ'

/-- An operator that faults. -/
theorem emitTo {op : IROp} {ty : CType} {a b : IRValue} (hop : op.isArith = true)
    (hty : isFpType (some ty) = false) (hg : 1 ≤ g.func.nextTemp) (hF : g.func.nextTemp < F.temps)
    (ha : a.HasSlot g.func.nextTemp) (hb : b.HasSlot g.func.nextTemp)
    (hw : machineBinop op false (σ.word E a) (σ.word E b) = none) :
    Stops F Γ E (emitTo ty op a b) g σ := by
  let ins : IRInstr := { op := op, dst := irvTemp g.func.nextTemp ty, src1 := a, src2 := b }
  refine ⟨[ins], rfl, ⟨?_, ?_, fun _ _ => trivial⟩, ?_⟩
  · exact Does.handles_result (isArith_ne_store hop) (.inr hop) hty hg hF (ha.mono hF.le)
      fun _ => hb.mono hF.le
  · intro r hr
    rw [WordState.access_arith hop] at hr
    cases hr
  · rw [WordState.run, WordState.step_arith hop, hw]
    rfl

end Stops

/-! ### Runs on the processor -/

/-- The code of `m` does the same on the slots. -/
theorem Does.exec {α : Type} {m : Gen α} {Q : α → IrGen → WordState → Prop} {s : MState}
    (h : Does F Γ E m g σ Q) (hs : F.Holds s σ) (f : IRFunc) {code : List IRInstr}
    (hcode : (m g).2.func.instrs = g.func.instrs ++ code) :
    ∃ s' σ', execIr E Γ f F.ra code s = some (s', .fall) ∧ F.Holds s' σ' ∧
      Q (m g).1 (m g).2 σ' := by
  obtain ⟨code', σ', hcode', hruns, hrun, hq⟩ := h
  obtain rfl : code = code' := List.append_cancel_left (hcode.symm.trans hcode')
  obtain ⟨s', hexec, hs'⟩ := (F.simulates f hs hruns).2 σ' hrun
  exact ⟨s', σ', hexec, hs', hq⟩

theorem Stops.exec {α : Type} {m : Gen α} {s : MState} (h : Stops F Γ E m g σ) (hs : F.Holds s σ)
    (f : IRFunc) {code : List IRInstr} (hcode : (m g).2.func.instrs = g.func.instrs ++ code) :
    execIr E Γ f F.ra code s = none := by
  obtain ⟨code', hcode', hruns, hrun⟩ := h
  obtain rfl : code = code' := List.append_cancel_left (hcode.symm.trans hcode')
  exact (F.simulates f hs hruns).1 hrun

end

end TinyC
