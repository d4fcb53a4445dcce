import TinyC.GenFrame
import TinyC.Lib.JumpFlow

/-!
# Temps written before they are read

The code that a generator appends is checked against a plan: the temps written whenever a label
is reached, and the type every temp is written with. The plan grows with the labels and temps
the generator takes.
-/

namespace TinyC

open JumpFlow

namespace IRInstr

/-- Is the destination an address that the instruction uses, and not a temp it writes? So it is
for the storage of an aggregate result or parameter. -/
def usesDst (i : IRInstr) : Bool :=
  match i.op with
  | .store | .memcpy => true
  | .call => isAggregateType i.callRetTy
  | .copy => isAggregateType i.src2.type
  | _ => false

def operands (i : IRInstr) : List IRValue :=
  (if i.usesDst then [i.dst] else []) ++ i.src1 :: i.src2 :: i.callArgs

/-- All values that stand in the instruction. -/
def values (i : IRInstr) : List IRValue := i.dst :: i.src1 :: i.src2 :: i.callArgs

/-- The temps in the instruction are among those taken before `n`. -/
def Within (n : ℕ) (i : IRInstr) : Prop :=
  ∀ v ∈ i.values, ∀ t, v.kind = .temp t → 0 < t ∧ t < n

/-- The temp that holds the address of the storage an `alloca` reserves. -/
def allocaTemp (i : IRInstr) : Option ℕ :=
  match i.op, i.dst.kind with
  | .alloca, .temp t => some t
  | _, _ => none

def control (i : IRInstr) : Control ℤ :=
  match i.op with
  | .label => .label i.labelId
  | .jmp => .jump i.labelId
  | .jz | .jnz => .branch i.labelId
  | .ret => .stop
  | _ => .next

/-- The temp the instruction writes. -/
def writes (i : IRInstr) : Set ℕ := {t | i.usesDst = false ∧ i.dst.kind = .temp t}

def reads (i : IRInstr) : Set ℕ := {t | ∃ v ∈ i.operands, v.kind = .temp t}

end IRInstr

def irAccess : Access IRInstr ℕ ℤ := ⟨IRInstr.control, IRInstr.reads, IRInstr.writes⟩

/-- The temps of the code `is` are below `hi`, and it reserves storage under temps from `lo` on,
each of its own. -/
structure Numbered (lo hi : ℕ) (is : List IRInstr) : Prop where
  within : ∀ i ∈ is, i.Within hi
  stored : ∀ i ∈ is, i.op = .alloca → i.allocaTemp ≠ none
  increasing : (is.filterMap IRInstr.allocaTemp).Pairwise (· < ·)
  fresh : ∀ t ∈ is.filterMap IRInstr.allocaTemp, lo ≤ t ∧ t < hi

namespace Numbered

variable {lo mid hi : ℕ} {is js : List IRInstr}

theorem nil : Numbered lo hi [] := ⟨by simp, by simp, by simp, by simp⟩

theorem append (hlo : lo ≤ mid) (hhi : mid ≤ hi) (h : Numbered lo mid is)
    (h' : Numbered mid hi js) : Numbered lo hi (is ++ js) where
  within i hi v hv t ht := by
    rcases List.mem_append.mp hi with hi | hi
    · exact ⟨(h.within i hi v hv t ht).1, (h.within i hi v hv t ht).2.trans_le hhi⟩
    · exact h'.within i hi v hv t ht
  stored i hi := (List.mem_append.mp hi).elim (h.stored i) (h'.stored i)
  increasing := by
    rw [List.filterMap_append, List.pairwise_append]
    exact ⟨h.increasing, h'.increasing, fun t ht u hu =>
      (h.fresh t ht).2.trans_le (h'.fresh u hu).1⟩
  fresh t ht := by
    rw [List.filterMap_append] at ht
    rcases List.mem_append.mp ht with ht | ht
    · exact ⟨(h.fresh t ht).1, (h.fresh t ht).2.trans_le hhi⟩
    · exact ⟨hlo.trans (h'.fresh t ht).1, (h'.fresh t ht).2⟩

theorem single {i : IRInstr} (hop : i.op ≠ .alloca) (h : i.Within hi) : Numbered lo hi [i] := by
  have hnone : [i].filterMap IRInstr.allocaTemp = [] := by simp [IRInstr.allocaTemp, hop]
  refine ⟨fun j hj => ?_, fun j hj hjop => ?_, ?_, ?_⟩
  · exact List.mem_singleton.mp hj ▸ h
  · exact absurd (List.mem_singleton.mp hj ▸ hjop) hop
  · rw [hnone]
    exact List.Pairwise.nil
  · simp [hnone]

end Numbered

/-- What is known of the labels and temps of a function. -/
structure Plan where
  /-- The temps written whenever the label is reached. -/
  live : ℤ → Set ℕ
  type : ℕ → Option CType

namespace Plan

/-- The temp is written with the type under which it is used here. An aggregate goes by its
address. -/
def Types (P : Plan) (v : IRValue) : Prop :=
  ∀ t, v.kind = .temp t → isAggregateType v.type = false → P.type t = v.type

structure Fits (P : Plan) (i : IRInstr) : Prop where
  operands : ∀ v ∈ i.operands, P.Types v
  dst : i.usesDst = false → ∀ t, i.dst.kind = .temp t → P.type t = i.dst.type

/-- The plans say the same of what the generator has taken so far. -/
structure Agrees (g : IrGen) (P P' : Plan) : Prop where
  live : ∀ l : ℤ, l < g.func.nextLabel → P'.live l = P.live l
  type : ∀ t < g.func.nextTemp, P'.type t = P.type t

end Plan

/-- A state of the generator together with a plan. -/
structure World where
  gen : IrGen
  plan : Plan

namespace World

/-- `w'` comes after `w` in the run of a generator. -/
structure Le (w w' : World) : Prop where
  plan : Plan.Agrees w.gen w.plan w'.plan
  temps : w.gen.func.nextTemp ≤ w'.gen.func.nextTemp
  labels : w.gen.func.nextLabel ≤ w'.gen.func.nextLabel

namespace Le

variable {w w' w'' : World}

theorem refl (w : World) : Le w w := ⟨⟨fun _ _ => rfl, fun _ _ => rfl⟩, le_rfl, le_rfl⟩

theorem agrees_trans {P : Plan} (h : Le w w') (hP : Plan.Agrees w'.gen w'.plan P) :
    Plan.Agrees w.gen w.plan P where
  live l hl := (hP.live l (hl.trans_le (by exact_mod_cast h.labels))).trans (h.plan.live l hl)
  type t ht := (hP.type t (ht.trans_le h.temps)).trans (h.plan.type t ht)

theorem trans (h : Le w w') (h' : Le w' w'') : Le w w'' :=
  ⟨h.agrees_trans h'.plan, h.temps.trans h'.temps, h.labels.trans h'.labels⟩

end Le

/-- `w'` comes after `w`, with the same variables in scope. -/
structure Later (w w' : World) : Prop extends Le w w' where
  scope : w'.gen.scope = w.gen.scope

theorem Later.trans {w w' w'' : World} (h : Later w w') (h' : Later w' w'') : Later w w'' :=
  ⟨h.toLe.trans h'.toLe, h'.scope.trans h.scope⟩

theorem Later.refl (w : World) : Later w w := ⟨.refl w, rfl⟩

/-- The value can be read where the temps of `A` are written. -/
structure Valid (w : World) (A : Set ℕ) (v : IRValue) : Prop where
  written : ∀ t, v.kind = .temp t → t ∈ A
  taken : ∀ t, v.kind = .temp t → 0 < t ∧ t < w.gen.func.nextTemp
  types : w.plan.Types v

namespace Valid

variable {w w' : World} {A A' : Set ℕ} {v : IRValue}

theorem mono (h : Valid w A v) (hw : Le w w') (hA : A ⊆ A') : Valid w' A' v where
  written t ht := hA (h.written t ht)
  taken t ht := ⟨(h.taken t ht).1, (h.taken t ht).2.trans_le hw.temps⟩
  types t ht ha := (hw.plan.type t (h.taken t ht).2).trans (h.types t ht ha)

theorem of_not_temp (h : ∀ t, v.kind ≠ .temp t) : Valid w A v :=
  ⟨fun t ht => absurd ht (h t), fun t ht => absurd ht (h t), fun t ht => absurd ht (h t)⟩

theorem irvNone : Valid w A irvNone := of_not_temp fun _ => by simp [TinyC.irvNone]

theorem irvInt (c : BitVec 64) (ty : CType) : Valid w A (irvInt c ty) :=
  of_not_temp fun _ => by simp [TinyC.irvInt]

theorem irvGlobal (name : String) (ty : CType) : Valid w A (irvGlobal name ty) :=
  of_not_temp fun _ => by simp [TinyC.irvGlobal]

theorem irvTemp {t : ℕ} {ty : CType} (hA : t ∈ A) (ht : 0 < t ∧ t < w.gen.func.nextTemp)
    (hty : w.plan.type t = some ty) : Valid w A (irvTemp t ty) where
  written t' h := by
    cases h
    exact hA
  taken t' h := by
    cases h
    exact ht
  types t' h _ := by
    cases h
    exact hty

/-- An aggregate is passed as its address under its own type. -/
theorem as_aggregate (h : Valid w A v) {ty : CType} (hty : isAggregateType (some ty) = true) :
    Valid w A { v with type := some ty } :=
  ⟨h.written, h.taken, fun t _ ha => by simp [hty] at ha⟩

end Valid

/-- The addresses of the variables in scope can be read. -/
def Scoped (w : World) (A : Set ℕ) : Prop :=
  ∀ fr ∈ w.gen.scope, ∀ b, ∀ p ∈ fr b, Valid w A p.2.addr

theorem Scoped.mono {w w' : World} {A A' : Set ℕ} (h : Scoped w A) (hw : Later w w')
    (hA : A ⊆ A') : Scoped w' A' := fun fr hfr b p hp =>
  (h fr (hw.scope ▸ hfr) b p hp).mono hw.toLe hA

/-- The plan of a label that is taken. -/
structure Knows (w : World) (l : ℕ) (S : Set ℕ) : Prop where
  taken : l < w.gen.func.nextLabel
  live : w.plan.live l = S

theorem Knows.mono {w w' : World} {l : ℕ} {S : Set ℕ} (h : Knows w l S) (hw : Le w w') :
    Knows w' l S :=
  ⟨h.taken.trans_le hw.labels, (hw.plan.live l (by exact_mod_cast h.taken)).trans h.live⟩

/-- The code `is` passes, if `A` is written before it and `B` is asked for after it. -/
structure Passes (asks : ℤ → Set ℕ) (A B : Set ℕ) (w w' : World) (is : List IRInstr) : Prop
    extends Numbered w.gen.func.nextTemp w'.gen.func.nextTemp is where
  checks : ∀ P, Plan.Agrees w'.gen w'.plan P → irAccess.Checks P.live asks A is B
  fits : ∀ P, Plan.Agrees w'.gen w'.plan P → ∀ i ∈ is, P.Fits i

theorem Passes.nil {asks : ℤ → Set ℕ} {A : Set ℕ} {w w' : World} : Passes asks A A w w' [] :=
  ⟨.nil, fun _ _ => Set.Subset.rfl, by simp⟩

theorem Passes.append {asks : ℤ → Set ℕ} {A B D : Set ℕ} {w w' w'' : World}
    {is js : List IRInstr} (hle : Le w w') (hle' : Le w' w'') (h : Passes asks A B w w' is)
    (h' : Passes asks B D w' w'' js) : Passes asks A D w w'' (is ++ js) where
  toNumbered := h.toNumbered.append hle.temps hle'.temps h'.toNumbered
  checks P hP := (h.checks P (hle'.agrees_trans hP)).append (h'.checks P hP)
  fits P hP i hi := by
    rcases List.mem_append.mp hi with hi | hi
    · exact h.fits P (hle'.agrees_trans hP) i hi
    · exact h'.fits P hP i hi

/-- The code appended between two states passes. -/
structure Emission (asks : ℤ → Set ℕ) (A B : Set ℕ) (w w' : World) : Prop extends Le w w' where
  code : ∃ is, w'.gen.func.instrs = w.gen.func.instrs ++ is ∧ Passes asks A B w w' is

theorem Emission.trans {asks : ℤ → Set ℕ} {A B D : Set ℕ} {w w' w'' : World}
    (h : Emission asks A B w w') (h' : Emission asks B D w' w'') : Emission asks A D w w'' := by
  refine ⟨h.toLe.trans h'.toLe, ?_⟩
  obtain ⟨is, hcode, hpass⟩ := h.code
  obtain ⟨js, hcode', hpass'⟩ := h'.code
  exact ⟨is ++ js, by rw [hcode', hcode, List.append_assoc], hpass.append h.toLe h'.toLe hpass'⟩

end World

open World

/-- From `w`, with `A` written, the code of `m` passes, and `R` holds of the world, the temps
written and the result after it. Temps are numbered from 1. -/
def Flows {α : Type} (asks : ℤ → Set ℕ) (w : World) (A : Set ℕ) (m : Gen α)
    (R : World → Set ℕ → α → Prop) : Prop :=
  0 < w.gen.func.nextTemp →
    ∃ P B, Emission asks A B w ⟨(m w.gen).2, P⟩ ∧ R ⟨(m w.gen).2, P⟩ B (m w.gen).1

namespace Flows

theorem congr {α : Type} {asks : ℤ → Set ℕ} {w : World} {A : Set ℕ} {m m' : Gen α}
    {R : World → Set ℕ → α → Prop} (h : m w.gen = m' w.gen) (hm : Flows asks w A m' R) :
    Flows asks w A m R := by
  intro hpos
  rw [h]
  exact hm hpos

variable {α β : Type} {asks : ℤ → Set ℕ} {w : World} {A : Set ℕ}
  {R R' : World → Set ℕ → α → Prop} {S : World → Set ℕ → β → Prop}

theorem bind_gen {m : Gen α} {k : α → Gen β} (hm : Flows asks w A m R)
    (hk : ∀ w' A', Le w w' → w'.gen = (m w.gen).2 → R w' A' (m w.gen).1 →
      Flows asks w' A' (k (m w.gen).1) S) : Flows asks w A (m >>= k) S := by
  intro hpos
  obtain ⟨P, B, he, hr⟩ := hm hpos
  obtain ⟨P', D, he', hs⟩ := hk _ B he.toLe rfl hr (hpos.trans_le he.temps)
  exact ⟨P', D, he.trans he', hs⟩

theorem bind {m : Gen α} {k : α → Gen β} (hm : Flows asks w A m R)
    (hk : ∀ w' A' a, Le w w' → R w' A' a → Flows asks w' A' (k a) S) :
    Flows asks w A (m >>= k) S := hm.bind_gen fun w' A' hw _ hr => hk w' A' _ hw hr

theorem mono {m : Gen α} (hm : Flows asks w A m R)
    (h : ∀ w' A' a, Le w w' → R w' A' a → R' w' A' a) : Flows asks w A m R' := by
  intro hpos
  obtain ⟨P, B, he, hr⟩ := hm hpos
  exact ⟨P, B, he, h _ B _ he.toLe hr⟩

/-- A change of the state that leaves the code and the counters alone. -/
theorem of_code_eq {m : Gen α} (hi : (m w.gen).2.func.instrs = w.gen.func.instrs)
    (ht : (m w.gen).2.func.nextTemp = w.gen.func.nextTemp)
    (hl : (m w.gen).2.func.nextLabel = w.gen.func.nextLabel)
    (hr : R ⟨(m w.gen).2, w.plan⟩ A (m w.gen).1) : Flows asks w A m R := fun _ =>
  ⟨w.plan, A, ⟨⟨⟨fun _ _ => rfl, fun _ _ => rfl⟩, ht.ge, hl.ge⟩, [], by simp [hi], .nil⟩, hr⟩

/-- A change of the state that leaves the function alone. -/
theorem of_func_eq {m : Gen α} (h : (m w.gen).2.func = w.gen.func)
    (hr : R ⟨(m w.gen).2, w.plan⟩ A (m w.gen).1) : Flows asks w A m R :=
  of_code_eq (h ▸ rfl) (h ▸ rfl) (h ▸ rfl) hr

theorem pure {a : α} (hr : R w A a) : Flows asks w A (Pure.pure a) R := of_func_eq rfl hr

theorem get_bind {k : IrGen → Gen β} (hk : Flows asks w A (k w.gen) S) :
    Flows asks w A (get >>= k) S := hk

end Flows

/-- `m` flows and leaves the scope as it is. -/
def Evaluates {α : Type} (asks : ℤ → Set ℕ) (w : World) (A : Set ℕ) (m : Gen α)
    (R : World → Set ℕ → α → Prop) : Prop :=
  Flows asks w A m fun w' A' a => w'.gen.scope = w.gen.scope ∧ R w' A' a

/-- What is written stays written, and the value can be read. -/
def Yields (A : Set ℕ) (w' : World) (A' : Set ℕ) (v : IRValue) : Prop := A ⊆ A' ∧ Valid w' A' v

/-- What is written stays written. -/
def Leaves {α : Type} (A : Set ℕ) (_ : World) (A' : Set ℕ) (_ : α) : Prop := A ⊆ A'

/-- A temp that is taken, with its type. -/
structure Takes (w : World) (t : ℕ) (ty : CType) : Prop where
  taken : 0 < t ∧ t < w.gen.func.nextTemp
  type : w.plan.type t = some ty

theorem Takes.mono {w w' : World} {t : ℕ} {ty : CType} (h : Takes w t ty) (hw : Le w w') :
    Takes w' t ty :=
  ⟨⟨h.taken.1, h.taken.2.trans_le hw.temps⟩, (hw.plan.type t h.taken.2).trans h.type⟩

/-- The instruction does nothing but write its destination. -/
structure IRInstr.Computes (i : IRInstr) : Prop where
  control : i.control = .next
  usesDst : i.usesDst = false
  op : i.op ≠ .alloca

namespace Evaluates

variable {α β : Type} {asks : ℤ → Set ℕ} {w : World} {A : Set ℕ}
  {R R' : World → Set ℕ → α → Prop} {S : World → Set ℕ → β → Prop}

theorem bind {m : Gen α} {k : α → Gen β} (hm : Evaluates asks w A m R)
    (hk : ∀ w' A' a, Later w w' → R w' A' a → Evaluates asks w' A' (k a) S) :
    Evaluates asks w A (m >>= k) S :=
  Flows.bind hm fun w' A' a hw hr => (hk w' A' a ⟨hw, hr.1⟩ hr.2).mono fun _ _ _ _ hs =>
    ⟨hs.1.trans hr.1, hs.2⟩

theorem mono {m : Gen α} (hm : Evaluates asks w A m R)
    (h : ∀ w' A' a, Later w w' → R w' A' a → R' w' A' a) : Evaluates asks w A m R' :=
  Flows.mono hm fun w' A' a hw hr => ⟨hr.1, h w' A' a ⟨hw, hr.1⟩ hr.2⟩

theorem pure {a : α} (hr : R w A a) : Evaluates asks w A (Pure.pure a) R := Flows.pure ⟨rfl, hr⟩

theorem get_bind {k : IrGen → Gen β} (hk : Evaluates asks w A (k w.gen) S) :
    Evaluates asks w A (get >>= k) S := hk

theorem ite {p : Prop} [Decidable p] {m k : Gen α} (hm : p → Evaluates asks w A m R)
    (hk : ¬p → Evaluates asks w A k R) : Evaluates asks w A (if p then m else k) R := by
  split
  case isTrue h => exact hm h
  case isFalse h => exact hk h

theorem newTemp (ty : CType) :
    Evaluates asks w A newTemp fun w' A' t =>
      A' = A ∧ t = w.gen.func.nextTemp ∧ Takes w' t ty := by
  intro hpos
  let n := w.gen.func.nextTemp
  let P : Plan := { w.plan with type := Function.update w.plan.type n (some ty) }
  have hle : Le w ⟨(TinyC.newTemp w.gen).2, P⟩ :=
    ⟨⟨fun _ _ => rfl, fun t ht => Function.update_of_ne ht.ne _ _⟩, Nat.le_succ n, le_rfl⟩
  have hcode : Emission asks A A w ⟨(TinyC.newTemp w.gen).2, P⟩ :=
    ⟨hle, [], (List.append_nil _).symm, .nil⟩
  exact ⟨P, A, hcode, rfl, rfl, rfl, ⟨hpos, Nat.lt_succ_self n⟩, Function.update_self ..⟩

theorem newLabel (S : ℕ → Set ℕ) :
    Evaluates asks w A newLabel fun w' A' l =>
      A' = A ∧ w'.gen.func.nextTemp = w.gen.func.nextTemp ∧ Knows w' l (S l) := by
  intro _
  let n := w.gen.func.nextLabel
  let P : Plan := { w.plan with live := Function.update w.plan.live n (S n) }
  have hle : Le w ⟨(TinyC.newLabel w.gen).2, P⟩ :=
    ⟨⟨fun l hl => Function.update_of_ne hl.ne _ _, fun _ _ => rfl⟩, le_rfl, Nat.le_succ n⟩
  have hcode : Emission asks A A w ⟨(TinyC.newLabel w.gen).2, P⟩ :=
    ⟨hle, [], (List.append_nil _).symm, .nil⟩
  exact ⟨P, A, hcode, rfl, rfl, rfl, Nat.lt_succ_self n, Function.update_self ..⟩

/-- One instruction, checked under every plan that agrees. -/
theorem emit_of {ins : IRInstr} {B : Set ℕ} (hop : ins.op ≠ .alloca)
    (hwithin : ins.Within w.gen.func.nextTemp)
    (h : ∀ P, Plan.Agrees w.gen w.plan P → irAccess.Fine P.live asks A ins ∧
      B ⊆ irAccess.after P.live A ins ∧ P.Fits ins) :
    Evaluates asks w A (emit ins) fun _ A' _ => A' = B := by
  intro _
  have hle : Le w ⟨(TinyC.emit ins w.gen).2, w.plan⟩ :=
    ⟨⟨fun _ _ => rfl, fun _ _ => rfl⟩, le_rfl, le_rfl⟩
  refine ⟨w.plan, B, ⟨hle, [ins], rfl, ⟨.single hop hwithin, fun P hP => ?_, fun P hP => ?_⟩⟩,
    rfl, rfl⟩
  · obtain ⟨hfine, hafter, -⟩ := h P ⟨hP.live, hP.type⟩
    exact ⟨hfine, hafter⟩
  · simpa using (h P ⟨hP.live, hP.type⟩).2.2

theorem reads_subset {ins : IRInstr} (h : ∀ v ∈ ins.operands, Valid w A v) :
    irAccess.reads ins ⊆ A := by
  rintro t ⟨v, hv, ht⟩
  exact (h v hv).written t ht

theorem fits_of {ins : IRInstr} {P : Plan} (hP : Plan.Agrees w.gen w.plan P)
    (h : ∀ v ∈ ins.operands, Valid w A v)
    (hdst : ins.usesDst = false → ∀ t, ins.dst.kind = .temp t →
      (0 < t ∧ t < w.gen.func.nextTemp) ∧ w.plan.type t = ins.dst.type) : P.Fits ins where
  operands v hv t ht ha := (hP.type t ((h v hv).taken t ht).2).trans ((h v hv).types t ht ha)
  dst hu t ht := (hP.type t (hdst hu t ht).1.2).trans (hdst hu t ht).2

theorem within_of {ins : IRInstr} (h : ∀ v ∈ ins.operands, Valid w A v)
    (hdst : ins.usesDst = false → ∀ t, ins.dst.kind = .temp t →
      0 < t ∧ t < w.gen.func.nextTemp) : ins.Within w.gen.func.nextTemp := by
  intro v hv t ht
  rcases List.mem_cons.mp hv with rfl | hv
  · cases hu : ins.usesDst
    · exact hdst hu t ht
    · exact (h ins.dst (by simp [IRInstr.operands, hu])).taken t ht
  · exact (h v (List.mem_append.mpr (.inr hv))).taken t ht

/-- An instruction that computes into a temp. -/
theorem result {ins : IRInstr} {t : ℕ} {ty : CType} (hc : ins.Computes)
    (hdst : ins.dst = TinyC.irvTemp t ty) (ht : Takes w t ty)
    (hops : ∀ v ∈ ins.operands, Valid w A v) :
    Evaluates asks w A (TinyC.emit ins) fun w' A' _ => A ⊆ A' ∧ Valid w' A' (irvTemp t ty) := by
  have hwrites : irAccess.writes ins = {t} := by
    ext t'
    simp [irAccess, IRInstr.writes, hc.usesDst, hdst, irvTemp, eq_comm]
  have hwithin : ins.Within w.gen.func.nextTemp := by
    refine within_of hops fun _ t' ht' => ?_
    rw [hdst] at ht'
    cases ht'
    exact ht.taken
  refine (emit_of (B := A ∪ {t}) hc.op hwithin fun P hP =>
    ⟨⟨reads_subset hops, ?_⟩, ?_, ?_⟩).mono fun w' A' _ hw hA => ?_
  · rw [show irAccess.control ins = .next from hc.control]
    trivial
  · rw [Access.after, show irAccess.control ins = .next from hc.control, hwrites]
  · refine fits_of hP hops fun _ t' ht' => ?_
    rw [hdst] at ht' ⊢
    cases ht'
    exact ⟨ht.taken, ht.type⟩
  · rw [hA]
    have ht' := ht.mono hw.toLe
    exact ⟨Set.subset_union_left, .irvTemp (.inr rfl) ht'.taken ht'.type⟩

/-- An instruction that writes no temp. -/
theorem use {ins : IRInstr} (hc : ins.control = .next) (hu : ins.usesDst = true)
    (hops : ∀ v ∈ ins.operands, Valid w A v) :
    Evaluates asks w A (TinyC.emit ins) (Leaves A) := by
  have hop : ins.op ≠ .alloca := fun h => by simp [IRInstr.usesDst, h] at hu
  have hwithin := within_of hops fun h => by simp [hu] at h
  refine (emit_of (B := A) hop hwithin fun P hP => ⟨⟨reads_subset hops, ?_⟩, ?_, ?_⟩).mono
    fun w' A' _ hw hA => hA.ge
  · rw [show irAccess.control ins = .next from hc]
    trivial
  · rw [Access.after, show irAccess.control ins = .next from hc]
    exact Set.subset_union_left
  · exact fits_of hP hops fun h => by simp [hu] at h

/-- An instruction with two operands. -/
theorem binary {op : IROp} {t : ℕ} {ty : CType} {a b : IRValue}
    (hc : ({ op := op, dst := TinyC.irvTemp t ty, src1 := a, src2 := b } : IRInstr).Computes)
    (ht : Takes w t ty) (ha : Valid w A a) (hb : Valid w A b) :
    Evaluates asks w A
      (TinyC.emit { op := op, dst := TinyC.irvTemp t ty, src1 := a, src2 := b })
      fun w' A' _ => A ⊆ A' ∧ Valid w' A' (TinyC.irvTemp t ty) := by
  refine result hc rfl ht ?_
  simp only [IRInstr.operands, hc.usesDst, Bool.false_eq_true, if_false, List.nil_append,
    List.mem_cons, List.not_mem_nil, or_false, forall_eq_or_imp, forall_eq]
  exact ⟨ha, hb⟩

theorem emitTo {ty : CType} {op : IROp} {a b : IRValue}
    (hc : ∀ dst, ({ op := op, dst := dst, src1 := a, src2 := b } : IRInstr).Computes)
    (ha : Valid w A a) (hb : Valid w A b) :
    Evaluates asks w A (TinyC.emitTo ty op a b) (Yields A) := by
  refine (newTemp ty).bind fun w₁ A₁ t h₁ ⟨hA, _, ht⟩ => ?_
  subst hA
  exact (binary (hc _) ht (ha.mono h₁.toLe le_rfl) (hb.mono h₁.toLe le_rfl)).bind
    fun w₂ A₂ _ h₂ hr => pure hr

/-- After a label, only what the plan has for it is sure to be written. -/
theorem placeLabel {l : ℕ} {S : Set ℕ} (hl : Knows w l S) :
    Evaluates asks w A (TinyC.emitLabel l) fun _ A' _ => A' = A ∩ S :=
  emit_of (by simp) (by simp [IRInstr.Within, IRInstr.values, irvNone]) fun P hP => by
    have hlive : P.live l = S := (hP.live l (by exact_mod_cast hl.taken)).trans hl.live
    have hreads : irAccess.reads { op := .label, labelId := l } = ∅ := by
      ext t
      simp [irAccess, IRInstr.reads, IRInstr.operands, IRInstr.usesDst, irvNone]
    refine ⟨⟨hreads ▸ Set.empty_subset A, hreads ▸ Set.empty_subset _⟩,
      Set.inter_subset_inter_right A hlive.ge, fits_of (A := A) hP ?_ ?_⟩
    · simp [IRInstr.operands, IRInstr.usesDst, Valid.irvNone]
    · simp [irvNone]

theorem emitLabel {l : ℕ} {S : Set ℕ} (hl : Knows w l S) (hS : S ⊆ A) :
    Evaluates asks w A (TinyC.emitLabel l) fun _ A' _ => A' = S :=
  (placeLabel hl).mono fun _ _ _ _ hA => hA.trans (Set.inter_eq_self_of_subset_right hS)

/-- Nothing comes to the code after a jump but through a label. -/
theorem emitJmp {l : ℕ} {S : Set ℕ} (hl : Knows w l S) (hS : S ⊆ A ∪ asks l) :
    Evaluates asks w A (TinyC.emitJmp l) fun _ A' _ => A' = Set.univ :=
  emit_of (by simp) (by simp [IRInstr.Within, IRInstr.values, irvNone]) fun P hP => by
    have hlive : P.live l = S := (hP.live l (by exact_mod_cast hl.taken)).trans hl.live
    have hops : ∀ v ∈ ({ op := .jmp, labelId := l } : IRInstr).operands, Valid w A v := by
      simp [IRInstr.operands, IRInstr.usesDst, Valid.irvNone]
    exact ⟨⟨reads_subset hops, hlive.le.trans hS⟩, Set.Subset.rfl,
      fits_of hP hops (by simp [irvNone])⟩

theorem branch {op : IROp} (hop : op = .jz ∨ op = .jnz) {v : IRValue} {l : ℕ} {S : Set ℕ}
    (hv : Valid w A v) (hl : Knows w l S) (hS : S ⊆ A ∪ asks l) :
    Evaluates asks w A (TinyC.emit { op := op, src1 := v, labelId := l })
      fun _ A' _ => A' = A := by
  have hops : ∀ u ∈ ({ op := op, src1 := v, labelId := l } : IRInstr).operands, Valid w A u := by
    rcases hop with rfl | rfl <;> simp [IRInstr.operands, IRInstr.usesDst, Valid.irvNone, hv]
  have halloca : op ≠ .alloca := by rcases hop with rfl | rfl <;> simp
  have hwithin := within_of hops (by simp [irvNone])
  refine emit_of halloca hwithin fun P hP => ?_
  have hlive : P.live l = S := (hP.live l (by exact_mod_cast hl.taken)).trans hl.live
  refine ⟨⟨reads_subset hops, ?_⟩, ?_, fits_of hP hops (by simp [irvNone])⟩
  · rcases hop with rfl | rfl <;> exact hlive.le.trans hS
  · rcases hop with rfl | rfl <;> exact Set.Subset.rfl

theorem emitJz {v : IRValue} {l : ℕ} {S : Set ℕ} (hv : Valid w A v) (hl : Knows w l S)
    (hS : S ⊆ A ∪ asks l) : Evaluates asks w A (TinyC.emitJz v l) fun _ A' _ => A' = A :=
  branch (.inl rfl) hv hl hS

theorem emitJnz {v : IRValue} {l : ℕ} {S : Set ℕ} (hv : Valid w A v) (hl : Knows w l S)
    (hS : S ⊆ A ∪ asks l) : Evaluates asks w A (TinyC.emitJnz v l) fun _ A' _ => A' = A :=
  branch (.inr rfl) hv hl hS

end Evaluates

end TinyC
