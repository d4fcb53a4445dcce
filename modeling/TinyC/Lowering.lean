import TinyC.ControlFlow
import TinyC.ExprWords
import TinyC.Lib.PartialRuns

/-!
# Code that computes words

What a generator's code does in the finished body of a function, on the machine on words: which
words its values stand for, whatever the temps it took, and what it makes of the memory. The rules
follow the generators.
-/

namespace TinyC

open ByteMemory PartialRuns

/-- There is no memory after something undefined. -/
abbrev WordSem := Total Mem

/-- The word an instruction makes, zero if it faults. -/
abbrev wordSem (f : Mem → Option (BitVec 64)) : WordSem (BitVec 64) := Total.asks 0 f

abbrev memSem (f : Mem → Option Mem) : WordSem Unit := Total.modifies f

namespace ObjectLayout

variable (Γ : TypeEnv) (K : ObjectLayout)

/-- The word `op` makes of the words of operands of the types `ta` and `tb`. -/
def resultWord (op : IROp) (ta tb : Option CType) (ty : CType) (x y : BitVec 64) (m : Mem) :
    Option (BitVec 64) :=
  match op with
  | .load =>
      if K.valid x (accessBytes Γ (some ty)) then some (readWord Γ (some ty) m x) else none
  | op => irWord Γ { op := op, dst := ⟨.none, some ty⟩, src1 := ⟨.none, ta⟩, src2 := ⟨.none, tb⟩ } x y

/-- A store to an address of type `ta` of a word of type `tv`. -/
def storeWord (ta tv : Option CType) (a x : BitVec 64) (m : Mem) : Option Mem :=
  let n := accessBytes Γ (storeType { op := .store, dst := ⟨.none, ta⟩, src1 := ⟨.none, tv⟩ })
  if K.valid a n then some (store m a n x) else none

variable {Γ K}

theorem irValue_eq {op : IROp} (hop : op ≠ .alloca) (t : ℕ) (ty : CType) (a b : IRValue) (m : Mem)
    (τ : ℕ → BitVec 64) :
    K.irValue Γ { op := op, dst := irvTemp t ty, src1 := a, src2 := b } m τ =
      K.resultWord Γ op a.type b.type ty (K.operand τ a) (K.operand τ b) m := by
  cases op <;> first | rfl | exact absurd rfl hop

theorem irStore_eq (a v : IRValue) (m : Mem) (τ : ℕ → BitVec 64) :
    K.irStore Γ { op := .store, dst := a, src1 := v } m τ =
      K.storeWord Γ a.type v.type (K.operand τ a) (K.operand τ v) m := rfl

end ObjectLayout

/-- A body that is lowered: its finished code, the scope it starts in, and the words of the temps
that were taken before. -/
structure Lowering where
  objects : ObjectLayout
  code : IrGen
  scope : ScopeChain VarEntry
  temps : ℕ
  held : ℕ → BitVec 64
  visible : ∀ {x e}, scope.lookup vtabBuckets x = some e →
    e.addr.kind ≠ .none ∧ ∀ t, e.addr.kind = .temp t → t < temps

/-- Values and the words they stand for. -/
abbrev Facts := List (IRValue × BitVec 64)

namespace Lowering

variable (B : Lowering) (Γ : TypeEnv)

def Sees (g : IrGen) : Prop :=
  ∀ x, g.scope.lookup vtabBuckets x = B.scope.lookup vtabBuckets x

structure Stands (g : IrGen) (τ : ℕ → BitVec 64) : Prop where
  scope : B.Sees g
  temps : B.temps ≤ g.func.nextTemp
  held : ∀ t < B.temps, τ t = B.held t

structure Known (g : IrGen) (τ : ℕ → BitVec 64) (v : IRValue) (x : BitVec 64) : Prop where
  some : v.kind ≠ .none
  taken : ∀ t, v.kind = .temp t → t < g.func.nextTemp
  word : B.objects.operand τ v = x

def Knows (H : Facts) (g : IrGen) (τ : ℕ → BitVec 64) : Prop := ∀ p ∈ H, B.Known g τ p.1 p.2

/-- The code of `m` does what `ev` says, if the facts `H` hold where it starts; afterwards `R` holds
of what `m` returns. -/
structure Realises {α β : Type} (H : Facts) (m : Gen α) (ev : WordSem β) (R : α → β → Facts) :
    Prop where
  emits : ∀ g, B.Sees g → Extends g (m g).2
  runs : ∀ g τ w, B.Stands g τ → B.Knows H g τ → Within (m g).2 B.code →
    ∃ k τ', (B.objects.machine Γ).Steps B.code.func.instrs k ⟨g.pos, w, τ⟩
        ⟨(m g).2.pos, (ev w).2, τ'⟩ ∧
      AgreeBelow g.func.nextTemp τ τ' ∧ B.Knows (R (m g).1 (ev w).1) (m g).2 τ'

/-- Under the facts `H`, the value reads as the word. -/
def Reads (H : Facts) (v : IRValue) (x : BitVec 64) : Prop :=
  ∀ g τ, B.Stands g τ → B.Knows H g τ → B.objects.operand τ v = x

/-- What `m` returns has the type `t`. -/
def Typed (m : Gen IRValue) (t : Option CType) : Prop := ∀ g, B.Sees g → (m g).1.type = t

/-- The facts of one value. -/
def one (v : IRValue) (x : BitVec 64) : Facts := [(v, x)]

variable {B Γ}

theorem Sees.extends {g g' : IrGen} (h : B.Sees g) (hext : Extends g g') : B.Sees g' := fun x => by
  rw [hext.scope]
  exact h x

theorem Stands.later {g g' : IrGen} {τ τ' : ℕ → BitVec 64} (h : B.Stands g τ) (hscope : B.Sees g')
    (hle : g.func.nextTemp ≤ g'.func.nextTemp) (ha : AgreeBelow g.func.nextTemp τ τ') :
    B.Stands g' τ' where
  scope := hscope
  temps := h.temps.trans hle
  held t ht := (ha t (ht.trans_le h.temps)).trans (h.held t ht)

theorem Known.later {g g' : IrGen} {τ τ' : ℕ → BitVec 64} {v : IRValue} {x : BitVec 64}
    (h : B.Known g τ v x) (hle : g.func.nextTemp ≤ g'.func.nextTemp)
    (ha : AgreeBelow g.func.nextTemp τ τ') : B.Known g' τ' v x where
  some := h.some
  taken t ht := (h.taken t ht).trans_le hle
  word := by
    rw [← h.word]
    unfold ObjectLayout.operand
    cases hk : v.kind with
    | temp t => exact ha t (h.taken t hk)
    | _ => rfl

theorem Knows.later {H : Facts} {g g' : IrGen} {τ τ' : ℕ → BitVec 64} (h : B.Knows H g τ)
    (hle : g.func.nextTemp ≤ g'.func.nextTemp) (ha : AgreeBelow g.func.nextTemp τ τ') :
    B.Knows H g' τ' := fun p hp => (h p hp).later hle ha

namespace Reads

variable {H : Facts} {v : IRValue} {x : BitVec 64}

theorem of_mem (h : (v, x) ∈ H) : B.Reads H v x := fun _ _ _ hH => (hH _ h).word

theorem int (c : BitVec 64) (ty : CType) : B.Reads H (irvInt c ty) c := fun _ _ _ _ => rfl

theorem none : B.Reads H irvNone 0 := fun _ _ _ _ => rfl

end Reads

namespace Realises

variable {α β γ δ : Type} {H H' : Facts} {m : Gen α} {ev : WordSem β} {R : α → β → Facts}

/-- What is not needed may be known. -/
theorem frame (h : B.Realises Γ H m ev R) (hH : H ⊆ H') : B.Realises Γ H' m ev R where
  emits := h.emits
  runs g τ w hst hk hF := h.runs g τ w hst (fun p hp => hk p (hH hp)) hF

theorem congr {m' : Gen α} (h : ∀ g, B.Sees g → m' g = m g) (hm : B.Realises Γ H m ev R) :
    B.Realises Γ H m' ev R where
  emits g hg := by
    rw [h g hg]
    exact hm.emits g hg
  runs g τ w hst hk hF := by
    rw [h g hst.scope] at hF ⊢
    exact hm.runs g τ w hst hk hF

theorem pure {a : α} {b : β} (h : R a b ⊆ H) : B.Realises Γ H (Pure.pure a) (Pure.pure b) R where
  emits g _ := .refl g
  runs _ τ _ _ hk _ := ⟨0, τ, .refl _, .refl, fun p hp => hk p (h hp)⟩

/-- A value that is known from the start. -/
theorem value {v : IRValue} {x : BitVec 64}
    (h : ∀ g τ, B.Stands g τ → B.Known g τ v x) :
    B.Realises Γ H (Pure.pure v) (Pure.pure x) one where
  emits g _ := .refl g
  runs g τ _ hst _ _ := ⟨0, τ, .refl _, .refl, fun p hp => by
    obtain rfl := List.mem_singleton.mp hp
    exact h g τ hst⟩

theorem int (c : BitVec 64) (ty : CType) :
    B.Realises Γ H (Pure.pure (irvInt c ty)) (Pure.pure c) one :=
  value fun _ _ _ => ⟨by simp [irvInt], by simp [irvInt], rfl⟩

/-- One generator after the other; `T` is what the first one's value is like. -/
theorem bind {T : α → Prop} {k : α → Gen γ} {ek : β → WordSem δ} {R' : γ → δ → Facts}
    (hm : B.Realises Γ H m ev R) (hT : ∀ g, B.Sees g → T (m g).1)
    (hk : ∀ a b, T a → B.Realises Γ (R a b ++ H) (k a) (ek b) R') :
    B.Realises Γ H (m >>= k) (ev >>= ek) R' where
  emits g hg := (hm.emits g hg).trans
    ((hk (m g).1 (ev none).1 (hT g hg)).emits _ (hg.extends (hm.emits g hg)))
  runs := by
    intro g τ w hst hH hF
    have hext := hm.emits g hst.scope
    have hrest := hk (m g).1 (ev w).1 (hT g hst.scope)
    have hext' := hrest.emits _ (hst.scope.extends hext)
    have hmid : Within (m g).2 B.code :=
      ⟨hext'.toAppendsWith.codePrefix.trans hF.code, hext'.strConsts.trans hF.strConsts⟩
    obtain ⟨j, τ₁, hrun, ha, hR⟩ := hm.runs g τ w hst hH hmid
    have hst' : B.Stands (m g).2 τ₁ := hst.later (hst.scope.extends hext) hext.temps ha
    have hknown : B.Knows (R (m g).1 (ev w).1 ++ H) (m g).2 τ₁ := by
      intro p hp
      rcases List.mem_append.mp hp with hp | hp
      · exact hR p hp
      · exact hH.later hext.temps ha p hp
    obtain ⟨k', τ₂, hrun', ha', hR'⟩ := hrest.runs _ τ₁ (ev w).2 hst' hknown hF
    exact ⟨j + k', τ₂, hrun.trans hrun', ha.trans ha' hext.temps, hR'⟩

/-- What is done with a value of the type `t`. -/
theorem andThen {m : Gen IRValue} {ev : WordSem (BitVec 64)} {t : Option CType}
    {k : IRValue → Gen γ} {ek : BitVec 64 → WordSem δ} {R' : γ → δ → Facts}
    (hm : B.Realises Γ H m ev one) (hT : B.Typed m t)
    (hk : ∀ v x, v.type = t → B.Realises Γ ((v, x) :: H) (k v) (ek x) R') :
    B.Realises Γ H (m >>= k) (ev >>= ek) R' :=
  hm.bind (T := fun v : IRValue => v.type = t) hT hk

end Realises

/-- The instructions that make a word of those of their operands. -/
def isPlain (op : IROp) : Bool :=
  op ∉ [.label, .nop, .jmp, .jz, .jnz, .ret, .copy, .store, .alloca]

theorem isPlain_ne_label {op : IROp} (h : isPlain op = true) : op ≠ .label := by
  rintro rfl
  cases h

theorem step_plain {W V : Type} {M : IrMachine W V} {P : List IRInstr} {s : IrState W V}
    {ins : IRInstr} (hi : P[s.pc]? = some ins) (hop : isPlain ins.op = true ∨ ins.op = .store) :
    M.step P s = some (M.perform s ins) := by
  simp only [IrMachine.step, hi]
  cases h : ins.op <;> simp [h, isPlain] at hop ⊢

theorem effect_wordSem {K : ObjectLayout} {ins : IRInstr} (hop : isPlain ins.op = true)
    (w : Option Mem) (τ : ℕ → BitVec 64) :
    (K.machine Γ).effect ins w τ =
      ((wordSem (fun m => K.irValue Γ ins m τ) w).2,
        IrMachine.writeTemp τ ins.dst (wordSem (fun m => K.irValue Γ ins m τ) w).1) := by
  have hne : ins.op ≠ .store := by
    rintro h
    simp [isPlain, h] at hop
  cases w with
  | none =>
    rw [ObjectLayout.effect_fault hne rfl]
    rfl
  | some m =>
    cases h : K.irValue Γ ins m τ with
    | none =>
      rw [ObjectLayout.effect_fault (w := some m) hne h]
      simp [Total.asks, Option.filter_some, h]
    | some v =>
      rw [ObjectLayout.effect_value hne h]
      simp [Total.asks, Option.filter_some, h]

namespace Realises

variable {H : Facts} {a b : IRValue} {x y : BitVec 64} {ta tb : Option CType}

/-- The instruction that fills the temp `t`, which is taken but not yet used. -/
theorem run_plain {op : IROp} (hop : isPlain op = true) {ty : CType} {g : IrGen}
    {τ : ℕ → BitVec 64} {t : ℕ} (w : Option Mem) (ha : B.objects.operand τ a = x)
    (hb : B.objects.operand τ b = y) (hta : a.type = ta) (htb : b.type = tb)
    (hF : Within (emit { op := op, dst := irvTemp t ty, src1 := a, src2 := b } g).2 B.code) :
    let r := wordSem (B.objects.resultWord Γ op ta tb ty x y) w
    (B.objects.machine Γ).Steps B.code.func.instrs 1 ⟨g.pos, w, τ⟩
      ⟨g.pos + 1, r.2, Function.update τ t r.1⟩ := by
  have hne : op ≠ .alloca := by
    rintro rfl
    cases hop
  have hstep := step_plain (M := B.objects.machine Γ) (s := ⟨g.pos, w, τ⟩) hF.emitted (.inl hop)
  have hvalue : (fun m => B.objects.irValue Γ { op := op, dst := irvTemp t ty, src1 := a, src2 := b }
      m τ) = B.objects.resultWord Γ op ta tb ty x y := by
    funext m
    rw [ObjectLayout.irValue_eq hne, ha, hb, hta, htb]
  refine .head (hstep.trans ?_) (.refl _)
  rw [IrMachine.perform, effect_wordSem hop, hvalue]
  rfl

theorem emitTo {op : IROp} (hop : isPlain op = true) (ty : CType) (ha : B.Reads H a x)
    (hb : B.Reads H b y) (hta : a.type = ta) (htb : b.type = tb) :
    B.Realises Γ H (TinyC.emitTo ty op a b) (wordSem (B.objects.resultWord Γ op ta tb ty x y))
      one where
  emits g _ := Emits.emitTo (isPlain_ne_label hop) g
  runs g τ w hst hH hF := by
    let r := wordSem (B.objects.resultWord Γ op ta tb ty x y) w
    let ins : IRInstr := { op := op, dst := irvTemp g.func.nextTemp ty, src1 := a, src2 := b }
    change Within (emit ins (newTemp g).2).2 B.code at hF
    have hrun := run_plain (Γ := Γ) hop w (ha g τ hst hH) (hb g τ hst hH) hta htb hF
    have hpos : (TinyC.emitTo ty op a b g).2.pos = g.pos + 1 := List.length_append
    refine ⟨1, Function.update τ g.func.nextTemp r.1, ?_, AgreeBelow.refl.update le_rfl _, ?_⟩
    · rw [hpos]
      exact hrun
    · intro p hp
      obtain rfl := List.mem_singleton.mp hp
      refine ⟨irvTemp_kind_ne_none _ _, fun u hu => ?_, Function.update_self ..⟩
      cases hu
      exact Nat.lt_succ_self _

/-- A copy into a new temp. -/
theorem copy (ty : CType) (h : (a, x) ∈ H) :
    B.Realises Γ H (TinyC.emitTo ty .copy a) (Pure.pure x) one where
  emits g _ := Emits.emitTo (by simp) g
  runs g τ w hst hH hF := by
    let ins : IRInstr := { op := .copy, dst := irvTemp g.func.nextTemp ty, src1 := a }
    change Within (emit ins (newTemp g).2).2 B.code at hF
    obtain ⟨hkind, -, hword⟩ := hH _ h
    have hi : B.code.func.instrs[g.pos]? = some ins := hF.emitted
    have hpos : (TinyC.emitTo ty .copy a irvNone g).2.pos = g.pos + 1 := List.length_append
    refine ⟨1, Function.update τ g.func.nextTemp x, .head ?_ (.refl _),
      AgreeBelow.refl.update le_rfl _, fun p hp => ?_⟩
    · rw [hpos]
      simp [IrMachine.step, hi, ins, hkind, IrMachine.writeTemp, irvTemp,
        ObjectLayout.machine_operand, hword]
      rfl
    · obtain rfl := List.mem_singleton.mp hp
      refine ⟨irvTemp_kind_ne_none _ _, fun u hu => ?_, Function.update_self ..⟩
      cases hu
      exact Nat.lt_succ_self _

theorem genStore (ha : B.Reads H a x) (hb : B.Reads H b y) (hta : a.type = ta) (htb : b.type = tb) :
    B.Realises Γ H (TinyC.genStore a b) (memSem (B.objects.storeWord Γ ta tb x y))
      (fun _ _ => []) where
  emits g _ := Emits.genStore a b g
  runs g τ w hst hH hF := by
    have hstep := step_plain (M := B.objects.machine Γ) (s := ⟨g.pos, w, τ⟩) hF.emitted (.inr rfl)
    have hvalue : (fun m => B.objects.irStore Γ { op := .store, dst := a, src1 := b } m τ) =
        B.objects.storeWord Γ ta tb x y := by
      funext m
      rw [ObjectLayout.irStore_eq, ha g τ hst hH, hb g τ hst hH, hta, htb]
    have hpos : (TinyC.genStore a b g).2.pos = g.pos + 1 := List.length_append
    refine ⟨1, τ, .head (hstep.trans ?_) (.refl _), .refl, fun p hp => absurd hp List.not_mem_nil⟩
    rw [IrMachine.perform, ObjectLayout.effect_store rfl, hvalue, hpos]
    rfl

/-- A temp that is taken before the code of the second operand, and filled after it. -/
theorem reserved {op : IROp} (hop : isPlain op = true) (ty : CType) {m : Gen IRValue}
    {em : WordSem (BitVec 64)} (ha : B.Reads H a x) (hta : a.type = ta)
    (hm : B.Realises Γ H m em one) (hT : B.Typed m tb) :
    B.Realises Γ H
      (newTemp >>= fun t => m >>= fun v =>
        emit { op := op, dst := irvTemp t ty, src1 := a, src2 := v } >>= fun _ =>
          Pure.pure (irvTemp t ty))
      (em >>= fun z => wordSem (B.objects.resultWord Γ op ta tb ty x z)) one where
  emits g hg := by
    have hext := hm.emits (newTemp g).2 hg
    let ins : IRInstr :=
      { op := op, dst := irvTemp g.func.nextTemp ty, src1 := a, src2 := (m (newTemp g).2).1 }
    have hlast : Emits (emit ins) := .emit (isPlain_ne_label hop)
    exact (Emits.newTemp g).trans (hext.trans (hlast _))
  runs g τ w hst hH hF := by
    let g₁ := (newTemp g).2
    let ins : IRInstr :=
      { op := op, dst := irvTemp g.func.nextTemp ty, src1 := a, src2 := (m g₁).1 }
    have hst₁ : B.Stands g₁ τ := hst.later hst.scope (Nat.le_succ _) .refl
    have hH₁ : B.Knows H g₁ τ := hH.later (Nat.le_succ _) .refl
    have hext := hm.emits g₁ hst₁.scope
    change Within (emit ins (m g₁).2).2 B.code at hF
    obtain ⟨k, τ₁, hrun, hagree, hz⟩ := hm.runs g₁ τ w hst₁ hH₁
      (hF.back (.emit (isPlain_ne_label hop)))
    have hst₂ : B.Stands (m g₁).2 τ₁ := hst₁.later (hst₁.scope.extends hext) hext.temps hagree
    have hH₂ : B.Knows H (m g₁).2 τ₁ := hH₁.later hext.temps hagree
    have hlast := run_plain (Γ := Γ) hop (em w).2 (ha _ _ hst₂ hH₂)
      (hz _ List.mem_cons_self).word hta (hT g₁ hst₁.scope) hF
    have hpos : (emit ins (m g₁).2).2.pos = (m g₁).2.pos + 1 := List.length_append
    have htaken : g.func.nextTemp < (m g₁).2.func.nextTemp :=
      (Nat.lt_succ_self _).trans_le hext.temps
    rw [← hpos] at hlast
    refine ⟨k + 1, _, hrun.trans hlast, ?_, fun p hp => ?_⟩
    · exact (hagree.mono (Nat.le_succ _)).update le_rfl _
    · obtain rfl := List.mem_singleton.mp hp
      refine ⟨irvTemp_kind_ne_none _ _, fun u hu => ?_, Function.update_self ..⟩
      cases hu
      exact htaken

/-- A temp that stays unused. -/
theorem newTemp : B.Realises Γ H TinyC.newTemp (Pure.pure ()) (fun _ _ => []) where
  emits g _ := Emits.newTemp g
  runs _ τ _ _ _ _ := ⟨0, τ, .refl _, .refl, fun _ hp => absurd hp List.not_mem_nil⟩

end Realises

end Lowering

end TinyC
