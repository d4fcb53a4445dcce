import TinyC.TempFlow

/-!
# Expressions read only temps that are written

Every generator of expressions and initializers, entered where the variables in scope are
written, emits code that passes, and its value can be read after it.
-/

namespace TinyC

open World

/-- Wherever the variables in scope are written, `m` evaluates to a value that can be read. -/
def Evaluable (asks : ℤ → Set ℕ) (m : Gen IRValue) : Prop :=
  ∀ w A, Scoped w A → Evaluates asks w A m (Yields A)

namespace Evaluates

variable {α β : Type} {asks : ℤ → Set ℕ} {w : World} {A A₀ : Set ℕ}
  {S : World → Set ℕ → β → Prop} {addr v : IRValue}

theorem widen {m : Gen IRValue} (hA : A₀ ⊆ A) (h : Evaluates asks w A m (Yields A)) :
    Evaluates asks w A m (Yields A₀) := h.mono fun _ _ _ _ hr => ⟨hA.trans hr.1, hr.2⟩

theorem widenLeaves {m : Gen α} (hA : A₀ ⊆ A) (h : Evaluates asks w A m (Leaves A)) :
    Evaluates asks w A m (Leaves A₀) := h.mono fun _ _ _ _ hr => hA.trans hr

/-- The value of a subexpression in what follows it. -/
theorem value_bind {m : Gen IRValue} {k : IRValue → Gen β} (hm : Evaluable asks m)
    (hs : Scoped w A)
    (hk : ∀ w' A' v, Later w w' → A ⊆ A' → Scoped w' A' → Valid w' A' v →
      Evaluates asks w' A' (k v) S) : Evaluates asks w A (m >>= k) S :=
  (hm w A hs).bind fun w' _ v hw hr => hk w' _ v hw hr.1 (hs.mono hw hr.1) hr.2

theorem leaves_bind {m : Gen α} {k : α → Gen β} (hm : Evaluates asks w A m (Leaves A))
    (hk : ∀ w' A' a, Later w w' → A ⊆ A' → Evaluates asks w' A' (k a) S) :
    Evaluates asks w A (m >>= k) S :=
  hm.bind fun w' A' a hw hr => hk w' A' a hw hr

/-- A value computed from values at hand. -/
theorem yields_bind {m : Gen IRValue} {k : IRValue → Gen β} (hm : Evaluates asks w A m (Yields A))
    (hk : ∀ w' A' v, Later w w' → A ⊆ A' → Valid w' A' v → Evaluates asks w' A' (k v) S) :
    Evaluates asks w A (m >>= k) S :=
  hm.bind fun w' A' v hw hr => hk w' A' v hw hr.1 hr.2

theorem newTemp_bind {k : ℕ → Gen β} (ty : CType)
    (hk : ∀ w' t, Later w w' → Takes w' t ty → Evaluates asks w' A (k t) S) :
    Evaluates asks w A (TinyC.newTemp >>= k) S :=
  (newTemp ty).bind fun w' _ t hw ⟨hA, _, ht⟩ => hA ▸ hk w' t hw ht

theorem newLabel_bind {k : ℕ → Gen β} (L : Set ℕ)
    (hk : ∀ w' l, Later w w' → w'.gen.func.nextTemp = w.gen.func.nextTemp → Knows w' l L →
      Evaluates asks w' A (k l) S) :
    Evaluates asks w A (TinyC.newLabel >>= k) S :=
  (newLabel fun _ => L).bind fun w' _ l hw ⟨hA, ht, hl⟩ => hA ▸ hk w' l hw ht hl

theorem genLoad (ha : Valid w A addr) (ty : CType) :
    Evaluates asks w A (genLoad addr ty) (Yields A) := emitTo (fun _ => ⟨rfl, rfl, by simp⟩) ha .irvNone

theorem genStore (ha : Valid w A addr) (hv : Valid w A v) :
    Evaluates asks w A (genStore addr v) (Leaves A) :=
  use rfl rfl (by simp [IRInstr.operands, IRInstr.usesDst, ha, hv, Valid.irvNone])

theorem genMemcpy (Γ : TypeEnv) (ha : Valid w A addr) (hv : Valid w A v) (ty : CType) :
    Evaluates asks w A (genMemcpy Γ addr v ty) (Leaves A) :=
  use rfl rfl (by simp [IRInstr.operands, IRInstr.usesDst, ha, hv, Valid.irvInt])

theorem genAlloca (Γ : TypeEnv) (ty : CType) :
    Evaluates asks w A (genAlloca Γ ty) (Yields A) := by
  intro hpos
  let n := w.gen.func.nextTemp
  let P : Plan := { w.plan with
    type := Function.update w.plan.type n (some (typePointer ty .none)) }
  let ins : IRInstr := { op := .alloca, dst := TinyC.irvTemp n (typePointer ty .none)
                         allocaSize := (allocaExtent Γ ty).1
                         allocaAlign := (allocaExtent Γ ty).2 }
  have hle : Le w ⟨(TinyC.genAlloca Γ ty w.gen).2, P⟩ :=
    ⟨⟨fun _ _ => rfl, fun t ht => Function.update_of_ne ht.ne _ _⟩, Nat.le_succ n, le_rfl⟩
  have hwrites : irAccess.writes ins = {n} := by
    ext t
    simp [irAccess, IRInstr.writes, IRInstr.usesDst, ins, irvTemp, eq_comm]
  have hreads : irAccess.reads ins = ∅ := by
    ext t
    simp [irAccess, IRInstr.reads, IRInstr.operands, IRInstr.usesDst, ins, irvNone]
  have hpass : Passes asks A (A ∪ {n}) w ⟨(TinyC.genAlloca Γ ty w.gen).2, P⟩ [ins] := by
    have hnone : ∀ v ∈ ins.operands, v = irvNone := by
      simp [IRInstr.operands, IRInstr.usesDst, ins]
    refine ⟨⟨?_, ?_, List.pairwise_singleton _ _, ?_⟩, fun Q _ => ?_, fun Q hQ => ?_⟩
    · simp only [List.mem_singleton, forall_eq]
      refine within_of (w := ⟨_, P⟩) (A := A) (fun v hv => hnone v hv ▸ .irvNone) fun _ t ht => ?_
      cases ht
      exact ⟨hpos, Nat.lt_succ_self n⟩
    · simp [ins, IRInstr.allocaTemp, irvTemp]
    · intro t ht
      rw [List.mem_singleton.mp ht]
      exact ⟨le_rfl, Nat.lt_succ_self n⟩
    · exact ⟨⟨hreads ▸ Set.empty_subset A, trivial⟩, (congrArg (A ∪ ·) hwrites).ge⟩
    · simp only [List.mem_singleton, forall_eq]
      refine ⟨fun v hv t ht => ?_, fun _ t ht => ?_⟩
      · rw [hnone v hv] at ht
        cases ht
      · cases ht
        exact (hQ.type n (Nat.lt_succ_self n)).trans (Function.update_self ..)
  refine ⟨P, A ∪ {n}, ⟨hle, [ins], rfl, hpass⟩, rfl, Set.subset_union_left, ?_⟩
  exact .irvTemp (.inr rfl) ⟨hpos, Nat.lt_succ_self n⟩ (Function.update_self ..)

theorem genAddrOffset (ha : Valid w A addr) (off : ℤ) (ty : CType) :
    Evaluates asks w A (genAddrOffset addr off ty) (Yields A) :=
  ite (fun _ => pure ⟨le_rfl, ha⟩) fun _ => emitTo (fun _ => ⟨rfl, rfl, by simp⟩) ha (.irvInt _ _)

theorem genScaled (hv : Valid w A v) (n : ℤ) : Evaluates asks w A (genScaled v n) (Yields A) :=
  ite (fun _ => pure ⟨le_rfl, hv⟩) fun _ => emitTo (fun _ => ⟨rfl, rfl, by simp⟩) hv (.irvInt _ _)

theorem genFieldShift {op : IROp} (hop : op = .shl ∨ op = .shr) (hv : Valid w A v)
    (f : StructField) : Evaluates asks w A (genFieldShift op v f) (Yields A) := by
  refine ite (fun _ => emitTo (fun _ => ?_) hv (.irvInt _ _)) fun _ => pure ⟨le_rfl, hv⟩
  rcases hop with rfl | rfl <;> exact ⟨rfl, rfl, by simp⟩

theorem genBitfieldLoad (ha : Valid w A addr) (f : StructField) :
    Evaluates asks w A (genBitfieldLoad addr f) (Yields A) :=
  (genLoad ha _).yields_bind fun _ _ _ _ h₁ hraw =>
    (genFieldShift (.inr rfl) hraw f).yields_bind fun _ _ _ _ h₂ hshifted =>
      (emitTo (fun _ => ⟨rfl, rfl, by simp⟩) hshifted (.irvInt _ _)).widen (h₁.trans h₂)

theorem genBitfieldStore (ha : Valid w A addr) (hv : Valid w A v) (f : StructField) :
    Evaluates asks w A (genBitfieldStore addr f v) (Yields A) := by
  refine (genLoad ha _).yields_bind fun w₁ A₁ cur l₁ s₁ hcur => ?_
  refine (emitTo (fun _ => ⟨rfl, rfl, by simp⟩) hcur (.irvInt _ _)).yields_bind
    fun w₂ A₂ cleared l₂ s₂ hcleared => ?_
  have hv₂ := hv.mono (l₁.trans l₂).toLe (s₁.trans s₂)
  refine (emitTo (fun _ => ⟨rfl, rfl, by simp⟩) hv₂ (.irvInt _ _)).yields_bind
    fun w₃ A₃ clipped l₃ s₃ hclipped => ?_
  refine (genFieldShift (.inl rfl) hclipped f).yields_bind fun w₄ A₄ shifted l₄ s₄ hshifted => ?_
  have hcleared₄ := hcleared.mono (l₃.trans l₄).toLe (s₃.trans s₄)
  refine (emitTo (fun _ => ⟨rfl, rfl, by simp⟩) hcleared₄ hshifted).yields_bind
    fun w₅ A₅ next l₅ s₅ hnext => ?_
  have l := (l₁.trans l₂).trans ((l₃.trans l₄).trans l₅)
  have s := (s₁.trans s₂).trans ((s₃.trans s₄).trans s₅)
  refine (genStore (ha.mono l.toLe s) hnext).leaves_bind fun w₆ A₆ _ l₆ s₆ => ?_
  exact pure ⟨s.trans s₆, hv.mono (l.trans l₆).toLe (s.trans s₆)⟩

theorem forM {xs : List α} {k : α → Gen PUnit}
    (hk : ∀ w' A' a, Later w w' → A ⊆ A' → Evaluates asks w' A' (k a) (Leaves A')) :
    Evaluates asks w A (xs.forM k) (Leaves A) := by
  induction xs generalizing w A with
  | nil => exact pure Set.Subset.rfl
  | cons a xs ih =>
    refine (hk w A a (.refl w) le_rfl).leaves_bind fun w₁ A₁ _ l₁ s₁ => ?_
    exact (ih fun w' A' a l s => hk w' A' a (l₁.trans l) (s₁.trans s)).widenLeaves s₁

theorem genZeroInitializer (Γ : TypeEnv) (ha : Valid w A addr) (ty : CType) :
    Evaluates asks w A (genZeroInitializer Γ addr ty) (Leaves A) := by
  induction hd : ty.depth Γ.rank using Nat.strong_induction_on generalizing w A addr ty with
  | _ d ih =>
    unfold TinyC.genZeroInitializer
    split
    · exact forM fun w₁ A₁ i l₁ s₁ =>
        (genAddrOffset (ha.mono l₁.toLe s₁) _ _).yields_bind fun _ _ _ _ s₂ he =>
          (ih _ (by rw [← hd]; simp [CType.depth]) he _ rfl).widenLeaves s₂
    · rename_i id _
      exact forM fun w₁ A₁ f l₁ s₁ =>
        (genAddrOffset (ha.mono l₁.toLe s₁) _ _).yields_bind fun _ _ _ _ s₂ he =>
          (ih _ (by rw [← hd]; exact Γ.contained id f.1 f.2) he _ rfl).widenLeaves s₂
    · exact genStore ha (.irvInt _ _)

end Evaluates

/-- What the generators of a node do, wherever the variables in scope are written. -/
structure NodeGen.Flows (asks : ℤ → Set ℕ) (n : NodeGen) : Prop where
  lvalue : Evaluable asks n.lvalue
  expr : Evaluable asks n.expr
  aggAddr : Evaluable asks n.aggAddr
  init : ∀ w A addr ty, Scoped w A → Valid w A addr →
    Evaluates asks w A (n.init addr ty) (Leaves A)

namespace Evaluates

variable {asks : ℤ → Set ℕ} {w : World} {A : Set ℕ} {addr : IRValue} {Γ : TypeEnv}

theorem genScalarOrNestedInit {it : ItemGen} (h : it.value.Flows asks) (hs : Scoped w A)
    (ha : Valid w A addr) (ty : CType) :
    Evaluates asks w A (genScalarOrNestedInit Γ it addr ty) (Leaves A) := by
  refine ite (fun _ => h.init w A addr ty hs ha) fun _ => ite (fun _ => ?_) fun _ => ?_
  · exact value_bind h.aggAddr hs fun _ _ _ l s _ hsrc =>
      (genMemcpy Γ (ha.mono l.toLe s) hsrc ty).widenLeaves s
  · exact value_bind h.expr hs fun _ _ _ l s _ hv => (genStore (ha.mono l.toLe s) hv).widenLeaves s

theorem genArrayItems {items : List ItemGen} (h : ∀ it ∈ items, it.value.Flows asks)
    (hs : Scoped w A) (ha : Valid w A addr) (elem : CType) (count : Option ℤ) (next : ℤ) :
    Evaluates asks w A (genArrayItems Γ addr elem count items next) (Leaves A) := by
  induction items generalizing w A next with
  | nil => exact pure Set.Subset.rfl
  | cons it rest ih =>
    have htail := fun b hb => h b (List.mem_cons_of_mem it hb)
    unfold TinyC.genArrayItems
    split
    · exact ih htail hs ha next
    · dsimp only
      refine ite (fun _ => ih htail hs ha _) fun _ => ?_
      refine (genAddrOffset ha _ _).yields_bind fun w₁ A₁ elemAddr l₁ s₁ helem => ?_
      refine Evaluates.widenLeaves s₁ <| (genScalarOrNestedInit (h it List.mem_cons_self)
        (hs.mono l₁ s₁) helem elem).leaves_bind fun w₂ A₂ _ l₂ s₂ => ?_
      have l := l₁.trans l₂
      have s := s₁.trans s₂
      exact (ih htail (hs.mono l s) (ha.mono l.toLe s) _).widenLeaves s₂

theorem genAggregateItems {items : List ItemGen} (h : ∀ it ∈ items, it.value.Flows asks)
    (hs : Scoped w A) (ha : Valid w A addr) (ty : CType) (next : List StructField) :
    Evaluates asks w A (genAggregateItems Γ addr ty items next) (Leaves A) := by
  induction items generalizing w A next with
  | nil => exact pure Set.Subset.rfl
  | cons it rest ih =>
    have htail := fun b hb => h b (List.mem_cons_of_mem it hb)
    unfold TinyC.genAggregateItems
    split
    · exact ih htail hs ha next
    · dsimp only
      split
      · exact pure Set.Subset.rfl
      · refine (genAddrOffset ha _ _).yields_bind fun w₁ A₁ fieldAddr l₁ s₁ hfield => ?_
        refine Evaluates.widenLeaves s₁ <| (genScalarOrNestedInit (h it List.mem_cons_self)
          (hs.mono l₁ s₁) hfield _).leaves_bind fun w₂ A₂ _ l₂ s₂ => ?_
        have l := l₁.trans l₂
        have s := s₁.trans s₂
        exact (ih htail (hs.mono l s) (ha.mono l.toLe s) _).widenLeaves s₂

theorem genListInit {items : List ItemGen} (h : ∀ it ∈ items, it.value.Flows asks)
    (hs : Scoped w A) (ha : Valid w A addr) (ty : CType) :
    Evaluates asks w A (genListInit Γ items addr ty) (Leaves A) := by
  refine (genZeroInitializer Γ ha ty).leaves_bind fun w₁ A₁ _ l s => ?_
  have hs₁ := hs.mono l s
  have ha₁ := ha.mono l.toLe s
  refine Evaluates.widenLeaves s ?_
  split
  · exact genArrayItems h hs₁ ha₁ _ _ _
  · exact genArrayItems h hs₁ ha₁ _ _ _
  · exact genAggregateItems h hs₁ ha₁ _ _
  · split
    · exact pure Set.Subset.rfl
    · exact genScalarOrNestedInit (h _ List.mem_cons_self) hs₁ ha₁ _

theorem genExprInit {expr aggAddr : Gen IRValue} (he : Evaluable asks expr)
    (hg : Evaluable asks aggAddr) (hs : Scoped w A) (ha : Valid w A addr) (ty : CType) :
    Evaluates asks w A (genExprInit Γ expr aggAddr addr ty) (Leaves A) := by
  refine ite (fun _ => ?_) fun _ => ?_
  · exact value_bind hg hs fun _ _ _ l s _ hsrc =>
      (genMemcpy Γ (ha.mono l.toLe s) hsrc ty).widenLeaves s
  · exact value_bind he hs fun _ _ _ l s _ hv => (genStore (ha.mono l.toLe s) hv).widenLeaves s

end Evaluates

theorem NodeGen.Flows.ofLvalue {asks : ℤ → Set ℕ} {Γ : TypeEnv} {lvalue expr : Gen IRValue}
    (hl : Evaluable asks lvalue) (he : Evaluable asks expr) :
    (NodeGen.ofLvalue Γ lvalue expr).Flows asks :=
  ⟨hl, he, hl, fun _ _ _ ty hs ha => .genExprInit he hl hs ha ty⟩

theorem NodeGen.Flows.ofExpr {asks : ℤ → Set ℕ} {Γ : TypeEnv} {expr : Gen IRValue}
    (he : Evaluable asks expr) : (NodeGen.ofExpr Γ expr).Flows asks := .ofLvalue he he

namespace Evaluable

variable {asks : ℤ → Set ℕ} {Γ : TypeEnv}

theorem pure {v : IRValue} (h : ∀ t, v.kind ≠ .temp t) : Evaluable asks (Pure.pure v) :=
  fun _ _ _ => .pure ⟨le_rfl, .of_not_temp h⟩

theorem ite {p : Prop} [Decidable p] {m k : Gen IRValue} (hm : Evaluable asks m)
    (hk : Evaluable asks k) : Evaluable asks (if p then m else k) := fun w A hs =>
  .ite (fun _ => hm w A hs) fun _ => hk w A hs

theorem strLit (data : String) (ty : CType) :
    Evaluable asks (addStringConst data >>= fun label => Pure.pure (irvGlobal label ty)) := by
  intro w A hs
  have h : Evaluates asks w A (addStringConst data) fun _ A' _ => A' = A := by
    unfold addStringConst
    refine .get_bind ?_
    dsimp only
    split
    · exact .pure rfl
    · exact Flows.of_func_eq rfl ⟨rfl, rfl⟩
  exact h.bind fun _ _ _ _ hA => .pure ⟨hA.ge, .irvGlobal _ _⟩

theorem vscopeLookup_bind {β : Type} {w : World} {A : Set ℕ} {name : String}
    {k : Option VarEntry → Gen β} {S : World → Set ℕ → β → Prop} (hs : Scoped w A)
    (hk : ∀ r, (∀ e, r = some e → Valid w A e.addr) → Evaluates asks w A (k r) S) :
    Evaluates asks w A (vscopeLookup name >>= k) S := by
  refine hk _ fun e he => ?_
  obtain ⟨fr, hfr, b, hmem⟩ := ScopeChain.mem_of_lookup he
  exact hs fr hfr b _ hmem

theorem genIdent (name : String) (ty : Option CType) : Evaluable asks (genIdent name ty) := by
  intro w A hs
  refine vscopeLookup_bind hs fun r hr => ?_
  split
  · rename_i e
    exact .ite (fun _ => .pure ⟨le_rfl, hr e rfl⟩) fun _ => .genLoad (hr e rfl) _
  · exact .pure ⟨le_rfl, .irvGlobal _ _⟩

theorem genIdentLvalue (name : String) : Evaluable asks (genIdentLvalue name) := by
  intro w A hs
  refine vscopeLookup_bind hs fun r hr => ?_
  split
  · rename_i e
    exact .pure ⟨le_rfl, hr e rfl⟩
  · exact .pure ⟨le_rfl, .irvGlobal _ _⟩

theorem loadUnlessAggregate {m : Gen IRValue} (hm : Evaluable asks m) (ty : Option CType) :
    Evaluable asks (m >>= loadUnlessAggregate ty) := fun _ _ hs =>
  .value_bind hm hs fun _ _ _ _ s _ hv =>
    .ite (fun _ => .pure ⟨s, hv⟩) fun _ => (Evaluates.genLoad hv _).widen s

end Evaluable

theorem binop_computes (tk : TokenKind) (dst a b : IRValue) :
    ({ op := tokToIrBinop tk, dst := dst, src1 := a, src2 := b } : IRInstr).Computes := by
  cases tk <;> exact ⟨rfl, rfl, nofun⟩

theorem cast_computes (Γ : TypeEnv) (src ty : CType) (dst a : IRValue) :
    ({ op := castOp Γ src ty, dst := dst, src1 := a, src2 := irvNone } : IRInstr).Computes := by
  have h : castOp Γ src ty ∈ [.sext, .zext, .trunc, .copy, .itof, .ftoi] := by
    unfold castOp
    grind
  simp only [List.mem_cons, List.not_mem_nil, or_false] at h
  rcases h with h | h | h | h | h | h <;> rw [h] <;> exact ⟨rfl, rfl, by simp⟩

namespace Evaluates

variable {asks : ℤ → Set ℕ} {w : World} {A : Set ℕ} {Γ : TypeEnv}

/-- The new and the old value of `++` and `--`. -/
theorem genStep (op : TokenKind) (nodeType : Option CType) {lvalue : Gen IRValue}
    (h : Evaluable asks lvalue) (hs : Scoped w A) :
    Evaluates asks w A (genStep Γ op nodeType lvalue) fun w' A' r =>
      A ⊆ A' ∧ Valid w' A' r.1 ∧ Valid w' A' r.2 := by
  refine value_bind h hs fun w₁ A₁ addr l₁ s₁ _ haddr => ?_
  refine (genLoad haddr _).yields_bind fun w₂ A₂ old l₂ s₂ hold => ?_
  refine (emitTo (fun _ => ?_) hold (.irvInt _ _)).yields_bind fun w₃ A₃ new l₃ s₃ hnew => ?_
  · split <;> exact ⟨rfl, rfl, by simp⟩
  have l := l₂.trans l₃
  have s := s₂.trans s₃
  refine (genStore (haddr.mono l.toLe s) hnew).leaves_bind fun w₄ A₄ _ l₄ s₄ => ?_
  exact pure ⟨s₁.trans (s.trans s₄), hold.mono (l₃.trans l₄).toLe (s₃.trans s₄),
    hnew.mono l₄.toLe s₄⟩

end Evaluates

namespace Evaluable

variable {asks : ℤ → Set ℕ} {Γ : TypeEnv} {left right : Gen IRValue}

theorem genUnop (op : TokenKind) (ty : Option CType) {n : NodeGen} (h : n.Flows asks) :
    Evaluable asks (genUnop Γ op ty n) := by
  intro w A hs
  unfold TinyC.genUnop
  split
  · exact h.lvalue w A hs
  · exact loadUnlessAggregate h.expr ty w A hs
  · exact (Evaluates.genStep _ _ h.lvalue hs).bind fun _ _ _ _ hr => .pure ⟨hr.1, hr.2.2⟩
  · exact (Evaluates.genStep _ _ h.lvalue hs).bind fun _ _ _ _ hr => .pure ⟨hr.1, hr.2.2⟩
  · refine .value_bind h.expr hs fun w₁ A₁ v l₁ s₁ _ hv => ?_
    refine .newTemp_bind (ty.getD typeInt) fun w₂ t l₂ ht => ?_
    have hv₂ := hv.mono l₂.toLe le_rfl
    dsimp only
    refine Evaluates.widen s₁ ?_
    split
    · exact (Evaluates.binary ⟨rfl, rfl, by simp⟩ ht hv₂ .irvNone).bind fun _ _ _ _ hr => .pure hr
    · exact (Evaluates.binary ⟨rfl, rfl, by simp⟩ ht hv₂ .irvNone).bind fun _ _ _ _ hr => .pure hr
    · exact (Evaluates.binary ⟨rfl, rfl, by simp⟩ ht hv₂ (.irvInt _ _)).bind fun _ _ _ _ hr => .pure hr
    · exact .pure ⟨le_rfl, hv₂⟩
    · exact (Evaluates.binary ⟨rfl, rfl, by simp⟩ ht hv₂ .irvNone).bind fun _ _ _ _ hr => .pure hr

theorem genAssign (op : TokenKind) (ty lhsTy : Option CType) (bf : Option StructField)
    {left right : NodeGen} (hl : left.Flows asks) (hr : right.Flows asks) :
    Evaluable asks (genAssign Γ op ty lhsTy bf left right) := by
  intro w A hs
  refine .value_bind hl.lvalue hs fun w₁ A₁ addr l₁ s₁ hs₁ haddr => Evaluates.widen s₁ ?_
  refine .ite (fun _ => ?_) fun _ => .ite (fun _ => ?_) fun _ => ?_
  · refine .value_bind hr.aggAddr hs₁ fun w₂ A₂ src l₂ s₂ _ hsrc => ?_
    refine (Evaluates.genMemcpy Γ (haddr.mono l₂.toLe s₂) hsrc _).leaves_bind
      fun w₃ A₃ _ l₃ s₃ => ?_
    exact .pure ⟨s₂.trans s₃, haddr.mono (l₂.trans l₃).toLe (s₂.trans s₃)⟩
  · refine .value_bind hr.expr hs₁ fun w₂ A₂ v l₂ s₂ _ hv => Evaluates.widen s₂ ?_
    have haddr₂ := haddr.mono l₂.toLe s₂
    split
    · exact .genBitfieldStore haddr₂ hv _
    · exact (Evaluates.genStore haddr₂ hv).leaves_bind fun _ _ _ l₃ s₃ =>
        .pure ⟨s₃, hv.mono l₃.toLe s₃⟩
  · refine (Evaluates.genLoad haddr _).yields_bind fun w₂ A₂ lval l₂ s₂ hlval => ?_
    refine .value_bind hr.expr (hs₁.mono l₂ s₂) fun w₃ A₃ rv l₃ s₃ _ hrv => ?_
    refine .newTemp_bind (ty.getD typeInt) fun w₄ t l₄ ht => ?_
    have hscaled : Evaluates asks w₄ A₃ (genCompoundOperand Γ op (ty.getD typeInt) rv)
        (Yields A₃) :=
      .ite (fun _ => .genScaled (hrv.mono l₄.toLe le_rfl) _) fun _ =>
        .pure ⟨le_rfl, hrv.mono l₄.toLe le_rfl⟩
    refine hscaled.yields_bind fun w₅ A₅ rv' l₅ s₅ hrv' => ?_
    have hlval₅ := hlval.mono ((l₃.trans l₄).trans l₅).toLe (s₃.trans s₅)
    refine (Evaluates.binary (binop_computes _ _ _ _) (ht.mono l₅.toLe) hlval₅ hrv').bind
      fun w₆ A₆ _ l₆ h₆ => ?_
    have haddr₆ := haddr.mono (l₂.trans (l₃.trans (l₄.trans (l₅.trans l₆)))).toLe
      (s₂.trans (s₃.trans (s₅.trans h₆.1)))
    refine (Evaluates.genStore haddr₆ h₆.2).leaves_bind fun w₇ A₇ _ l₇ s₇ => ?_
    exact .pure ⟨s₂.trans (s₃.trans (s₅.trans (h₆.1.trans s₇))), h₆.2.mono l₇.toLe s₇⟩

theorem genArg (ty : CType) {n : NodeGen} (h : n.Flows asks) : Evaluable asks (genArg ty n) := by
  intro w A hs
  unfold TinyC.genArg
  split
  case isTrue hty =>
    exact .value_bind h.aggAddr hs fun _ _ _ _ s _ hv => .pure ⟨s, hv.as_aggregate hty⟩
  case isFalse => exact h.expr w A hs

theorem genSubscriptLvalue (ty : Option CType) {base index : Gen IRValue}
    (hb : Evaluable asks base) (hi : Evaluable asks index) :
    Evaluable asks (genSubscriptLvalue Γ ty base index) := by
  intro w A hs
  refine .value_bind hb hs fun w₁ A₁ b l₁ s₁ hs₁ hbase => ?_
  refine .value_bind hi hs₁ fun w₂ A₂ idx l₂ s₂ _ hidx => ?_
  refine .newTemp_bind (typePointer (ty.getD typeInt) .none) fun w₃ t l₃ ht => ?_
  refine (Evaluates.genScaled (hidx.mono l₃.toLe le_rfl) _).yields_bind
    fun w₄ A₄ scaled l₄ s₄ hscaled => ?_
  have hbase₄ := hbase.mono (l₂.trans (l₃.trans l₄)).toLe (s₂.trans s₄)
  exact (Evaluates.binary ⟨rfl, rfl, by simp⟩ (ht.mono l₄.toLe) hbase₄ hscaled).bind fun _ _ _ _ hr =>
    .pure ⟨s₁.trans (s₂.trans (s₄.trans hr.1)), hr.2⟩

theorem genMemberLvalue (ty : Option CType) (field : String) {base : Gen IRValue}
    (hb : Evaluable asks base) : Evaluable asks (genMemberLvalue Γ ty field base) := by
  intro w A hs
  refine .value_bind hb hs fun w₁ A₁ addr l₁ s₁ _ haddr => Evaluates.widen s₁ ?_
  split
  · split
    · exact .genAddrOffset haddr _ _
    · exact .pure ⟨le_rfl, haddr⟩
  · exact .pure ⟨le_rfl, haddr⟩

theorem genMemberExpr (ty : Option CType) (bf : Option StructField) {lvalue : Gen IRValue}
    (h : Evaluable asks lvalue) : Evaluable asks (genMemberExpr ty bf lvalue) := by
  intro w A hs
  refine .value_bind h hs fun w₁ A₁ addr l₁ s₁ _ haddr => Evaluates.widen s₁ ?_
  split
  · exact .genBitfieldLoad haddr _
  · exact .ite (fun _ => .pure ⟨le_rfl, haddr⟩) fun _ =>
      .ite (fun _ => .pure ⟨le_rfl, haddr⟩) fun _ => .genLoad haddr _

theorem genCast (srcTy : Option CType) (ty : CType) {expr : Gen IRValue}
    (h : Evaluable asks expr) : Evaluable asks (genCast Γ srcTy ty expr) := by
  intro w A hs
  refine .value_bind h hs fun w₁ A₁ v l₁ s₁ _ hv => Evaluates.widen s₁ ?_
  split
  · exact .pure ⟨le_rfl, hv⟩
  · exact .ite (fun _ => .pure ⟨le_rfl, hv⟩) fun _ =>
      .emitTo (fun _ => cast_computes _ _ _ _ _) hv .irvNone

theorem genCompoundLitLvalue (ty : CType) {init : NodeGen} (h : init.Flows asks) :
    Evaluable asks (genCompoundLitLvalue Γ ty init) := by
  intro w A hs
  refine (Evaluates.genAlloca Γ ty).yields_bind fun w₁ A₁ addr l₁ s₁ haddr => Evaluates.widen s₁ ?_
  exact (h.init w₁ A₁ addr ty (hs.mono l₁ s₁) haddr).leaves_bind fun _ _ _ l₂ s₂ =>
    .pure ⟨s₂, haddr.mono l₂.toLe s₂⟩

theorem genCompoundLit (ty : Option CType) {lvalue : Gen IRValue} (h : Evaluable asks lvalue) :
    Evaluable asks (genCompoundLit ty lvalue) := fun _ _ hs =>
  .value_bind h hs fun _ _ _ _ s _ haddr =>
    .ite (fun _ => .pure ⟨s, haddr⟩) fun _ => (Evaluates.genLoad haddr _).widen s

end Evaluable

namespace Evaluates

variable {asks : ℤ → Set ℕ} {w : World} {A : Set ℕ} {Γ : TypeEnv}

theorem genArgs {args : List (CType × NodeGen)} (h : ∀ a ∈ args, a.2.Flows asks)
    (hs : Scoped w A) :
    Evaluates asks w A (genArgs args) fun w' A' vs => A ⊆ A' ∧ ∀ v ∈ vs, Valid w' A' v := by
  induction args generalizing w A with
  | nil => exact pure ⟨le_rfl, by simp⟩
  | cons a rest ih =>
    refine value_bind (Evaluable.genArg a.1 (h a List.mem_cons_self)) hs
      fun w₁ A₁ v l₁ s₁ hs₁ hv => ?_
    refine (ih (fun b hb => h b (List.mem_cons_of_mem a hb)) hs₁).bind fun w₂ A₂ vs l₂ hvs => ?_
    refine pure ⟨s₁.trans hvs.1, fun u hu => ?_⟩
    rcases List.mem_cons.mp hu with rfl | hu
    · exact hv.mono l₂.toLe hvs.1
    · exact hvs.2 u hu

/-- The result of a call goes to a new temp, or to storage that is passed by address. -/
theorem call {vs : List IRValue} {callee : IRValue} {retTy : CType}
    (hvs : ∀ v ∈ vs, Valid w A v) (hcallee : Valid w A callee) :
    Evaluates asks w A (do
      let dst ← genCallDst Γ retTy
      TinyC.emit (irCall Γ dst callee vs retTy)
      return dst) (Yields A) := by
  unfold genCallDst
  have hmono : ∀ {w' A'}, Later w w' → A ⊆ A' → ∀ v ∈ callee :: irvNone :: vs, Valid w' A' v := by
    intro w' A' l s v hv
    simp only [List.mem_cons] at hv
    rcases hv with rfl | rfl | hv
    · exact hcallee.mono l.toLe s
    · exact .irvNone
    · exact (hvs v hv).mono l.toLe s
  split
  case isTrue hagg =>
    refine (genAlloca Γ retTy).yields_bind fun w₁ A₁ dst l₁ s₁ hdst => Evaluates.widen s₁ ?_
    have huse : (irCall Γ dst callee vs retTy).usesDst = true := hagg
    refine (use rfl huse fun v hv => ?_).leaves_bind fun _ _ _ l₂ s₂ =>
      pure ⟨s₂, hdst.mono l₂.toLe s₂⟩
    rw [IRInstr.operands, huse, if_pos rfl] at hv
    rcases List.mem_cons.mp hv with rfl | hv
    · exact hdst
    · exact hmono l₁ s₁ v hv
  case isFalse hagg =>
    have huse : ∀ dst, (irCall Γ dst callee vs retTy).usesDst = false := fun _ => by
      simpa [irCall, IRInstr.usesDst] using hagg
    simp only [bind_assoc, pure_bind]
    refine newTemp_bind retTy fun w₁ t l₁ ht => ?_
    have hc : (irCall Γ (irvTemp t retTy) callee vs retTy).Computes :=
      ⟨rfl, huse _, by simp [irCall]⟩
    refine (result hc rfl ht fun v hv => ?_).bind fun _ _ _ _ hr => pure hr
    rw [IRInstr.operands, huse] at hv
    exact hmono l₁ le_rfl v hv

end Evaluates

namespace Evaluable

variable {asks : ℤ → Set ℕ} {Γ : TypeEnv}

theorem genCall (ty : Option CType) {func : Gen IRValue} {args : List (CType × NodeGen)}
    (hf : Evaluable asks func) (h : ∀ a ∈ args, a.2.Flows asks) :
    Evaluable asks (genCall Γ ty func args) := by
  intro w A hs
  refine (Evaluates.genArgs h hs).bind fun w₁ A₁ vs l₁ hvs => ?_
  refine .value_bind hf (hs.mono l₁ hvs.1) fun w₂ A₂ callee l₂ s₂ _ hcallee => ?_
  have hvs₂ : ∀ v ∈ vs, Valid w₂ A₂ v := fun v hv => (hvs.2 v hv).mono l₂.toLe s₂
  exact (Evaluates.call hvs₂ hcallee).widen (hvs.1.trans s₂)

/-- Both labels of `&&` and `||` are reached with what is written before the operands. -/
theorem genShortCircuitTest {w : World} {A : Set ℕ} (isAnd : Bool) {lv : IRValue}
    {right : Gen IRValue} (hr : Evaluable asks right) {f l : ℕ} {S : Set ℕ} (hs : Scoped w A)
    (hlv : Valid w A lv) (hf : Knows w f S) (hl : Knows w l S) (hS : S ⊆ A) :
    Evaluates asks w A (genShortCircuitTest isAnd lv right f l) fun _ A' _ => S ⊆ A' := by
  unfold TinyC.genShortCircuitTest
  split
  · refine (Evaluates.emitJz hlv hf (hS.trans Set.subset_union_left)).bind fun w₁ A₁ _ l₁ hA => ?_
    subst hA
    refine .value_bind hr (hs.mono l₁ le_rfl) fun w₂ A₂ rv l₂ s₂ _ hrv => ?_
    have l' := (l₁.trans l₂).toLe
    refine (Evaluates.emitJnz hrv (hl.mono l') ((hS.trans s₂).trans Set.subset_union_left)).bind
      fun w₃ A₃ _ l₃ hA => ?_
    subst hA
    have hf₃ := hf.mono (l'.trans l₃.toLe)
    refine (Evaluates.emitJmp hf₃ ((hS.trans s₂).trans Set.subset_union_left)).bind
      fun w₄ A₄ _ l₄ hA => ?_
    subst hA
    exact (Evaluates.emitLabel (hf₃.mono l₄.toLe) (Set.subset_univ S)).mono
      fun _ _ _ _ hA => hA.ge
  · refine (Evaluates.emitJnz hlv hl (hS.trans Set.subset_union_left)).bind fun w₁ A₁ _ l₁ hA => ?_
    subst hA
    refine .value_bind hr (hs.mono l₁ le_rfl) fun w₂ A₂ rv l₂ s₂ _ hrv => ?_
    have l' := (l₁.trans l₂).toLe
    exact (Evaluates.emitJnz hrv (hl.mono l') ((hS.trans s₂).trans Set.subset_union_left)).mono
      fun _ _ _ _ hA => hA ▸ hS.trans s₂

theorem genShortCircuit (isAnd : Bool) {left right : Gen IRValue} (hl : Evaluable asks left)
    (hr : Evaluable asks right) : Evaluable asks (genShortCircuit isAnd left right) := by
  intro w A hs
  refine .newTemp_bind typeInt fun w₁ t l₁ ht => ?_
  refine .newLabel_bind (A ∪ {t}) fun w₂ e l₂ _ he => ?_
  refine .newLabel_bind A fun w₃ f l₃ _ hf => ?_
  refine .newLabel_bind A fun w₄ lt l₄ _ hlt => ?_
  have hs₄ := hs.mono (l₁.trans (l₂.trans (l₃.trans l₄))) le_rfl
  refine .value_bind hl hs₄ fun w₅ A₅ lv l₅ s₅ hs₅ hlv => ?_
  have hlt₅ := hlt.mono l₅.toLe
  refine (genShortCircuitTest isAnd hr hs₅ hlv (hf.mono (l₄.trans l₅).toLe) hlt₅ s₅).bind
    fun w₆ A₆ _ l₆ s₆ => ?_
  have ht₆ := ht.mono (l₂.trans (l₃.trans (l₄.trans (l₅.trans l₆)))).toLe
  have he₆ := he.mono (l₃.trans (l₄.trans (l₅.trans l₆))).toLe
  refine (Evaluates.binary ⟨rfl, rfl, by simp⟩ ht₆ (.irvInt _ _) .irvNone).bind fun w₇ A₇ _ l₇ h₇ => ?_
  have hend₇ : A ∪ {t} ⊆ A₇ :=
    Set.union_subset (s₆.trans h₇.1) (Set.singleton_subset_iff.mpr (h₇.2.written t rfl))
  refine (Evaluates.emitJmp (he₆.mono l₇.toLe) (hend₇.trans Set.subset_union_left)).bind
    fun w₈ A₈ _ l₈ hA => ?_
  subst hA
  refine (Evaluates.emitLabel (hlt₅.mono (l₆.trans (l₇.trans l₈)).toLe) (Set.subset_univ _)).bind
    fun w₉ A₉ _ l₉ hA => ?_
  subst hA
  have l := l₇.trans (l₈.trans l₉)
  refine (Evaluates.binary ⟨rfl, rfl, by simp⟩ (ht₆.mono l.toLe) (.irvInt _ _) .irvNone).bind
    fun w₁₀ A₁₀ _ l₁₀ h₁₀ => ?_
  have hend₁₀ : A₉ ∪ {t} ⊆ A₁₀ :=
    Set.union_subset h₁₀.1 (Set.singleton_subset_iff.mpr (h₁₀.2.written t rfl))
  refine (Evaluates.emitLabel (he₆.mono (l.trans l₁₀).toLe) hend₁₀).bind
    fun w₁₁ A₁₁ _ l₁₁ hA => ?_
  subst hA
  have ht₁₁ := ht₆.mono (l.trans (l₁₀.trans l₁₁)).toLe
  exact .pure ⟨Set.subset_union_left, .irvTemp (.inr rfl) ht₁₁.taken ht₁₁.type⟩

theorem genTernary (ty : Option CType) {cond thenExpr elseExpr : Gen IRValue}
    (hc : Evaluable asks cond) (ht : Evaluable asks thenExpr) (he : Evaluable asks elseExpr) :
    Evaluable asks (genTernary ty cond thenExpr elseExpr) := by
  intro w A hs
  let r := w.gen.func.nextTemp
  refine .newLabel_bind A fun w₁ th l₁ n₁ hth => ?_
  refine .newLabel_bind A fun w₂ el l₂ n₂ hel => ?_
  refine .newLabel_bind (A ∪ {r}) fun w₃ en l₃ n₃ hen => ?_
  refine (Evaluates.newTemp (ty.getD typeInt)).bind fun w₄ A₄ t l₄ ⟨hA, hr, htake⟩ => ?_
  have htr : t = r := by rw [hr, n₃, n₂, n₁]
  subst hA htr
  have hs₄ := hs.mono (l₁.trans (l₂.trans (l₃.trans l₄))) le_rfl
  refine .value_bind hc hs₄ fun w₅ A₅ c l₅ s₅ hs₅ hcv => ?_
  have hel₅ := hel.mono (l₃.trans (l₄.trans l₅)).toLe
  have hth₅ := hth.mono (l₂.trans (l₃.trans (l₄.trans l₅))).toLe
  refine (Evaluates.emitJz hcv hel₅ (s₅.trans Set.subset_union_left)).bind fun w₆ A₆ _ l₆ hA => ?_
  subst hA
  refine (Evaluates.emitLabel (hth₅.mono l₆.toLe) s₅).bind fun w₇ A₇ _ l₇ hA => ?_
  subst hA
  have hs₇ := hs₄.mono (l₅.trans (l₆.trans l₇)) le_rfl
  refine .value_bind ht hs₇ fun w₈ A₈ tv l₈ s₈ _ htv => ?_
  have l₅₈ := l₅.trans (l₆.trans (l₇.trans l₈))
  refine (Evaluates.binary ⟨rfl, rfl, by simp⟩ (htake.mono l₅₈.toLe) htv .irvNone).bind
    fun w₉ A₉ _ l₉ h₉ => ?_
  have hend : A₇ ∪ {r} ⊆ A₉ := Set.union_subset (s₈.trans h₉.1)
    (Set.singleton_subset_iff.mpr (h₉.2.written r rfl))
  have hen₉ := hen.mono (l₄.trans (l₅₈.trans l₉)).toLe
  refine (Evaluates.emitJmp hen₉ (hend.trans Set.subset_union_left)).bind
    fun w₁₀ A₁₀ _ l₁₀ hA => ?_
  subst hA
  have l₆₁₀ := l₆.trans (l₇.trans (l₈.trans (l₉.trans l₁₀)))
  refine (Evaluates.emitLabel (hel₅.mono l₆₁₀.toLe) (Set.subset_univ _)).bind
    fun w₁₁ A₁₁ _ l₁₁ hA => ?_
  subst hA
  have l₈₁₁ := l₈.trans (l₉.trans (l₁₀.trans l₁₁))
  refine .value_bind he (hs₇.mono l₈₁₁ le_rfl) fun w₁₂ A₁₂ ev l₁₂ s₁₂ _ hev => ?_
  have htake₁₂ := htake.mono (l₅.trans (l₆₁₀.trans (l₁₁.trans l₁₂))).toLe
  refine (Evaluates.binary ⟨rfl, rfl, by simp⟩ htake₁₂ hev .irvNone).bind fun w₁₃ A₁₃ _ l₁₃ h₁₃ => ?_
  have hend' : A₁₁ ∪ {r} ⊆ A₁₃ := Set.union_subset (s₁₂.trans h₁₃.1)
    (Set.singleton_subset_iff.mpr (h₁₃.2.written r rfl))
  have hen₁₃ := hen₉.mono (l₁₀.trans (l₁₁.trans (l₁₂.trans l₁₃))).toLe
  refine (Evaluates.emitLabel hen₁₃ hend').bind fun w₁₄ A₁₄ _ l₁₄ hA => ?_
  subst hA
  have htake₁₄ := htake₁₂.mono (l₁₃.trans l₁₄).toLe
  exact .pure ⟨Set.subset_union_left, .irvTemp (.inr rfl) htake₁₄.taken htake₁₄.type⟩

theorem genBinop (op : TokenKind) (ty lt rt : Option CType) {left right : Gen IRValue}
    (hl : Evaluable asks left) (hr : Evaluable asks right) :
    Evaluable asks (genBinop Γ op ty lt rt left right) := by
  refine ite (genShortCircuit _ hl hr) fun w A hs => ?_
  refine .value_bind hl hs fun w₁ A₁ lv l₁ s₁ hs₁ hlv => Evaluates.widen s₁ ?_
  refine .value_bind hr hs₁ fun w₂ A₂ rv l₂ s₂ _ hrv => Evaluates.widen s₂ ?_
  refine .newTemp_bind (ty.getD typeInt) fun w₃ t l₃ ht => ?_
  have hlv₃ := hlv.mono (l₂.trans l₃).toLe s₂
  have hrv₃ := hrv.mono l₃.toLe le_rfl
  refine .ite (fun _ => ?_) fun _ => .ite (fun _ => ?_) fun _ => .ite (fun _ => ?_) fun _ =>
    .ite (fun _ => ?_) fun _ => ?_
  · refine (Evaluates.genScaled hrv₃ _).yields_bind fun w₄ A₄ v l₄ s₄ hv => Evaluates.widen s₄ ?_
    exact (Evaluates.binary ⟨rfl, rfl, by simp⟩ (ht.mono l₄.toLe) (hlv₃.mono l₄.toLe s₄) hv).bind
      fun _ _ _ _ hr => .pure hr
  · refine (Evaluates.genScaled hlv₃ _).yields_bind fun w₄ A₄ v l₄ s₄ hv => Evaluates.widen s₄ ?_
    exact (Evaluates.binary ⟨rfl, rfl, by simp⟩ (ht.mono l₄.toLe) (hrv₃.mono l₄.toLe s₄) hv).bind
      fun _ _ _ _ hr => .pure hr
  · refine (Evaluates.binary ⟨rfl, rfl, by simp⟩ ht hlv₃ hrv₃).bind fun w₄ A₄ _ l₄ h₄ =>
      Evaluates.widen h₄.1 ?_
    exact .ite (fun _ => .pure ⟨le_rfl, h₄.2⟩) fun _ =>
      .emitTo (fun _ => ⟨rfl, rfl, by simp⟩) h₄.2 (.irvInt _ _)
  · refine (Evaluates.genScaled hrv₃ _).yields_bind fun w₄ A₄ v l₄ s₄ hv => Evaluates.widen s₄ ?_
    exact (Evaluates.binary ⟨rfl, rfl, by simp⟩ (ht.mono l₄.toLe) (hlv₃.mono l₄.toLe s₄) hv).bind
      fun _ _ _ _ hr => .pure hr
  · exact (Evaluates.binary (binop_computes _ _ _ _) ht hlv₃ hrv₃).bind fun _ _ _ _ hr => .pure hr

end Evaluable

mutual

/-- Every node reads only what is written. -/
theorem genNode_flows (Γ : TypeEnv) (asks : ℤ → Set ℕ) : (e : Expr) → (genNode Γ e).Flows asks
  | .intLit _ _ _ | .charLit _ _ | .floatLit _ _ _ =>
      .ofExpr (.pure (by simp [irvInt, irvFloat]))
  | .strLit _ s => .ofExpr (.strLit s _)
  | .ident _ name => .ofLvalue (.genIdentLvalue name) (.genIdent name _)
  | .unop _ op e =>
      have he := genNode_flows Γ asks e
      .ofLvalue (.ite he.expr (.genUnop op _ he)) (.genUnop op _ he)
  | .postop _ op e => .ofExpr fun _ _ hs =>
      (Evaluates.genStep op _ (genNode_flows Γ asks e).lvalue hs).bind fun _ _ _ _ hr =>
        .pure ⟨hr.1, hr.2.1⟩
  | .binop _ op l r =>
      .ofExpr (.genBinop op _ _ _ (genNode_flows Γ asks l).expr (genNode_flows Γ asks r).expr)
  | .assign _ op l r =>
      .ofExpr (.genAssign op _ _ _ (genNode_flows Γ asks l) (genNode_flows Γ asks r))
  | .ternary _ c t e =>
      .ofExpr (.genTernary _ (genNode_flows Γ asks c).expr (genNode_flows Γ asks t).expr
        (genNode_flows Γ asks e).expr)
  | .call _ func args =>
      .ofExpr (.genCall _ (genNode_flows Γ asks func).expr (genNodes_flows Γ asks args))
  | .subscript i b x =>
      have h := Evaluable.genSubscriptLvalue (Γ := Γ) i.type (genNode_flows Γ asks b).expr
        (genNode_flows Γ asks x).expr
      .ofLvalue h (.loadUnlessAggregate h _)
  | .member _ b field =>
      have h := Evaluable.genMemberLvalue (Γ := Γ) b.type field (genNode_flows Γ asks b).lvalue
      .ofLvalue h (.genMemberExpr _ _ h)
  | .memberPtr _ b field =>
      have h := Evaluable.genMemberLvalue (Γ := Γ) (pointeeOrSelf b.type) field
        (genNode_flows Γ asks b).expr
      .ofLvalue h (.genMemberExpr _ _ h)
  | .cast _ _ e => .ofExpr (.genCast _ _ (genNode_flows Γ asks e).expr)
  | .sizeofExpr _ e => .ofExpr (.pure (by cases e.type <;> simp [sizeofValue, irvInt]))
  | .sizeofType _ ty => .ofExpr (.pure (by simp [sizeofValue, irvInt]))
  | .comma _ l r => .ofExpr fun _ _ hs =>
      .value_bind (genNode_flows Γ asks l).expr hs fun w' A' _ _ s hs' _ =>
        ((genNode_flows Γ asks r).expr w' A' hs').widen s
  | .initList _ items =>
      have hnone : Evaluable asks (return irvInt 0 typeInt) := .pure (by simp [irvInt])
      ⟨hnone, hnone, hnone, fun _ _ _ _ hs ha => .genListInit (genItems_flows Γ asks items) hs ha _⟩
  | .fieldDesig _ _ _ | .indexDesig _ _ _ => .ofExpr (.pure (by simp [irvInt]))
  | .compoundLit i ty init =>
      have hi := genNode_flows Γ asks init
      have hl := Evaluable.genCompoundLitLvalue (Γ := Γ) ty hi
      have he := Evaluable.genCompoundLit i.type hl
      ⟨hl, he, he, fun _ _ _ _ hs ha => .ite (fun _ => hi.init _ _ _ _ hs ha) fun _ =>
        .value_bind he hs fun _ _ _ l s _ hv =>
          (Evaluates.genStore (ha.mono l.toLe s) hv).widenLeaves s⟩

theorem genNodes_flows (Γ : TypeEnv) (asks : ℤ → Set ℕ) :
    (es : List Expr) → ∀ a ∈ genNodes Γ es, a.2.Flows asks
  | [] => by simp [genNodes]
  | e :: rest => by
      have he := genNode_flows Γ asks e
      have hrest := genNodes_flows Γ asks rest
      intro a ha
      rcases List.mem_cons.mp ha with rfl | ha
      · exact he
      · exact hrest a ha

theorem genItems_flows (Γ : TypeEnv) (asks : ℤ → Set ℕ) :
    (es : List Expr) → ∀ it ∈ genItems Γ es, it.value.Flows asks
  | [] => by simp [genItems]
  | e :: rest => by
      have hrest := genItems_flows Γ asks rest
      have hself := genNode_flows Γ asks e
      intro it hit
      cases e with
      | fieldDesig i f v =>
        rcases List.mem_cons.mp hit with rfl | hit
        · exact genNode_flows Γ asks v
        · exact hrest it hit
      | indexDesig i x v =>
        rcases List.mem_cons.mp hit with rfl | hit
        · exact genNode_flows Γ asks v
        · exact hrest it hit
      | _ =>
        rcases List.mem_cons.mp hit with rfl | hit
        · exact hself
        · exact hrest it hit

end

theorem genExpr_evaluable (Γ : TypeEnv) (asks : ℤ → Set ℕ) (e : Expr) :
    Evaluable asks (genExpr Γ e) := (genNode_flows Γ asks e).expr

end TinyC
