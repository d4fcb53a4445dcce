import TinyC.IrGenStmt

/-!
# What generating code does to the state

A generator of an expression appends a block to the current function, takes new temps and
labels from the counters and leaves the rest of the state alone. The labels defined in the
block are new, each of them defined once.
-/

namespace TinyC

def labelsOf (is : List IRInstr) : List ℤ :=
  is.filterMap fun i => if i.op = .label then some i.labelId else none

@[simp] theorem labelsOf_nil : labelsOf [] = [] := rfl

@[simp] theorem labelsOf_append (xs ys : List IRInstr) :
    labelsOf (xs ++ ys) = labelsOf xs ++ labelsOf ys := List.filterMap_append

/-- Each label of a block is in `own`, or is one of `lo, …, hi - 1`; none is defined twice
beyond that. -/
def LabelsWithin (own : List ℕ) (is : List IRInstr) (lo hi : ℕ) : Prop :=
  ∀ l : ℕ, (labelsOf is).count (l : ℤ) ≤ own.count l + if lo ≤ l ∧ l < hi then 1 else 0

/-- The code of `g'` is that of `g` and a block that places the labels `own`, and new ones. -/
structure AppendsWith (own : List ℕ) (g g' : IrGen) : Prop where
  code : ∃ block, g'.func.instrs = g.func.instrs ++ block ∧
    LabelsWithin own block g.func.nextLabel g'.func.nextLabel ∧ ∀ l ∈ labelsOf block, 0 ≤ l
  labels : g.func.nextLabel ≤ g'.func.nextLabel

namespace AppendsWith

theorem of_func_eq {g g' : IrGen} (h : g'.func = g.func) : AppendsWith [] g g' :=
  ⟨⟨[], by simp [h], fun l => by simp, by simp⟩, by simp [h]⟩

theorem trans {own own' : List ℕ} {g g' g'' : IrGen} (h : AppendsWith own g g')
    (h' : AppendsWith own' g' g'') : AppendsWith (own ++ own') g g'' := by
  obtain ⟨b, hb, hl, hn⟩ := h.code
  obtain ⟨b', hb', hl', hn'⟩ := h'.code
  have hlo := h.labels
  have hhi := h'.labels
  refine ⟨⟨b ++ b', by rw [hb', hb, List.append_assoc], fun l => ?_, fun l hmem => ?_⟩,
    hlo.trans hhi⟩
  · have h₁ := hl l
    have h₂ := hl' l
    rw [labelsOf_append, List.count_append, List.count_append]
    split at h₁ <;> split at h₂ <;> split <;> omega
  · rw [labelsOf_append, List.mem_append] at hmem
    exact hmem.elim (hn l) (hn' l)

/-- Only how often a label may be placed matters. -/
theorem mono {own own' : List ℕ} {g g' : IrGen} (h : AppendsWith own g g')
    (hsub : ∀ l, own.count l ≤ own'.count l) : AppendsWith own' g g' := by
  obtain ⟨b, hb, hl, hn⟩ := h.code
  exact ⟨⟨b, hb, fun l => (hl l).trans (Nat.add_le_add_right (hsub l) _), hn⟩, h.labels⟩

/-- A label may be placed after it has been taken. -/
theorem newLabel {own : List ℕ} {g g' : IrGen}
    (h : AppendsWith (g.func.nextLabel :: own) (newLabel g).2 g') : AppendsWith own g g' := by
  have hnext : (TinyC.newLabel g).2.func.nextLabel = g.func.nextLabel + 1 := rfl
  obtain ⟨b, hb, hl, hn⟩ := h.code
  refine ⟨⟨b, hb, fun l => ?_, hn⟩, (Nat.le_succ _).trans h.labels⟩
  have hle := h.labels
  have hcount := hl l
  rw [hnext] at hcount hle
  rw [List.count_cons] at hcount
  split at hcount <;> split at hcount <;> split <;> simp_all <;> omega

theorem emitLabel (l : ℕ) (g : IrGen) : AppendsWith [l] g (emitLabel l g).2 := by
  have hcount : ∀ k : ℕ, (labelsOf [{ op := .label, labelId := l }]).count (k : ℤ) = [l].count k := by
    intro k
    by_cases h : l = k <;> simp [labelsOf, h]
  exact ⟨⟨[{ op := .label, labelId := l }], rfl,
    fun k => (hcount k).le.trans (Nat.le_add_right _ _), fun k hk => by simp_all [labelsOf]⟩, le_rfl⟩

theorem codePrefix {own : List ℕ} {g g' : IrGen} (h : AppendsWith own g g') :
    g.func.instrs <+: g'.func.instrs := by
  obtain ⟨b, hb, -⟩ := h.code
  exact ⟨b, hb.symm⟩

/-- Labels that are placed once stay so. -/
theorem nodup {g g' : IrGen} (h : AppendsWith [] g g') (hnodup : (labelsOf g.func.instrs).Nodup)
    (hold : ∀ l ∈ labelsOf g.func.instrs, l < g.func.nextLabel) :
    (labelsOf g'.func.instrs).Nodup := by
  obtain ⟨b, hb, hl, hn⟩ := h.code
  have hcount : ∀ l ∈ labelsOf b, ∃ k : ℕ, l = k ∧ g.func.nextLabel ≤ k ∧ (labelsOf b).count l ≤ 1 := by
    intro l hmem
    obtain ⟨k, rfl⟩ := Int.eq_ofNat_of_zero_le (hn l hmem)
    have hpos := List.count_pos_iff.mpr hmem
    have hle := hl k
    rw [List.count_nil, Nat.zero_add] at hle
    split at hle
    · exact ⟨k, rfl, by omega, hle⟩
    · omega
  rw [hb, labelsOf_append, List.nodup_append]
  refine ⟨hnodup, List.nodup_iff_count_le_one.mpr fun l => ?_, fun l hmem k hmem' => ?_⟩
  · by_cases hmem : l ∈ labelsOf b
    · obtain ⟨k, -, -, hle⟩ := hcount l hmem
      exact hle
    · simp [List.count_eq_zero.mpr hmem]
  · rintro rfl
    obtain ⟨k, rfl, hge, -⟩ := hcount l hmem'
    have := hold _ hmem
    omega

end AppendsWith

/-- A generator that appends code which places the labels `own`, and new ones. -/
def Appends {α : Type} (own : List ℕ) (m : Gen α) : Prop := ∀ g, AppendsWith own g (m g).2

namespace Appends

variable {α β : Type} {own own' : List ℕ}

theorem bind {m : Gen α} {k : α → Gen β} (hm : Appends own m) (hk : ∀ a, Appends own' (k a)) :
    Appends (own ++ own') (m >>= k) := fun g => (hm g).trans (hk (m g).1 (m g).2)

theorem seq {m : Gen α} {k : α → Gen β} (hm : Appends [] m) (hk : ∀ a, Appends own (k a)) :
    Appends own (m >>= k) := bind hm hk

theorem get_bind {k : IrGen → Gen β} (hk : ∀ a, Appends own (k a)) : Appends own (get >>= k) :=
  fun g => hk g g

theorem mono {m : Gen α} (h : Appends own m) (hsub : ∀ l, own.count l ≤ own'.count l) :
    Appends own' m := fun g => (h g).mono hsub

theorem perm {m : Gen α} (h : Appends own m) (hperm : own.Perm own') : Appends own' m :=
  h.mono fun l => (hperm.count_eq l).le

theorem newLabel_bind {k : ℕ → Gen β} (hk : ∀ l, Appends (l :: own) (k l)) :
    Appends own (newLabel >>= k) := fun _ => .newLabel (hk _ _)

theorem emitLabel (l : ℕ) : Appends [l] (emitLabel l) :=
  AppendsWith.emitLabel l

theorem pure (a : α) : Appends [] (Pure.pure a : Gen α) := fun _ => .of_func_eq rfl

theorem update {f : IrGen → IrGen} (h : ∀ g, (f g).func = g.func) :
    Appends [] (modify f : Gen Unit) := fun g => .of_func_eq (h g)

end Appends

/-- What the unit has defined so far, and under which name the function being generated is
defined. -/
def IrGen.definitions (g : IrGen) : List IRFunc × List IRGlobalVar × String × Bool :=
  (g.module.funcs, g.module.globalVars, g.func.name, g.func.isStatic)

/-- Moreover nothing but code, temps, labels and string constants is added. -/
structure ExtendsWith (own : List ℕ) (g g' : IrGen) : Prop extends AppendsWith own g g' where
  temps : g.func.nextTemp ≤ g'.func.nextTemp
  strConsts : g.module.strConsts <:+ g'.module.strConsts
  definitions : g'.definitions = g.definitions
  funcType : g'.func.funcType = g.func.funcType
  scope : g'.scope = g.scope
  breakLabel : g'.breakLabel = g.breakLabel
  contLabel : g'.contLabel = g.contLabel
  caseEntries : g'.caseEntries = g.caseEntries
  swDefaultLbl : g'.swDefaultLbl = g.swDefaultLbl
  gotoLabels : g'.gotoLabels = g.gotoLabels

abbrev Extends (g g' : IrGen) : Prop := ExtendsWith [] g g'

namespace ExtendsWith

theorem refl (g : IrGen) : Extends g g :=
  ⟨.of_func_eq rfl, le_rfl, List.suffix_rfl, rfl, rfl, rfl, rfl, rfl, rfl, rfl, rfl⟩

theorem trans {own own' : List ℕ} {g g' g'' : IrGen} (h : ExtendsWith own g g')
    (h' : ExtendsWith own' g' g'') : ExtendsWith (own ++ own') g g'' where
  toAppendsWith := h.toAppendsWith.trans h'.toAppendsWith
  temps := h.temps.trans h'.temps
  strConsts := h.strConsts.trans h'.strConsts
  definitions := h'.definitions.trans h.definitions
  funcType := h'.funcType.trans h.funcType
  scope := h'.scope.trans h.scope
  breakLabel := h'.breakLabel.trans h.breakLabel
  contLabel := h'.contLabel.trans h.contLabel
  caseEntries := h'.caseEntries.trans h.caseEntries
  swDefaultLbl := h'.swDefaultLbl.trans h.swDefaultLbl
  gotoLabels := h'.gotoLabels.trans h.gotoLabels

theorem mono {own own' : List ℕ} {g g' : IrGen} (h : ExtendsWith own g g')
    (hsub : ∀ l, own.count l ≤ own'.count l) : ExtendsWith own' g g' :=
  { h with toAppendsWith := h.toAppendsWith.mono hsub }

end ExtendsWith

/-- A generator that extends the function and places the labels `own`. -/
def EmitsWith {α : Type} (own : List ℕ) (m : Gen α) : Prop := ∀ g, ExtendsWith own g (m g).2

abbrev Emits {α : Type} (m : Gen α) : Prop := EmitsWith [] m

namespace EmitsWith

variable {α β : Type} {own own' : List ℕ}

theorem appends {m : Gen α} (h : EmitsWith own m) : Appends own m := fun g => (h g).toAppendsWith

theorem bind {m : Gen α} {k : α → Gen β} (hm : EmitsWith own m) (hk : ∀ a, EmitsWith own' (k a)) :
    EmitsWith (own ++ own') (m >>= k) := fun g => (hm g).trans (hk (m g).1 (m g).2)

theorem mono {m : Gen α} (h : EmitsWith own m) (hsub : ∀ l, own.count l ≤ own'.count l) :
    EmitsWith own' m := fun g => (h g).mono hsub

/-- A generator may place a label it has just taken. -/
theorem newLabel_bind {k : ℕ → Gen β} (hk : ∀ l, EmitsWith (l :: own) (k l)) :
    EmitsWith own (newLabel >>= k) := fun g =>
  { hk g.func.nextLabel (newLabel g).2 with toAppendsWith := .newLabel (hk _ _).toAppendsWith }

theorem emitLabel (l : ℕ) : EmitsWith [l] (emitLabel l) := fun g =>
  { ExtendsWith.refl _ with toAppendsWith := .emitLabel l g }

theorem perm {m : Gen α} (h : EmitsWith own m) (hperm : own.Perm own') : EmitsWith own' m :=
  h.mono fun l => (hperm.count_eq l).le

theorem seq {m : Gen α} {k : α → Gen β} (hm : Emits m) (hk : ∀ a, EmitsWith own (k a)) :
    EmitsWith own (m >>= k) := bind hm hk

theorem place (l : ℕ) {k : Unit → Gen β} (hk : EmitsWith own (k ())) :
    EmitsWith (l :: own) (TinyC.emitLabel l >>= k) := bind (emitLabel l) fun _ => hk

end EmitsWith

namespace Emits

variable {α β : Type}

theorem pure (a : α) : Emits (Pure.pure a : Gen α) := fun g => .refl g

theorem bind {m : Gen α} {k : α → Gen β} (hm : Emits m) (hk : ∀ a, Emits (k a)) :
    Emits (m >>= k) := EmitsWith.bind hm hk

theorem get : Emits (get : Gen IrGen) := fun g => .refl g

theorem newTemp : Emits newTemp := fun _ =>
  { ExtendsWith.refl _ with
    code := ⟨[], (List.append_nil _).symm, fun l => by simp, by simp⟩
    temps := Nat.le_succ _ }

theorem newLabel : Emits newLabel := fun _ =>
  { ExtendsWith.refl _ with
    code := ⟨[], (List.append_nil _).symm, fun l => by simp, by simp⟩
    labels := Nat.le_succ _ }

theorem emit {ins : IRInstr} (h : ins.op ≠ .label) : Emits (emit ins) := fun _ =>
  { ExtendsWith.refl _ with
    code := ⟨[ins], rfl, fun l => by simp [labelsOf, h], by simp [labelsOf, h]⟩ }

theorem emitJmp (l : ℕ) : Emits (emitJmp l) := emit (by simp)

theorem emitJz (v : IRValue) (l : ℕ) : Emits (emitJz v l) := emit (by simp)

theorem emitJnz (v : IRValue) (l : ℕ) : Emits (emitJnz v l) := emit (by simp)

theorem ite {p : Prop} [Decidable p] {m k : Gen α} (hm : Emits m) (hk : Emits k) :
    Emits (if p then m else k) := by
  split
  · exact hm
  · exact hk

theorem emitTo {ty : CType} {op : IROp} {a b : IRValue} (h : op ≠ .label) :
    Emits (emitTo ty op a b) := bind newTemp fun _ => bind (emit h) fun _ => pure _

theorem genLoad (addr : IRValue) (ty : CType) : Emits (genLoad addr ty) := emitTo (by simp)

theorem genStore (addr val : IRValue) : Emits (genStore addr val) := emit (by simp)

theorem genAlloca (Γ : TypeEnv) (ty : CType) : Emits (genAlloca Γ ty) :=
  bind newTemp fun _ => bind (emit (by simp)) fun _ => pure _

theorem genAddrOffset (base : IRValue) (off : ℤ) (ty : CType) : Emits (genAddrOffset base off ty) :=
  ite (pure _) (emitTo (by simp))

theorem genMemcpy (Γ : TypeEnv) (addr src : IRValue) (ty : CType) :
    Emits (genMemcpy Γ addr src ty) := emit (by simp)

theorem genScaled (v : IRValue) (n : ℤ) : Emits (genScaled v n) := ite (pure _) (emitTo (by simp))

theorem vscopeLookup (name : String) : Emits (vscopeLookup name) := bind get fun _ => pure _

theorem addStringConst (data : String) : Emits (addStringConst data) := by
  refine bind get fun g => ?_
  dsimp only
  split
  · exact pure _
  · exact fun g => { ExtendsWith.refl _ with strConsts := List.suffix_cons _ _ }

theorem genFieldShift {op : IROp} (h : op ≠ .label) (v : IRValue) (f : StructField) :
    Emits (genFieldShift op v f) := ite (emitTo h) (pure _)

theorem genBitfieldLoad (addr : IRValue) (f : StructField) : Emits (genBitfieldLoad addr f) :=
  bind (genLoad _ _) fun _ => bind (genFieldShift (by simp) _ _) fun _ => emitTo (by simp)

theorem genBitfieldStore (addr : IRValue) (f : StructField) (v : IRValue) :
    Emits (genBitfieldStore addr f v) :=
  bind (genLoad _ _) fun _ => bind (emitTo (by simp)) fun _ => bind (emitTo (by simp)) fun _ =>
    bind (genFieldShift (by simp) _ _) fun _ => bind (emitTo (by simp)) fun _ =>
      bind (genStore _ _) fun _ => pure _

theorem forM {xs : List α} {k : α → Gen PUnit} (hk : ∀ a, Emits (k a)) : Emits (xs.forM k) := by
  induction xs with
  | nil => exact pure _
  | cons a xs ih => exact bind (hk a) fun _ => ih

theorem genZeroInitializer (Γ : TypeEnv) (addr : IRValue) (ty : CType) :
    Emits (genZeroInitializer Γ addr ty) := by
  induction hd : ty.depth Γ.rank using Nat.strong_induction_on generalizing addr ty with
  | _ d ih =>
    unfold TinyC.genZeroInitializer
    split
    · exact forM fun i => bind (genAddrOffset _ _ _) fun _ =>
        ih _ (by rw [← hd]; simp [CType.depth]) _ _ rfl
    · rename_i id _
      exact forM fun f => bind (genAddrOffset _ _ _) fun _ =>
        ih _ (by rw [← hd]; exact Γ.contained id f.1 f.2) _ _ rfl
    · exact genStore _ _

end Emits

/-- The generators of a node only extend the function. -/
structure NodeGen.Emits (n : NodeGen) : Prop where
  lvalue : TinyC.Emits n.lvalue
  expr : TinyC.Emits n.expr
  aggAddr : TinyC.Emits n.aggAddr
  init : ∀ addr ty, TinyC.Emits (n.init addr ty)

namespace Emits

theorem genScalarOrNestedInit {Γ : TypeEnv} {it : ItemGen} (h : it.value.Emits) (addr : IRValue)
    (ty : CType) : Emits (genScalarOrNestedInit Γ it addr ty) :=
  ite (h.init _ _) (ite (bind h.aggAddr fun _ => genMemcpy _ _ _ _)
    (bind h.expr fun _ => genStore _ _))

theorem genArrayItems {Γ : TypeEnv} (addr : IRValue) (elem : CType) (count : Option ℤ)
    {items : List ItemGen} (h : ∀ it ∈ items, it.value.Emits) (next : ℤ) :
    Emits (genArrayItems Γ addr elem count items next) := by
  induction items generalizing next with
  | nil => exact pure _
  | cons it rest ih =>
    have hrest := ih fun it' hit => h it' (List.mem_cons_of_mem it hit)
    have hit := h it List.mem_cons_self
    unfold TinyC.genArrayItems
    split
    · exact hrest _
    · exact ite (hrest _) (bind (genAddrOffset _ _ _) fun _ =>
        bind (genScalarOrNestedInit hit _ _) fun _ => hrest _)

theorem genAggregateItems {Γ : TypeEnv} (addr : IRValue) (ty : CType) {items : List ItemGen}
    (h : ∀ it ∈ items, it.value.Emits) (next : List StructField) :
    Emits (genAggregateItems Γ addr ty items next) := by
  induction items generalizing next with
  | nil => exact pure _
  | cons it rest ih =>
    have hrest := ih fun it' hit => h it' (List.mem_cons_of_mem it hit)
    have hit := h it List.mem_cons_self
    unfold TinyC.genAggregateItems
    split
    · exact hrest _
    · dsimp only
      split
      · exact pure _
      · exact bind (genAddrOffset _ _ _) fun _ =>
          bind (genScalarOrNestedInit hit _ _) fun _ => hrest _

theorem genListInit {Γ : TypeEnv} {items : List ItemGen} (h : ∀ it ∈ items, it.value.Emits)
    (addr : IRValue) (ty : CType) : Emits (genListInit Γ items addr ty) := by
  refine bind (genZeroInitializer Γ addr ty) fun _ => ?_
  split
  · exact genArrayItems _ _ _ h _
  · exact genArrayItems _ _ _ h _
  · exact genAggregateItems _ _ h _
  · split
    · exact pure _
    · exact genScalarOrNestedInit (h _ List.mem_cons_self) _ _

theorem genExprInit {Γ : TypeEnv} {expr aggAddr : Gen IRValue} (he : Emits expr)
    (ha : Emits aggAddr) (addr : IRValue) (ty : CType) :
    Emits (genExprInit Γ expr aggAddr addr ty) :=
  ite (bind ha fun _ => genMemcpy _ _ _ _) (bind he fun _ => genStore _ _)

end Emits

theorem NodeGen.Emits.ofLvalue {Γ : TypeEnv} {lvalue expr : Gen IRValue} (hl : TinyC.Emits lvalue)
    (he : TinyC.Emits expr) : (NodeGen.ofLvalue Γ lvalue expr).Emits :=
  ⟨hl, he, hl, fun _ _ => .genExprInit he hl _ _⟩

theorem NodeGen.Emits.ofExpr {Γ : TypeEnv} {expr : Gen IRValue} (he : TinyC.Emits expr) :
    (NodeGen.ofExpr Γ expr).Emits := .ofLvalue he he

namespace Emits

theorem genIdent (name : String) (ty : Option CType) : Emits (genIdent name ty) := by
  refine bind (vscopeLookup name) fun e => ?_
  split
  · exact ite (pure _) (genLoad _ _)
  · exact pure _

theorem genIdentLvalue (name : String) : Emits (genIdentLvalue name) := by
  refine bind (vscopeLookup name) fun e => ?_
  split <;> exact pure _

theorem loadUnlessAggregate (ty : Option CType) (addr : IRValue) :
    Emits (loadUnlessAggregate ty addr) := ite (pure _) (genLoad _ _)

theorem genStep {Γ : TypeEnv} (op : TokenKind) (ty : Option CType) {lvalue : Gen IRValue}
    (h : Emits lvalue) : Emits (genStep Γ op ty lvalue) :=
  bind h fun _ => bind (genLoad _ _) fun _ =>
    bind (emitTo (by split <;> simp)) fun _ => bind (genStore _ _) fun _ => pure _

theorem genUnop {Γ : TypeEnv} (op : TokenKind) (ty : Option CType) {n : NodeGen} (h : n.Emits) :
    Emits (genUnop Γ op ty n) := by
  unfold TinyC.genUnop
  split
  · exact h.lvalue
  · exact bind h.expr fun _ => loadUnlessAggregate _ _
  · exact bind (genStep _ _ h.lvalue) fun _ => pure _
  · exact bind (genStep _ _ h.lvalue) fun _ => pure _
  · refine bind h.expr fun v => bind newTemp fun t => ?_
    dsimp only
    split
    · exact bind (emit (by simp)) fun _ => pure _
    · exact bind (emit (by simp)) fun _ => pure _
    · exact bind (emit (by simp)) fun _ => pure _
    · exact pure _
    · exact bind (emit (by simp)) fun _ => pure _

theorem genAssign {Γ : TypeEnv} (op : TokenKind) (ty lhsTy : Option CType)
    (bf : Option StructField) {left right : NodeGen} (hl : left.Emits) (hr : right.Emits) :
    Emits (genAssign Γ op ty lhsTy bf left right) := by
  refine bind hl.lvalue fun addr => ?_
  refine ite (bind hr.aggAddr fun _ => bind (genMemcpy _ _ _ _) fun _ => pure _)
    (ite (bind hr.expr fun _ => ?_) (bind (genLoad _ _) fun _ => bind hr.expr fun _ =>
      bind newTemp fun _ => bind (ite (genScaled _ _) (pure _)) fun _ =>
        bind (emit ?_) fun _ => bind (genStore _ _) fun _ => pure _))
  · split
    · exact genBitfieldStore _ _ _
    · exact bind (genStore _ _) fun _ => pure _
  · cases op <;> simp [compoundBase, tokToIrBinop]

theorem genArgs {args : List (CType × NodeGen)} (h : ∀ a ∈ args, a.2.Emits) :
    Emits (genArgs args) := by
  induction args with
  | nil => exact pure _
  | cons a rest ih =>
    have ha := h a List.mem_cons_self
    have hrest := ih fun b hb => h b (List.mem_cons_of_mem a hb)
    exact bind (ite (bind ha.aggAddr fun _ => pure _) ha.expr) fun _ => bind hrest fun _ => pure _

theorem genCall {Γ : TypeEnv} (ty : Option CType) {func : Gen IRValue}
    {args : List (CType × NodeGen)} (hf : Emits func) (h : ∀ a ∈ args, a.2.Emits) :
    Emits (genCall Γ ty func args) :=
  bind (genArgs h) fun _ => bind hf fun _ =>
    bind (ite (genAlloca _ _) (bind newTemp fun _ => pure _)) fun _ =>
      bind (emit (by simp [irCall])) fun _ => pure _

theorem genSubscriptLvalue {Γ : TypeEnv} (ty : Option CType) {base index : Gen IRValue}
    (hb : Emits base) (hi : Emits index) : Emits (genSubscriptLvalue Γ ty base index) :=
  bind hb fun _ => bind hi fun _ => bind newTemp fun _ => bind (genScaled _ _) fun _ =>
    bind (emit (by simp)) fun _ => pure _

theorem genMemberLvalue {Γ : TypeEnv} (ty : Option CType) (field : String) {base : Gen IRValue}
    (hb : Emits base) : Emits (genMemberLvalue Γ ty field base) := by
  refine bind hb fun _ => ?_
  split
  · split
    · exact genAddrOffset _ _ _
    · exact pure _
  · exact pure _

theorem genMemberExpr (ty : Option CType) (bf : Option StructField) {lvalue : Gen IRValue}
    (h : Emits lvalue) : Emits (genMemberExpr ty bf lvalue) := by
  refine bind h fun _ => ?_
  split
  · exact genBitfieldLoad _ _
  · exact ite (pure _) (loadUnlessAggregate _ _)

theorem castOp_ne_label (Γ : TypeEnv) (src dst : CType) : castOp Γ src dst ≠ .label := by
  unfold castOp
  grind

theorem genCast {Γ : TypeEnv} (srcTy : Option CType) (ty : CType) {expr : Gen IRValue}
    (h : Emits expr) : Emits (genCast Γ srcTy ty expr) := by
  refine bind h fun _ => ?_
  split
  · exact pure _
  · exact ite (pure _) (emitTo (castOp_ne_label _ _ _))

theorem genCompoundLitLvalue {Γ : TypeEnv} (ty : CType) {init : NodeGen} (h : init.Emits) :
    Emits (genCompoundLitLvalue Γ ty init) :=
  bind (genAlloca _ _) fun _ => bind (h.init _ _) fun _ => pure _

theorem genCompoundLit (ty : Option CType) {lvalue : Gen IRValue} (h : Emits lvalue) :
    Emits (genCompoundLit ty lvalue) := bind h fun _ => ite (pure _) (genLoad _ _)

theorem genShortCircuitTest (isAnd : Bool) (lv : IRValue) {right : Gen IRValue} (hr : Emits right)
    (f l : ℕ) : EmitsWith [f] (genShortCircuitTest isAnd lv right f l) := by
  unfold TinyC.genShortCircuitTest
  split
  · exact .seq (emitJz _ _) fun _ => .seq hr fun _ => .seq (emitJnz _ _) fun _ =>
      .seq (emitJmp _) fun _ => .emitLabel f
  · have h : Emits (TinyC.emitJnz lv l >>= fun _ => right >>= fun rv => TinyC.emitJnz rv l) :=
      bind (emitJnz _ _) fun _ => bind hr fun _ => emitJnz _ _
    exact h.mono fun _ => by simp

theorem genShortCircuit (isAnd : Bool) {left right : Gen IRValue} (hl : Emits left)
    (hr : Emits right) : Emits (genShortCircuit isAnd left right) := by
  refine bind newTemp fun t => .newLabel_bind fun e => .newLabel_bind fun f =>
    .newLabel_bind fun l => ?_
  have hperm : [f, l, e].Perm [l, f, e] := .swap _ _ _
  refine EmitsWith.perm (.seq hl fun lv => ?_) hperm
  exact .bind (genShortCircuitTest isAnd lv hr f l) fun _ => .seq (emit (by simp)) fun _ =>
    .seq (emitJmp _) fun _ => .place l <| .seq (emit (by simp)) fun _ => .place e <| pure _

theorem genTernary (ty : Option CType) {cond thenExpr elseExpr : Gen IRValue} (hc : Emits cond)
    (ht : Emits thenExpr) (he : Emits elseExpr) :
    Emits (genTernary ty cond thenExpr elseExpr) := by
  refine .newLabel_bind fun t => .newLabel_bind fun e => .newLabel_bind fun l => ?_
  have hperm : [t, e, l].Perm [l, e, t] := (List.reverse_perm [l, e, t])
  refine EmitsWith.perm (.seq newTemp fun r => ?_) hperm
  exact .seq hc fun _ => .seq (emitJz _ _) fun _ => .place t <| .seq ht fun _ =>
    .seq (emit (by simp)) fun _ => .seq (emitJmp _) fun _ => .place e <| .seq he fun _ =>
      .seq (emit (by simp)) fun _ => .place l <| pure _

theorem genBinop {Γ : TypeEnv} (op : TokenKind) (ty lt rt : Option CType) {left right : Gen IRValue}
    (hl : Emits left) (hr : Emits right) : Emits (genBinop Γ op ty lt rt left right) := by
  have hop : tokToIrBinop op ≠ .label := by cases op <;> simp [tokToIrBinop]
  have hscaled : ∀ (v : IRValue) (n : ℤ) (ins : IRValue → IRInstr) (dst : IRValue),
      (∀ v, (ins v).op ≠ .label) →
      Emits (TinyC.genScaled v n >>= fun v => TinyC.emit (ins v) >>= fun _ => Pure.pure dst) :=
    fun v n ins dst h => bind (genScaled v n) fun v => bind (emit (h v)) fun _ => pure dst
  unfold TinyC.genBinop
  refine ite (genShortCircuit _ hl hr) (bind hl fun lv => bind hr fun rv => bind newTemp fun t => ?_)
  refine ite (hscaled _ _ _ _ (by simp)) (ite (hscaled _ _ _ _ (by simp)) (ite ?_
    (ite (hscaled _ _ _ _ (by simp)) (bind (emit hop) fun _ => pure _))))
  exact bind (emit (by simp)) fun _ => ite (pure _) (emitTo (by simp))

end Emits

mutual

/-- Every node only extends the function. -/
theorem genNode_emits (Γ : TypeEnv) : (e : Expr) → (genNode Γ e).Emits
  | .intLit .. | .charLit .. | .floatLit .. => .ofExpr (.pure _)
  | .strLit _ s => .ofExpr (.bind (.addStringConst s) fun _ => .pure _)
  | .ident _ name => .ofLvalue (.genIdentLvalue name) (.genIdent name _)
  | .unop _ op e =>
      have he := genNode_emits Γ e
      .ofLvalue (.ite he.expr (.genUnop op _ he)) (.genUnop op _ he)
  | .postop _ op e => .ofExpr (.bind (.genStep op _ (genNode_emits Γ e).lvalue) fun _ => .pure _)
  | .binop _ op l r =>
      .ofExpr (.genBinop op _ _ _ (genNode_emits Γ l).expr (genNode_emits Γ r).expr)
  | .assign _ op l r => .ofExpr (.genAssign op _ _ _ (genNode_emits Γ l) (genNode_emits Γ r))
  | .ternary _ c t e =>
      .ofExpr (.genTernary _ (genNode_emits Γ c).expr (genNode_emits Γ t).expr
        (genNode_emits Γ e).expr)
  | .call _ func args =>
      .ofExpr (.genCall _ (genNode_emits Γ func).expr (genNodes_emits Γ args))
  | .subscript i b x =>
      have h := Emits.genSubscriptLvalue (Γ := Γ) i.type (genNode_emits Γ b).expr
        (genNode_emits Γ x).expr
      .ofLvalue h (.bind h fun _ => .loadUnlessAggregate _ _)
  | .member _ b field =>
      have h := Emits.genMemberLvalue (Γ := Γ) b.type field (genNode_emits Γ b).lvalue
      .ofLvalue h (.genMemberExpr _ _ h)
  | .memberPtr _ b field =>
      have h := Emits.genMemberLvalue (Γ := Γ) (pointeeOrSelf b.type) field (genNode_emits Γ b).expr
      .ofLvalue h (.genMemberExpr _ _ h)
  | .cast _ _ e => .ofExpr (.genCast _ _ (genNode_emits Γ e).expr)
  | .sizeofExpr .. => .ofExpr (.pure _)
  | .sizeofType .. => .ofExpr (.pure _)
  | .comma _ l r =>
      .ofExpr (.bind (genNode_emits Γ l).expr fun _ => (genNode_emits Γ r).expr)
  | .initList _ items =>
      ⟨.pure _, .pure _, .pure _, fun _ _ => .genListInit (genItems_emits Γ items) _ _⟩
  | .fieldDesig .. => .ofExpr (.pure _)
  | .indexDesig .. => .ofExpr (.pure _)
  | .compoundLit i ty init =>
      have hi := genNode_emits Γ init
      have hl := Emits.genCompoundLitLvalue (Γ := Γ) ty hi
      have he := Emits.genCompoundLit i.type hl
      ⟨hl, he, he, fun _ _ => .ite (hi.init _ _) (.bind he fun _ => .genStore _ _)⟩

theorem genNodes_emits (Γ : TypeEnv) : (es : List Expr) → ∀ a ∈ genNodes Γ es, a.2.Emits
  | [] => by simp [genNodes]
  | e :: rest => by
      have he := genNode_emits Γ e
      have hrest := genNodes_emits Γ rest
      intro a ha
      rcases List.mem_cons.mp ha with rfl | ha
      · exact he
      · exact hrest a ha

theorem genItems_emits (Γ : TypeEnv) : (es : List Expr) → ∀ it ∈ genItems Γ es, it.value.Emits
  | [] => by simp [genItems]
  | e :: rest => by
      have hrest := genItems_emits Γ rest
      have hself := genNode_emits Γ e
      intro it hit
      cases e with
      | fieldDesig i f v =>
        rcases List.mem_cons.mp hit with rfl | hit
        · exact genNode_emits Γ v
        · exact hrest it hit
      | indexDesig i x v =>
        rcases List.mem_cons.mp hit with rfl | hit
        · exact genNode_emits Γ v
        · exact hrest it hit
      | _ =>
        rcases List.mem_cons.mp hit with rfl | hit
        · exact hself
        · exact hrest it hit

end

namespace Emits

theorem genEffect (Γ : TypeEnv) (e : Option Expr) : Emits (genEffect (e.map (genExpr Γ))) := by
  cases e with
  | none => exact pure _
  | some e => exact bind (genNode_emits Γ e).expr fun _ => pure _

theorem genLoopTest (Γ : TypeEnv) (c : Option Expr) (l : ℕ) :
    Emits (genLoopTest (c.map (genExpr Γ)) l) := by
  cases c with
  | none => exact pure _
  | some c => exact bind (genNode_emits Γ c).expr fun _ => emitJz _ _

end Emits

end TinyC
