import TinyC.TempFlow

/-!
# A rule for the generators of expressions

The generators of expressions and initializers are put together from few pieces. What holds of
the pieces and of a sequence holds of every node. An instruction writes no temp but one that the
same generator has taken.
-/

namespace TinyC

/-- An instruction that neither places a label nor jumps. -/
def IROp.straight : IROp → Bool
  | .label | .jmp | .jz | .jnz | .ret => false
  | _ => true

/-- The instruction writes no temp outside `own`. The destination of a store, of a `memcpy` and of
a call for an aggregate is an address. -/
def IRInstr.WritesIn (ins : IRInstr) (own : Set ℕ) : Prop :=
  (ins.usesDst = true ∧ ins.op ≠ .copy) ∨ ∀ t, ins.dst.kind = .temp t → t ∈ own

/-- A string constant goes to the module. -/
theorem addStringConst_func (data : String) (g : IrGen) :
    (addStringConst data g).2.func = g.func := by
  rw [addStringConst, Gen.run_get_bind]
  dsimp only
  cases g.module.strConsts.find? fun s => s.data == data <;> rfl

/-- `Q own` holds of the pieces, `own` being temps that may be written, and is kept by a sequence.
Labels and jumps only stand in `&&`, `||` and `?:`. -/
structure GenRules (Q : Set ℕ → ∀ {α : Type}, Gen α → Prop) : Prop where
  pure : ∀ {own : Set ℕ} {α : Type} (a : α), Q own (Pure.pure a : Gen α)
  bind : ∀ {own : Set ℕ} {α β : Type} {m : Gen α} {k : α → Gen β}, Q own m → (∀ a, Q own (k a)) →
    Q own (m >>= k)
  newTemp_bind : ∀ {own : Set ℕ} {β : Type} {k : ℕ → Gen β}, (∀ t, Q (insert t own) (k t)) →
    Q own (newTemp >>= k)
  emit : ∀ {own : Set ℕ} {ins : IRInstr}, ins.op.straight → ins.WritesIn own → Q own (emit ins)
  vscopeLookup : ∀ {own : Set ℕ} name, Q own (vscopeLookup name)
  addStringConst : ∀ {own : Set ℕ} data, Q own (addStringConst data)
  genShortCircuit : ∀ {own : Set ℕ} (isAnd : Bool) {left right : Gen IRValue},
    (∀ own, Q own left) → (∀ own, Q own right) → Q own (genShortCircuit isAnd left right)
  genTernary : ∀ {own : Set ℕ} (ty : Option CType) {cond thenExpr elseExpr : Gen IRValue},
    (∀ own, Q own cond) → (∀ own, Q own thenExpr) → (∀ own, Q own elseExpr) →
      Q own (genTernary ty cond thenExpr elseExpr)

/-- `Q` holds whatever temps may be written. -/
abbrev Throughout (Q : Set ℕ → ∀ {α : Type}, Gen α → Prop) {α : Type} (m : Gen α) : Prop :=
  ∀ own, Q own m

/-- `Q` holds of the generators of a node. -/
structure NodeGen.All (Q : ∀ {α : Type}, Gen α → Prop) (n : NodeGen) : Prop where
  lvalue : Q n.lvalue
  expr : Q n.expr
  aggAddr : Q n.aggAddr
  init : ∀ addr ty, Q (n.init addr ty)

theorem writesIn_temp {ins : IRInstr} {t : ℕ} {ty : CType} (h : ins.dst = irvTemp t ty)
    (own : Set ℕ) : ins.WritesIn (insert t own) := by
  refine .inr fun u hu => ?_
  rw [h] at hu
  cases hu
  exact Set.mem_insert t own

theorem writesIn_of_usesDst {ins : IRInstr} (h : ins.usesDst = true) (hop : ins.op ≠ .copy)
    (own : Set ℕ) : ins.WritesIn own := .inl ⟨h, hop⟩

namespace GenRules

variable {Q : Set ℕ → ∀ {α : Type}, Gen α → Prop} (R : GenRules Q) (Γ : TypeEnv) {own : Set ℕ}

theorem ite {α : Type} {Q : α → Prop} {p : Prop} [Decidable p] {m k : α} (hm : Q m) (hk : Q k) :
    Q (if p then m else k) := by
  split
  · exact hm
  · exact hk

include R

theorem seq {α : Type} {m : Gen α} (hm : Q own m) {β : Type} (b : α → β) :
    Q own (m >>= fun a => Pure.pure (b a)) := R.bind hm fun _ => R.pure _

theorem emitTo {ty : CType} {op : IROp} {a b : IRValue} (h : op.straight) :
    Q own (emitTo ty op a b) := R.newTemp_bind fun _ => R.seq (R.emit h (writesIn_temp rfl _)) _

theorem genLoad (addr : IRValue) (ty : CType) : Q own (genLoad addr ty) := R.emitTo rfl

theorem genStore (addr val : IRValue) : Q own (genStore addr val) :=
  R.emit rfl (writesIn_of_usesDst rfl (by simp) _)

theorem genAlloca (ty : CType) : Q own (genAlloca Γ ty) :=
  R.newTemp_bind fun _ => R.seq (R.emit rfl (writesIn_temp rfl _)) _

theorem genAddrOffset (base : IRValue) (off : ℤ) (ty : CType) :
    Q own (genAddrOffset base off ty) := ite (R.pure _) (R.emitTo rfl)

theorem genMemcpy (addr src : IRValue) (ty : CType) : Q own (genMemcpy Γ addr src ty) :=
  R.emit rfl (writesIn_of_usesDst rfl (by simp) _)

theorem genScaled (v : IRValue) (n : ℤ) : Q own (genScaled v n) := ite (R.pure _) (R.emitTo rfl)

theorem genFieldShift {op : IROp} (h : op.straight) (v : IRValue) (f : StructField) :
    Q own (genFieldShift op v f) := ite (R.emitTo h) (R.pure _)

theorem genBitfieldLoad (addr : IRValue) (f : StructField) : Q own (genBitfieldLoad addr f) :=
  R.bind (R.genLoad _ _) fun _ => R.bind (R.genFieldShift rfl _ _) fun _ => R.emitTo rfl

theorem genBitfieldStore (addr : IRValue) (f : StructField) (v : IRValue) :
    Q own (genBitfieldStore addr f v) :=
  R.bind (R.genLoad _ _) fun _ => R.bind (R.emitTo rfl) fun _ => R.bind (R.emitTo rfl) fun _ =>
    R.bind (R.genFieldShift rfl _ _) fun _ => R.bind (R.emitTo rfl) fun _ =>
      R.seq (R.genStore _ _) _

theorem forM {α : Type} {xs : List α} {k : α → Gen PUnit} (hk : ∀ a, Q own (k a)) :
    Q own (xs.forM k) := by
  induction xs with
  | nil => exact R.pure _
  | cons a xs ih => exact R.bind (hk a) fun _ => ih

theorem genZeroInitializer (addr : IRValue) (ty : CType) :
    Q own (genZeroInitializer Γ addr ty) := by
  induction hd : ty.depth Γ.rank using Nat.strong_induction_on generalizing addr ty with
  | _ d ih =>
    rw [TinyC.genZeroInitializer.eq_def]
    split
    · exact R.forM fun i => R.bind (R.genAddrOffset _ _ _) fun _ =>
        ih _ (by rw [← hd]; simp [CType.depth]) _ _ rfl
    · rename_i id _
      exact R.forM fun f => R.bind (R.genAddrOffset _ _ _) fun _ =>
        ih _ (by rw [← hd]; exact Γ.contained id f.1 f.2) _ _ rfl
    · exact R.genStore _ _

variable {Γ}

theorem genScalarOrNestedInit {it : ItemGen} (h : it.value.All (Throughout Q)) (addr : IRValue)
    (ty : CType) : Q own (genScalarOrNestedInit Γ it addr ty) :=
  ite (h.init _ _ _) (ite (R.bind (h.aggAddr _) fun _ => R.genMemcpy Γ _ _ _)
    (R.bind (h.expr _) fun _ => R.genStore _ _))

theorem genArrayItems (addr : IRValue) (elem : CType) (count : Option ℤ) {items : List ItemGen}
    (h : ∀ it ∈ items, it.value.All (Throughout Q)) (next : ℤ) :
    Q own (genArrayItems Γ addr elem count items next) := by
  induction items generalizing next with
  | nil => exact R.pure _
  | cons it rest ih =>
    have hrest := ih fun it' hit => h it' (List.mem_cons_of_mem it hit)
    have hit := h it List.mem_cons_self
    rw [TinyC.genArrayItems.eq_def]
    dsimp only
    split
    · exact hrest _
    · exact ite (hrest _) (R.bind (R.genAddrOffset _ _ _) fun _ =>
        R.bind (R.genScalarOrNestedInit hit _ _) fun _ => hrest _)

theorem genAggregateItems (addr : IRValue) (ty : CType) {items : List ItemGen}
    (h : ∀ it ∈ items, it.value.All (Throughout Q)) (next : List StructField) :
    Q own (genAggregateItems Γ addr ty items next) := by
  induction items generalizing next with
  | nil => exact R.pure _
  | cons it rest ih =>
    have hrest := ih fun it' hit => h it' (List.mem_cons_of_mem it hit)
    have hit := h it List.mem_cons_self
    rw [TinyC.genAggregateItems.eq_def]
    dsimp only
    split
    · exact hrest _
    · split
      · exact R.pure _
      · exact R.bind (R.genAddrOffset _ _ _) fun _ =>
          R.bind (R.genScalarOrNestedInit hit _ _) fun _ => hrest _

theorem genListInit {items : List ItemGen} (h : ∀ it ∈ items, it.value.All (Throughout Q)) (addr : IRValue)
    (ty : CType) : Q own (genListInit Γ items addr ty) := by
  refine R.bind (R.genZeroInitializer Γ addr ty) fun _ => ?_
  split
  · exact R.genArrayItems _ _ _ h _
  · exact R.genArrayItems _ _ _ h _
  · exact R.genAggregateItems _ _ h _
  · split
    · exact R.pure _
    · exact R.genScalarOrNestedInit (h _ List.mem_cons_self) _ _

theorem ofLvalue {lvalue expr : Gen IRValue} (hl : ∀ own, Q own lvalue)
    (he : ∀ own, Q own expr) :
    (NodeGen.ofLvalue Γ lvalue expr).All (Throughout Q) :=
  ⟨hl, he, hl, fun _ _ _ => ite (R.bind (hl _) fun _ => R.genMemcpy Γ _ _ _)
    (R.bind (he _) fun _ => R.genStore _ _)⟩

theorem ofExpr {expr : Gen IRValue} (he : ∀ own, Q own expr) :
    (NodeGen.ofExpr Γ expr).All (Throughout Q) := R.ofLvalue he he

theorem genIdent (name : String) (ty : Option CType) : Q own (genIdent name ty) := by
  refine R.bind (R.vscopeLookup name) fun e => ?_
  split
  · exact ite (R.pure _) (R.genLoad _ _)
  · exact R.pure _

theorem genIdentLvalue (name : String) : Q own (genIdentLvalue name) := by
  refine R.bind (R.vscopeLookup name) fun e => ?_
  split <;> exact R.pure _

theorem loadUnlessAggregate (ty : Option CType) (addr : IRValue) :
    Q own (loadUnlessAggregate ty addr) := ite (R.pure _) (R.genLoad _ _)

theorem genStep (op : TokenKind) (ty : Option CType) {lvalue : Gen IRValue} (h : Q own lvalue) :
    Q own (genStep Γ op ty lvalue) :=
  R.bind h fun _ => R.bind (R.genLoad _ _) fun _ =>
    R.bind (R.emitTo (by split <;> rfl)) fun _ => R.seq (R.genStore _ _) _

theorem genUnop (op : TokenKind) (ty : Option CType) {n : NodeGen} (h : n.All (Throughout Q)) :
    Q own (genUnop Γ op ty n) := by
  have hrest : ∀ ins : IRValue → ℕ → IRInstr,
      (∀ v t, (ins v t).op.straight ∧ (ins v t).dst = irvTemp t (ty.getD typeInt)) →
      Q own (n.expr >>= fun v => TinyC.newTemp >>= fun t => TinyC.emit (ins v t) >>= fun _ =>
        (Pure.pure (irvTemp t (ty.getD typeInt)) : Gen IRValue)) :=
    fun ins hins => R.bind (h.expr _) fun v => R.newTemp_bind fun t =>
      R.seq (R.emit (hins v t).1 (writesIn_temp (hins v t).2 _)) _
  cases op with
  | amp => exact h.lvalue _
  | star => exact R.bind (h.expr _) fun _ => R.loadUnlessAggregate _ _
  | plusplus => exact R.seq (R.genStep _ _ (h.lvalue _)) _
  | minusminus => exact R.seq (R.genStep _ _ (h.lvalue _)) _
  | plus => exact R.bind (h.expr _) fun v => R.newTemp_bind fun _ => R.pure _
  | _ => exact hrest _ fun _ _ => ⟨rfl, rfl⟩

theorem genAssign (op : TokenKind) (ty lhsTy : Option CType) (bf : Option StructField)
    {left right : NodeGen} (hl : left.All (Throughout Q)) (hr : right.All (Throughout Q)) :
    Q own (genAssign Γ op ty lhsTy bf left right) := by
  refine R.bind (hl.lvalue _) fun addr => ?_
  refine ite (R.bind (hr.aggAddr _) fun _ => R.seq (R.genMemcpy Γ _ _ _) _)
    (ite (R.bind (hr.expr _) fun _ => ?_) (R.bind (R.genLoad _ _) fun _ => R.bind (hr.expr _) fun _ =>
      R.newTemp_bind fun _ => R.bind (ite (R.genScaled _ _) (R.pure _)) fun _ =>
        R.bind (R.emit ?_ (writesIn_temp rfl _)) fun _ => R.seq (R.genStore _ _) _))
  · split
    · exact R.genBitfieldStore _ _ _
    · exact R.seq (R.genStore _ _) _
  · cases op <;> rfl

theorem genArgs {args : List (CType × NodeGen)} (h : ∀ a ∈ args, a.2.All (Throughout Q)) :
    Q own (genArgs args) := by
  induction args with
  | nil => exact R.pure _
  | cons a rest ih =>
    have ha := h a List.mem_cons_self
    have hrest := ih fun b hb => h b (List.mem_cons_of_mem a hb)
    exact R.bind (ite (R.seq (ha.aggAddr _) _) (ha.expr _)) fun _ => R.seq hrest _

theorem genCall (ty : Option CType) {func : Gen IRValue} {args : List (CType × NodeGen)}
    (hf : Q own func) (h : ∀ a ∈ args, a.2.All (Throughout Q)) : Q own (genCall Γ ty func args) := by
  refine R.bind (R.genArgs h) fun vs => R.bind hf fun callee => ?_
  unfold genCallDst
  by_cases hagg : isAggregateType (some (ty.getD typeInt)) = true
  · simp only [if_pos hagg]
    have huses (dst : IRValue) : (irCall Γ dst callee vs (ty.getD typeInt)).usesDst = true := hagg
    exact R.bind (R.genAlloca _ _) fun dst => R.seq
      (R.emit rfl (writesIn_of_usesDst (huses dst) (by simp [irCall]) _)) _
  · simp only [if_neg hagg, bind_assoc, pure_bind]
    exact R.newTemp_bind fun t => R.seq (R.emit rfl (writesIn_temp rfl _)) _

theorem genSubscriptLvalue (ty : Option CType) {base index : Gen IRValue}
    (hb : ∀ own, Q own base) (hi : ∀ own, Q own index) : Q own (genSubscriptLvalue Γ ty base index) :=
  R.bind (hb _) fun _ => R.bind (hi _) fun _ => R.newTemp_bind fun _ => R.bind (R.genScaled _ _) fun _ =>
    R.seq (R.emit rfl (writesIn_temp rfl _)) _

theorem genMemberLvalue (ty : Option CType) (field : String) {base : Gen IRValue}
    (hb : Q own base) : Q own (genMemberLvalue Γ ty field base) := by
  refine R.bind hb fun _ => ?_
  split
  · split
    · exact R.genAddrOffset _ _ _
    · exact R.pure _
  · exact R.pure _

theorem genMemberExpr (ty : Option CType) (bf : Option StructField) {lvalue : Gen IRValue}
    (h : Q own lvalue) : Q own (genMemberExpr ty bf lvalue) := by
  refine R.bind h fun _ => ?_
  split
  · exact R.genBitfieldLoad _ _
  · exact ite (R.pure _) (R.loadUnlessAggregate _ _)

theorem genCast (srcTy : Option CType) (ty : CType) {expr : Gen IRValue} (h : Q own expr) :
    Q own (genCast Γ srcTy ty expr) := by
  have hop : ∀ src, (castOp Γ src ty).straight := fun src => by
    unfold castOp
    grind [IROp.straight]
  refine R.bind h fun _ => ?_
  split
  · exact R.pure _
  · exact ite (R.pure _) (R.emitTo (hop _))

theorem genCompoundLitLvalue (ty : CType) {init : NodeGen} (h : init.All (Throughout Q)) :
    Q own (genCompoundLitLvalue Γ ty init) :=
  R.bind (R.genAlloca _ _) fun _ => R.seq (h.init _ _ _) _

theorem genCompoundLit (ty : Option CType) {lvalue : Gen IRValue} (h : Q own lvalue) :
    Q own (genCompoundLit ty lvalue) := R.bind h fun _ => ite (R.pure _) (R.genLoad _ _)

theorem genBinop (op : TokenKind) (ty lt rt : Option CType) {left right : Gen IRValue}
    (hl : ∀ own, Q own left) (hr : ∀ own, Q own right) :
    Q own (genBinop Γ op ty lt rt left right) := by
  have hop : (tokToIrBinop op).straight := by cases op <;> rfl
  have hscaled : ∀ (t : ℕ) (v : IRValue) (n : ℤ) (ins : IRValue → IRInstr) (dst : IRValue),
      (∀ v, (ins v).op.straight ∧ (ins v).dst = irvTemp t (ty.getD typeInt)) →
      Q (insert t own)
        (TinyC.genScaled v n >>= fun v => TinyC.emit (ins v) >>= fun _ => Pure.pure dst) :=
    fun t v n ins dst h => R.bind (R.genScaled v n) fun v =>
      R.seq (R.emit (h v).1 (writesIn_temp (h v).2 _)) _
  unfold TinyC.genBinop
  refine ite (R.genShortCircuit _ hl hr)
    (R.bind (hl _) fun lv => R.bind (hr _) fun rv => R.newTemp_bind fun t => ?_)
  refine ite (hscaled t _ _ _ _ fun _ => ⟨rfl, rfl⟩) (ite (hscaled t _ _ _ _ fun _ => ⟨rfl, rfl⟩)
    (ite ?_ (ite (hscaled t _ _ _ _ fun _ => ⟨rfl, rfl⟩)
      (R.seq (R.emit hop (writesIn_temp rfl _)) _))))
  exact R.bind (R.emit rfl (writesIn_temp rfl _)) fun _ => ite (R.pure _) (R.emitTo rfl)

end GenRules

mutual

/-- What the rules give holds of the generators of every node. -/
theorem GenRules.node {Q : Set ℕ → ∀ {α : Type}, Gen α → Prop} (R : GenRules Q) (Γ : TypeEnv) :
    (e : Expr) → (genNode Γ e).All (Throughout Q)
  | .intLit _ _ _ | .charLit _ _ | .floatLit _ _ _ => R.ofExpr fun _ => R.pure _
  | .strLit _ s => R.ofExpr fun _ => R.seq (R.addStringConst s) _
  | .ident _ name => R.ofLvalue (fun _ => R.genIdentLvalue name) fun _ => R.genIdent name _
  | .unop _ op e =>
      have he := R.node Γ e
      R.ofLvalue (fun _ => ite (he.expr _) (R.genUnop op _ he)) fun _ => R.genUnop op _ he
  | .postop _ op e => R.ofExpr fun _ => R.seq (R.genStep op _ ((R.node Γ e).lvalue _)) _
  | .binop _ op l r =>
      R.ofExpr fun _ => R.genBinop op _ _ _ (R.node Γ l).expr (R.node Γ r).expr
  | .assign _ op l r => R.ofExpr fun _ => R.genAssign op _ _ _ (R.node Γ l) (R.node Γ r)
  | .ternary _ c t e =>
      R.ofExpr fun _ => R.genTernary _ (R.node Γ c).expr (R.node Γ t).expr (R.node Γ e).expr
  | .call _ func args =>
      R.ofExpr fun _ => R.genCall _ ((R.node Γ func).expr _) (R.nodes Γ args)
  | .subscript i b x =>
      have h own : Q own _ := R.genSubscriptLvalue i.type (R.node Γ b).expr (R.node Γ x).expr
      R.ofLvalue h fun _ => R.bind (h _) fun _ => R.loadUnlessAggregate _ _
  | .member _ b field =>
      have h own : Q own _ := R.genMemberLvalue b.type field ((R.node Γ b).lvalue own)
      R.ofLvalue h fun _ => R.genMemberExpr _ _ (h _)
  | .memberPtr _ b field =>
      have h own : Q own _ := R.genMemberLvalue (pointeeOrSelf b.type) field ((R.node Γ b).expr own)
      R.ofLvalue h fun _ => R.genMemberExpr _ _ (h _)
  | .cast _ _ e => R.ofExpr fun _ => R.genCast _ _ ((R.node Γ e).expr _)
  | .sizeofExpr _ _ => R.ofExpr fun _ => R.pure _
  | .sizeofType _ _ => R.ofExpr fun _ => R.pure _
  | .comma _ l r => R.ofExpr fun _ => R.bind ((R.node Γ l).expr _) fun _ => (R.node Γ r).expr _
  | .initList _ items =>
      ⟨fun _ => R.pure _, fun _ => R.pure _, fun _ => R.pure _,
        fun _ _ _ => R.genListInit (R.items Γ items) _ _⟩
  | .fieldDesig _ _ _ => R.ofExpr fun _ => R.pure _
  | .indexDesig _ _ _ => R.ofExpr fun _ => R.pure _
  | .compoundLit i ty init =>
      have hi := R.node Γ init
      have hl own : Q own _ := R.genCompoundLitLvalue ty hi
      have he own : Q own _ := R.genCompoundLit i.type (hl own)
      ⟨hl, he, he, fun _ _ _ => ite (hi.init _ _ _) (R.bind (he _) fun _ => R.genStore _ _)⟩

theorem GenRules.nodes {Q : Set ℕ → ∀ {α : Type}, Gen α → Prop} (R : GenRules Q) (Γ : TypeEnv) :
    (es : List Expr) → ∀ a ∈ genNodes Γ es, a.2.All (Throughout Q)
  | [] => fun _ ha => absurd ha List.not_mem_nil
  | e :: rest => by
      have he := R.node Γ e
      have hrest := R.nodes Γ rest
      intro a ha
      rcases List.mem_cons.mp ha with rfl | ha
      · exact he
      · exact hrest a ha

theorem GenRules.items {Q : Set ℕ → ∀ {α : Type}, Gen α → Prop} (R : GenRules Q) (Γ : TypeEnv) :
    (es : List Expr) → ∀ it ∈ genItems Γ es, it.value.All (Throughout Q)
  | [] => fun _ hit => absurd hit List.not_mem_nil
  | e :: rest => by
      have hrest := R.items Γ rest
      have hself := R.node Γ e
      intro it hit
      cases e with
      | fieldDesig _ _ v =>
        rcases List.mem_cons.mp hit with rfl | hit
        · exact R.node Γ v
        · exact hrest it hit
      | indexDesig _ _ v =>
        rcases List.mem_cons.mp hit with rfl | hit
        · exact R.node Γ v
        · exact hrest it hit
      | _ =>
        rcases List.mem_cons.mp hit with rfl | hit
        · exact hself
        · exact hrest it hit

end

theorem GenRules.node_of {Q : ∀ {α : Type}, Gen α → Prop} (R : GenRules fun _ => Q) (Γ : TypeEnv)
    (e : Expr) : (genNode Γ e).All Q :=
  have h := R.node Γ e
  ⟨h.lvalue ∅, h.expr ∅, h.aggAddr ∅, fun addr ty => h.init addr ty ∅⟩

end TinyC
