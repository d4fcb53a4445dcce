import TinyC.Fallbacks
import TinyC.StmtFrame

/-!
# A rule for fallbacks

A graded rule relates irgen to irgen with fallbacks: the grade says that no fallback is taken, but
for names that have a declaration. The grades of a sequence are joined, and the node is sound where
its generators have the grade `true`. For statements the rule goes from the names declared before to
those declared after.
-/

namespace TinyC

/-- The type of the current function, the globals of the module and the names in scope. -/
def IrGen.fixed (g : IrGen) : Option CType × List IRGlobalVar × ScopeChain VarEntry :=
  (g.func.funcType, g.module.globalVars, g.scope)

theorem stable_fixed : Stable IrGen.fixed := fun _ _ _ h =>
  Prod.ext h.funcType (Prod.ext (congrArg (fun d => d.2.1) h.definitions) h.scope)

variable {fb : Fallback → Gen Unit} {Γ : TypeEnv} {ft : Option CType}

/-- `Q b m m'` relates a generator to one with fallbacks, none of which is taken if `b` holds,
`declared` being in scope all along. -/
structure FallbackRules (fb : Fallback → Gen Unit) (declared : List String)
    (Q : Bool → ∀ {α : Type}, Gen α → Gen α → Prop) : Prop where
  quiet : ∀ {α : Type} {m : Gen α}, Keeps IrGen.fixed m → Q true m m
  bind : ∀ {α β : Type} {b c : Bool} {m m' : Gen α} {k k' : α → Gen β},
    Q b m m' → (∀ a, Q c (k a) (k' a)) → Q (b && c) (m >>= k) (m' >>= k')
  fallback : ∀ {α : Type} (c : Fallback) {b : Bool} {m m' : Gen α}, c.isDeclared = false →
    Q b m m' → Q false m (fb c >>= fun _ => m')
  lookingUp : ∀ {α : Type} (name : String) {m : Gen α}, Keeps IrGen.fixed m →
    Q (name ∈ declared) m (TinyC.lookingUp fb declared name m)

/-- The rules for statements: `Q before after b m m'` relates what is done where `before` is in
scope, and `after` when it is done. The current function has the type `ft`. -/
structure FallbackStmtRules (fb : Fallback → Gen Unit) (ft : Option CType)
    (Q : List String → List String → Bool → ∀ {α : Type}, Gen α → Gen α → Prop) : Prop where
  node : ∀ declared, FallbackRules fb declared (Q declared declared)
  bind : ∀ {α β : Type} {before between after : List String} {b c : Bool} {m m' : Gen α}
    {k k' : α → Gen β}, Q before between b m m' → (∀ a, Q between after c (k a) (k' a)) →
      Q before after (b && c) (m >>= k) (m' >>= k')
  more : ∀ {α : Type} {before before' after after' : List String} {b : Bool} {m m' : Gen α},
    Q before' after b m m' → before ⊆ before' → after ⊆ after' → Q before after' b m m'
  define : ∀ (declared : List String) (name : String) (addr : IRValue) (isGlobal : Bool),
    Q declared (name :: declared) true (vscopeDefine name addr isGlobal)
      (vscopeDefine name addr isGlobal)
  withScope : ∀ {before after : List String} {b : Bool} {m m' : Gen Unit},
    Q before after b m m' → Q before before b (withScope m) (withScope m')
  getBind : ∀ {β : Type} {before after : List String} {b : Bool} {k k' : IrGen → Gen β},
    (∀ g, g.func.funcType = ft → Q before after b (k g) (k' g)) →
      Q before after b (get >>= k) (get >>= k')

/-- The generators of a node are related at the grades of the node. -/
structure NodeRelated (Q : Bool → ∀ {α : Type}, Gen α → Gen α → Prop) (s : NodeSound)
    (n n' : NodeGen) : Prop where
  lvalue : Q s.lvalue n.lvalue n'.lvalue
  expr : Q s.expr n.expr n'.expr
  aggAddr : Q s.aggAddr n.aggAddr n'.aggAddr
  init : ∀ addr ty, Q (s.init ty) (n.init addr ty) (n'.init addr ty)

structure ItemRelated (Q : Bool → ∀ {α : Type}, Gen α → Gen α → Prop) (s : ItemSound)
    (it it' : ItemGen) : Prop where
  kind : it.kind = s.kind
  kind' : it'.kind = s.kind
  isList : it.isList = s.isList
  isList' : it'.isList = s.isList
  value : NodeRelated Q s.value it.value it'.value

inductive ItemsRelated (Q : Bool → ∀ {α : Type}, Gen α → Gen α → Prop) :
    List ItemSound → List ItemGen → List ItemGen → Prop where
  | nil : ItemsRelated Q [] [] []
  | cons {s : ItemSound} {it it' : ItemGen} {ss : List ItemSound} {its its' : List ItemGen} :
      ItemRelated Q s it it' → ItemsRelated Q ss its its' →
        ItemsRelated Q (s :: ss) (it :: its) (it' :: its')

namespace FallbackRules

variable {declared : List String} {Q : Bool → ∀ {α : Type}, Gen α → Gen α → Prop}
  (R : FallbackRules fb declared Q)

theorem ite {α : Type} {p : Prop} [Decidable p] {b : Bool} {m m' k k' : Gen α} (hm : Q b m m')
    (hk : Q b k k') : Q b (if p then m else k) (if p then m' else k') := by
  by_cases hp : p
  · rwa [if_pos hp, if_pos hp]
  · rwa [if_neg hp, if_neg hp]

include R

variable {α β : Type} {b c : Bool}

theorem seqQuiet {m m' : Gen α} {k : α → Gen β} (hm : Q b m m') (hk : ∀ a, Keeps IrGen.fixed (k a)) :
    Q b (m >>= k) (m' >>= k) := by
  have h := R.bind hm fun a => R.quiet (hk a)
  rwa [Bool.and_true] at h

theorem quietSeq {m : Gen α} {k k' : α → Gen β} (hm : Keeps IrGen.fixed m) (hk : ∀ a, Q b (k a) (k' a)) :
    Q b (m >>= k) (m >>= k') := R.bind (R.quiet hm) hk

theorem orFallback (d : Fallback) (ok : Bool) {m m' : Gen α} (h : Q b m m')
    (hd : d.isDeclared = false := by rfl) : Q (ok && b) m (orFallback fb d ok m') := by
  cases ok with
  | true => exact h
  | false => exact R.fallback d hd h

theorem seqEmits {m m' : Gen α} {k : α → Gen β} (hm : Q b m m') (hk : ∀ a, Emits (k a)) : Q b (m >>= k) (m' >>= k) :=
  R.seqQuiet hm fun a => .ofEmits stable_fixed (hk a)

theorem emits {m : Gen α} (h : Emits m) : Q true m m := R.quiet (.ofEmits stable_fixed h)

/-! ### Initializers -/

theorem genScalarOrNestedInit {s : ItemSound} {it it' : ItemGen} (h : ItemRelated Q s it it')
    (addr : IRValue) (ty : CType) : Q (scalarOrNestedSound s ty) (genScalarOrNestedInit Γ it addr ty)
      (genScalarOrNestedInit Γ it' addr ty) := by
  unfold scalarOrNestedSound TinyC.genScalarOrNestedInit
  rw [h.isList, h.isList']
  split
  · exact h.value.init _ _
  · split
    · exact R.seqEmits h.value.aggAddr fun _ => Emits.genMemcpy Γ _ _ _
    · exact R.seqEmits h.value.expr fun _ => Emits.genStore _ _

theorem genArrayItems (addr : IRValue) (elem : CType) (count : Option ℤ) {ss : List ItemSound}
    {its its' : List ItemGen} (h : ItemsRelated Q ss its its') (next : ℤ) :
    Q (arrayItemsSound elem count ss next) (genArrayItems Γ addr elem count its next)
      (genArrayItems Γ addr elem count its' next) := by
  induction h generalizing next with
  | nil => exact R.quiet (.pure _)
  | @cons s it it' ss its its' hit _ ih =>
    have hone : ∀ i : ℤ, Q
        (if count.any fun n => i < 0 || i ≥ n then arrayItemsSound elem count ss (i + 1)
          else scalarOrNestedSound s elem && arrayItemsSound elem count ss (i + 1))
        (if count.any fun n => i < 0 || i ≥ n then TinyC.genArrayItems Γ addr elem count its (i + 1)
          else do
            let elemAddr ← genAddrOffset addr (toInt32 (i * elemSize Γ elem)) elem
            TinyC.genScalarOrNestedInit Γ it elemAddr elem
            TinyC.genArrayItems Γ addr elem count its (i + 1))
        (if count.any fun n => i < 0 || i ≥ n then TinyC.genArrayItems Γ addr elem count its' (i + 1)
          else do
            let elemAddr ← genAddrOffset addr (toInt32 (i * elemSize Γ elem)) elem
            TinyC.genScalarOrNestedInit Γ it' elemAddr elem
            TinyC.genArrayItems Γ addr elem count its' (i + 1)) := by
      intro i
      split
      · exact ih _
      · exact R.quietSeq (.ofEmits stable_fixed (Emits.genAddrOffset _ _ _)) fun _ =>
          R.bind (R.genScalarOrNestedInit hit _ _) fun _ => ih _
    rw [arrayItemsSound, TinyC.genArrayItems, TinyC.genArrayItems, hit.kind, hit.kind']
    cases s.kind with
    | field name => exact ih _
    | plain => exact hone next
    | index v => exact hone v.toInt

theorem genAggregateItems (addr : IRValue) (ty : CType) {ss : List ItemSound}
    {its its' : List ItemGen} (h : ItemsRelated Q ss its its') (next : List StructField) :
    Q (aggregateItemsSound Γ ty ss next) (genAggregateItems Γ addr ty its next)
      (genAggregateItems Γ addr ty its' next) := by
  induction h generalizing next with
  | nil => exact R.quiet (.pure _)
  | @cons s it it' ss its its' hit _ ih =>
    have hitem : ∀ (field : StructField) (after : List StructField),
        Q (scalarOrNestedSound s field.type && aggregateItemsSound Γ ty ss after)
          (do
            let fieldAddr ← genAddrOffset addr field.offset field.type
            TinyC.genScalarOrNestedInit Γ it fieldAddr field.type
            TinyC.genAggregateItems Γ addr ty its after)
          (do
            let fieldAddr ← genAddrOffset addr field.offset field.type
            TinyC.genScalarOrNestedInit Γ it' fieldAddr field.type
            TinyC.genAggregateItems Γ addr ty its' after) := fun field after =>
      R.quietSeq (.ofEmits stable_fixed (Emits.genAddrOffset _ _ _)) fun _ =>
        R.bind (R.genScalarOrNestedInit hit _ _) fun _ => ih _
    rw [aggregateItemsSound, TinyC.genAggregateItems, TinyC.genAggregateItems, hit.kind, hit.kind']
    cases s.kind with
    | index v => exact ih _
    | plain =>
      cases next with
      | nil => exact R.quiet (.pure _)
      | cons field after => exact hitem field after
    | field name =>
      dsimp only
      cases findField Γ (some ty) name with
      | nil => exact R.quiet (.pure _)
      | cons field after => exact hitem field after

theorem genListInit {ss : List ItemSound} {its its' : List ItemGen} (h : ItemsRelated Q ss its its')
    (addr : IRValue) (ty : CType) :
    Q (listSound Γ ss ty) (genListInit Γ its addr ty) (genListInit Γ its' addr ty) := by
  refine R.quietSeq (.ofEmits stable_fixed (Emits.genZeroInitializer Γ addr ty)) fun _ => ?_
  cases ty with
  | array elem count q => exact R.genArrayItems _ _ _ h _
  | arrayUnsized elem q => exact R.genArrayItems _ _ _ h _
  | agg u id q => exact R.genAggregateItems _ _ h _
  | _ =>
    cases h with
    | nil => exact R.quiet (.pure _)
    | cons hit _ => exact R.genScalarOrNestedInit hit _ _

/-! ### Nodes -/

theorem genExprInit {bl be : Bool} {l l' e e' : Gen IRValue} (hl : Q bl l l') (he : Q be e e')
    (addr : IRValue) (ty : CType) : Q (if isAggregateType (some ty) then bl else be)
      (genExprInit Γ e l addr ty) (genExprInit Γ e' l' addr ty) := by
  unfold TinyC.genExprInit
  split
  · exact R.seqEmits hl fun _ => Emits.genMemcpy Γ _ _ _
  · exact R.seqEmits he fun _ => Emits.genStore _ _

theorem ofLvalue {bl be : Bool} {l l' e e' : Gen IRValue} (hl : Q bl l l') (he : Q be e e') :
    NodeRelated Q (.ofLvalue bl be) (.ofLvalue Γ l e) (.ofLvalue Γ l' e') :=
  ⟨hl, he, hl, R.genExprInit hl he⟩

theorem ofExpr (ty : Option CType) {e e' : Gen IRValue} (he : Q b e e') :
    NodeRelated Q (.ofExpr ty b) (.ofExpr Γ e) (.ofExprWith fb Γ ty e') :=
  R.ofLvalue (R.orFallback _ _ he) he

theorem ofObject (ty : Option CType) {e e' : Gen IRValue} (he : Q b e e') :
    NodeRelated Q (.ofObject ty b) (.ofExpr Γ e) (.ofObjectWith fb Γ ty e') := by
  refine ⟨R.orFallback _ _ he, he, he, fun addr ty => ?_⟩
  have h := R.genExprInit (Γ := Γ) he he addr ty
  rwa [ite_self] at h

theorem genStep (op : TokenKind) (ty : Option CType) {l l' : Gen IRValue} (h : Q b l l') :
    Q b (genStep Γ op ty l) (genStep Γ op ty l') :=
  R.seqEmits h fun _ => Emits.bind (Emits.genLoad _ _) fun _ =>
    Emits.bind (Emits.emitTo (by split <;> simp)) fun _ =>
      Emits.bind (Emits.genStore _ _) fun _ => Emits.pure _

theorem genUnop (op : TokenKind) (ty : Option CType) {s : NodeSound} {n n' : NodeGen}
    (h : NodeRelated Q s n n') :
    Q (unopSound op s) (genUnop Γ op ty n) (genUnop Γ op ty n') := by
  have hrest : ∀ ins : IRValue → ℕ → IRInstr, (∀ v t, (ins v t).op ≠ .label) →
      Q s.expr
        (n.expr >>= fun v => newTemp >>= fun t => emit (ins v t) >>= fun _ =>
          Pure.pure (irvTemp t (ty.getD typeInt)))
        (n'.expr >>= fun v => newTemp >>= fun t => emit (ins v t) >>= fun _ =>
          Pure.pure (irvTemp t (ty.getD typeInt))) := fun ins hins =>
    R.seqEmits h.expr fun v => Emits.bind Emits.newTemp fun t =>
      Emits.bind (Emits.emit (hins v t)) fun _ => Emits.pure _
  cases op with
  | amp => exact h.lvalue
  | star => exact R.seqEmits h.expr fun _ => Emits.loadUnlessAggregate _ _
  | plusplus => exact R.seqQuiet (R.genStep _ _ h.lvalue) fun _ => .pure _
  | minusminus => exact R.seqQuiet (R.genStep _ _ h.lvalue) fun _ => .pure _
  | plus =>
    exact R.seqEmits h.expr fun v => Emits.bind Emits.newTemp fun _ => Emits.pure _
  | _ => exact hrest _ fun _ _ => by simp

theorem genShortCircuitTest (isAnd : Bool) (lv : IRValue) {r r' : Gen IRValue} (h : Q b r r')
    (f l : ℕ) : Q b (genShortCircuitTest isAnd lv r f l) (genShortCircuitTest isAnd lv r' f l) := by
  cases isAnd with
  | true =>
    exact R.quietSeq (.emit stable_fixed (by simp)) fun _ => R.seqQuiet h fun _ =>
      .bind (.emit stable_fixed (by simp)) fun _ => .bind (.emit stable_fixed (by simp)) fun _ =>
        .emitLabel stable_fixed _
  | false =>
    exact R.quietSeq (.emit stable_fixed (by simp)) fun _ => R.seqQuiet h fun _ =>
      .emit stable_fixed (by simp)

theorem genShortCircuit (isAnd : Bool) {l l' r r' : Gen IRValue} (hl : Q b l l') (hr : Q c r r') :
    Q (b && c) (genShortCircuit isAnd l r) (genShortCircuit isAnd l' r') := by
  have hend : ∀ (v : IRValue) (e t : ℕ), Keeps IrGen.fixed (do
      emit { op := .copy, dst := v, src1 := irvInt 0 typeInt }
      emitJmp e
      emitLabel t
      emit { op := .copy, dst := v, src1 := irvInt 1 typeInt }
      emitLabel e
      return v) := fun v e t =>
    .bind (.emit stable_fixed (by simp)) fun _ => .bind (.emitJmp stable_fixed _) fun _ =>
      .bind (.emitLabel stable_fixed _) fun _ => .bind (.emit stable_fixed (by simp)) fun _ =>
        .bind (.emitLabel stable_fixed _) fun _ => .pure _
  exact R.quietSeq (.ofEmits stable_fixed Emits.newTemp) fun _ =>
    R.quietSeq (.newLabel stable_fixed) fun _ => R.quietSeq (.newLabel stable_fixed) fun _ =>
      R.quietSeq (.newLabel stable_fixed) fun _ => R.bind hl fun lv =>
        R.seqQuiet (R.genShortCircuitTest isAnd lv hr _ _) fun _ => hend _ _ _

theorem genBinop (op : TokenKind) (ty lt rt : Option CType) {l l' r r' : Gen IRValue}
    (hl : Q b l l') (hr : Q c r r') :
    Q (b && c) (genBinop Γ op ty lt rt l r) (genBinop Γ op ty lt rt l' r') := by
  have hop : tokToIrBinop op ≠ .label := by cases op <;> simp [tokToIrBinop]
  have hscaled : ∀ (v : IRValue) (n : ℤ) (ins : IRValue → IRInstr) (dst : IRValue),
      (∀ v, (ins v).op ≠ .label) →
      Emits (genScaled v n >>= fun v => emit (ins v) >>= fun _ => Pure.pure dst) :=
    fun v n ins dst h => Emits.bind (Emits.genScaled v n) fun v =>
      Emits.bind (Emits.emit (h v)) fun _ => Emits.pure _
  unfold TinyC.genBinop
  refine ite (R.genShortCircuit _ hl hr) (R.bind hl fun lv => R.seqEmits hr fun rv =>
    Emits.bind Emits.newTemp fun t => ?_)
  refine Emits.ite (hscaled _ _ _ _ fun _ => by simp) (Emits.ite (hscaled _ _ _ _ fun _ => by simp)
    (Emits.ite ?_ (Emits.ite (hscaled _ _ _ _ fun _ => by simp)
      (Emits.bind (Emits.emit hop) fun _ => Emits.pure _))))
  exact Emits.bind (Emits.emit (by simp)) fun _ => Emits.ite (Emits.pure _) (Emits.emitTo (by simp))

theorem genAssign (op : TokenKind) (ty lhsTy : Option CType) (bf : Option StructField)
    {sl sr : NodeSound} {l l' r r' : NodeGen} (hl : NodeRelated Q sl l l')
    (hr : NodeRelated Q sr r r') :
    Q (sl.lvalue && if op = .assign && isAggregateType lhsTy then sr.aggAddr else sr.expr)
      (genAssign Γ op ty lhsTy bf l r) (genAssign Γ op ty lhsTy bf l' r') := by
  refine R.bind hl.lvalue fun addr => ?_
  have hop : tokToIrBinop (compoundBase op) ≠ .label := by
    cases op <;> simp [tokToIrBinop, compoundBase]
  by_cases hagg : (op = .assign && isAggregateType lhsTy) = true
  · simp only [hagg, if_true]
    exact R.seqEmits hr.aggAddr fun _ => Emits.bind (Emits.genMemcpy Γ _ _ _) fun _ => Emits.pure _
  · simp only [hagg, Bool.false_eq_true, if_false]
    refine ite (R.seqEmits hr.expr fun v => ?_) (R.quietSeq (.ofEmits stable_fixed
      (Emits.genLoad _ _)) fun _ => R.seqEmits hr.expr fun _ => Emits.bind Emits.newTemp fun _ =>
        Emits.bind (Emits.ite (Emits.genScaled _ _) (Emits.pure _)) fun _ =>
          Emits.bind (Emits.emit hop) fun _ => Emits.bind (Emits.genStore _ _) fun _ => Emits.pure _)
    split
    · exact Emits.genBitfieldStore _ _ _
    · exact Emits.bind (Emits.genStore _ _) fun _ => Emits.pure _

theorem genTernary (ty : Option CType) {d : Bool} {t t' l l' r r' : Gen IRValue} (ht : Q b t t')
    (hl : Q c l l') (hr : Q d r r') :
    Q (b && (c && d)) (genTernary ty t l r) (genTernary ty t' l' r') := by
  have hcopy : ∀ (dst src : IRValue), Keeps IrGen.fixed (emit { op := .copy, dst := dst, src1 := src }) :=
    fun _ _ => .emit stable_fixed (by simp)
  exact R.quietSeq (.newLabel stable_fixed) fun _ => R.quietSeq (.newLabel stable_fixed) fun _ =>
    R.quietSeq (.newLabel stable_fixed) fun _ =>
      R.quietSeq (.ofEmits stable_fixed Emits.newTemp) fun _ => R.bind ht fun _ =>
        R.quietSeq (.emit stable_fixed (by simp)) fun _ => R.quietSeq (.emitLabel stable_fixed _)
          fun _ => R.bind hl fun _ => R.quietSeq (hcopy _ _) fun _ =>
            R.quietSeq (.emitJmp stable_fixed _) fun _ => R.quietSeq (.emitLabel stable_fixed _)
              fun _ => R.seqQuiet hr fun _ => .bind (hcopy _ _) fun _ =>
                .bind (.emitLabel stable_fixed _) fun _ => .pure _

theorem genArg (ty : CType) {s : NodeSound} {n n' : NodeGen} (h : NodeRelated Q s n n') :
    Q (if isAggregateType (some ty) then s.aggAddr else s.expr) (genArg ty n) (genArg ty n') := by
  unfold TinyC.genArg
  split
  · exact R.seqQuiet h.aggAddr fun _ => .pure _
  · exact h.expr

theorem genCall (ty : Option CType) {f f' : Gen IRValue} {as as' : List (CType × NodeGen)}
    (ha : Q b (genArgs as) (genArgs as')) (hf : Q c f f') :
    Q (b && c) (genCall Γ ty f as) (genCall Γ ty f' as') := by
  refine R.bind ha fun vs => R.seqEmits hf fun callee => ?_
  exact Emits.bind (Emits.ite (Emits.genAlloca _ _) (Emits.bind Emits.newTemp fun _ => Emits.pure _))
    fun _ => Emits.bind (Emits.emit (by simp [irCall])) fun _ => Emits.pure _

theorem genSubscriptLvalue (ty : Option CType) {l l' r r' : Gen IRValue} (hl : Q b l l')
    (hr : Q c r r') :
    Q (b && c) (genSubscriptLvalue Γ ty l r) (genSubscriptLvalue Γ ty l' r') :=
  R.bind hl fun _ => R.seqEmits hr fun _ => Emits.bind Emits.newTemp fun _ =>
    Emits.bind (Emits.genScaled _ _) fun _ => Emits.bind (Emits.emit (by simp)) fun _ =>
      Emits.pure _

theorem genMemberLvalue (aggTy : Option CType) (field : String) {m m' : Gen IRValue}
    (h : Q b m m') : Q (b && hasMember Γ aggTy field) (genMemberLvalue Γ aggTy field m)
      (genMemberLvalue Γ aggTy field (memberBase fb Γ aggTy field m')) := by
  have hbase : Q (b && hasMember Γ aggTy field) m (memberBase fb Γ aggTy field m') := by
    have hpure := R.bind h fun addr =>
      R.orFallback (.member field) (hasMember Γ aggTy field) (R.quiet (.pure addr))
    rwa [bind_pure, Bool.and_true] at hpure
  refine R.seqEmits hbase fun addr => ?_
  split
  · split
    · exact Emits.genAddrOffset _ _ _
    · exact Emits.pure _
  · exact Emits.pure _

theorem genMemberExpr (ty : Option CType) (bf : Option StructField) {m m' : Gen IRValue}
    (h : Q b m m') : Q b (genMemberExpr ty bf m) (genMemberExpr ty bf m') := by
  refine R.seqEmits h fun addr => ?_
  split
  · exact Emits.genBitfieldLoad _ _
  · exact Emits.ite (Emits.pure _) (Emits.loadUnlessAggregate _ _)

theorem genCast (srcTy : Option CType) (ty : CType) {m m' : Gen IRValue} (h : Q b m m') :
    Q b (genCast Γ srcTy ty m) (genCast Γ srcTy ty m') := by
  refine R.seqEmits h fun v => ?_
  split
  · exact Emits.pure _
  · exact Emits.ite (Emits.pure _) (Emits.emitTo (Emits.castOp_ne_label Γ _ _))

theorem genCompoundLitLvalue (ty : CType) {s : NodeSound} {n n' : NodeGen}
    (h : NodeRelated Q s n n') :
    Q (s.init ty) (genCompoundLitLvalue Γ ty n) (genCompoundLitLvalue Γ ty n') :=
  R.quietSeq (.ofEmits stable_fixed (Emits.genAlloca _ _)) fun _ => R.seqQuiet (h.init _ _)
    fun _ => .pure _

theorem genCompoundLit (ty : Option CType) {m m' : Gen IRValue} (h : Q b m m') :
    Q b (genCompoundLit ty m) (genCompoundLit ty m') :=
  R.seqEmits h fun _ => Emits.ite (Emits.pure _) (Emits.genLoad _ _)

end FallbackRules

mutual

/-- A node is sound where its generators take no fallback. -/
theorem FallbackRules.node {Q : Bool → ∀ {α : Type}, Gen α → Gen α → Prop}
    {declared : List String} (R : FallbackRules fb declared Q) : (e : Expr) →
    NodeRelated Q (nodeSound Γ declared e) (genNode Γ e) (genNodeWith fb Γ declared e)
  | .intLit i v s => R.ofExpr _ (R.quiet (.pure _))
  | .charLit i v => R.ofExpr _ (R.quiet (.pure _))
  | .floatLit i v s => R.ofExpr _ (R.quiet (.pure _))
  | .strLit i s => R.ofExpr _ (R.emits (Emits.bind (Emits.addStringConst s) fun _ => Emits.pure _))
  | .ident i name => R.ofLvalue
      (R.lookingUp name (.ofEmits stable_fixed (Emits.genIdentLvalue name)))
      (R.lookingUp name (.ofEmits stable_fixed (Emits.genIdent name i.type)))
  | .unop i op e => by
      have he := R.node e
      have hop := R.genUnop (Γ := Γ) op i.type he
      by_cases hstar : op = .star
      · subst hstar
        exact R.ofLvalue he.expr hop
      · have hl := R.orFallback .value (isAddressType i.type) hop
        have h := R.ofLvalue (Γ := Γ) hl hop
        simp only [nodeSound, genNode, genNodeWith, hstar, if_false]
        exact h
  | .postop i op e => R.ofExpr _ (R.seqQuiet (R.genStep op _ (R.node e).lvalue)
      fun _ => .pure _)
  | .binop i op l r =>
      R.ofExpr _ (R.genBinop op _ _ _ (R.node l).expr (R.node r).expr)
  | .assign i op l r =>
      R.ofObject _ (R.genAssign op _ _ _ (R.node l) (R.node r))
  | .ternary i c t e => R.ofExpr _ (R.genTernary _ (R.node c).expr
      (R.node t).expr (R.node e).expr)
  | .call i func args => by
      have hargs := R.args args
      have hfunc := R.node func
      cases func with
      | ident j name =>
        exact R.ofObject _ (R.genCall _ hargs (R.emits (Emits.genIdent name j.type)))
      | _ => exact R.ofObject _ (R.genCall _ hargs hfunc.expr)
  | .subscript i b x =>
      have h := R.genSubscriptLvalue (Γ := Γ) i.type (R.node b).expr
        (R.node x).expr
      R.ofLvalue h (R.seqEmits h fun _ => Emits.loadUnlessAggregate _ _)
  | .member i b field =>
      have h := R.genMemberLvalue (Γ := Γ) b.type field (R.node b).lvalue
      R.ofLvalue h (R.genMemberExpr _ _ h)
  | .memberPtr i b field =>
      have h := R.genMemberLvalue (Γ := Γ) (pointeeOrSelf b.type) field (R.node b).expr
      R.ofLvalue h (R.genMemberExpr _ _ h)
  | .cast i ty e => R.ofExpr _ (R.genCast _ _ (R.node e).expr)
  | .sizeofExpr i e => R.ofExpr _ (R.quiet (.pure _))
  | .sizeofType i ty => R.ofExpr _ (R.quiet (.pure _))
  | .comma i l r => R.ofExpr _ (R.bind (R.node l).expr fun _ => (R.node r).expr)
  | .initList i items => by
      have hnone : Q true (return irvInt 0 typeInt : Gen IRValue) (return irvInt 0 typeInt) :=
        R.quiet (.pure _)
      have hl := R.orFallback .value (isAddressType i.type) hnone
      rw [Bool.and_true] at hl
      exact ⟨hl, hnone, hl, fun _ _ => R.genListInit (R.items items) _ _⟩
  | .fieldDesig i field v => R.ofExpr _ (R.quiet (.pure _))
  | .indexDesig i x v => R.ofExpr _ (R.quiet (.pure _))
  | .compoundLit i ty init => by
      have hinit := R.node init
      have hl := R.genCompoundLitLvalue (Γ := Γ) ty hinit
      have he := R.genCompoundLit i.type hl
      refine ⟨hl, he, he, fun addr ty' => ?_⟩
      simp only [nodeSound, genNode, genNodeWith]
      split
      · exact hinit.init _ _
      · exact R.seqEmits he fun _ => Emits.genStore _ _

theorem FallbackRules.args {Q : Bool → ∀ {α : Type}, Gen α → Gen α → Prop}
    {declared : List String} (R : FallbackRules fb declared Q) : (es : List Expr) →
    Q (argsSound Γ declared es) (genArgs (genNodes Γ es))
      (genArgs (genNodesWith fb Γ declared es))
  | [] => R.quiet (.pure _)
  | e :: es => R.bind (R.genArg _ (R.node e)) fun _ =>
      R.seqQuiet (R.args es) fun _ => .pure _

theorem FallbackRules.items {Q : Bool → ∀ {α : Type}, Gen α → Gen α → Prop}
    {declared : List String} (R : FallbackRules fb declared Q) : (es : List Expr) →
    ItemsRelated Q (itemsSound Γ declared es) (genItems Γ es) (genItemsWith fb Γ declared es)
  | [] => .nil
  | e :: es => by
      have hrest := R.items es
      have hself := R.node e
      cases e with
      | fieldDesig i field v => exact .cons ⟨rfl, rfl, rfl, rfl, R.node v⟩ hrest
      | indexDesig i x v => exact .cons ⟨rfl, rfl, rfl, rfl, R.node v⟩ hrest
      | _ => exact .cons ⟨rfl, rfl, rfl, rfl, hself⟩ hrest

end

namespace FallbackStmtRules

variable {Q : List String → List String → Bool → ∀ {α : Type}, Gen α → Gen α → Prop}
  (R : FallbackStmtRules fb ft Q)

include R

/-! ### Statements -/

variable {α β : Type} {before between after declared : List String} {b c d : Bool}
  {body body' : Gen Unit}

theorem quiet {m : Gen α} (hm : Keeps IrGen.fixed m) : Q declared declared true m m :=
  (R.node declared).quiet hm

theorem seqQuiet {m m' : Gen α} {k : α → Gen β} (hm : Q before after b m m')
    (hk : ∀ a, Keeps IrGen.fixed (k a)) : Q before after b (m >>= k) (m' >>= k) := by
  have h := R.bind hm fun a => R.quiet (hk a)
  rwa [Bool.and_true] at h

theorem quietSeq {m : Gen α} {k k' : α → Gen β} (hm : Keeps IrGen.fixed m)
    (hk : ∀ a, Q before after b (k a) (k' a)) : Q before after b (m >>= k) (m >>= k') :=
  R.bind (R.quiet hm) hk

theorem keepTargets (h : Q before after b body body') :
    Q before after b (keepTargets body) (keepTargets body') :=
  R.getBind fun _ _ => R.seqQuiet h fun _ _ => rfl

theorem keepSwitch (h : Q before after b body body') :
    Q before after b (keepSwitch body) (keepSwitch body') :=
  R.getBind fun _ _ => R.seqQuiet h fun _ _ => rfl

theorem genEffect (declared : List String) (e : Option Expr) :
    Q declared declared (exprSound Γ declared e) (genEffect (e.map (genExpr Γ)))
      (genEffect (e.map fun e => (genNodeWith fb Γ declared e).expr)) := by
  cases e with
  | none => exact R.quiet (.pure _)
  | some e => exact R.seqQuiet ((R.node declared).node e).expr fun _ => .pure _

theorem genLoopTest (declared : List String) (e : Option Expr) (l : ℕ) :
    Q declared declared (exprSound Γ declared e) (genLoopTest (e.map (genExpr Γ)) l)
      (genLoopTest (e.map fun e => (genNodeWith fb Γ declared e).expr) l) := by
  cases e with
  | none => exact R.quiet (.pure _)
  | some e =>
    exact R.seqQuiet ((R.node declared).node e).expr fun _ => .emit stable_fixed (by simp)

theorem genVarDecl (declared : List String) (v : VarDecl) :
    Q declared (v.name :: declared)
      (v.init.all fun init =>
        (nodeSound Γ (v.name :: declared) init).init (v.declType.getD typeInt))
      (genVarDecl Γ v) (genVarDeclWith fb Γ (v.name :: declared) v) := by
  refine R.quietSeq (.ofEmits stable_fixed (Emits.genAlloca Γ _)) fun addr =>
    R.bind (R.define declared v.name addr false) fun _ => ?_
  cases v.init with
  | none => exact R.quiet (.pure _)
  | some init => exact ((R.node (v.name :: declared)).node init).init _ _

theorem genDecls (declared : List String) (ds : List Decl) :
    Q declared (ds.flatMap (Decl.names Γ) ++ declared) (declsSound Γ declared ds) (genDecls Γ ds)
      (genDeclsWith fb Γ declared ds) := by
  induction ds generalizing declared with
  | nil => exact R.quiet (.pure _)
  | cons d ds ih =>
    have hnames : ds.flatMap (Decl.names Γ) ++ (d.names Γ ++ declared) ⊆
        (d :: ds).flatMap (Decl.names Γ) ++ declared := by
      intro name hname
      simp only [List.flatMap_cons, List.mem_append] at hname ⊢
      tauto
    cases d with
    | var v =>
      exact R.more (R.bind (R.genVarDecl declared v) fun _ => ih (v.name :: declared))
        (List.Subset.refl _) hnames
    | _ => exact R.more (ih _) (List.subset_append_right _ _) hnames

theorem ifHead {cond cond' : Gen IRValue} (h : Q declared declared b cond cond') :
    Q declared declared b (ifHead cond) (ifHead cond') :=
  R.quietSeq (.newLabel stable_fixed) fun _ => R.quietSeq (.newLabel stable_fixed) fun _ =>
    R.seqQuiet h fun _ => .bind (.emit stable_fixed (by simp)) fun _ => .pure _

theorem genIf {cond cond' : Gen IRValue} (hc : Q before before b cond cond')
    (ht : Q before between c body body') {e e' : Option (Gen Unit)}
    (he : Option.Rel (fun m m' => Q between after d m m') e e')
    (hnone : e = none → between = after ∧ d = true) :
    Q before after (b && (c && d)) (genIf cond body e) (genIf cond' body' e') := by
  refine R.bind (R.ifHead hc) fun ls => R.bind ht fun _ => ?_
  cases he with
  | none =>
    obtain ⟨rfl, rfl⟩ := hnone rfl
    exact R.quiet (.emitLabel stable_fixed _)
  | some hm =>
    exact R.quietSeq (.elseHead stable_fixed ls) fun _ => R.seqQuiet hm fun _ =>
      .emitLabel stable_fixed _

theorem whileHead {cond cond' : Gen IRValue} (h : Q declared declared b cond cond') :
    Q declared declared b (whileHead cond) (whileHead cond') :=
  R.quietSeq (.newLabel stable_fixed) fun _ => R.quietSeq (.newLabel stable_fixed) fun _ =>
    R.quietSeq (.newLabel stable_fixed) fun _ => R.quietSeq (fun _ => rfl) fun _ =>
      R.quietSeq (.emitLabel stable_fixed _) fun _ => R.seqQuiet h fun _ =>
        .bind (.emit stable_fixed (by simp)) fun _ => .bind (.emitLabel stable_fixed _) fun _ =>
          .pure _

theorem genWhile {cond cond' : Gen IRValue} (hc : Q before before b cond cond')
    (h : Q before after c body body') :
    Q before after (b && c) (genWhile cond body) (genWhile cond' body') :=
  R.keepTargets <| R.bind (R.whileHead hc) fun _ => R.seqQuiet h fun _ =>
    .bind (.emit stable_fixed (by simp)) fun _ => .emitLabel stable_fixed _

theorem genDoWhile {cond cond' : Gen IRValue} (hc : Q after after c cond cond')
    (h : Q before after b body body') :
    Q before after (b && c) (genDoWhile cond body) (genDoWhile cond' body') :=
  R.keepTargets <| R.quietSeq (.doHead stable_fixed fun _ _ => fun _ => rfl) fun _ =>
    R.bind h fun _ => R.quietSeq (.emitLabel stable_fixed _) fun _ => R.seqQuiet hc fun _ =>
      .bind (.emit stable_fixed (by simp)) fun _ => .emitLabel stable_fixed _

theorem forTest (declared : List String) (e : Option Expr) (ls : LoopLabels) :
    Q declared declared (exprSound Γ declared e) (forTest (e.map (genExpr Γ)) ls)
      (forTest (e.map fun e => (genNodeWith fb Γ declared e).expr) ls) :=
  R.quietSeq (.emitLabel stable_fixed _) fun _ => R.seqQuiet (R.genLoopTest declared e _) fun _ =>
    .emitLabel stable_fixed _

theorem forTail (declared : List String) (e : Option Expr) (ls : LoopLabels) :
    Q declared declared (exprSound Γ declared e) (forTail (e.map (genExpr Γ)) ls)
      (forTail (e.map fun e => (genNodeWith fb Γ declared e).expr) ls) :=
  R.quietSeq (.emitLabel stable_fixed _) fun _ => R.seqQuiet (R.genEffect declared e) fun _ =>
    .bind (.emit stable_fixed (by simp)) fun _ => .emitLabel stable_fixed _

theorem genFor {init init' : Gen Unit} (hi : Q before between b init init')
    (cond incr : Option Expr) (h : Q between after c body body') :
    Q before before (b && (exprSound Γ between cond && (c && exprSound Γ after incr)))
      (genFor init (cond.map (genExpr Γ)) (incr.map (genExpr Γ)) body)
      (genFor init' (cond.map fun e => (genNodeWith fb Γ between e).expr)
        (incr.map fun e => (genNodeWith fb Γ after e).expr) body') :=
  R.keepTargets <| R.quietSeq (.forHead stable_fixed fun _ _ => fun _ => rfl) fun ls =>
    R.withScope <| R.bind hi fun _ => R.bind (R.forTest between cond ls) fun _ => R.bind h fun _ =>
      R.forTail after incr ls

theorem genReturn (declared : List String) (e : Option Expr) :
    Q declared declared (returnSound Γ declared ft e)
      (genReturn (e.map fun e => (e.typeOrInt, genNode Γ e)))
      (genReturn (e.map fun e => (e.typeOrInt, genNodeWith fb Γ declared e))) := by
  cases e with
  | none => exact R.quiet (.emit stable_fixed (by simp))
  | some e =>
    have he := (R.node declared).node (Γ := Γ) e
    refine R.getBind fun g hg => ?_
    rw [hg]
    refine R.seqQuiet ?_ fun _ => .emit stable_fixed (by simp)
    simp only [returnSound, Option.all_some]
    split
    · exact he.aggAddr
    · exact he.expr

theorem switchHead (s : Stmt) {e e' : Gen IRValue} (h : Q declared declared b e e') :
    Q declared declared b (switchHead (collectSwitchCases s) e)
      (switchHead (collectSwitchCases s) e') :=
  R.quietSeq (.newLabel stable_fixed) fun _ => R.quietSeq (fun _ => rfl) fun _ =>
    R.quietSeq (collectSwitchCases_keeps (fun _ _ _ _ => rfl) s) fun _ => R.seqQuiet h fun _ =>
      .bind (.emitTo stable_fixed _ _ _ _ (by simp)) fun _ => .get_bind fun _ =>
        .bind (.genDispatch stable_fixed _ _ _) fun _ => .bind (.emit stable_fixed (by simp))
          fun _ => .pure _

theorem genSwitch (s : Stmt) {e e' : Gen IRValue} (he : Q before before b e e')
    (h : Q before after c body body') :
    Q before after (b && c) (genSwitch (collectSwitchCases s) e body)
      (genSwitch (collectSwitchCases s) e' body') :=
  R.keepSwitch <| R.bind (R.switchHead s he) fun _ => R.seqQuiet h fun _ =>
    .emitLabel stable_fixed _

end FallbackStmtRules

mutual

/-- A statement is sound where lowering it takes no fallback. -/
theorem FallbackStmtRules.stmt
    {Q : List String → List String → Bool → ∀ {α : Type}, Gen α → Gen α → Prop}
    (R : FallbackStmtRules fb ft Q) (declared : List String) : (s : Stmt) →
    Q declared (s.names Γ ++ declared) (stmtSound Γ ft declared s) (genStmt Γ s)
      (genStmtWith fb Γ declared s)
  | .compound ss => R.withScope (R.stmts declared ss)
  | .expr e => R.genEffect declared e
  | .decl ds => R.genDecls declared ds
  | .ifElse ln cl c t e => by
      have ht := R.stmt declared t
      have he := R.stmtOpt (t.names Γ ++ declared) e
      have hif := R.genIf ((R.node declared).node (Γ := Γ) c).expr ht he (by
        intro h
        cases e with
        | none => exact ⟨rfl, rfl⟩
        | some s => simp [genStmtOpt] at h)
      cases e with
      | none => exact hif
      | some e =>
        have hnames : (Stmt.ifElse ln cl c t (some e)).names Γ ++ declared =
          e.names Γ ++ (t.names Γ ++ declared) := List.append_assoc _ _ _
        rw [hnames]
        exact hif
  | .while _ _ c b => R.genWhile ((R.node declared).node c).expr (R.stmt declared b)
  | .doWhile _ _ c b => R.genDoWhile ((R.node _).node c).expr (R.stmt declared b)
  | .for _ _ none c incr b => R.genFor (R.quiet (.pure _)) c incr (R.stmt declared b)
  | .for _ _ (some init) c incr b =>
      R.genFor (R.stmt declared init) c incr (R.stmt (init.names Γ ++ declared) b)
  | .ret _ _ e => R.genReturn declared e
  | .break _ _ => R.quiet (.emitBreak stable_fixed)
  | .continue _ _ => R.quiet (.emitContinue stable_fixed)
  | .switch _ _ e b => R.genSwitch b ((R.node declared).node e).expr (R.stmt declared b)
  | .case _ _ _ _ s | .default _ _ _ s =>
      R.quietSeq (.emitCaseLabel stable_fixed _ _) fun _ => R.stmt declared s
  | .goto _ _ name => R.quiet (.emitGoto stable_fixed name)
  | .label _ _ name s => R.quietSeq (.emitNamedLabel stable_fixed name) fun _ => R.stmt declared s

theorem FallbackStmtRules.stmts
    {Q : List String → List String → Bool → ∀ {α : Type}, Gen α → Gen α → Prop}
    (R : FallbackStmtRules fb ft Q) (declared : List String) : (ss : List Stmt) →
    Q declared (ss.foldl (fun names s => s.names Γ ++ names) declared)
      (stmtsSound Γ ft declared ss) (genStmts Γ ss) (genStmtsWith fb Γ declared ss)
  | [] => R.quiet (.pure _)
  | s :: ss => R.bind (R.stmt declared s) fun _ => R.stmts (s.names Γ ++ declared) ss

theorem FallbackStmtRules.stmtOpt
    {Q : List String → List String → Bool → ∀ {α : Type}, Gen α → Gen α → Prop}
    (R : FallbackStmtRules fb ft Q) (declared : List String) : (s : Option Stmt) →
    Option.Rel (fun m m' => Q declared ((s.elim [] (Stmt.names Γ)) ++ declared)
      (stmtOptSound Γ ft declared s) m m') (genStmtOpt Γ s) (genStmtOptWith fb Γ declared s)
  | none => .none
  | some s => .some (R.stmt declared s)

end

end TinyC
