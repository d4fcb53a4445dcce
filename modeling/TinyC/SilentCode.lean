import TinyC.StringPool
import TinyC.UnitFunctions

/-!
# Functions without code

Lowering an expression either adds an instruction or none at all, and which of the two is seen
from the expression and the names declared in the file. A function with no instruction is one
without parameters to capture whose statements are of the second kind.
-/

namespace TinyC

/-! ### Generators that add an instruction -/

/-- The number of instructions so far. -/
def IrGen.size (g : IrGen) : ℕ := g.func.instrs.length

def Longer {α : Type} (m : Gen α) : Prop := ∀ g, g.size ≤ (m g).2.size

def Loud {α : Type} (m : Gen α) : Prop := ∀ g, g.size < (m g).2.size

section Loud

variable {α β : Type}

theorem EmitsWith.longer {own : List ℕ} {m : Gen α} (h : EmitsWith own m) : Longer m :=
  fun g => (h g).grows.code_length_le

theorem Loud.longer {m : Gen α} (h : Loud m) : Longer m := fun g => (h g).le

namespace Longer

theorem pure (a : α) : Longer (Pure.pure a : Gen α) := fun _ => le_rfl

theorem bind {m : Gen α} {k : α → Gen β} (hm : Longer m) (hk : ∀ a, Longer (k a)) :
    Longer (m >>= k) := fun g => (hm g).trans (hk (m g).1 (m g).2)

theorem newTemp : Longer newTemp := fun _ => le_rfl

theorem newLabel : Longer newLabel := fun _ => le_rfl

end Longer

namespace Loud

theorem emit (ins : IRInstr) : Loud (emit ins) := fun g => by
  change g.func.instrs.length < (g.func.instrs ++ [ins]).length
  rw [List.length_append]
  exact Nat.lt_succ_self _

theorem before {m : Gen α} {k : α → Gen β} (hm : Loud m) (hk : ∀ a, Longer (k a)) :
    Loud (m >>= k) := fun g => (hm g).trans_le (hk (m g).1 (m g).2)

theorem after {m : Gen α} {k : α → Gen β} (hm : Longer m) (hk : ∀ a, Loud (k a)) :
    Loud (m >>= k) := fun g => (hm g).trans_lt (hk (m g).1 (m g).2)

theorem ite {p : Prop} [Decidable p] {m k : Gen α} (hm : Loud m) (hk : Loud k) :
    Loud (if p then m else k) := by
  split
  · exact hm
  · exact hk

theorem emit_pure (ins : IRInstr) (a : α) : Loud (TinyC.emit ins >>= fun _ => Pure.pure a) :=
  before (emit ins) fun _ => .pure a

theorem emitTo (ty : CType) (op : IROp) (a b : IRValue) : Loud (emitTo ty op a b) :=
  after .newTemp fun _ => emit_pure _ _

theorem genLoad (addr : IRValue) (ty : CType) : Loud (genLoad addr ty) := emitTo _ _ _ _

theorem genStore (addr val : IRValue) : Loud (genStore addr val) := emit _

theorem genAlloca (Γ : TypeEnv) (ty : CType) : Loud (genAlloca Γ ty) :=
  after .newTemp fun _ => emit_pure _ _

theorem genBitfieldLoad (addr : IRValue) (f : StructField) : Loud (genBitfieldLoad addr f) :=
  before (genLoad _ _) fun _ => .bind (Emits.genFieldShift (by simp) _ _).longer fun _ =>
    (emitTo _ _ _ _).longer

theorem genStep {Γ : TypeEnv} (op : TokenKind) (ty : Option CType) {lvalue : Gen IRValue}
    (h : Longer lvalue) : Loud (genStep Γ op ty lvalue) :=
  after h fun _ => before (genLoad _ _) fun _ => .bind (emitTo _ _ _ _).longer fun _ =>
    .bind (genStore _ _).longer fun _ => .pure _

theorem genShortCircuit (isAnd : Bool) {left right : Gen IRValue} (hl : Emits left)
    (hr : Emits right) : Loud (genShortCircuit isAnd left right) := by
  have htest : ∀ lv f l, Longer (genShortCircuitTest isAnd lv right f l) :=
    fun lv f l => (Emits.genShortCircuitTest isAnd lv hr f l).longer
  exact after .newTemp fun _ => after .newLabel fun _ => after .newLabel fun _ =>
    after .newLabel fun _ => after hl.longer fun _ => after (htest _ _ _) fun _ =>
      before (emit _) fun _ => .bind (emit _).longer fun _ => .bind (emit _).longer fun _ =>
        .bind (emit _).longer fun _ => .bind (emit _).longer fun _ => .pure _

theorem genTernary (ty : Option CType) {cond thenExpr elseExpr : Gen IRValue} (hc : Emits cond)
    (ht : Emits thenExpr) (he : Emits elseExpr) : Loud (genTernary ty cond thenExpr elseExpr) :=
  after .newLabel fun _ => after .newLabel fun _ => after .newLabel fun _ => after .newTemp fun _ =>
    after hc.longer fun _ => before (emit _) fun _ => .bind (emit _).longer fun _ =>
      .bind ht.longer fun _ => .bind (emit _).longer fun _ => .bind (emit _).longer fun _ =>
        .bind (emit _).longer fun _ => .bind he.longer fun _ => .bind (emit _).longer fun _ =>
          .bind (emit _).longer fun _ => .pure _

theorem genBinop {Γ : TypeEnv} (op : TokenKind) (ty lt rt : Option CType)
    {left right : Gen IRValue} (hl : Emits left) (hr : Emits right) :
    Loud (genBinop Γ op ty lt rt left right) := by
  have hscaled : ∀ (v : IRValue) (n : ℤ) (ins : IRValue → IRInstr) (dst : IRValue),
      Loud (TinyC.genScaled v n >>= fun v => TinyC.emit (ins v) >>= fun _ => Pure.pure dst) :=
    fun v n ins dst => after (Emits.genScaled v n).longer fun v => emit_pure _ _
  unfold TinyC.genBinop
  refine ite (genShortCircuit _ hl hr)
    (after hl.longer fun lv => after hr.longer fun rv => after .newTemp fun t => ?_)
  refine ite (hscaled _ _ _ _) (ite (hscaled _ _ _ _) (ite ?_
    (ite (hscaled _ _ _ _) (emit_pure _ _))))
  refine before (emit _) fun _ => ?_
  dsimp only
  split
  · exact .pure _
  · exact (emitTo _ _ _ _).longer

theorem genAssign {Γ : TypeEnv} (op : TokenKind) (ty lhsTy : Option CType)
    (bf : Option StructField) {left right : NodeGen} (hl : left.Emits) (hr : right.Emits) :
    Loud (genAssign Γ op ty lhsTy bf left right) := by
  refine after hl.lvalue.longer fun addr => ?_
  refine ite (after hr.aggAddr.longer fun _ => emit_pure _ _)
    (ite (after hr.expr.longer fun _ => ?_) (before (genLoad _ _) fun _ => ?_))
  · split
    · exact before (genLoad _ _) fun _ => .bind (emitTo _ _ _ _).longer fun _ =>
        .bind (emitTo _ _ _ _).longer fun _ =>
          .bind (Emits.genFieldShift (by simp) _ _).longer fun _ =>
            .bind (emitTo _ _ _ _).longer fun _ => .bind (genStore _ _).longer fun _ => .pure _
    · exact emit_pure _ _
  · have hoperand : ∀ ty rv, Emits (genCompoundOperand Γ op ty rv) :=
      fun ty rv => .ite (.genScaled _ _) (.pure _)
    exact .bind hr.expr.longer fun _ => .bind .newTemp fun _ => .bind (hoperand _ _).longer fun _ =>
      .bind (emit _).longer fun _ => .bind (genStore _ _).longer fun _ => .pure _

theorem genCall {Γ : TypeEnv} (ty : Option CType) {func : Gen IRValue}
    {args : List (CType × NodeGen)} (hf : Emits func) (h : ∀ a ∈ args, a.2.Emits) :
    Loud (genCall Γ ty func args) :=
  after (Emits.genArgs h).longer fun _ => after hf.longer fun _ =>
    after (Emits.ite (.genAlloca _ _) (.bind .newTemp fun _ => .pure _)).longer fun _ =>
      emit_pure _ _

theorem genSubscriptLvalue {Γ : TypeEnv} (ty : Option CType) {base index : Gen IRValue}
    (hb : Emits base) (hi : Emits index) : Loud (genSubscriptLvalue Γ ty base index) :=
  after hb.longer fun _ => after hi.longer fun _ => after .newTemp fun _ =>
    after (Emits.genScaled _ _).longer fun _ => emit_pure _ _

end Loud

end Loud

/-! ### Expressions without code -/

/-- The types of the values that `gen_lvalue` and `gen_expr` return without an instruction,
where they need none. -/
structure SilentNode where
  lvalue : Option (Option CType)
  expr : Option (Option CType)

def SilentNode.ofExpr (r : Option (Option CType)) : SilentNode := ⟨r, r⟩

/-- The address of a member, at no distance from that of the aggregate. -/
def silentMember (Γ : TypeEnv) (aggTy : Option CType) (field : String)
    (base : Option (Option CType)) : Option (Option CType) :=
  base.bind fun addrTy =>
    match aggTy with
    | some t =>
        match findFieldWithOffset Γ t field with
        | some (f :: _, offset) =>
            if offset = 0 && pointsTo ⟨.none, addrTy⟩ f.type then some addrTy else none
        | _ => some addrTy
    | none => some addrTy

/-- The value of a member that is used by its address. -/
def silentMemberExpr (nodeType : Option CType) (bf : Option StructField)
    (lvalue : Option (Option CType)) : Option (Option CType) :=
  lvalue.filter fun _ => (bf.filter fun f => f.bitWidth > 0).isNone &&
    (nodeType.any CType.isArray || isAggregateType nodeType)

/-- `declared` holds the types of the names declared in the file. -/
def silentNode (Γ : TypeEnv) (declared : String → Option CType) : Expr → SilentNode
  | .intLit i _ _ | .charLit i _ => .ofExpr (some (some (i.type.getD typeInt)))
  | .floatLit i _ _ => .ofExpr (some (some (i.type.getD typeDouble)))
  | .strLit i _ => .ofExpr (some (some (i.type.getD (typePointer typeChar .none))))
  | .ident i name =>
      let nodeTy := i.type.getD typeInt
      ⟨some (some (typePointer ((declared name).getD typeInt) .none)),
        match declared name with
        | some ty =>
            if nodeTy.isArray || nodeTy.isFunc || isAggregateType (some nodeTy) then
              some (some (typePointer ty .none))
            else none
        | none => some (some nodeTy)⟩
  | .unop i op e =>
      let operand := silentNode Γ declared e
      let expr := match op with
        | .amp => operand.lvalue
        | .star => if isAggregateType i.type then operand.expr else none
        | .plus => operand.expr
        | _ => none
      ⟨if op = .star then operand.expr else expr, expr⟩
  | .member i b field =>
      let lvalue := silentMember Γ b.type field (silentNode Γ declared b).lvalue
      ⟨lvalue, silentMemberExpr i.type (findField Γ b.type field).head? lvalue⟩
  | .memberPtr i b field =>
      let pt := pointeeOrSelf b.type
      let lvalue := silentMember Γ pt field (silentNode Γ declared b).expr
      ⟨lvalue, silentMemberExpr i.type (findField Γ pt field).head? lvalue⟩
  | .cast _ ty e =>
      .ofExpr ((silentNode Γ declared e).expr.filter fun _ => e.type.all (· = ty))
  | .sizeofExpr _ _ | .sizeofType _ _ => .ofExpr (some (some typeUlong))
  | .comma _ l r =>
      .ofExpr ((silentNode Γ declared l).expr.bind fun _ => (silentNode Γ declared r).expr)
  | .initList _ _ | .fieldDesig _ _ _ | .indexDesig _ _ _ => .ofExpr (some (some typeInt))
  | .postop _ _ _ | .binop _ _ _ _ | .assign _ _ _ _ | .ternary _ _ _ _ | .call _ _ _
  | .subscript _ _ _ | .compoundLit _ _ _ => .ofExpr none

/-- Nothing but the names of the file is in scope. -/
def Declares (declared : String → Option CType) (g : IrGen) : Prop :=
  ∀ name, g.scope.lookup vtabBuckets name =
    (declared name).map fun ty => ⟨irvGlobal name (typePointer ty .none), true⟩

/-- `m` returns a value of type `ty` and adds no instruction if `r` is `ty`; otherwise it adds
one. -/
def SilentAgrees (declared : String → Option CType) (r : Option (Option CType)) (m : Gen IRValue) :
    Prop :=
  ∀ g, Declares declared g →
    match r with
    | some ty => (m g).2.func.instrs = g.func.instrs ∧ (m g).1.type = ty
    | none => g.size < (m g).2.size

namespace SilentAgrees

variable {declared : String → Option CType} {m : Gen IRValue} {Γ : TypeEnv}
  {r : Option (Option CType)}

theorem loud (h : Loud m) : SilentAgrees declared none m := fun g _ => h g

theorem pure (v : IRValue) : SilentAgrees declared (some v.type) (Pure.pure v) := fun _ _ => ⟨rfl, rfl⟩

/-- What follows goes by the value's type. -/
theorem bind {k : IRValue → Gen IRValue} {f : Option CType → Option (Option CType)}
    (hm : SilentAgrees declared r m) (hemits : Emits m) (hlong : ∀ v, Longer (k v))
    (hk : ∀ v, SilentAgrees declared (f v.type) (k v)) : SilentAgrees declared (r.bind f) (m >>= k) := by
  intro g hg
  have hm := hm g hg
  have hg' : Declares declared (m g).2 := fun name => by
    rw [(hemits g).scope]
    exact hg name
  cases r with
  | none => exact hm.trans_le (hlong _ _)
  | some ty =>
    obtain ⟨hcode, hty⟩ := hm
    have hk := hk (m g).1 (m g).2 hg'
    rw [hty] at hk
    have hrun : (m >>= k) g = k (m g).1 (m g).2 := rfl
    rw [Option.bind_some, hrun]
    cases hf : f ty with
    | none =>
      rw [hf] at hk
      exact (congrArg List.length hcode).symm.le.trans_lt hk
    | some ty' =>
      rw [hf] at hk
      exact ⟨hk.1.trans hcode, hk.2⟩

theorem loadUnlessAggregate (ty : Option CType) (v : IRValue) :
    SilentAgrees declared (if isAggregateType ty then some v.type else none)
      (loadUnlessAggregate ty v) := by
  unfold TinyC.loadUnlessAggregate
  split
  · exact .pure v
  · exact .loud (.genLoad _ _)

theorem genAddrOffset (v : IRValue) (offset : ℤ) (ty : CType) :
    SilentAgrees declared (if offset = 0 && pointsTo ⟨.none, v.type⟩ ty then some v.type else none)
      (genAddrOffset v offset ty) := by
  have hpoints : pointsTo ⟨.none, v.type⟩ ty = pointsTo v ty := rfl
  rw [hpoints]
  unfold TinyC.genAddrOffset
  split
  · exact .pure v
  · exact .loud (.emitTo _ _ _ _)

theorem genMemberLvalue (ty : Option CType) (field : String) (hm : SilentAgrees declared r m)
    (hemits : Emits m) :
    SilentAgrees declared (silentMember Γ ty field r) (genMemberLvalue Γ ty field m) := by
  refine bind hm hemits (fun v => ?_) fun v => ?_
  · split
    · split
      · exact (Emits.genAddrOffset _ _ _).longer
      · exact .pure _
    · exact .pure _
  · cases ty with
    | none => exact .pure v
    | some t =>
      rcases hfind : findFieldWithOffset Γ t field with _ | ⟨_ | ⟨f, fs⟩, offset⟩
      · simp only [hfind]
        exact .pure v
      · simp only [hfind]
        exact .pure v
      · simp only [hfind]
        exact genAddrOffset v offset f.type

theorem genMemberExpr (ty : Option CType) (bf : Option StructField) (hm : SilentAgrees declared r m)
    (hemits : Emits m) :
    SilentAgrees declared (silentMemberExpr ty bf r) (genMemberExpr ty bf m) := by
  have hbind : silentMemberExpr ty bf r = r.bind fun addrTy =>
      if (bf.filter fun f => f.bitWidth > 0).isNone ∧
        (ty.any CType.isArray ∨ isAggregateType ty) then some addrTy else none := by
    cases r with
    | none => rfl
    | some addrTy => simp [silentMemberExpr, Option.filter]
  rw [hbind]
  refine bind hm hemits (fun v => ?_) fun v => ?_
  · split
    · exact (Emits.genBitfieldLoad _ _).longer
    · split
      · exact .pure _
      · exact (Emits.loadUnlessAggregate _ _).longer
  · cases hbf : bf.filter fun f => f.bitWidth > 0 with
    | some f => exact .loud (.genBitfieldLoad _ _)
    | none =>
      by_cases harr : ty.any CType.isArray
      · simp only [harr, if_true]
        exact .pure v
      · simp only [harr, Bool.false_eq_true, if_false, false_or, Option.isNone_none, true_and]
        exact loadUnlessAggregate ty v

theorem genIdent (name : String) (i : Info) :
    SilentAgrees declared (silentNode Γ declared (.ident i name)).expr (genIdent name i.type) := by
  intro g hg
  have hlookup := hg name
  rw [TinyC.genIdent, Gen.run_vscopeLookup_bind, hlookup, silentNode]
  cases declared name with
  | none => exact ⟨rfl, rfl⟩
  | some ty =>
    dsimp only [Option.map_some]
    by_cases hkept : ((i.type.getD typeInt).isArray || (i.type.getD typeInt).isFunc ||
        isAggregateType (some (i.type.getD typeInt))) = true
    · rw [if_pos hkept, if_pos hkept]
      exact ⟨rfl, rfl⟩
    · rw [if_neg hkept, if_neg hkept]
      exact Loud.genLoad _ _ g

theorem genIdentLvalue (name : String) (i : Info) :
    SilentAgrees declared (silentNode Γ declared (.ident i name)).lvalue (genIdentLvalue name) := by
  intro g hg
  have hlookup := hg name
  rw [TinyC.genIdentLvalue, Gen.run_vscopeLookup_bind, hlookup, silentNode]
  cases declared name with
  | none => exact ⟨rfl, rfl⟩
  | some ty => exact ⟨rfl, rfl⟩

theorem genCast (srcTy : Option CType) (ty : CType) (hm : SilentAgrees declared r m)
    (hemits : Emits m) :
    SilentAgrees declared (r.filter fun _ => srcTy.all (· = ty)) (genCast Γ srcTy ty m) := by
  have hbind : (r.filter fun _ => srcTy.all (· = ty)) = r.bind fun valTy =>
      if srcTy.all (· = ty) then some valTy else none := by
    cases r with
    | none => rfl
    | some valTy => simp [Option.filter]
  rw [hbind]
  refine bind hm hemits (fun v => ?_) fun v => ?_
  · split
    · exact .pure _
    · split
      · exact .pure _
      · exact (Loud.emitTo _ _ _ _).longer
  · cases srcTy with
    | none => exact .pure v
    | some srcTy =>
      by_cases hsame : srcTy = ty
      · simp only [hsame, Option.all_some, decide_true, if_true]
        exact .pure v
      · simp only [hsame, Option.all_some, decide_false, Bool.false_eq_true, if_false]
        exact .loud (.emitTo _ _ _ _)

theorem addStringConst (data : String) (ty : CType) :
    SilentAgrees declared (some (some ty))
      (addStringConst data >>= fun label => Pure.pure (irvGlobal label ty)) := by
  intro g _
  refine ⟨?_, rfl⟩
  change (TinyC.addStringConst data g).2.func.instrs = _
  rw [addStringConst_eq]
  split <;> rfl

theorem genUnop (op : TokenKind) (i : Info) {e : Expr}
    (hl : SilentAgrees declared (silentNode Γ declared e).lvalue (genNode Γ e).lvalue)
    (he : SilentAgrees declared (silentNode Γ declared e).expr (genNode Γ e).expr) :
    SilentAgrees declared (silentNode Γ declared (.unop i op e)).expr
      (genUnop Γ op i.type (genNode Γ e)) := by
  have hemits := genNode_emits Γ e
  by_cases hamp : op = .amp
  · subst hamp
    exact hl
  by_cases hstar : op = .star
  · subst hstar
    have hsilent : (silentNode Γ declared (.unop i .star e)).expr =
        (silentNode Γ declared e).expr.bind fun ty =>
          if isAggregateType i.type then some ty else none := by
      cases h : (silentNode Γ declared e).expr with
      | none => simp [silentNode, h]
      | some ty => simp [silentNode, h]
    rw [hsilent]
    exact bind he hemits.expr (fun v => (Emits.loadUnlessAggregate _ _).longer)
      fun v => loadUnlessAggregate _ v
  by_cases hplus : op = .plus
  · subst hplus
    have hsilent : (silentNode Γ declared (.unop i .plus e)).expr =
        (silentNode Γ declared e).expr.bind some := by
      rw [Option.bind_fun_some]
      rfl
    rw [hsilent]
    exact bind he hemits.expr (fun v => .bind .newTemp fun _ => .pure _) fun v _ _ => ⟨rfl, rfl⟩
  have hsilent : (silentNode Γ declared (.unop i op e)).expr = none := by
    simp [silentNode]
  rw [hsilent]
  refine .loud ?_
  unfold TinyC.genUnop
  split
  · exact absurd rfl hamp
  · exact absurd rfl hstar
  · exact .before (.genStep _ _ hemits.lvalue.longer) fun _ => .pure _
  · exact .before (.genStep _ _ hemits.lvalue.longer) fun _ => .pure _
  · refine .after hemits.expr.longer fun v => .after .newTemp fun t => ?_
    dsimp only
    split
    · exact .emit_pure _ _
    · exact .emit_pure _ _
    · exact .emit_pure _ _
    · exact absurd rfl hplus
    · exact .emit_pure _ _

end SilentAgrees

/-- An expression adds an instruction unless it needs none. -/
theorem silentNode_agrees (Γ : TypeEnv) (declared : String → Option CType) : (e : Expr) →
    SilentAgrees declared (silentNode Γ declared e).lvalue (genNode Γ e).lvalue ∧
      SilentAgrees declared (silentNode Γ declared e).expr (genNode Γ e).expr
  | .ident i name => ⟨.genIdentLvalue name i, .genIdent name i⟩
  | .strLit _ s => ⟨.addStringConst s _, .addStringConst s _⟩
  | .intLit _ _ _ | .charLit _ _ | .floatLit _ _ _ => ⟨.pure _, .pure _⟩
  | .unop i op e => by
      obtain ⟨hl, he⟩ := silentNode_agrees Γ declared e
      have hop := SilentAgrees.genUnop op i hl he
      refine ⟨?_, hop⟩
      by_cases hstar : op = .star
      · subst hstar
        exact he
      · have hsilent : (silentNode Γ declared (.unop i op e)).lvalue =
            (silentNode Γ declared (.unop i op e)).expr := if_neg hstar
        have hgen : (genNode Γ (.unop i op e)).lvalue = genUnop Γ op i.type (genNode Γ e) :=
          if_neg hstar
        rw [hsilent, hgen]
        exact hop
  | .postop i op e =>
      have hl : Loud (genNode Γ (.postop i op e)).expr :=
        .before (.genStep op _ (genNode_emits Γ e).lvalue.longer) fun _ => .pure _
      ⟨.loud hl, .loud hl⟩
  | .binop i op l r =>
      have hl : Loud (genNode Γ (.binop i op l r)).expr :=
        .genBinop op _ _ _ (genNode_emits Γ l).expr (genNode_emits Γ r).expr
      ⟨.loud hl, .loud hl⟩
  | .assign i op l r =>
      have hl : Loud (genNode Γ (.assign i op l r)).expr :=
        .genAssign op _ _ _ (genNode_emits Γ l) (genNode_emits Γ r)
      ⟨.loud hl, .loud hl⟩
  | .ternary i c t e =>
      have hl : Loud (genNode Γ (.ternary i c t e)).expr :=
        .genTernary _ (genNode_emits Γ c).expr (genNode_emits Γ t).expr (genNode_emits Γ e).expr
      ⟨.loud hl, .loud hl⟩
  | .call i func args =>
      have hl : Loud (genNode Γ (.call i func args)).expr :=
        .genCall _ (genNode_emits Γ func).expr (genNodes_emits Γ args)
      ⟨.loud hl, .loud hl⟩
  | .subscript i b x =>
      have hl : Loud (genNode Γ (.subscript i b x)).lvalue :=
        .genSubscriptLvalue _ (genNode_emits Γ b).expr (genNode_emits Γ x).expr
      ⟨.loud hl, .loud (.before hl fun _ => (Emits.loadUnlessAggregate _ _).longer)⟩
  | .member i b field =>
      have hb := SilentAgrees.genMemberLvalue (Γ := Γ) b.type field (silentNode_agrees Γ declared b).1
        (genNode_emits Γ b).lvalue
      ⟨hb, .genMemberExpr _ _ hb (.genMemberLvalue _ _ (genNode_emits Γ b).lvalue)⟩
  | .memberPtr i b field =>
      have hb := SilentAgrees.genMemberLvalue (Γ := Γ) (pointeeOrSelf b.type) field
        (silentNode_agrees Γ declared b).2 (genNode_emits Γ b).expr
      ⟨hb, .genMemberExpr _ _ hb (.genMemberLvalue _ _ (genNode_emits Γ b).expr)⟩
  | .cast _ ty e =>
      have he := SilentAgrees.genCast (Γ := Γ) e.type ty (silentNode_agrees Γ declared e).2
        (genNode_emits Γ e).expr
      ⟨he, he⟩
  | .sizeofExpr _ e => by
      have h : (sizeofValue Γ e.type).type = some typeUlong := by cases e.type <;> rfl
      have hpure : SilentAgrees declared (some (sizeofValue Γ e.type).type)
          (Pure.pure (sizeofValue Γ e.type)) := .pure _
      rw [h] at hpure
      exact ⟨hpure, hpure⟩
  | .sizeofType _ ty => ⟨.pure _, .pure _⟩
  | .comma _ l r =>
      have h : SilentAgrees declared ((silentNode Γ declared l).expr.bind fun _ =>
          (silentNode Γ declared r).expr) ((genNode Γ l).expr >>= fun _ => (genNode Γ r).expr) :=
        .bind (silentNode_agrees Γ declared l).2 (genNode_emits Γ l).expr
          (fun _ => (genNode_emits Γ r).expr.longer) fun _ => (silentNode_agrees Γ declared r).2
      ⟨h, h⟩
  | .initList _ _ | .fieldDesig _ _ _ | .indexDesig _ _ _ => ⟨.pure _, .pure _⟩
  | .compoundLit i ty init =>
      have hl : Loud (genNode Γ (.compoundLit i ty init)).lvalue :=
        .before (.genAlloca _ _) fun _ => .bind ((genNode_emits Γ init).init _ _).longer fun _ =>
          .pure _
      have he : Loud (genNode Γ (.compoundLit i ty init)).expr :=
        .before hl fun _ => (Emits.ite (.pure _) (.genLoad _ _)).longer
      ⟨.loud hl, .loud he⟩

/-! ### Statements without code -/

mutual

/-- `break`, `continue`, `goto` and the labels of cases emit nothing where they have no target. -/
def silentStmt (Γ : TypeEnv) (declared : String → Option CType) : Stmt → Bool
  | .compound ss => silentStmts Γ declared ss
  | .expr e => e.all fun e => (silentNode Γ declared e).expr.isSome
  | .decl ds => ds.all fun | .var _ => false | _ => true
  | .break _ _ | .continue _ _ | .goto _ _ _ => true
  | .case _ _ _ _ s | .default _ _ _ s | .label _ _ _ s => silentStmt Γ declared s
  | .ifElse _ _ _ _ _ | .while _ _ _ _ | .doWhile _ _ _ _ | .for _ _ _ _ _ _ | .ret _ _ _
  | .switch _ _ _ _ => false

def silentStmts (Γ : TypeEnv) (declared : String → Option CType) : List Stmt → Bool
  | [] => true
  | s :: ss => silentStmt Γ declared s && silentStmts Γ declared ss

end

mutual

/-- The names that `collect_labels` finds. -/
def labelNames : Stmt → List String
  | .label _ _ name s => name :: labelNames s
  | .compound ss => labelNamesList ss
  | .ifElse _ _ _ t e => labelNames t ++ labelNamesOpt e
  | .while _ _ _ b | .doWhile _ _ _ b | .for _ _ _ _ _ b | .switch _ _ _ b
  | .case _ _ _ _ b | .default _ _ _ b => labelNames b
  | .expr _ | .decl _ | .ret _ _ _ | .break _ _ | .continue _ _ | .goto _ _ _ => []

def labelNamesList : List Stmt → List String
  | [] => []
  | s :: ss => labelNames s ++ labelNamesList ss

def labelNamesOpt : Option Stmt → List String
  | none => []
  | some s => labelNames s

end

namespace Loud

variable {Γ : TypeEnv} {cond e : Gen IRValue} {body init collect : Gen Unit}

theorem keepTargets {m : Gen Unit} (h : Loud m) : Loud (keepTargets m) := fun g => h g

theorem genIf {thenStmt : Gen Unit} {elseStmt : Option (Gen Unit)} (hc : Longer cond)
    (ht : Longer thenStmt) (he : ∀ m ∈ elseStmt, Longer m) :
    Loud (genIf cond thenStmt elseStmt) := by
  have hhead : Loud (ifHead cond) :=
    after .newLabel fun _ => after .newLabel fun _ => after hc fun _ => emit_pure _ _
  refine before hhead fun ls => .bind ht fun _ => ?_
  cases elseStmt with
  | none => exact (emit _).longer
  | some m =>
    exact .bind (Longer.bind (emit _).longer fun _ => (emit _).longer) fun _ =>
      .bind (he m rfl) fun _ => (emit _).longer

theorem genWhile (hc : Longer cond) (hb : Longer body) : Loud (genWhile cond body) := by
  have hset : ∀ b c, Longer (setTargets b c) := fun _ _ _ => le_rfl
  have hhead : Loud (whileHead cond) :=
    after .newLabel fun _ => after .newLabel fun _ => after .newLabel fun _ =>
      after (hset _ _) fun _ => before (emit _) fun _ => .bind hc fun _ =>
        .bind (emit _).longer fun _ => .bind (emit _).longer fun _ => .pure _
  exact keepTargets <| before hhead fun _ => .bind hb fun _ => .bind (emit _).longer fun _ =>
    (emit _).longer

theorem genDoWhile (hc : Longer cond) (hb : Longer body) : Loud (genDoWhile cond body) := by
  have hset : ∀ b c, Longer (setTargets b c) := fun _ _ _ => le_rfl
  have hhead : Loud doHead :=
    after .newLabel fun _ => after .newLabel fun _ => after .newLabel fun _ =>
      after (hset _ _) fun _ => emit_pure _ _
  exact keepTargets <| before hhead fun _ => .bind hb fun _ => .bind (emit _).longer fun _ =>
    .bind hc fun _ => .bind (emit _).longer fun _ => (emit _).longer

theorem genFor {test incr : Option (Gen IRValue)} (hi : Longer init)
    (hc : ∀ m ∈ test, Longer m) (hn : ∀ m ∈ incr, Longer m) (hb : Longer body) :
    Loud (genFor init test incr body) := by
  have hset : ∀ b c, Longer (setTargets b c) := fun _ _ _ => le_rfl
  have hhead : Longer forHead :=
    .bind .newLabel fun _ => .bind .newLabel fun _ => .bind .newLabel fun _ =>
      .bind .newLabel fun _ => .bind (hset _ _) fun _ => .pure _
  have htest : ∀ l, Longer (genLoopTest test l) := fun l => by
    cases test with
    | none => exact .pure _
    | some m => exact .bind (hc m rfl) fun _ => (emit _).longer
  have heffect : Longer (genEffect incr) := by
    cases incr with
    | none => exact .pure _
    | some m => exact .bind (hn m rfl) fun _ => .pure _
  have htail : ∀ ls, Longer (forTail incr ls) := fun ls =>
    .bind (emit _).longer fun _ => .bind heffect fun _ => .bind (emit _).longer fun _ =>
      (emit _).longer
  have hscope : ∀ {m : Gen Unit}, Loud m → Loud (withScope m) := fun h g => h (pushScope g).2
  have hforTest : ∀ ls, Loud (forTest test ls) := fun ls =>
    before (emit _) fun _ => .bind (htest _) fun _ => (emit _).longer
  exact keepTargets <| after hhead fun ls => hscope <| after hi fun _ =>
    before (hforTest ls) fun _ => .bind hb fun _ => htail ls

theorem genReturn {r : Option (CType × NodeGen)} (h : ∀ n ∈ r, n.2.Emits) : Loud (genReturn r) := by
  cases r with
  | none => exact emit _
  | some n =>
    have hn := h n rfl
    intro g
    exact after (Emits.ite (p := isAggregateType (some (returnType g.func.funcType n.1)) = true)
      hn.aggAddr hn.expr).longer (fun rv => emit { op := .ret, src1 := rv }) g

theorem genSwitch (hcol : Longer collect) (he : Longer e) (hb : Longer body) :
    Loud (genSwitch collect e body) := by
  have hdispatch : ∀ sv ty ces, Longer (genDispatch sv ty ces) :=
    fun sv ty ces g => ((Places.genDispatch sv ty ces).grows g).code_length_le
  have hhead : Loud (switchHead collect e) := by
    refine after .newLabel fun d => after (fun _ => le_rfl) fun _ => after hcol fun _ =>
      after he fun sv => before (emitTo _ _ _ _) fun svCopy => fun g => ?_
    exact (Longer.bind (hdispatch svCopy (sv.type.getD typeInt) g.caseEntries) fun _ =>
      .bind (emit _).longer fun _ => .pure d) g
  have hbody : Loud (switchHead collect e >>= fun d => body >>= fun _ => TinyC.emitLabel d) :=
    before hhead fun _ => .bind hb fun _ => (emit _).longer
  exact fun g => hbody g

end Loud

/-- The state inside a function that has no code yet and no label to jump to. -/
structure Fresh (declared : String → Option CType) (g : IrGen) : Prop where
  declares : Declares declared g
  breakLabel : g.breakLabel = 0
  contLabel : g.contLabel = 0
  caseEntries : g.caseEntries = []
  gotoLabels : g.gotoLabels = []

/-- In a fresh state `m` adds an instruction unless it is silent, and then the state stays
fresh. -/
def SilentIff (declared : String → Option CType) (silent : Bool) (m : Gen Unit) : Prop :=
  ∀ g, Fresh declared g →
    if silent then Fresh declared (m g).2 ∧ (m g).2.size = g.size else g.size < (m g).2.size

namespace SilentIff

variable {declared : String → Option CType} {Γ : TypeEnv} {a b : Bool} {m k : Gen Unit}

theorem loud (h : Loud m) : SilentIff declared false m := fun g _ => h g

theorem pure : SilentIff declared true (return) := fun _ hg => ⟨hg, rfl⟩

theorem seq (hm : SilentIff declared a m) (hk : SilentIff declared b k) (hlong : Longer k) :
    SilentIff declared (a && b) (m >>= fun _ => k) := by
  intro g hg
  have hm := hm g hg
  cases a with
  | false => exact hm.trans_le (hlong _)
  | true =>
    obtain ⟨hfresh, hsize⟩ := hm
    have hk := hk (m g).2 hfresh
    cases b with
    | false => exact hsize.symm.le.trans_lt hk
    | true => exact ⟨hk.1, hk.2.trans hsize⟩

/-- A generator that does nothing in a fresh state. -/
theorem skip (h : ∀ g, Fresh declared g → m g = ((), g)) : SilentIff declared true m := by
  intro g hg
  rw [h g hg]
  exact ⟨hg, rfl⟩

theorem withScope (hm : SilentIff declared a m) : SilentIff declared a (withScope m) := by
  intro g hg
  have hpush : Fresh declared (pushScope g).2 := { hg with declares := hg.declares }
  have hm := hm (pushScope g).2 hpush
  cases a with
  | false => exact hm
  | true =>
    exact ⟨⟨hg.declares, hm.1.breakLabel, hm.1.contLabel, hm.1.caseEntries, hm.1.gotoLabels⟩,
      hm.2⟩

theorem genEffect (e : Option Expr) :
    SilentIff declared (e.all fun e => (silentNode Γ declared e).expr.isSome)
      (genEffect (e.map (genExpr Γ))) := by
  cases e with
  | none => exact .pure
  | some e =>
    intro g hg
    have he := (silentNode_agrees Γ declared e).2 g hg.declares
    have hext := (genNode_emits Γ e).expr g
    have hrun : (TinyC.genEffect ((some e).map (genExpr Γ)) g).2 = ((genNode Γ e).expr g).2 := rfl
    rw [hrun, Option.all_some]
    cases hs : (silentNode Γ declared e).expr with
    | none =>
      rw [hs] at he
      exact he
    | some ty =>
      rw [hs] at he
      refine ⟨⟨fun name => ?_, ?_, ?_, ?_, ?_⟩, congrArg List.length he.1⟩
      · rw [hext.scope]
        exact hg.declares name
      · rw [hext.breakLabel, hg.breakLabel]
      · rw [hext.contLabel, hg.contLabel]
      · rw [hext.caseEntries, hg.caseEntries]
      · rw [hext.gotoLabels, hg.gotoLabels]

theorem genDecls (ds : List Decl) :
    SilentIff declared (ds.all fun | .var _ => false | _ => true) (genDecls Γ ds) := by
  induction ds with
  | nil => exact .pure
  | cons d ds ih =>
    cases d with
    | var v =>
      refine .loud (.before (.before (.genAlloca Γ _) fun addr => ?_) fun _ g =>
        ((Places.genDecls Γ ds).grows g).code_length_le)
      exact .bind (fun _ => le_rfl) fun _ g =>
        ((Places.genInitializer Γ _ _ v.init).grows g).code_length_le
    | typedef name aliased => exact ih
    | agg ty => exact ih
    | enum ty => exact ih

end SilentIff

theorem genStmt_longer (Γ : TypeEnv) (s : Stmt) : Longer (genStmt Γ s) :=
  fun g => ((genStmt_places Γ s).grows g).code_length_le

theorem genStmts_longer (Γ : TypeEnv) (ss : List Stmt) : Longer (genStmts Γ ss) :=
  fun g => ((genStmts_places Γ ss).grows g).code_length_le

theorem genStmtOpt_longer (Γ : TypeEnv) (s : Option Stmt) : ∀ m ∈ genStmtOpt Γ s, Longer m :=
  fun m hm g => ((genStmtOpt_places Γ s m hm).grows g).code_length_le

theorem genExpr_longer (Γ : TypeEnv) (e : Expr) : Longer (genExpr Γ e) :=
  (genNode_emits Γ e).expr.longer

theorem mapExpr_longer (Γ : TypeEnv) (e : Option Expr) : ∀ m ∈ e.map (genExpr Γ), Longer m := by
  intro m hm
  obtain ⟨e, -, rfl⟩ := Option.mem_map.mp hm
  exact genExpr_longer Γ e

mutual

theorem genStmt_silentIff (Γ : TypeEnv) (declared : String → Option CType) : (s : Stmt) →
    SilentIff declared (silentStmt Γ declared s) (genStmt Γ s)
  | .compound ss => .withScope (genStmts_silentIff Γ declared ss)
  | .expr e => .genEffect e
  | .decl ds => .genDecls ds
  | .ifElse _ _ c t e =>
      .loud (.genIf (genExpr_longer Γ c) (genStmt_longer Γ t) (genStmtOpt_longer Γ e))
  | .while _ _ c b => .loud (.genWhile (genExpr_longer Γ c) (genStmt_longer Γ b))
  | .doWhile _ _ c b => .loud (.genDoWhile (genExpr_longer Γ c) (genStmt_longer Γ b))
  | .for _ _ init c incr b => by
      have hinit : Longer ((genStmtOpt Γ init).getD (return)) := by
        cases init with
        | none => exact .pure _
        | some s => exact genStmt_longer Γ s
      exact .loud (.genFor hinit (mapExpr_longer Γ c) (mapExpr_longer Γ incr) (genStmt_longer Γ b))
  | .ret _ _ e => .loud (.genReturn (by
      intro n hn
      obtain ⟨e, -, rfl⟩ := Option.mem_map.mp hn
      exact genNode_emits Γ e))
  | .break _ _ => .skip fun g hg => by
      change (if g.breakLabel = 0 then (Pure.pure () : Gen Unit) else emitJmp g.breakLabel) g = _
      rw [if_pos hg.breakLabel]
      rfl
  | .continue _ _ => .skip fun g hg => by
      change (if g.contLabel = 0 then (Pure.pure () : Gen Unit) else emitJmp g.contLabel) g = _
      rw [if_pos hg.contLabel]
      rfl
  | .switch _ _ e b =>
      .loud (.genSwitch (fun g => ((collectSwitchCases_places b).grows g).code_length_le)
        (genExpr_longer Γ e) (genStmt_longer Γ b))
  | .case node _ _ _ s =>
      have hlabel : SilentIff declared true (emitCaseLabel node false) := .skip fun g hg => by
        simp [emitCaseLabel, Gen.run_get_bind, hg.caseEntries, Gen.run_pure]
      .seq hlabel (genStmt_silentIff Γ declared s) (genStmt_longer Γ s)
  | .default node _ _ s =>
      have hlabel : SilentIff declared true (emitCaseLabel node true) := .skip fun g hg => by
        simp [emitCaseLabel, Gen.run_get_bind, hg.caseEntries, Gen.run_pure]
      .seq hlabel (genStmt_silentIff Γ declared s) (genStmt_longer Γ s)
  | .goto _ _ name => .skip fun g hg => by
      simp [genStmt, emitGoto, Gen.run_get_bind, hg.gotoLabels, Gen.run_pure]
  | .label _ _ name s =>
      have hlabel : SilentIff declared true (emitNamedLabel name) := .skip fun g hg => by
        simp [emitNamedLabel, Gen.run_get_bind, hg.gotoLabels, Gen.run_pure]
      .seq hlabel (genStmt_silentIff Γ declared s) (genStmt_longer Γ s)

theorem genStmts_silentIff (Γ : TypeEnv) (declared : String → Option CType) : (ss : List Stmt) →
    SilentIff declared (silentStmts Γ declared ss) (genStmts Γ ss)
  | [] => .pure
  | s :: ss => .seq (genStmt_silentIff Γ declared s) (genStmts_silentIff Γ declared ss)
      (genStmts_longer Γ ss)

end

/-! ### Labels -/

/-- A name with a label. -/
def HasLabel (g : IrGen) (name : String) : Prop := (g.gotoLabels.lookup name).isSome

/-- The scan `m` finds the names `names`. -/
structure Collects (names : List String) (m : Gen Unit) : Prop where
  code : ∀ g, (m g).2.func.instrs = g.func.instrs
  finds : ∀ g name, name ∈ names ∨ HasLabel g name → HasLabel (m g).2 name
  nothing : names = [] → ∀ g, m g = ((), g)

namespace Collects

theorem pure : Collects [] (return) := ⟨fun _ => rfl, fun _ _ h => h.resolve_left (by simp),
  fun _ _ => rfl⟩

theorem seq {names names' : List String} {m k : Gen Unit} (hm : Collects names m)
    (hk : Collects names' k) : Collects (names ++ names') (m >>= fun _ => k) where
  code g := (hk.code _).trans (hm.code g)
  finds g name h := by
    apply hk.finds
    rcases h with h | h
    · exact (List.mem_append.mp h).symm.imp_right fun h => hm.finds g name (.inl h)
    · exact .inr (hm.finds g name (.inr h))
  nothing h g := by
    obtain ⟨hnames, hnames'⟩ := List.append_eq_nil_iff.mp h
    have hrun : (m >>= fun _ => k) g = k (m g).2 := rfl
    rw [hrun, hm.nothing hnames g, hk.nothing hnames' g]

theorem addLabel (name : String) : Collects [name] (addLabel name) where
  code _ := rfl
  finds g name' h := by
    change (List.lookup name' ((name, g.func.nextLabel) :: g.gotoLabels)).isSome
    rw [List.lookup_cons]
    split
    · rfl
    · rename_i hne
      refine h.resolve_left fun hmem => ?_
      rw [List.mem_singleton.mp hmem, beq_self_eq_true] at hne
      cases hne
  nothing h := by cases h

end Collects

mutual

theorem collectLabels_collects : (s : Stmt) → Collects (labelNames s) (collectLabels s)
  | .label _ _ name s => .seq (.addLabel name) (collectLabels_collects s)
  | .compound ss => collectLabelsList_collects ss
  | .ifElse _ _ _ t e => .seq (collectLabels_collects t) (collectLabelsOpt_collects e)
  | .while _ _ _ b | .doWhile _ _ _ b | .for _ _ _ _ _ b | .switch _ _ _ b | .case _ _ _ _ b
  | .default _ _ _ b => collectLabels_collects b
  | .expr _ | .decl _ | .ret _ _ _ | .break _ _ | .continue _ _ | .goto _ _ _ => .pure

theorem collectLabelsList_collects : (ss : List Stmt) →
    Collects (labelNamesList ss) (collectLabelsList ss)
  | [] => .pure
  | s :: ss => .seq (collectLabels_collects s) (collectLabelsList_collects ss)

theorem collectLabelsOpt_collects : (s : Option Stmt) →
    Collects (labelNamesOpt s) (collectLabelsOpt s)
  | none => .pure
  | some s => collectLabels_collects s

end

/-- `m` places a label if there is one of `names`, which all have theirs. -/
def LoudIfNamed (names : List String) (m : Gen Unit) : Prop :=
  names ≠ [] → ∀ g, (∀ name ∈ names, HasLabel g name) → g.size < (m g).2.size

namespace LoudIfNamed

variable {names names' : List String} {m k : Gen Unit}

theorem loud (h : Loud m) : LoudIfNamed names m := fun _ g _ => h g

theorem silent : LoudIfNamed [] m := fun h => absurd rfl h

theorem after (hm : Longer m) (hnames : ∀ g, (m g).2.gotoLabels = g.gotoLabels)
    (hk : LoudIfNamed names k) : LoudIfNamed names (m >>= fun _ => k) := by
  intro hne g hg
  refine (hm g).trans_lt (hk hne (m g).2 fun name hmem => ?_)
  rw [HasLabel, hnames]
  exact hg name hmem

theorem append (hm : LoudIfNamed names m) (hlong : Longer m) (hlong' : Longer k)
    (hnames : ∀ g, (m g).2.gotoLabels = g.gotoLabels) (hk : LoudIfNamed names' k) :
    LoudIfNamed (names ++ names') (m >>= fun _ => k) := by
  intro hne g hg
  by_cases hnil : names = []
  · subst hnil
    exact after hlong hnames hk hne g hg
  · exact (hm hnil g fun name h => hg name (List.mem_append_left _ h)).trans_le (hlong' _)

theorem label {name : String} (hlong : Longer k) :
    LoudIfNamed (name :: names) (emitNamedLabel name >>= fun _ => k) := by
  intro _ g hg
  obtain ⟨l, hl⟩ := Option.isSome_iff_exists.mp (hg name List.mem_cons_self)
  have hlabel : emitNamedLabel name g = emitLabel l g := by
    simp only [emitNamedLabel, Gen.run_get_bind, hl]
  have hrun : (emitNamedLabel name >>= fun _ => k) g = k (emitLabel l g).2 := by
    change k (emitNamedLabel name g).2 = _
    rw [hlabel]
  rw [hrun]
  exact (Loud.emit _ g).trans_le (hlong _)

end LoudIfNamed

mutual

theorem genStmt_loudIfNamed (Γ : TypeEnv) : (s : Stmt) → LoudIfNamed (labelNames s) (genStmt Γ s)
  | .compound ss => fun hne g hg => genStmts_loudIfNamed Γ ss hne (pushScope g).2 hg
  | .ifElse _ _ c t e =>
      .loud (.genIf (genExpr_longer Γ c) (genStmt_longer Γ t) (genStmtOpt_longer Γ e))
  | .while _ _ c b => .loud (.genWhile (genExpr_longer Γ c) (genStmt_longer Γ b))
  | .doWhile _ _ c b => .loud (.genDoWhile (genExpr_longer Γ c) (genStmt_longer Γ b))
  | .for _ _ init c incr b => by
      have hinit : Longer ((genStmtOpt Γ init).getD (return)) := by
        cases init with
        | none => exact .pure _
        | some s => exact genStmt_longer Γ s
      exact .loud (.genFor hinit (mapExpr_longer Γ c) (mapExpr_longer Γ incr) (genStmt_longer Γ b))
  | .switch _ _ e b =>
      .loud (.genSwitch (fun g => ((collectSwitchCases_places b).grows g).code_length_le)
        (genExpr_longer Γ e) (genStmt_longer Γ b))
  | .case node _ _ _ s =>
      .after (fun g => ((Places.emitCaseLabel node false).grows g).code_length_le)
        (fun g => ((Places.emitCaseLabel node false).grows g).gotoLabels) (genStmt_loudIfNamed Γ s)
  | .default node _ _ s =>
      .after (fun g => ((Places.emitCaseLabel node true).grows g).code_length_le)
        (fun g => ((Places.emitCaseLabel node true).grows g).gotoLabels) (genStmt_loudIfNamed Γ s)
  | .label _ _ name s => .label (genStmt_longer Γ s)
  | .expr _ | .decl _ | .ret _ _ _ | .break _ _ | .continue _ _ | .goto _ _ _ => .silent

theorem genStmts_loudIfNamed (Γ : TypeEnv) : (ss : List Stmt) →
    LoudIfNamed (labelNamesList ss) (genStmts Γ ss)
  | [] => .silent
  | s :: ss => .append (genStmt_loudIfNamed Γ s) (genStmt_longer Γ s) (genStmts_longer Γ ss)
      (fun g => ((genStmt_places Γ s).grows g).gotoLabels) (genStmts_loudIfNamed Γ ss)

end

/-! ### Functions -/

def FuncDef.retType (d : FuncDef) : CType :=
  match d.funcType with
  | some (.func ret _ _ _) => ret
  | _ => typeInt

/-- The function has no parameter to capture, no hidden pointer, no label and no statement with
code. -/
structure SilentFunc (Γ : TypeEnv) (declared : String → Option CType) (d : FuncDef) : Prop where
  params : ∀ p ∈ d.params, p.name = none
  retType : abiInMemory (abiClassify Γ d.retType) = false
  labels : labelNames d.body = []
  body : silentStmt Γ declared d.body = true

instance (Γ : TypeEnv) (declared : String → Option CType) (d : FuncDef) :
    Decidable (SilentFunc Γ declared d) :=
  decidable_of_iff ((∀ p ∈ d.params, p.name = none) ∧
      abiInMemory (abiClassify Γ d.retType) = false ∧ labelNames d.body = [] ∧
      silentStmt Γ declared d.body = true)
    ⟨fun ⟨hp, hr, hl, hb⟩ => ⟨hp, hr, hl, hb⟩, fun h => ⟨h.params, h.retType, h.labels, h.body⟩⟩

section Functions

variable {Γ : TypeEnv} {declared : String → Option CType} {module : IRModule}
  {scope : ScopeChain VarEntry} {d : FuncDef}

theorem genSretParam_cases (ty : CType) :
    (abiInMemory (abiClassify Γ ty) = false ∧ genSretParam Γ ty = (return)) ∨
      (abiInMemory (abiClassify Γ ty) = true ∧ Loud (genSretParam Γ ty)) := by
  unfold genSretParam
  split
  case isTrue h =>
    exact .inr ⟨h, .after .newTemp fun _ => .before (.emit _) fun _ _ => le_rfl⟩
  case isFalse h => exact .inl ⟨by simpa using h, rfl⟩

theorem genParams_cases (ps : List ParamDecl) (idx : ℕ) :
    ((∀ p ∈ ps, p.name = none) ∧ genParams Γ ps idx = (return [])) ∨
      ((∃ p ∈ ps, p.name ≠ none) ∧ Loud (genParams Γ ps idx)) := by
  induction ps generalizing idx with
  | nil => exact .inl ⟨by simp, rfl⟩
  | cons p ps ih =>
    have hlonger : Longer (genParams Γ ps (idx + 1)) := by
      rcases ih (idx + 1) with ⟨-, h⟩ | ⟨-, h⟩
      · rw [h]
        exact .pure _
      · exact h.longer
    rw [genParams]
    cases hname : p.name with
    | none =>
      rcases ih (idx + 1) with ⟨hall, h⟩ | ⟨⟨q, hq, hne⟩, h⟩
      · exact .inl ⟨List.forall_mem_cons.mpr ⟨hname, hall⟩, h⟩
      · exact .inr ⟨⟨q, List.mem_cons_of_mem p hq, hne⟩, h⟩
    | some name =>
      have hcapture : ∀ ty t, Longer (genParamCapture idx ty t) := by
        intro ty t
        unfold genParamCapture
        split
        · exact (Loud.emit_pure _ _).longer
        · exact .bind .newTemp fun _ => (Loud.emit_pure _ _).longer
      refine .inr ⟨⟨p, List.mem_cons_self, by simp [hname]⟩, ?_⟩
      exact .before (.genAlloca Γ _) fun _ => .bind (hcapture _ _) fun _ =>
        .bind (fun _ => le_rfl) fun _ => .bind hlonger fun _ => .pure _

theorem storeParams_longer (vs : List (IRValue × Option IRValue)) : Longer (storeParams vs) := by
  induction vs with
  | nil => exact .pure _
  | cons v vs ih =>
    obtain ⟨addr, _ | val⟩ := v
    · exact ih
    · exact .bind (Loud.genStore _ _).longer fun _ => ih

/-- The state before the labels of the body are collected. -/
def headState (Γ : TypeEnv) (module : IRModule) (scope : ScopeChain VarEntry) (d : FuncDef) :
    IrGen :=
  let g₁ := (genSretParam Γ d.retType (funcInit module scope d)).2
  let vals := genParams Γ d.params 0 g₁
  { (storeParams vals.1 vals.2).2 with gotoLabels := [] }

theorem funcStart_eq : funcStart Γ module scope d =
    (collectLabels d.body (headState Γ module scope d)).2 := rfl

/-- The head of a function emits nothing exactly if there is nothing to capture. -/
theorem headState_cases :
    ((∀ p ∈ d.params, p.name = none) ∧ abiInMemory (abiClassify Γ d.retType) = false ∧
        headState Γ module scope d = funcInit module scope d) ∨
      (¬((∀ p ∈ d.params, p.name = none) ∧ abiInMemory (abiClassify Γ d.retType) = false) ∧
        0 < (headState Γ module scope d).size) := by
  have hstore : ∀ (vals : List (IRValue × Option IRValue) × IrGen),
      vals.2.size ≤ ({ (storeParams vals.1 vals.2).2 with gotoLabels := [] } : IrGen).size :=
    fun vals => storeParams_longer vals.1 vals.2
  rcases genSretParam_cases (Γ := Γ) d.retType with ⟨hret, hsret⟩ | ⟨hret, hsret⟩
  · rcases genParams_cases (Γ := Γ) d.params 0 with ⟨hnone, hparams⟩ | ⟨⟨p, hp, hne⟩, hparams⟩
    · exact .inl ⟨hnone, hret, by rw [headState, hsret, hparams]; rfl⟩
    · exact .inr ⟨fun h => hne (h.1 p hp),
        (Nat.zero_le _).trans_lt ((hparams _).trans_le (hstore _))⟩
  · have hlonger : Longer (genParams Γ d.params 0) := by
      rcases genParams_cases (Γ := Γ) d.params 0 with ⟨-, h⟩ | ⟨-, h⟩
      · rw [h]
        exact .pure _
      · exact h.longer
    exact .inr ⟨fun h => by rw [hret] at h; exact absurd h.2 (by simp),
      (Nat.zero_le _).trans_lt ((hsret _).trans_le ((hlonger _).trans (hstore _)))⟩

/-- A function has no instruction exactly if it is silent. -/
theorem funcEnd_instrs_iff
    (hscope : ∀ name, scope.lookup vtabBuckets name =
      (declared name).map fun ty => ⟨irvGlobal name (typePointer ty .none), true⟩) :
    (funcEnd Γ module scope d).func.instrs = [] ↔ SilentFunc Γ declared d := by
  have hend : (funcEnd Γ module scope d).func.instrs = [] ↔ (funcEnd Γ module scope d).size = 0 :=
    List.length_eq_zero_iff.symm
  have hcollect := collectLabels_collects d.body
  have hsize : (funcStart Γ module scope d).size = (headState Γ module scope d).size :=
    congrArg List.length (hcollect.code _)
  have hgrow : (funcStart Γ module scope d).size ≤ (funcEnd Γ module scope d).size :=
    genStmt_longer Γ d.body _
  rw [hend]
  rcases @headState_cases Γ module scope d with ⟨hparams, hret, hhead⟩ | ⟨hnot, hpos⟩
  · by_cases hlabels : labelNames d.body = []
    · have hstart : funcStart Γ module scope d = funcInit module scope d := by
        rw [funcStart_eq, hcollect.nothing hlabels, hhead]
      have hfresh : Fresh declared (funcInit module scope d) := ⟨hscope, rfl, rfl, rfl, rfl⟩
      have hbody := genStmt_silentIff Γ declared d.body _ hfresh
      have hrun : (genStmt Γ d.body (funcInit module scope d)).2 = funcEnd Γ module scope d := by
        rw [← hstart]
        rfl
      rw [hrun] at hbody
      cases hsilent : silentStmt Γ declared d.body with
      | true =>
        rw [hsilent] at hbody
        exact ⟨fun _ => ⟨hparams, hret, hlabels, hsilent⟩, fun _ => hbody.2⟩
      | false =>
        rw [hsilent] at hbody
        exact ⟨fun h => absurd h (Nat.zero_le _ |>.trans_lt hbody).ne',
          fun h => absurd h.body (by simp [hsilent])⟩
    · have hloud := genStmt_loudIfNamed Γ d.body hlabels (funcStart Γ module scope d)
        fun name hname => hcollect.finds _ name (.inl hname)
      exact ⟨fun h => absurd h (Nat.zero_le _ |>.trans_lt hloud).ne',
        fun h => absurd h.labels hlabels⟩
  · exact ⟨fun h => by omega, fun h => absurd ⟨h.params, h.retType⟩ hnot⟩

end Functions

end TinyC
