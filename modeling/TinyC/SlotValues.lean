import TinyC.GenFrame

/-!
# The values of expressions have slots

Where the addresses of the variables in scope are temps that have been taken, or symbols, so is
the value of every expression, or it is a constant.
-/

namespace TinyC

/-- A constant, a symbol or one of the temps `1, …, n - 1`. -/
def IRValue.HasSlot (n : ℕ) (v : IRValue) : Prop :=
  v.kind ≠ .none ∧ ∀ t, v.kind = .temp t → 1 ≤ t ∧ t < n

namespace IRValue.HasSlot

variable {n n' t : ℕ} {v : IRValue}

theorem mono (h : v.HasSlot n) (hn : n ≤ n') : v.HasSlot n' :=
  ⟨h.1, fun t ht => ⟨(h.2 t ht).1, (h.2 t ht).2.trans_le hn⟩⟩

theorem temp (ty : CType) (ht : 1 ≤ t) (htn : t < n) : (irvTemp t ty).HasSlot n := by
  refine ⟨nofun, fun u hu => ?_⟩
  cases hu
  exact ⟨ht, htn⟩

theorem int (c : BitVec 64) (ty : CType) : (irvInt c ty).HasSlot n := ⟨nofun, nofun⟩

theorem float (c : BitVec 64) (ty : CType) : (irvFloat c ty).HasSlot n := ⟨nofun, nofun⟩

theorem global (name : String) (ty : CType) : (irvGlobal name ty).HasSlot n := ⟨nofun, nofun⟩

end IRValue.HasSlot

/-- Temps are numbered from 1, and the addresses of the variables in scope have slots. -/
structure IrGen.Ready (g : IrGen) : Prop where
  temps : 1 ≤ g.func.nextTemp
  scope : ∀ fr ∈ g.scope, ∀ b, ∀ p ∈ fr b, p.2.addr.HasSlot g.func.nextTemp

theorem IrGen.Ready.extends {g g' : IrGen} (h : g.Ready) (hext : Extends g g') : g'.Ready :=
  ⟨h.temps.trans hext.temps, fun fr hfr b p hp =>
    (h.scope fr (hext.scope ▸ hfr) b p hp).mono hext.temps⟩

/-- Run in `g`, the value of `m` has a slot. -/
def GivesSlot (g : IrGen) (m : Gen IRValue) : Prop := (m g).1.HasSlot (m g).2.func.nextTemp

def GivesSlots (m : Gen IRValue) : Prop := ∀ g, g.Ready → GivesSlot g m

/-- The generators of a node give values with slots. -/
structure NodeGen.GivesSlots (n : NodeGen) : Prop where
  lvalue : TinyC.GivesSlots n.lvalue
  expr : TinyC.GivesSlots n.expr

/-- Temps are only taken. -/
def TakesTemps {α : Type} (m : Gen α) : Prop := ∀ g, g.func.nextTemp ≤ (m g).2.func.nextTemp

namespace TakesTemps

variable {α β : Type}

theorem of_emits {own : List ℕ} {m : Gen α} (h : EmitsWith own m) : TakesTemps m :=
  fun g => (h g).temps

theorem pure (a : α) : TakesTemps (Pure.pure a : Gen α) := fun _ => le_rfl

theorem bind {m : Gen α} {k : α → Gen β} (hm : TakesTemps m) (hk : ∀ a, TakesTemps (k a)) :
    TakesTemps (m >>= k) := fun g => (hm g).trans (hk (m g).1 (m g).2)

theorem newLabel : TakesTemps newLabel := fun _ => le_rfl

theorem emit (ins : IRInstr) : TakesTemps (emit ins) := fun _ => le_rfl

end TakesTemps

namespace GivesSlots

variable {α : Type} {m : Gen IRValue} {Γ : TypeEnv}

theorem pure {v : IRValue} (h : ∀ n, v.HasSlot n) : GivesSlots (Pure.pure v) := fun _ _ => h _

/-- Only the last piece matters. -/
theorem last {m : Gen α} {k : α → Gen IRValue} (hm : Emits m) (hk : ∀ a, GivesSlots (k a)) :
    GivesSlots (m >>= k) := fun g hg => hk (m g).1 (m g).2 (hg.extends (hm g))

/-- The rest may hand the value on. -/
theorem value_bind {k : IRValue → Gen IRValue} (hm : Emits m) (h : GivesSlots m)
    (hk : ∀ v g, g.Ready → v.HasSlot g.func.nextTemp → GivesSlot g (k v)) :
    GivesSlots (m >>= k) :=
  fun g hg => hk (m g).1 (m g).2 (hg.extends (hm g)) (h g hg)

/-- A value at hand is kept. -/
theorem keep {m : Gen α} {v : IRValue} {g : IrGen} (hm : Emits m)
    (hv : v.HasSlot g.func.nextTemp) : GivesSlot g (m >>= fun _ => Pure.pure v) :=
  hv.mono (hm g).temps

theorem emitTo (ty : CType) (op : IROp) (a b : IRValue) : GivesSlots (emitTo ty op a b) :=
  fun _ hg => .temp ty hg.temps (Nat.lt_succ_self _)

theorem newTemp_bind {k : ℕ → Gen IRValue}
    (hk : ∀ t g, g.Ready → 1 ≤ t → t < g.func.nextTemp → GivesSlot g (k t)) :
    GivesSlots (newTemp >>= k) := fun g hg =>
  hk g.func.nextTemp _ (hg.extends (Emits.newTemp g)) hg.temps (Nat.lt_succ_self _)

/-- A temp that is taken, and code after it. -/
theorem temp_bind (ty : CType) {m : ℕ → Gen α} (hm : ∀ t, Emits (m t)) :
    GivesSlots (newTemp >>= fun t => m t >>= fun _ => Pure.pure (irvTemp t ty)) :=
  newTemp_bind fun t _ _ ht htn => keep (hm t) (.temp ty ht htn)

theorem ite {p : Prop} [Decidable p] {k : Gen IRValue} (hm : GivesSlots m) (hk : GivesSlots k) :
    GivesSlots (if p then m else k) := by
  split
  · exact hm
  · exact hk

theorem ite_at {p : Prop} [Decidable p] {k : Gen IRValue} {g : IrGen} (hm : GivesSlot g m)
    (hk : GivesSlot g k) : GivesSlot g (if p then m else k) := by
  split
  · exact hm
  · exact hk

theorem genLoad (addr : IRValue) (ty : CType) : GivesSlots (genLoad addr ty) :=
  emitTo ty .load addr _

theorem loadUnlessAggregate (ty : Option CType) {addr : IRValue} {g : IrGen} (hg : g.Ready)
    (h : addr.HasSlot g.func.nextTemp) : GivesSlot g (loadUnlessAggregate ty addr) :=
  ite_at h (genLoad addr _ g hg)

theorem lookup {g : IrGen} {name : String} {e : VarEntry} (hg : g.Ready)
    (he : g.scope.lookup vtabBuckets name = some e) : e.addr.HasSlot g.func.nextTemp := by
  obtain ⟨fr, hfr, b, hmem⟩ := ScopeChain.mem_of_lookup he
  exact hg.scope fr hfr b _ hmem

theorem genIdentLvalue (name : String) : GivesSlots (genIdentLvalue name) := by
  intro g hg
  rw [GivesSlot, TinyC.genIdentLvalue, Gen.run_vscopeLookup_bind]
  cases he : g.scope.lookup vtabBuckets name with
  | none => exact .global name _
  | some e => exact lookup hg he

theorem genIdent (name : String) (ty : Option CType) : GivesSlots (genIdent name ty) := by
  intro g hg
  rw [GivesSlot, TinyC.genIdent, Gen.run_vscopeLookup_bind]
  cases he : g.scope.lookup vtabBuckets name with
  | none => exact .global name _
  | some e => exact ite_at (m := Pure.pure e.addr) (lookup hg he) (genLoad e.addr _ g hg)

/-- Both values of a step are temps. -/
theorem genStep (op : TokenKind) (ty : Option CType) {lvalue : Gen IRValue} (h : Emits lvalue)
    {pick : IRValue × IRValue → IRValue} (hpick : ∀ r, pick r = r.1 ∨ pick r = r.2) :
    GivesSlots (genStep Γ op ty lvalue >>= fun r => Pure.pure (pick r)) := by
  intro g hg
  have htemps : 1 ≤ (lvalue g).2.func.nextTemp := hg.temps.trans (h g).temps
  have hstep : (TinyC.genStep Γ op ty lvalue g).1.1 =
      irvTemp (lvalue g).2.func.nextTemp (ty.getD typeInt) := rfl
  have hstep' : (TinyC.genStep Γ op ty lvalue g).1.2 =
      irvTemp ((lvalue g).2.func.nextTemp + 1) (ty.getD typeInt) := rfl
  have hnext : (TinyC.genStep Γ op ty lvalue g).2.func.nextTemp =
      (lvalue g).2.func.nextTemp + 1 + 1 := rfl
  change (pick (TinyC.genStep Γ op ty lvalue g).1).HasSlot
    (TinyC.genStep Γ op ty lvalue g).2.func.nextTemp
  rcases hpick (TinyC.genStep Γ op ty lvalue g).1 with hp | hp
  · rw [hp, hstep, hnext]
    exact .temp _ htemps (by omega)
  · rw [hp, hstep', hnext]
    exact .temp _ (by omega) (by omega)

theorem genUnop (op : TokenKind) (ty : Option CType) {n : NodeGen} (hn : n.Emits)
    (h : n.GivesSlots) : GivesSlots (genUnop Γ op ty n) := by
  cases op with
  | amp => exact h.lvalue
  | star => exact value_bind hn.expr h.expr fun _ _ hg hv => loadUnlessAggregate ty hg hv
  | plusplus => exact genStep _ ty hn.lvalue fun _ => .inr rfl
  | minusminus => exact genStep _ ty hn.lvalue fun _ => .inr rfl
  | plus =>
    exact value_bind hn.expr h.expr fun _ _ hg hv => keep .newTemp hv
  | _ => exact last hn.expr fun _ => temp_bind _ fun _ => .emit (by simp)

theorem genShortCircuit (isAnd : Bool) {left right : Gen IRValue} (hl : Emits left)
    (hr : Emits right) : GivesSlots (genShortCircuit isAnd left right) := by
  refine newTemp_bind fun t g _ ht htn => ?_
  have hslot : (irvTemp t typeInt).HasSlot g.func.nextTemp := .temp typeInt ht htn
  refine hslot.mono (TakesTemps.bind .newLabel (fun e => .bind .newLabel fun f =>
    .bind .newLabel fun l => .bind (.of_emits hl) fun lv => ?_) g)
  exact .bind (.of_emits (Emits.genShortCircuitTest isAnd lv hr f l)) fun _ =>
    .bind (.emit _) fun _ => .bind (.emit _) fun _ => .bind (.emit _) fun _ =>
      .bind (.emit _) fun _ => .bind (.emit _) fun _ => .pure _

theorem genTernary (ty : Option CType) {cond thenExpr elseExpr : Gen IRValue} (hc : Emits cond)
    (ht : Emits thenExpr) (he : Emits elseExpr) :
    GivesSlots (genTernary ty cond thenExpr elseExpr) := by
  intro g hg
  have hslot : (irvTemp g.func.nextTemp (ty.getD typeInt)).HasSlot (g.func.nextTemp + 1) :=
    .temp _ hg.temps (Nat.lt_succ_self _)
  have hrest : TakesTemps (cond >>= fun c => emitJz c (g.func.nextLabel + 1) >>= fun _ =>
      emitLabel g.func.nextLabel >>= fun _ => thenExpr >>= fun tv =>
      emit { op := .copy, dst := irvTemp g.func.nextTemp (ty.getD typeInt), src1 := tv }
        >>= fun _ => emitJmp (g.func.nextLabel + 2) >>= fun _ =>
      emitLabel (g.func.nextLabel + 1) >>= fun _ => elseExpr >>= fun ev =>
      emit { op := .copy, dst := irvTemp g.func.nextTemp (ty.getD typeInt), src1 := ev }
        >>= fun _ => emitLabel (g.func.nextLabel + 2)) :=
    .bind (.of_emits hc) fun _ => .bind (.emit _) fun _ => .bind (.emit _) fun _ =>
      .bind (.of_emits ht) fun _ => .bind (.emit _) fun _ => .bind (.emit _) fun _ =>
        .bind (.emit _) fun _ => .bind (.of_emits he) fun _ => .bind (.emit _) fun _ => .emit _
  exact hslot.mono (hrest { g with func := { g.func with
    nextLabel := g.func.nextLabel + 1 + 1 + 1, nextTemp := g.func.nextTemp + 1 } })

theorem genBinop (op : TokenKind) (ty lt rt : Option CType) {left right : Gen IRValue}
    (hl : Emits left) (hr : Emits right) : GivesSlots (genBinop Γ op ty lt rt left right) := by
  have hscaled : ∀ (v : IRValue) (n : ℤ) (ins : IRValue → IRInstr), (∀ v, (ins v).op ≠ .label) →
      ∀ {g : IrGen} {dst : IRValue}, dst.HasSlot g.func.nextTemp →
      GivesSlot g (genScaled v n >>= fun v => emit (ins v) >>= fun _ => Pure.pure dst) := by
    intro v n ins hins g dst hdst
    exact hdst.mono (TakesTemps.bind (.of_emits (Emits.genScaled v n)) (fun _ => .emit _) g)
  unfold TinyC.genBinop
  refine ite (genShortCircuit _ hl hr) (last hl fun lv => last hr fun rv =>
    newTemp_bind fun t g hg ht htn => ?_)
  have hdst : (irvTemp t (ty.getD typeInt)).HasSlot g.func.nextTemp := .temp _ ht htn
  refine ite_at (hscaled _ _ _ (by simp) hdst) (ite_at (hscaled _ _ _ (by simp) hdst) (ite_at ?_
    (ite_at (hscaled _ _ _ (by simp) hdst) hdst)))
  let diff : IRInstr :=
    { op := .sub, dst := irvTemp t (ty.getD typeInt), src1 := lv, src2 := rv }
  have hg' : (emit diff g).2.Ready := hg.extends (Emits.emit (by simp [diff]) g)
  change GivesSlot (emit diff g).2 _
  exact ite_at hdst (emitTo _ _ _ _ _ hg')

theorem genAssign (op : TokenKind) (ty lhsTy : Option CType) (bf : Option StructField)
    {left right : NodeGen} (hl : left.Emits) (hr : right.Emits) (hls : left.GivesSlots)
    (hrs : right.GivesSlots) : GivesSlots (genAssign Γ op ty lhsTy bf left right) := by
  refine value_bind hl.lvalue hls.lvalue fun addr g hg haddr => ?_
  refine ite_at ?_ (ite_at ?_ ?_)
  · exact haddr.mono (TakesTemps.bind (.of_emits hr.aggAddr) (fun _ => .emit _) g)
  · refine value_bind hr.expr hrs.expr (fun rv g hg hrv => ?_) g hg
    cases bf.filter fun f => f.bitWidth > 0 with
    | some f => exact hrv.mono (Emits.genBitfieldStore addr f rv g).temps
    | none => exact hrv
  · refine last (.genLoad _ _) (fun lval => last hr.expr fun rv => newTemp_bind
      fun t g hg ht htn => ?_) g hg
    have hdst : (irvTemp t (ty.getD typeInt)).HasSlot g.func.nextTemp := .temp _ ht htn
    refine hdst.mono (TakesTemps.bind ?_ (fun _ => .bind (.emit _) fun _ => .emit _) g)
    exact .of_emits (Emits.ite (.genScaled _ _) (.pure _))

theorem genCall (ty : Option CType) {func : Gen IRValue} {args : List (CType × NodeGen)}
    (hf : Emits func) (hargs : ∀ a ∈ args, a.2.Emits) : GivesSlots (genCall Γ ty func args) := by
  refine last (.genArgs hargs) fun vs => last hf fun callee => ?_
  refine value_bind ?_ ?_ fun _ _ _ hv => keep (.emit (by simp [irCall])) hv
  · exact .ite (.genAlloca _ _) (.bind .newTemp fun _ => .pure _)
  · refine ite ?_ ?_
    · exact fun _ hg => .temp _ hg.temps (Nat.lt_succ_self _)
    · exact fun _ hg => .temp _ hg.temps (Nat.lt_succ_self _)

theorem genMemberLvalue (ty : Option CType) (field : String) {base : Gen IRValue}
    (hb : Emits base) (h : GivesSlots base) : GivesSlots (genMemberLvalue Γ ty field base) := by
  refine value_bind hb h fun addr g hg haddr => ?_
  cases ty with
  | none => exact haddr
  | some t =>
    dsimp only
    rcases findFieldWithOffset Γ t field with - | ⟨⟨⟩ | ⟨f, fs⟩, offset⟩
    · exact haddr
    · exact haddr
    · exact ite_at haddr (emitTo _ _ _ _ g hg)

theorem genMemberExpr (ty : Option CType) (bf : Option StructField) (hm : Emits m)
    (h : GivesSlots m) : GivesSlots (genMemberExpr ty bf m) := by
  refine value_bind hm h fun addr g hg haddr => ?_
  cases bf.filter fun f => f.bitWidth > 0 with
  | some f =>
    exact last (.genLoad _ _) (fun _ => last (.genFieldShift (by simp) _ _) fun _ =>
      emitTo _ _ _ _) g hg
  | none => exact ite_at haddr (loadUnlessAggregate ty hg haddr)

theorem genCast (srcTy : Option CType) (ty : CType) (hm : Emits m) (h : GivesSlots m) :
    GivesSlots (genCast Γ srcTy ty m) := by
  refine value_bind hm h fun v g hg hv => ?_
  cases srcTy with
  | none => exact hv
  | some t => exact ite_at hv (emitTo _ _ _ _ g hg)

theorem genCompoundLit (ty : Option CType) (hm : Emits m) (h : GivesSlots m) :
    GivesSlots (genCompoundLit ty m) :=
  value_bind hm h fun _ g hg hv => ite_at hv (genLoad _ _ g hg)

end GivesSlots

theorem NodeGen.GivesSlots.ofExpr {Γ : TypeEnv} {m : Gen IRValue} (h : TinyC.GivesSlots m) :
    (NodeGen.ofExpr Γ m).GivesSlots := ⟨h, h⟩

open GivesSlots

/-- The value of every node has a slot. -/
theorem genNode_givesSlots (Γ : TypeEnv) (e : Expr) : (genNode Γ e).GivesSlots := by
  cases e with
  | intLit _ _ _ | charLit _ _ => exact .ofExpr (.pure fun _ => .int _ _)
  | floatLit _ _ _ => exact .ofExpr (.pure fun _ => .float _ _)
  | strLit _ s => exact .ofExpr (.last (.addStringConst s) fun _ => .pure fun _ => .global _ _)
  | ident i name => exact ⟨.genIdentLvalue name, .genIdent name i.type⟩
  | unop i op e =>
    have he := genNode_givesSlots Γ e
    have hexpr := GivesSlots.genUnop (Γ := Γ) op i.type (genNode_emits Γ e) he
    exact ⟨ite he.expr hexpr, hexpr⟩
  | postop i op e => exact .ofExpr (.genStep op i.type (genNode_emits Γ e).lvalue fun _ => .inl rfl)
  | binop i op l r =>
    exact .ofExpr (.genBinop op i.type _ _ (genNode_emits Γ l).expr (genNode_emits Γ r).expr)
  | assign i op l r =>
    exact .ofExpr (.genAssign op i.type _ _ (genNode_emits Γ l) (genNode_emits Γ r)
        (genNode_givesSlots Γ l) (genNode_givesSlots Γ r))
  | ternary i c t e =>
    exact .ofExpr (.genTernary i.type (genNode_emits Γ c).expr (genNode_emits Γ t).expr
        (genNode_emits Γ e).expr)
  | call i func args =>
    exact .ofExpr (.genCall i.type (genNode_emits Γ func).expr (genNodes_emits Γ args))
  | subscript i b x =>
    have hl : Emits (genSubscriptLvalue Γ i.type (genNode Γ b).expr (genNode Γ x).expr) :=
      .genSubscriptLvalue i.type (genNode_emits Γ b).expr (genNode_emits Γ x).expr
    have hs : GivesSlots (genSubscriptLvalue Γ i.type (genNode Γ b).expr (genNode Γ x).expr) := by
      refine last (genNode_emits Γ b).expr fun b => last (genNode_emits Γ x).expr fun x =>
        newTemp_bind fun t g hg ht htn => ?_
      have hdst : (irvTemp t (typePointer (i.type.getD typeInt) .none)).HasSlot
          g.func.nextTemp := .temp _ ht htn
      exact hdst.mono (TakesTemps.bind (.of_emits (Emits.genScaled _ _)) (fun _ => .emit _) g)
    exact ⟨hs, value_bind hl hs fun _ _ hg haddr => GivesSlots.loadUnlessAggregate i.type hg haddr⟩
  | member i b field =>
    have hl : Emits (genMemberLvalue Γ b.type field (genNode Γ b).lvalue) :=
      .genMemberLvalue b.type field (genNode_emits Γ b).lvalue
    have hs := GivesSlots.genMemberLvalue (Γ := Γ) b.type field (genNode_emits Γ b).lvalue
      (genNode_givesSlots Γ b).lvalue
    exact ⟨hs, .genMemberExpr _ _ hl hs⟩
  | memberPtr i b field =>
    have hl : Emits (genMemberLvalue Γ (pointeeOrSelf b.type) field (genNode Γ b).expr) :=
      .genMemberLvalue _ field (genNode_emits Γ b).expr
    have hs := GivesSlots.genMemberLvalue (Γ := Γ) (pointeeOrSelf b.type) field
      (genNode_emits Γ b).expr (genNode_givesSlots Γ b).expr
    exact ⟨hs, .genMemberExpr _ _ hl hs⟩
  | cast _ ty e => exact .ofExpr (.genCast _ ty (genNode_emits Γ e).expr (genNode_givesSlots Γ e).expr)
  | sizeofExpr _ e => exact .ofExpr (.pure fun _ => by cases e.type <;> exact .int _ _)
  | sizeofType _ _ => exact .ofExpr (.pure fun _ => .int _ _)
  | comma _ l r =>
    exact .ofExpr (.last (genNode_emits Γ l).expr fun _ => (genNode_givesSlots Γ r).expr)
  | initList _ _ => exact ⟨.pure fun _ => .int _ _, .pure fun _ => .int _ _⟩
  | fieldDesig _ _ _ | indexDesig _ _ _ => exact .ofExpr (.pure fun _ => .int _ _)
  | compoundLit i ty init =>
    have hi := genNode_emits Γ init
    have hl : Emits (genCompoundLitLvalue Γ ty (genNode Γ init)) := .genCompoundLitLvalue ty hi
    have hs : GivesSlots (genCompoundLitLvalue Γ ty (genNode Γ init)) :=
      value_bind (.genAlloca _ _) (fun _ hg => .temp _ hg.temps (Nat.lt_succ_self _))
        fun _ _ _ haddr => keep (hi.init _ _) haddr
    exact ⟨hs, .genCompoundLit i.type hl hs⟩

end TinyC
