import TinyC.TempFlowStmt
import TinyC.UnitFunctions

/-!
# No temp is read before it is written

The code of a whole function passes the check. So along every path on which no jump skips the
declaration of a variable in scope at its target, each temp is written before it is read.
-/

namespace TinyC

open World JumpFlow

theorem irvNone_scalar : isAggregateType irvNone.type = false := rfl

/-- The names of labels are planned to be reached with what they ask for. -/
def Named (asks : ℤ → Set ℕ) (w : World) : Prop :=
  ∀ p ∈ w.gen.gotoLabels, Knows w p.2 (asks p.2)

namespace Evaluates

variable {asks : ℤ → Set ℕ} {w : World} {A : Set ℕ} {Γ : TypeEnv}

/-- What the scan for names does to the plan. -/
def Names (asks : ℤ → Set ℕ) (m : Gen Unit) : Prop :=
  ∀ w A, Named asks w → Evaluates asks w A m fun w' A' _ => A' = A ∧ Named asks w'

theorem Names.pure : Names asks (Pure.pure ()) := fun _ _ h => .pure ⟨rfl, h⟩

theorem Names.seq {m k : Gen Unit} (hm : Names asks m) (hk : Names asks k) :
    Names asks (m >>= fun _ => k) := fun w A h =>
  (hm w A h).bind fun w₁ A₁ _ _ h₁ => h₁.1 ▸ hk w₁ A₁ h₁.2

theorem addLabel (name : String) : Names asks (addLabel name) := by
  intro w A h
  refine ((newLabel fun l => asks l).keeping (f := IrGen.gotoLabels) fun _ => rfl).bind
    fun w₁ A₁ l l₁ h₁ => ?_
  obtain ⟨⟨hA, -, hl⟩, hkeep⟩ := h₁
  refine Flows.of_func_eq rfl ⟨rfl, hA, fun p hp => ?_⟩
  rcases List.mem_cons.mp hp with rfl | hp
  · exact ⟨hl.taken, hl.live⟩
  · have hk := (h p (hkeep ▸ hp)).mono l₁.toLe
    exact ⟨hk.taken, hk.live⟩

end Evaluates

theorem collectLabels_names (asks : ℤ → Set ℕ) (s : Stmt) :
    Evaluates.Names asks (collectLabels s) :=
  collectLabels_rule .pure .seq .addLabel s

namespace Flows

variable {asks : ℤ → Set ℕ} {w : World} {A : Set ℕ} {Γ : TypeEnv}

theorem genSretParam (ty : CType) (hs : Scoped w A) :
    Flows asks w A (genSretParam Γ ty) fun w' A' _ => Scoped w' A' := by
  unfold TinyC.genSretParam
  split
  · refine Flows.bind (Evaluates.newTemp (typePointer ty .none)) fun w₁ A₁ t hle₁ h₁ => ?_
    obtain ⟨hsc₁, rfl, -, ht⟩ := h₁
    refine Flows.bind (Evaluates.result ⟨rfl, rfl, by simp⟩ rfl ht ?_) fun w₂ A₂ _ hle₂ h₂ => ?_
    · simp [IRInstr.operands, IRInstr.usesDst, Valid.irvNone, irvNone_scalar]
    have hs₂ : Scoped w₂ A₂ := hs.mono ⟨hle₁.trans hle₂, h₂.1.trans hsc₁⟩ h₂.2.1
    exact of_code_eq rfl rfl rfl
      (hs₂.mono ⟨⟨⟨fun _ _ => rfl, fun _ _ => rfl⟩, le_rfl, le_rfl⟩, rfl⟩ Set.Subset.rfl)
  · exact .pure hs

/-- Storage and values of parameters that can be read. -/
def Captured (w : World) (A : Set ℕ) (vals : List (IRValue × Option IRValue)) : Prop :=
  ∀ p ∈ vals, Valid w A p.1 ∧ ∀ v ∈ p.2, Valid w A v

theorem genParamCapture (idx : ℕ) (pty : CType) {t : ℕ}
    (ht : Valid w A (irvTemp t (typePointer pty .none))) :
    Evaluates asks w A (genParamCapture idx pty t) fun w' A' val =>
      A ⊆ A' ∧ ∀ v ∈ val, Valid w' A' v := by
  unfold TinyC.genParamCapture
  split
  case isTrue hagg =>
    have hcopy : paramCopy idx pty t 0 = { op := .copy, dst := irvTemp t (typePointer pty .none), labelId := idx, src2 := ⟨.none, some pty⟩ } := if_pos hagg
    have huse : (paramCopy idx pty t 0).usesDst = true := by rw [hcopy]; exact hagg
    have hemit : Evaluates asks w A (emit (paramCopy idx pty t 0)) (Leaves A) := by
      refine .use (by rw [hcopy]; rfl) huse fun v hv => ?_
      rw [IRInstr.operands, huse, if_pos rfl, hcopy] at hv
      simp only [List.cons_append, List.nil_append, List.mem_cons, List.not_mem_nil, or_false] at hv
      rcases hv with rfl | rfl | rfl
      · exact ht
      · exact .irvNone
      · exact .of_not_temp (by simp)
    exact hemit.leaves_bind fun _ _ _ _ s => .pure ⟨s, by simp⟩
  case isFalse hagg =>
    refine .newTemp_bind pty fun w₁ t' l₁ ht' => ?_
    have hcopy : paramCopy idx pty t t' = { op := .copy, dst := irvTemp t' pty, labelId := idx } :=
      if_neg hagg
    rw [hcopy]
    refine (Evaluates.result ⟨rfl, rfl, by simp⟩ rfl ht' ?_).bind fun _ _ _ _ h₂ =>
      .pure ⟨h₂.1, by simpa using h₂.2⟩
    simp [IRInstr.operands, IRInstr.usesDst, Valid.irvNone, irvNone_scalar]

theorem genParams (ps : List ParamDecl) (idx : ℕ) (hs : Scoped w A) :
    Flows asks w A (genParams Γ ps idx) fun w' A' vals => A ⊆ A' ∧ Scoped w' A' ∧ Captured w' A' vals := by
  induction ps generalizing w A idx with
  | nil => exact .pure ⟨Set.Subset.rfl, hs, by simp [Captured]⟩
  | cons p ps ih =>
    unfold TinyC.genParams
    split
    · exact ih (idx + 1) hs
    · rename_i name _
      let pty := p.paramType.getD typeInt
      refine Flows.bind_gen (Evaluates.genAlloca Γ pty) fun w₁ A₁ hle₁ hg₁ h₁ => ?_
      obtain ⟨hsc₁, hA₁, haddr⟩ := h₁
      refine Flows.bind (genParamCapture idx pty haddr) fun w₂ A₂ val hle₂ h₂ => ?_
      obtain ⟨hsc₂, hA₂, hval⟩ := h₂
      have hs₂ : Scoped w₂ A₂ := hs.mono ⟨hle₁.trans hle₂, hsc₂.trans hsc₁⟩ (hA₁.trans hA₂)
      have haddr₂ := haddr.mono hle₂ hA₂
      let addr := (TinyC.genAlloca Γ pty w.gen).1
      let w₃ : World := ⟨(vscopeDefine name addr false w₂.gen).2, w₂.plan⟩
      have hdefine : Flows asks w₂ A₂ (vscopeDefine name addr false) fun w' A' _ =>
          w' = w₃ ∧ A' = A₂ := of_func_eq rfl ⟨rfl, rfl⟩
      refine hdefine.bind fun w' A' _ hle₃ h₃ => ?_
      obtain ⟨rfl, rfl⟩ := h₃
      refine (ih (idx + 1) (hs₂.define haddr₂ name false)).bind fun w₄ A₄ vals hle₄ h₄ => ?_
      refine .pure ⟨(hA₁.trans hA₂).trans h₄.1, h₄.2.1, fun q hq => ?_⟩
      rcases List.mem_cons.mp hq with rfl | hq
      · exact ⟨haddr₂.mono (hle₃.trans hle₄) h₄.1,
          fun v hv => (hval v hv).mono (hle₃.trans hle₄) h₄.1⟩
      · exact h₄.2.2 q hq

theorem storeParams {vals : List (IRValue × Option IRValue)} (hs : Scoped w A)
    (hv : Captured w A vals) :
    Flows asks w A (storeParams vals) fun w' A' _ => Scoped w' A' := by
  induction vals generalizing w A with
  | nil => exact .pure hs
  | cons p vals ih =>
    have hp := hv p List.mem_cons_self
    have hrest : ∀ {w' A'}, Le w w' → A ⊆ A' → Captured w' A' vals := fun hle hA q hq =>
      ⟨((hv q (List.mem_cons_of_mem p hq)).1).mono hle hA,
        fun v h => ((hv q (List.mem_cons_of_mem p hq)).2 v h).mono hle hA⟩
    obtain ⟨addr, _ | val⟩ := p
    · exact ih hs (hrest (.refl w) Set.Subset.rfl)
    · exact Flows.bind (Evaluates.genStore hp.1 (hp.2 val rfl)) fun w₁ A₁ _ hle₁ h₁ =>
        ih (hs.mono ⟨hle₁, h₁.1⟩ h₁.2) (hrest hle₁ h₁.2)

theorem genFuncHead (d : FuncDef) (hs : Scoped w A) :
    Flows asks w A (genFuncHead Γ d) fun w' A' _ => Scoped w' A' ∧ Named asks w' := by
  refine Flows.get_bind ?_
  refine (genSretParam _ hs).bind fun w₁ A₁ _ _ hs₁ => ?_
  refine (genParams d.params 0 hs₁).bind fun w₂ A₂ vals _ h₂ => ?_
  refine (storeParams h₂.2.1 h₂.2.2).bind fun w₃ A₃ _ _ hs₃ => ?_
  let w₄ : World := ⟨{ w₃.gen with gotoLabels := [] }, w₃.plan⟩
  have hreset : Flows asks w₃ A₃ (modify fun g => { g with gotoLabels := [] }) fun w' A' _ =>
      w' = w₄ ∧ A' = A₃ := of_func_eq rfl ⟨rfl, rfl⟩
  refine hreset.bind fun w' A' _ _ h₄ => ?_
  obtain ⟨rfl, rfl⟩ := h₄
  refine Flows.mono (collectLabels_names asks d.body w₄ A' (by simp [Named, w₄])) ?_
  intro w₅ A₅ _ hle₅ h₅
  exact ⟨(hs₃.of_func_eq (g := w₄.gen) rfl rfl).mono ⟨hle₅, h₅.1⟩ h₅.2.1.ge, h₅.2.2⟩

end Flows

/-- No variable has a temp yet where a function begins. -/
theorem FileScope.scoped {module : IRModule} {scope : ScopeChain VarEntry} {d : FuncDef} {P : Plan}
    {A : Set ℕ} (h : FileScope scope) : Scoped ⟨funcInit module scope d, P⟩ A := by
  intro fr hfr b p hp
  rcases List.mem_cons.mp hfr with rfl | hfr
  · simp at hp
  · obtain ⟨name, ty, heq⟩ := h fr hfr b p hp
    rw [heq]
    exact .irvGlobal name ty

/-- The code of a function passes the check. -/
theorem genFunc_checks (Γ : TypeEnv) (module : IRModule) {scope : ScopeChain VarEntry} (d : FuncDef)
    (hscope : FileScope scope) (hbody : d.body.WellPlaced) :
    ∃ (P : Plan) (B : Set ℕ),
      irAccess.Checks P.live (declaredAt Γ d.body (funcStart Γ module scope d)) ∅
        (funcEnd Γ module scope d).func.instrs B ∧
      ∀ i ∈ (funcEnd Γ module scope d).func.instrs, P.Fits i := by
  let asks := declaredAt Γ d.body (funcStart Γ module scope d)
  let w₀ : World := ⟨funcInit module scope d, fun _ => ∅, fun _ => none⟩
  have hflow : Flows asks w₀ ∅ (TinyC.genFuncHead Γ d >>= fun _ => genStmt Γ d.body)
      fun _ _ _ => True := by
    refine (Flows.genFuncHead d hscope.scoped).bind_gen fun w₁ A₁ hle₁ hg₁ h₁ => ?_
    have hctx : w₁.gen.context = (funcInit module scope d).context :=
      hg₁ ▸ Keeps.genFuncHead headFrame_context Γ d _
    have hr₁ : Ready asks w₁ A₁ := by
      refine ⟨h₁.1, fun l hl h0 => ?_, fun ce hce => ?_, h₁.2⟩
      · have hb : w₁.gen.breakLabel = 0 := congrArg Context.breakLabel hctx
        have hc : w₁.gen.contLabel = 0 := congrArg Context.contLabel hctx
        rw [hb, hc, or_self] at hl
        exact absurd hl h0
      · have hnil : w₁.gen.caseEntries = [] := congrArg Context.caseEntries hctx
        simp [hnil] at hce
    have ha : AsksFor Γ asks d.body w₁.gen := hg₁ ▸ asksFor_declaredAt Γ d.body _
    exact (genStmt_lowers Γ asks d.body hbody w₁ A₁ hr₁ ha).mono fun _ _ _ _ _ => trivial
  obtain ⟨P, B, he, -⟩ := hflow Nat.one_pos
  obtain ⟨is, hcode, hpass⟩ := he.code
  have heq : (funcEnd Γ module scope d).func.instrs = is := hcode
  rw [heq]
  have hagrees : Plan.Agrees (funcEnd Γ module scope d) P P := ⟨fun _ _ => rfl, fun _ _ => rfl⟩
  exact ⟨P, B, hpass.checks P hagrees, hpass.fits P hagrees⟩

/-! ### Functions without labels -/

mutual

/-- No `case`, `default` or named label stands in the statement. -/
def Stmt.Unlabelled : Stmt → Prop
  | .label _ _ _ _ | .case _ _ _ _ _ | .default _ _ _ _ => False
  | .compound ss => StmtsUnlabelled ss
  | .ifElse _ _ _ t e => t.Unlabelled ∧ StmtOptUnlabelled e
  | .while _ _ _ b | .doWhile _ _ _ b | .switch _ _ _ b => b.Unlabelled
  | .for _ _ init _ _ b => StmtOptUnlabelled init ∧ b.Unlabelled
  | _ => True

def StmtsUnlabelled : List Stmt → Prop
  | [] => True
  | s :: ss => s.Unlabelled ∧ StmtsUnlabelled ss

def StmtOptUnlabelled : Option Stmt → Prop
  | none => True
  | some s => s.Unlabelled

end

theorem StmtsUnlabelled.of_append {before after : List Stmt} {s : Stmt}
    (h : StmtsUnlabelled (before ++ s :: after)) : s.Unlabelled := by
  induction before with
  | nil => exact h.1
  | cons _ before ih => exact ih h.2

theorem Inside.unlabelled {Γ : TypeEnv} {k : Nesting} {s s' : Stmt} {g g' : IrGen}
    (h : Inside Γ k s g s' g') (hs : s.Unlabelled) : s'.Unlabelled := by
  cases h with
  | item => exact StmtsUnlabelled.of_append hs
  | thenStmt => exact hs.1
  | elseStmt => exact hs.2
  | whileBody | doBody | switchBody => exact hs
  | forBody => exact hs.2
  | forInit => exact hs.1
  | case | default | label => exact hs.elim

theorem Nested.unlabelled {Γ : TypeEnv} {ok : Nesting → Prop} {s s' : Stmt} {g g' : IrGen}
    (h : Nested Γ ok s g s' g') (hs : s.Unlabelled) : s'.Unlabelled := by
  induction h with
  | refl => exact hs
  | step h _ _ ih => exact ih (h.unlabelled hs)

/-- Without labels there is nothing to ask of a jump. -/
theorem declaredAt_unlabelled {Γ : TypeEnv} {s : Stmt} (hs : s.Unlabelled) (g : IrGen) (l : ℤ) :
    declaredAt Γ s g l = ∅ := by
  refine Set.eq_empty_of_forall_notMem fun t ⟨s', g', hn, hl, _⟩ => ?_
  have hu := hn.unlabelled hs
  cases s' with
  | case | default | label => exact hu.elim
  | _ => simp [ownLabel] at hl

/-- Along a path through a function of the translation unit, on which a jump to a `case` or a
named label only enters the scope of variables whose declaration has been executed, every temp
that is read has been written. -/
theorem temps_written (Γ : TypeEnv) (before : List TopDecl) (d : FuncDef)
    (hbody : d.body.WellPlaced) :
    let s := irgenDecls Γ before
    let code := (funcEnd Γ s.module s.scope d).func.instrs
    let asks := declaredAt Γ d.body (funcStart Γ s.module s.scope d)
    ∀ trail pc i, irAccess.Path code (irAccess.MeetsLabel code asks) trail pc →
      code[pc]? = some i → i.reads ⊆ irAccess.Written code trail := by
  intro s code asks trail pc i hpath hi
  obtain ⟨P, B, hchecks, -⟩ :=
    genFunc_checks Γ s.module d (fileScope_irgenDecls Γ before) hbody
  exact hchecks.reads_written hpath hi

/-! ### Two functions of an `int` parameter `x` -/

def intIdent (name : String) : Expr := .ident { type := some typeInt } name

def assignInt (name : String) (v : BitVec 64) : Expr :=
  .assign { type := some typeInt } .assign (intIdent name) (.intLit { type := some typeInt } v 0)

def intFunc (body : List Stmt) : FuncDef where
  name := "f"
  funcType := some (.func typeInt (.cons (some "x") typeInt .nil) false .none)
  params := [{ name := some "x", paramType := some typeInt }]
  body := .compound body

/-- `while (x) x = 0; return x;` -/
def loopFunc : FuncDef := intFunc
  [.while 1 1 (intIdent "x") (.expr (some (assignInt "x" 0))), .ret 1 1 (some (intIdent "x"))]

def loopCode : List IRInstr := (funcEnd .empty {} [fun _ => []] loopFunc).func.instrs

/-- The second time the loop is tested. -/
theorem temps_written_loop :
    irAccess.Path loopCode (irAccess.MeetsLabel loopCode
        (declaredAt .empty loopFunc.body (funcStart .empty {} [fun _ => []] loopFunc)))
      [3, 8, 7, 6, 5, 4, 3, 2, 1, 0] 4 ∧
    ∃ i, loopCode[4]? = some i ∧ i.reads ⊆ irAccess.Written loopCode [3, 8, 7, 6, 5, 4, 3, 2, 1, 0] := by
  have hbody : loopFunc.body.WellPlaced := by
    simp [loopFunc, intFunc, Stmt.WellPlaced, StmtsWellPlaced, Stmt.declares]
  have hplain : loopFunc.body.Unlabelled := by
    simp [loopFunc, intFunc, Stmt.Unlabelled, StmtsUnlabelled]
  have hpath : irAccess.Path loopCode (irAccess.MeetsLabel loopCode
      (declaredAt .empty loopFunc.body (funcStart .empty {} [fun _ => []] loopFunc)))
      [3, 8, 7, 6, 5, 4, 3, 2, 1, 0] 4 := by
    refine (Access.path_of_isPath (by decide +kernel)).mono fun trail pc pc' _ i j l _ _ _ _ => ?_
    rw [declaredAt_unlabelled hplain]
    exact Set.empty_subset _
  obtain ⟨i, hi⟩ := Option.isSome_iff_exists.mp
    (show loopCode[4]?.isSome = true by decide +kernel)
  exact ⟨hpath, i, hi, temps_written .empty [] loopFunc hbody _ _ i hpath hi⟩

/-- `switch (x) { int y; case 1: y = 1; return y; } return 0;` -/
def skippingFunc : FuncDef := intFunc
  [.switch 1 1 (intIdent "x") (.compound
    [.decl [.var { name := "y", declType := some typeInt }],
      .case 1 1 1 (.intLit { type := some typeInt } 1 0) (.expr (some (assignInt "y" 1))),
      .ret 1 1 (some (intIdent "y"))]),
    .ret 1 1 (some (.intLit { type := some typeInt } 0 0))]

def skippingCode : List IRInstr := (funcEnd .empty {} [fun _ => []] skippingFunc).func.instrs

/-- The dispatch to `case 1` leaves out the declaration, and `y = 1` reads the address of `y`. -/
theorem skipped_declaration :
    skippingFunc.body.WellPlaced ∧
    ¬ ∀ trail pc i, irAccess.Path skippingCode (fun _ _ _ => True) trail pc →
      skippingCode[pc]? = some i → i.reads ⊆ irAccess.Written skippingCode trail := by
  refine ⟨by simp [skippingFunc, intFunc, Stmt.WellPlaced, StmtsWellPlaced, Stmt.declares], ?_⟩
  intro h
  let trail := [9, 6, 5, 4, 3, 2, 1, 0]
  have hpath : irAccess.Path skippingCode (fun _ _ _ => True) trail 10 :=
    Access.path_of_isPath (by decide +kernel)
  have hstore : skippingCode[10]? = some
      { op := .store, dst := irvTemp 6 (typePointer typeInt .none), src1 := irvInt 1 typeInt } := by
    decide +kernel
  have hread := h trail 10 _ hpath hstore
  obtain ⟨q, hq, j, hj, hw⟩ := hread ⟨irvTemp 6 (typePointer typeInt .none), by simp [IRInstr.operands, IRInstr.usesDst], rfl⟩
  have hnone : ∀ q ∈ trail, skippingCode[q]?.all fun j =>
      j.usesDst || j.dst.kind ≠ .temp 6 := by decide +kernel
  have hq6 := hnone q hq
  rw [hj] at hq6
  simp [hw.1, hw.2] at hq6

end TinyC
