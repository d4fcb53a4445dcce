import TinyC.ControlFlow

/-!
# The lowering of structured statements
-/

namespace TinyC

/-- A new innermost scope hides nothing. -/
theorem lookup_push (sc : ScopeChain VarEntry) (x : String) :
    ScopeChain.lookup vtabBuckets sc.push x = sc.lookup vtabBuckets x := rfl

namespace Implements

variable {W V Env : Type} {Γ : TypeEnv} {F : IrGen} {M : IrMachine W V} {D : PrimSem W V Env}
  {S : Prim → Prop} (L : Implements Γ F M D S)

theorem stands_at {ρ : Env} {g g' : IrGen} {τ : ℕ → V} (h : L.stands ρ g τ)
    (hscope : g'.scope = g.scope) (hle : g.func.nextTemp ≤ g'.func.nextTemp) :
    L.stands ρ g' τ := L.stands_mono h (fun _ => by rw [hscope]) hle .refl

theorem stands_agree {ρ : Env} {g : IrGen} {τ τ' : ℕ → V} (h : L.stands ρ g τ)
    (hagree : AgreeBelow g.func.nextTemp τ τ') : L.stands ρ g τ' :=
  L.stands_mono h (fun _ => rfl) le_rfl hagree

/-- The targets of `break` and `continue` are placed, and `ft` is the type of the function. -/
structure Ready (F : IrGen) (ft : Option CType) (inLoop : Bool) (g : IrGen) (brk cnt : ℕ) : Prop where
  labels : 0 < g.func.nextLabel
  funcType : g.func.funcType = ft
  targets : inLoop = true → g.breakLabel ≠ 0 ∧ g.contLabel ≠ 0 ∧
    labelIndex F.func.instrs g.breakLabel = some brk ∧
    labelIndex F.func.instrs g.contLabel = some cnt

theorem Ready.later {ft : Option CType} {inLoop : Bool} {g g' : IrGen} {brk cnt : ℕ}
    (h : Ready F ft inLoop g brk cnt) (hlabels : g.func.nextLabel ≤ g'.func.nextLabel)
    (hft : g'.func.funcType = g.func.funcType) (hb : g'.breakLabel = g.breakLabel)
    (hc : g'.contLabel = g.contLabel) : Ready F ft inLoop g' brk cnt where
  labels := h.labels.trans_le hlabels
  funcType := hft.trans h.funcType
  targets hl := by
    rw [hb, hc]
    exact h.targets hl

/-- The code of `m` does what `ex` says; `after` gives the environment after it. -/
def Performs (ft : Option CType) (inLoop : Bool) (m : Gen Unit)
    (ex : Env → ℕ → PrimSem.Run W (Outcome V)) (after : Env → Env) : Prop :=
  ∀ (ρ : Env) (g : IrGen) (o : Observed W) (τ : ℕ → V) (n brk cnt : ℕ), L.stands ρ g τ →
    Ready F ft inLoop g brk cnt → Within (m g).2 F →
    Arrives Γ F M g.func.nextTemp (L.stands (after ρ) (m g).2) (m g).2.pos brk cnt n
      ⟨g.pos, o, τ⟩ (ex ρ n o)

variable {L}

/-- A test that jumps to `pe` if it fails. -/
theorem test_traced {cond : Gen IRValue} {ec : Env → PrimSem.Run W V} (sc : L.Computes cond ec)
    {l pe : ℕ} {ρ : Env} {g : IrGen} {o : Observed W} {τ : ℕ → V} (hst : L.stands ρ g τ)
    (hF : Within (emitJz (cond g).1 l (cond g).2).2 F)
    (hl : labelIndex F.func.instrs l = some pe) :
    ∃ k τ', Traced Γ F M k ⟨g.pos, o, τ⟩
        ⟨if D.isTrue (ec ρ o).1 then (emitJz (cond g).1 l (cond g).2).2.pos else pe,
          (ec ρ o).2, τ'⟩ ∧ AgreeBelow g.func.nextTemp τ τ' := by
  obtain ⟨k, τ', run, agree, -, val⟩ := sc ρ g o τ hst (hF.back (.emit (by simp)))
  have hval : M.isTrue (M.operand τ' (cond g).1) = D.isTrue (ec ρ o).1 := by rw [L.isTrue, val]
  cases hb : D.isTrue (ec ρ o).1 with
  | true => exact ⟨_, τ', run.trans (.jz_true _ _ hF (hval.trans hb)), agree⟩
  | false => exact ⟨_, τ', run.trans (.jz_false _ _ hF (hval.trans hb) hl), agree⟩

variable {ft : Option CType} {inLoop : Bool} {cond : Gen IRValue} {ec : Env → PrimSem.Run W V} {body : Gen Unit}
  {eb : Env → ℕ → PrimSem.Run W (Outcome V)} {after : Env → Env}
  (hnodup : (labelsOf F.func.instrs).Nodup)

include hnodup in
theorem performs_genWhile (hc : Emits cond) (sc : L.Computes cond ec) (hb : Places [] body)
    (hbs : Keeps IrGen.scope body) (sb : L.Performs ft true body eb after) :
    L.Performs ft inLoop (genWhile cond body)
      (fun ρ n => PrimSem.execLoop (do return D.isTrue (← ec ρ)) (eb ρ) (return) n) id := by
  intro ρ g o τ n brk cnt hst hready hF
  let t := g.func.nextLabel
  let g₁ := (setTargets (t + 2) t (newLabel (newLabel (newLabel g).2).2).2).2
  let gt := (emitLabel t g₁).2
  let c := cond gt
  let gz := (emitJz c.1 (t + 2) c.2).2
  let gb := (emitLabel (t + 1) gz).2
  let B := (body gb).2
  let gj := (emitJmp t B).2
  have hend : Within (emitLabel (t + 2) gj).2 F := ⟨hF.code, hF.strConsts⟩
  have hgj : Within gj F := hend.back (.emitLabel _)
  have hB : Within B F := hgj.back (.emitJmp _)
  have hgb : Within gb F := hB.back hb
  have hgz : Within gz F := hgb.back (.emitLabel _)
  have hcond : Within c.2 F := hgz.back (.emit (by simp))
  have hgt : Within gt F := hcond.back hc.places
  have topAt : labelIndex F.func.instrs t = some g₁.pos := hgt.placed hnodup
  have endAt : labelIndex F.func.instrs (t + 2 : ℕ) = some gj.pos := hend.placed hnodup
  have htemps : g.func.nextTemp ≤ c.2.func.nextTemp := (hc gt).temps
  have htemps' : c.2.func.nextTemp ≤ B.func.nextTemp := (hb.grows gb).temps
  have hscope : gb.scope = g.scope := (hc gt).scope
  have hscope' : B.scope = g.scope := (hbs gb).trans hscope
  have hbreak : gb.breakLabel = t + 2 := (hc gt).breakLabel
  have hcont : gb.contLabel = t := (hc gt).contLabel
  have hlabels : 0 < gb.func.nextLabel := by
    have h : t + 3 ≤ gb.func.nextLabel := (hc gt).labels
    omega
  have hready' : Ready F ft true gb gj.pos g₁.pos :=
    ⟨hlabels, (hc gt).funcType.trans hready.funcType, fun _ => by
      rw [hbreak, hcont]
      exact ⟨by omega, hready.labels.ne', endAt, topAt⟩⟩
  have htest : ∀ o τ, L.stands ρ g τ → ∃ k τ', Traced Γ F M (k + 1) ⟨g₁.pos, o, τ⟩
      ⟨if D.isTrue (ec ρ o).1 then gz.pos else gj.pos, (ec ρ o).2, τ'⟩ ∧
        AgreeBelow g.func.nextTemp τ τ' := by
    intro o τ hτ
    have hst' : L.stands ρ gt τ := L.stands_at hτ rfl le_rfl
    obtain ⟨k, τ', run, agree⟩ := test_traced sc hst' hgz endAt (o := o)
    have hrun := (Traced.label o τ hgt).trans run
    rw [Nat.add_comm] at hrun
    exact ⟨k, τ', hrun, agree⟩
  have hbody : ∀ m o τ, L.stands ρ g τ → Arrives Γ F M g.func.nextTemp (fun _ => True) B.pos
      gj.pos g₁.pos m ⟨gz.pos, o, τ⟩ (eb ρ m o) := by
    intro m o τ hτ
    have h := sb ρ gb o τ m gj.pos g₁.pos (L.stands_at hτ hscope htemps) hready' hB
    exact ((h.after (.label o τ hgb) .refl htemps).less (Nat.le_add_right m 1)).weaken
      fun _ _ _ => trivial
  have hround : ∀ p, p = B.pos ∨ p = g₁.pos → ∀ o τ, L.stands ρ g τ → ∃ k τ',
      Traced Γ F M k ⟨p, o, τ⟩ ⟨g₁.pos, o, τ'⟩ ∧ AgreeBelow g.func.nextTemp τ τ' := by
    rintro p (rfl | rfl) o τ -
    · exact ⟨1, τ, .jmp _ _ hgj topAt, .refl⟩
    · exact ⟨0, τ, .refl _, .refl⟩
  refine (arrives_execLoop brk cnt L.stands_agree htest hbody hround n o τ hst).andThen
    fun o τ' hagree _ => ⟨1, .label _ _ hend, ?_⟩
  exact L.stands_at (L.stands_agree hst hagree) hscope' (htemps.trans htemps')

include hnodup in
theorem performs_genDoWhile (hc : Emits cond) (sc : L.Computes cond ec) (hb : Places [] body)
    (hbs : Keeps IrGen.scope body) (sb : L.Performs ft true body eb after) :
    L.Performs ft inLoop (genDoWhile cond body)
      (fun ρ n => PrimSem.execDoLoop (do return D.isTrue (← ec ρ)) (eb ρ) n) id := by
  intro ρ g o τ n brk cnt hst hready hF
  let t := g.func.nextLabel
  let g₁ := (setTargets (t + 2) (t + 1) (newLabel (newLabel (newLabel g).2).2).2).2
  let gb := (emitLabel t g₁).2
  let B := (body gb).2
  let gc := (emitLabel (t + 1) B).2
  let c := cond gc
  let gz := (emitJnz c.1 t c.2).2
  have hend : Within (emitLabel (t + 2) gz).2 F := ⟨hF.code, hF.strConsts⟩
  have hgz : Within gz F := hend.back (.emitLabel _)
  have hcond : Within c.2 F := hgz.back (.emit (by simp))
  have hgc : Within gc F := hcond.back hc.places
  have hB : Within B F := hgc.back (.emitLabel _)
  have hgb : Within gb F := hB.back hb
  have topAt : labelIndex F.func.instrs t = some g₁.pos := hgb.placed hnodup
  have contAt : labelIndex F.func.instrs (t + 1 : ℕ) = some B.pos := hgc.placed hnodup
  have endAt : labelIndex F.func.instrs (t + 2 : ℕ) = some gz.pos := hend.placed hnodup
  have htemps : g.func.nextTemp ≤ B.func.nextTemp := (hb.grows gb).temps
  have htemps' : B.func.nextTemp ≤ c.2.func.nextTemp := (hc gc).temps
  have hscope : B.scope = g.scope := hbs gb
  have hscope' : c.2.scope = g.scope := (hc gc).scope.trans hscope
  have hready' : Ready F ft true gb gz.pos B.pos :=
    ⟨Nat.succ_pos _, hready.funcType, fun _ =>
      ⟨Nat.succ_ne_zero _, Nat.succ_ne_zero _, endAt, contAt⟩⟩
  have hbody : ∀ m o τ, L.stands ρ g τ → Arrives Γ F M g.func.nextTemp (fun _ => True) B.pos
      gz.pos B.pos m ⟨gb.pos, o, τ⟩ (eb ρ m o) := by
    intro m o τ hτ
    have h := sb ρ gb o τ m gz.pos B.pos (L.stands_at hτ rfl le_rfl) hready' hB
    exact h.weaken fun _ _ _ => trivial
  have htest : ∀ o τ, L.stands ρ g τ → ∃ k τ', Traced Γ F M k ⟨B.pos, o, τ⟩
      ⟨if D.isTrue (ec ρ o).1 then g₁.pos else gz.pos, (ec ρ o).2, τ'⟩ ∧
        AgreeBelow g.func.nextTemp τ τ' := by
    intro o τ hτ
    have hst' : L.stands ρ gc τ := L.stands_at hτ hscope htemps
    obtain ⟨k, τ', run, agree, -, val⟩ := sc ρ gc o τ hst' hcond
    have hval : M.isTrue (M.operand τ' c.1) = D.isTrue (ec ρ o).1 := by rw [L.isTrue, val]
    have hrun := (Traced.label o τ hgc).trans run
    cases hv : D.isTrue (ec ρ o).1 with
    | true => exact ⟨_, τ', hrun.trans (.jnz_true _ _ hgz (hval.trans hv) topAt), agree.mono htemps⟩
    | false => exact ⟨_, τ', hrun.trans (.jnz_false _ _ hgz (hval.trans hv)), agree.mono htemps⟩
  refine (arrives_execDoLoop brk cnt L.stands_agree (fun o τ => .label o τ hgb) hbody htest n o τ
    hst).andThen fun o τ' hagree _ => ⟨1, .label _ _ hend, ?_⟩
  exact L.stands_at (L.stands_agree hst hagree) hscope' (htemps.trans htemps')

include hnodup in
theorem loopTest_traced {c : Option Expr} (hc : ∀ x ∈ c, ComposedOf S x) {l pe : ℕ} {ρ : Env}
    {g : IrGen} {o : Observed W} {τ : ℕ → V} (hst : L.stands ρ g τ)
    (hF : Within (genLoopTest (c.map (genExpr Γ)) l g).2 F)
    (hl : labelIndex F.func.instrs l = some pe) :
    ∃ k τ', Traced Γ F M k ⟨g.pos, o, τ⟩
        ⟨if (D.evalTest c ρ o).1 then (genLoopTest (c.map (genExpr Γ)) l g).2.pos else pe,
          (D.evalTest c ρ o).2, τ'⟩ ∧ AgreeBelow g.func.nextTemp τ τ' := by
  cases c with
  | none => exact ⟨0, τ, .refl _, .refl⟩
  | some c => exact test_traced (computes_genExpr hnodup (hc c rfl)) hst hF hl

include hnodup in
theorem effect_traced {e : Option Expr} (he : ∀ x ∈ e, ComposedOf S x) {ρ : Env} {g : IrGen}
    {o : Observed W} {τ : ℕ → V} (hst : L.stands ρ g τ)
    (hF : Within (genEffect (e.map (genExpr Γ)) g).2 F) :
    ∃ k τ', Traced Γ F M k ⟨g.pos, o, τ⟩
        ⟨(genEffect (e.map (genExpr Γ)) g).2.pos, (D.evalEffect e ρ o).2, τ'⟩ ∧
      AgreeBelow g.func.nextTemp τ τ' := by
  cases e with
  | none => exact ⟨0, τ, .refl _, .refl⟩
  | some e =>
    obtain ⟨k, τ', run, agree, -, -⟩ := computes_genExpr hnodup (he e rfl) ρ g o τ hst hF
    exact ⟨k, τ', run, agree⟩

include hnodup in
theorem performs_genFor {init : Gen Unit} {ei : Env → ℕ → PrimSem.Run W (Outcome V)}
    {after' : Env → Env} {c incr : Option Expr} (hi : Places [] init)
    (hik : Keeps IrGen.context init)
    (si : L.Performs ft false init ei after') (hc : ∀ x ∈ c, ComposedOf S x)
    (hn : ∀ x ∈ incr, ComposedOf S x) (hb : Places [] body) (hbs : Keeps IrGen.scope body)
    (sb : L.Performs ft true body eb after) :
    L.Performs ft inLoop (genFor init (c.map (genExpr Γ)) (incr.map (genExpr Γ)) body)
      (fun ρ n => do
        let out ← ei ρ n
        PrimSem.afterStmt (PrimSem.execLoop (D.evalTest c (after' ρ)) (eb (after' ρ))
          (D.evalEffect incr (after' ρ)) n) out) id := by
  intro ρ g o τ n brk cnt hst hready hF
  let t := g.func.nextLabel
  let g₁ := (setTargets (t + 3) (t + 2) (newLabel (newLabel (newLabel (newLabel g).2).2).2).2).2
  let gp := (pushScope g₁).2
  let I := (init gp).2
  let gt := (emitLabel t I).2
  let T := (genLoopTest (c.map (genExpr Γ)) (t + 3) gt).2
  let gb := (emitLabel (t + 1) T).2
  let B := (body gb).2
  let gi := (emitLabel (t + 2) B).2
  let E := (genEffect (incr.map (genExpr Γ)) gi).2
  let gj := (emitJmp t E).2
  have hend : Within (emitLabel (t + 3) gj).2 F := ⟨hF.code, hF.strConsts⟩
  have hgj : Within gj F := hend.back (.emitLabel _)
  have hE : Within E F := hgj.back (.emitJmp _)
  have hgi : Within gi F := hE.back (Emits.genEffect Γ incr).places
  have hB : Within B F := hgi.back (.emitLabel _)
  have hgb : Within gb F := hB.back hb
  have hT : Within T F := hgb.back (.emitLabel _)
  have hgt : Within gt F := hT.back (Emits.genLoopTest Γ c _).places
  have hI : Within I F := hgt.back (.emitLabel _)
  have topAt : labelIndex F.func.instrs t = some I.pos := hgt.placed hnodup
  have contAt : labelIndex F.func.instrs (t + 2 : ℕ) = some B.pos := hgi.placed hnodup
  have endAt : labelIndex F.func.instrs (t + 3 : ℕ) = some gj.pos := hend.placed hnodup
  have hinit : g.func.nextTemp ≤ I.func.nextTemp := (hi.grows gp).temps
  have htest : I.func.nextTemp ≤ T.func.nextTemp := (Emits.genLoopTest Γ c _ gt).temps
  have hbody : T.func.nextTemp ≤ B.func.nextTemp := (hb.grows gb).temps
  have hscope : T.scope = I.scope := (Emits.genLoopTest Γ c _ gt).scope
  have hscope' : B.scope = I.scope := (hbs gb).trans hscope
  have hcontext : I.context = gp.context := hik gp
  have hbreak : gb.breakLabel = t + 3 :=
    (Emits.genLoopTest Γ c _ gt).breakLabel.trans (congrArg Context.breakLabel hcontext)
  have hcont : gb.contLabel = t + 2 :=
    (Emits.genLoopTest Γ c _ gt).contLabel.trans (congrArg Context.contLabel hcontext)
  have hlabels : 0 < gb.func.nextLabel := by
    have h₁ : t + 4 ≤ I.func.nextLabel := (hi.grows gp).labels
    have h₂ : I.func.nextLabel ≤ gb.func.nextLabel := (Emits.genLoopTest Γ c _ gt).labels
    omega
  have hfuncType : gb.func.funcType = g.func.funcType :=
    (Emits.genLoopTest Γ c _ gt).funcType.trans (hi.grows gp).funcType
  have hready' : Ready F ft true gb gj.pos B.pos :=
    ⟨hlabels, hfuncType.trans hready.funcType, fun _ => by
      rw [hbreak, hcont]
      exact ⟨Nat.succ_ne_zero _, Nat.succ_ne_zero _, endAt, contAt⟩⟩
  have hreadyInit : Ready F ft false gp brk cnt :=
    ⟨Nat.succ_pos _, hready.funcType, fun h => by simp at h⟩
  have hstp : L.stands ρ gp τ := L.stands_mono hst (lookup_push _) le_rfl .refl
  have hfirst := si ρ gp o τ n brk cnt hstp hreadyInit hI
  refine (hfirst.bind (k := PrimSem.execLoop (D.evalTest c (after' ρ)) (eb (after' ρ))
    (D.evalEffect incr (after' ρ)) n) hinit fun τ₁ hagree hτ₁ => ?_)
  have hloopTest : ∀ o τ, L.stands (after' ρ) I τ → ∃ k τ', Traced Γ F M (k + 1) ⟨I.pos, o, τ⟩
      ⟨if (D.evalTest c (after' ρ) o).1 then T.pos else gj.pos, (D.evalTest c (after' ρ) o).2, τ'⟩ ∧
        AgreeBelow I.func.nextTemp τ τ' := by
    intro o τ hτ
    have hst' : L.stands (after' ρ) gt τ := L.stands_at hτ rfl le_rfl
    obtain ⟨k, τ', run, agree⟩ := loopTest_traced hnodup hc hst' hT endAt (o := o)
    have hrun := (Traced.label o τ hgt).trans run
    rw [Nat.add_comm] at hrun
    exact ⟨k, τ', hrun, agree⟩
  have hloopBody : ∀ m o τ, L.stands (after' ρ) I τ → Arrives Γ F M I.func.nextTemp (fun _ => True)
      B.pos gj.pos B.pos m ⟨T.pos, o, τ⟩ (eb (after' ρ) m o) := by
    intro m o τ hτ
    have h := sb (after' ρ) gb o τ m gj.pos B.pos (L.stands_at hτ hscope htest) hready' hB
    exact ((h.after (.label o τ hgb) .refl htest).less (Nat.le_add_right m 1)).weaken
      fun _ _ _ => trivial
  have hround : ∀ p, p = B.pos ∨ p = B.pos → ∀ o τ, L.stands (after' ρ) I τ → ∃ k τ',
      Traced Γ F M k ⟨p, o, τ⟩ ⟨I.pos, (D.evalEffect incr (after' ρ) o).2, τ'⟩ ∧
        AgreeBelow I.func.nextTemp τ τ' := by
    rintro p hp o τ hτ
    obtain rfl := or_self_iff.mp hp
    have hst' : L.stands (after' ρ) gi τ := L.stands_at hτ hscope' (htest.trans hbody)
    obtain ⟨k, τ', run, agree⟩ := effect_traced hnodup hn hst' hE (o := o)
    exact ⟨_, τ', ((Traced.label _ _ hgi).trans run).trans (.jmp _ _ hgj topAt),
      agree.mono (htest.trans hbody)⟩
  refine (arrives_execLoop brk cnt L.stands_agree hloopTest hloopBody hround n _ τ₁ hτ₁).andThen
    fun o' τ' hagree' _ => ⟨1, .label _ _ hend, ?_⟩
  have heffect : B.func.nextTemp ≤ E.func.nextTemp := (Emits.genEffect Γ incr gi).temps
  have hle : g.func.nextTemp ≤ E.func.nextTemp := by omega
  exact L.stands_at (L.stands_agree hst (hagree.trans hagree' hinit)) rfl hle

/-! ### Branches and sequences -/

include hnodup in
theorem performs_genIf_none (hc : Emits cond) (sc : L.Computes cond ec) (hb : Places [] body)
    (hbs : Keeps IrGen.scope body) (sb : L.Performs ft inLoop body eb after) :
    L.Performs ft inLoop (genIf cond body none)
      (fun ρ n => do if D.isTrue (← ec ρ) then eb ρ n else return .normal) id := by
  intro ρ g o τ n brk cnt hst hready hF
  let t := g.func.nextLabel
  let g₁ := (newLabel (newLabel g).2).2
  let c := cond g₁
  let gz := (emitJz c.1 t c.2).2
  let B := (body gz).2
  change Within (emitLabel t B).2 F at hF
  have hB : Within B F := hF.back (.emitLabel _)
  have hgz : Within gz F := hB.back hb
  have elseAt : labelIndex F.func.instrs t = some B.pos := hF.placed hnodup
  have htemps : g.func.nextTemp ≤ c.2.func.nextTemp := (hc g₁).temps
  have htemps' : c.2.func.nextTemp ≤ B.func.nextTemp := (hb.grows gz).temps
  have hscope : gz.scope = g.scope := (hc g₁).scope
  have hscope' : B.scope = g.scope := (hbs gz).trans hscope
  have hst₁ : L.stands ρ g₁ τ := L.stands_at hst rfl le_rfl
  obtain ⟨k, τ₁, run, agree⟩ := test_traced sc hst₁ hgz elseAt (o := o)
  have hst₂ : L.stands ρ gz τ₁ := L.stands_at (L.stands_agree hst agree) hscope htemps
  have hlast : ∀ (o : Observed W) (τ' : ℕ → V), AgreeBelow g.func.nextTemp τ τ' →
      ∃ k, Traced Γ F M k ⟨B.pos, o, τ'⟩ ⟨(emitLabel t B).2.pos, o, τ'⟩ ∧
        L.stands ρ (emitLabel t B).2 τ' := fun o τ' hagree =>
    ⟨1, .label _ _ hF,
      L.stands_at (L.stands_agree hst hagree) hscope' (htemps.trans htemps')⟩
  change Arrives Γ F M _ (L.stands ρ (emitLabel t B).2) (emitLabel t B).2.pos _ _ _ _
    ((if D.isTrue (ec ρ o).1 then eb ρ n else return .normal : PrimSem.Run W (Outcome V))
      (ec ρ o).2)
  cases hv : D.isTrue (ec ρ o).1 with
  | true =>
    rw [hv] at run
    have hready' : Ready F ft inLoop gz brk cnt :=
      hready.later (le_trans (Nat.le_add_right _ 2) (hc g₁).labels) (hc g₁).funcType
        (hc g₁).breakLabel (hc g₁).contLabel
    have h := sb ρ gz (ec ρ o).2 τ₁ n brk cnt hst₂ hready' hB
    exact ((h.after run agree htemps).less (Nat.le_add_right _ _)).andThen
      fun o τ' hagree _ => hlast o τ' hagree
  | false =>
    rw [hv] at run
    obtain ⟨k', run', hst'⟩ := hlast (ec ρ o).2 τ₁ agree
    exact ⟨_, τ₁, run.trans run', agree, hst'⟩

include hnodup in
theorem performs_genIf_some {elseStmt : Gen Unit} {ee : Env → ℕ → PrimSem.Run W (Outcome V)}
    {after' : Env → Env} (hc : Emits cond) (sc : L.Computes cond ec) (hb : Places [] body)
    (hbk : Keeps IrGen.context body) (hbs : Keeps IrGen.scope body)
    (sb : L.Performs ft inLoop body eb after) (he : Places [] elseStmt)
    (hes : Keeps IrGen.scope elseStmt) (se : L.Performs ft inLoop elseStmt ee after') :
    L.Performs ft inLoop (genIf cond body (some elseStmt))
      (fun ρ n => do if D.isTrue (← ec ρ) then eb ρ n else ee ρ n) id := by
  intro ρ g o τ n brk cnt hst hready hF
  let t := g.func.nextLabel
  let g₁ := (newLabel (newLabel g).2).2
  let c := cond g₁
  let gz := (emitJz c.1 t c.2).2
  let B := (body gz).2
  let gj := (emitJmp (t + 1) B).2
  let ge := (emitLabel t gj).2
  let E := (elseStmt ge).2
  change Within (emitLabel (t + 1) E).2 F at hF
  have hE : Within E F := hF.back (.emitLabel _)
  have hge : Within ge F := hE.back he
  have hgj : Within gj F := hge.back (.emitLabel _)
  have hB : Within B F := hgj.back (.emitJmp _)
  have hgz : Within gz F := hB.back hb
  have elseAt : labelIndex F.func.instrs t = some gj.pos := hge.placed hnodup
  have endAt : labelIndex F.func.instrs (t + 1 : ℕ) = some E.pos := hF.placed hnodup
  have htemps : g.func.nextTemp ≤ c.2.func.nextTemp := (hc g₁).temps
  have htemps' : c.2.func.nextTemp ≤ B.func.nextTemp := (hb.grows gz).temps
  have htemps'' : B.func.nextTemp ≤ E.func.nextTemp := (he.grows ge).temps
  have hscope : gz.scope = g.scope := (hc g₁).scope
  have hscope' : B.scope = g.scope := (hbs gz).trans hscope
  have hscope'' : E.scope = g.scope := (hes ge).trans hscope'
  have hready₁ : Ready F ft inLoop gz brk cnt :=
    hready.later (le_trans (Nat.le_add_right _ 2) (hc g₁).labels) (hc g₁).funcType
      (hc g₁).breakLabel (hc g₁).contLabel
  have hready₂ : Ready F ft inLoop ge brk cnt :=
    hready₁.later (hb.grows gz).labels (hb.grows gz).funcType
      (congrArg Context.breakLabel (hbk gz)) (congrArg Context.contLabel (hbk gz))
  have hst₁ : L.stands ρ g₁ τ := L.stands_at hst rfl le_rfl
  obtain ⟨k, τ₁, run, agree⟩ := test_traced sc hst₁ hgz elseAt (o := o)
  have hst₂ := L.stands_agree hst agree
  have hlast : ∀ (o : Observed W) (τ' : ℕ → V),
      Traced Γ F M 1 ⟨E.pos, o, τ'⟩ ⟨(emitLabel (t + 1) E).2.pos, o, τ'⟩ :=
    fun o τ' => .label _ _ hF
  have hstands : ∀ τ', AgreeBelow g.func.nextTemp τ τ' →
      L.stands ρ (emitLabel (t + 1) E).2 τ' := fun τ' hagree =>
    L.stands_at (L.stands_agree hst hagree) hscope'' (htemps.trans (htemps'.trans htemps''))
  change Arrives Γ F M _ (L.stands ρ (emitLabel (t + 1) E).2) (emitLabel (t + 1) E).2.pos _ _ _ _
    ((if D.isTrue (ec ρ o).1 then eb ρ n else ee ρ n) (ec ρ o).2)
  cases hv : D.isTrue (ec ρ o).1 with
  | true =>
    rw [hv] at run
    have hgzst : L.stands ρ gz τ₁ := L.stands_at hst₂ hscope htemps
    have h := sb ρ gz (ec ρ o).2 τ₁ n brk cnt hgzst hready₁ hB
    exact ((h.after run agree htemps).less (Nat.le_add_right _ _)).andThen fun o τ' hagree _ =>
      ⟨_, (Traced.jmp _ _ hgj endAt).trans (hlast o τ'), hstands τ' hagree⟩
  | false =>
    rw [hv] at run
    have hgest : L.stands ρ ge τ₁ := L.stands_at hst₂ hscope' (htemps.trans htemps')
    have h := se ρ ge (ec ρ o).2 τ₁ n brk cnt hgest hready₂ hE
    exact ((h.after (run.trans (.label _ _ hge)) agree (htemps.trans htemps')).less
      (Nat.le_add_right _ _)).andThen fun o τ' hagree _ => ⟨_, hlast o τ', hstands τ' hagree⟩

theorem performs_pure : L.Performs ft inLoop (Pure.pure ()) (fun _ _ => return .normal) id :=
  fun _ _ _ τ _ _ _ hst _ _ => ⟨0, τ, .refl _, .refl, hst⟩

/-- One statement after another. -/
theorem performs_seq {m k : Gen Unit} {em ek : Env → ℕ → PrimSem.Run W (Outcome V)}
    {am ak : Env → Env} (hm : Places [] m) (hmk : Keeps IrGen.context m) (hk : Places [] k)
    (sm : L.Performs ft inLoop m em am) (sk : L.Performs ft inLoop k ek ak) :
    L.Performs ft inLoop (m >>= fun _ => k)
      (fun ρ n => do
        let out ← em ρ n
        PrimSem.afterStmt (ek (am ρ) n) out) (fun ρ => ak (am ρ)) := by
  intro ρ g o τ n brk cnt hst hready hF
  have hkF : Within (k (m g).2).2 F := hF
  have hmF : Within (m g).2 F := hkF.back hk
  have htemps : g.func.nextTemp ≤ (m g).2.func.nextTemp := (hm.grows g).temps
  have hready' : Ready F ft inLoop (m g).2 brk cnt :=
    hready.later (hm.grows g).labels (hm.grows g).funcType
      (congrArg Context.breakLabel (hmk g)) (congrArg Context.contLabel (hmk g))
  refine (sm ρ g o τ n brk cnt hst hready hmF).bind (k := ek (am ρ) n) htemps
    fun τ' _ hst' => ?_
  exact sk (am ρ) (m g).2 _ τ' n brk cnt hst' hready' hkF

theorem performs_withScope {m : Gen Unit} {ex : Env → ℕ → PrimSem.Run W (Outcome V)}
    {after : Env → Env} (hm : Places [] m) (sm : L.Performs ft inLoop m ex after) :
    L.Performs ft inLoop (withScope m) ex id := by
  intro ρ g o τ n brk cnt hst hready hF
  have hmF : Within (m (pushScope g).2).2 F := ⟨hF.code, hF.strConsts⟩
  have hst' : L.stands ρ (pushScope g).2 τ := L.stands_mono hst (lookup_push _) le_rfl .refl
  have h := sm ρ (pushScope g).2 o τ n brk cnt hst' (hready.later le_rfl rfl rfl rfl) hmF
  have htemps : g.func.nextTemp ≤ (m (pushScope g).2).2.func.nextTemp :=
    (hm.grows (pushScope g).2).temps
  exact h.weaken fun τ' hagree _ => L.stands_at (L.stands_agree hst hagree) rfl htemps

/-! ### Single statements -/

include hnodup in
theorem performs_genEffect {e : Option Expr} (he : ∀ x ∈ e, ComposedOf S x) :
    L.Performs ft inLoop (genEffect (e.map (genExpr Γ)))
      (fun ρ _ => do
        D.evalEffect e ρ
        return .normal) id := by
  intro ρ g o τ n brk cnt hst _ hF
  obtain ⟨k, τ', run, agree⟩ := effect_traced hnodup he hst hF (o := o)
  exact ⟨k, τ', run, agree, L.stands_after (Emits.genEffect Γ e) hst agree⟩

theorem performs_genDecls {ds : List Decl} (hds : S (.decls ds)) :
    L.Performs ft inLoop (genDecls Γ ds)
      (fun ρ _ => do
        let _ ← D.evalPrim (.decls ds) ρ
        return .normal) (D.declare ds) := by
  intro ρ g o τ n brk cnt hst _ hF
  obtain ⟨k, τ', hsteps, hagree, hst'⟩ := L.run o.world hds hst hF
  have hrun : Traced Γ F M (k + 0) ⟨g.pos, o, τ⟩
      ⟨(genDecls Γ ds g).2.pos, (D.evalPrim (.decls ds) ρ o).2, τ'⟩ :=
    .prim (c := ⟨g.pos, o, τ⟩) (p := .decls ds) rfl hF hsteps rfl (.refl _)
  exact ⟨_, τ', hrun, hagree, hst'⟩

/-- The returned expression, an aggregate by its address. -/
def genReturned (Γ : TypeEnv) (agg : Bool) (e : Expr) : Gen IRValue :=
  if agg then genAggregateExprAddr Γ e else genExpr Γ e

theorem aggAddr_composite {e : Expr} (h : PrimSem.isComposite e = true) :
    genAggregateExprAddr Γ e = genExpr Γ e := by
  cases e with
  | binop => rfl
  | ternary => rfl
  | _ => simp [PrimSem.isComposite] at h

include hnodup in
theorem computes_genReturned {agg : Expr → Bool} {e : Expr} (he : ReturnedOf S agg e) :
    L.Computes (genReturned Γ (agg e) e) (D.evalReturned agg e) := by
  unfold ReturnedOf at he
  unfold genReturned
  have heval : D.evalReturned agg e =
      if agg e && !PrimSem.isComposite e then D.evalPrim (.aggregate e) else D.evalExpr e := by
    funext ρ
    rw [PrimSem.evalReturned]
    split <;> rfl
  rw [heval]
  cases hagg : agg e with
  | false =>
    rw [hagg] at he
    exact computes_genExpr hnodup he
  | true =>
    rw [hagg] at he
    cases hcomp : PrimSem.isComposite e with
    | false =>
      rw [hcomp] at he
      exact computes_prim (p := .aggregate e) he (by simp)
    | true =>
      rw [hcomp] at he
      simp only [aggAddr_composite hcomp]
      exact computes_genExpr hnodup he

include hnodup in
theorem performs_genReturn {e : Option Expr} (he : ∀ x ∈ e, ReturnedOf S (returnsAggregate ft) x) :
    L.Performs ft inLoop (genReturn (e.map fun e => (e.typeOrInt, genNode Γ e)))
      (fun ρ _ => match e with
        | some e => do return .ret (some (← D.evalReturned (returnsAggregate ft) e ρ))
        | none => return .ret none) id := by
  intro ρ g o τ n brk cnt hst hready hF
  cases e with
  | none =>
    have hi : F.func.instrs[g.pos]? = some { op := .ret } := Within.emitted hF
    exact ⟨0, g.pos, τ, .refl _, by simp [IrMachine.exit, hi, irvNone]⟩
  | some e =>
    obtain rfl := hready.funcType
    let v := genReturned Γ (returnsAggregate g.func.funcType e) e g
    have hF' : Within (emit { op := .ret, src1 := v.1 } v.2).2 F := hF
    obtain ⟨k, τ', run, -, hkind, hval⟩ :=
      computes_genReturned hnodup (he e rfl) ρ g o τ hst (hF'.back (.emit (by simp)))
    have hexit : M.exit F.func.instrs
        ⟨v.2.pos, (D.evalReturned (returnsAggregate g.func.funcType) e ρ o).2.world, τ'⟩ =
        some (.ret (some (M.operand τ' v.1))) := IrMachine.exit_of_ret (Within.emitted hF') hkind
    rw [hval] at hexit
    exact ⟨k, v.2.pos, τ', run, hexit⟩

theorem performs_emitBreak : L.Performs ft true emitBreak (fun _ _ => return .brk) id := by
  intro ρ g o τ n brk cnt _ hready hF
  obtain ⟨hb, -, hat, -⟩ := hready.targets rfl
  have hgen : emitBreak g = emitJmp g.breakLabel g :=
    congrFun (if_neg hb : (if g.breakLabel = 0 then return else emitJmp g.breakLabel) = _) g
  rw [hgen] at hF
  exact ⟨1, τ, .jmp _ _ hF hat, .refl⟩

theorem performs_emitContinue : L.Performs ft true emitContinue (fun _ _ => return .cnt) id := by
  intro ρ g o τ n brk cnt _ hready hF
  obtain ⟨-, hc, -, hat⟩ := hready.targets rfl
  have hgen : emitContinue g = emitJmp g.contLabel g :=
    congrFun (if_neg hc : (if g.contLabel = 0 then return else emitJmp g.contLabel) = _) g
  rw [hgen] at hF
  exact ⟨1, τ, .jmp _ _ hF hat, .refl⟩

/-! ### Bodies -/

/-- Only a declaration changes the scope. -/
theorem genStmt_scope {agg : Expr → Bool} {l item : Bool} {s : Stmt}
    (h : Structured S agg l item s) (hs : ∀ ds, s ≠ .decl ds) :
    Keeps IrGen.scope (genStmt Γ s) := by
  induction h with
  | decl _ => exact absurd rfl (hs _)
  | compound _ _ => exact fun _ => rfl
  | expr _ => exact .genEffect stable_scope Γ _
  | @ifElse l i ln cl c t e _ ht he iht ihe =>
    have hne : ∀ {s}, Structured S agg l false s → ∀ ds, s ≠ .decl ds := by
      rintro s hs ds rfl
      cases hs
    refine .genIf stable_scope Γ c (iht (hne ht)) fun m hm => ?_
    cases e with
    | none => simp [genStmtOpt] at hm
    | some s =>
      obtain rfl : genStmt Γ s = m := by simpa [genStmtOpt] using hm
      exact ihe s rfl (hne (he s rfl))
  | @«while» l i ln cl c b _ hb ihb =>
    have hbody := ihb (by rintro ds rfl; cases hb)
    exact .keepTargets_of (fun _ _ _ => rfl) <|
      .bind (.whileHead stable_scope (fun _ _ _ => rfl) Γ c) fun _ => .bind hbody fun _ =>
        .bind (.emit stable_scope (by simp)) fun _ => .emitLabel stable_scope _
  | @doWhile l i ln cl c b _ hb ihb =>
    have hbody := ihb (by rintro ds rfl; cases hb)
    exact .keepTargets_of (fun _ _ _ => rfl) <|
      .bind (.doHead stable_scope fun _ _ _ => rfl) fun _ => .bind hbody fun _ =>
        .bind (.emitLabel stable_scope _) fun _ => .bind (.genExpr stable_scope Γ c) fun _ =>
          .bind (.emit stable_scope (by simp)) fun _ => .emitLabel stable_scope _
  | «for» _ _ _ _ _ _ => exact fun _ => rfl
  | ret _ => exact .genReturn stable_scope Γ _
  | «break» => exact .emitBreak stable_scope
  | «continue» => exact .emitContinue stable_scope

theorem performs_genStmts {agg : Expr → Bool} {l : Bool} {ss : List Stmt}
    (h : ∀ s ∈ ss, L.Performs ft l (genStmt Γ s) (D.exec agg s) (D.envAfter s)) :
    ∃ after, L.Performs ft l (genStmts Γ ss) (D.execs agg ss) after := by
  induction ss with
  | nil => exact ⟨id, performs_pure⟩
  | cons s ss ih =>
    obtain ⟨after, hss⟩ := ih fun s' hs' => h s' (List.mem_cons_of_mem s hs')
    exact ⟨_, performs_seq (genStmt_places Γ s) (genStmt_context Γ s) (genStmts_places Γ ss)
      (h s List.mem_cons_self) hss⟩

include hnodup in
/-- The code of a structured statement does what the statement means. -/
theorem performs_genStmt {l item : Bool} {s : Stmt} (h : Structured S (returnsAggregate ft) l item s) :
    L.Performs ft l (genStmt Γ s) (D.exec (returnsAggregate ft) s) (D.envAfter s) := by
  have hscope : ∀ {l : Bool} {s : Stmt}, Structured S (returnsAggregate ft) l false s →
      Keeps IrGen.scope (genStmt Γ s) := fun hs =>
    genStmt_scope hs (by rintro ds rfl; cases hs)
  induction h with
  | compound _ ih =>
    obtain ⟨after, hss⟩ := performs_genStmts ih
    exact performs_withScope (genStmts_places Γ _) hss
  | expr he => exact performs_genEffect hnodup he
  | decl hds => exact performs_genDecls hds
  | @ifElse l i ln cl c t e hc ht he iht ihe =>
    have hcond := computes_genExpr (L := L) hnodup hc
    have hemits := (genNode_emits Γ c).expr
    cases e with
    | none =>
      exact performs_genIf_none hnodup hemits hcond (genStmt_places Γ t) (hscope ht) iht
    | some s =>
      exact performs_genIf_some hnodup hemits hcond (genStmt_places Γ t) (genStmt_context Γ t)
        (hscope ht) iht (genStmt_places Γ s) (hscope (he s rfl)) (ihe s rfl)
  | @«while» l i ln cl c b hc hb ihb =>
    exact performs_genWhile hnodup (genNode_emits Γ c).expr (computes_genExpr hnodup hc)
      (genStmt_places Γ b) (hscope hb) ihb
  | @doWhile l i ln cl c b hc hb ihb =>
    exact performs_genDoWhile hnodup (genNode_emits Γ c).expr (computes_genExpr hnodup hc)
      (genStmt_places Γ b) (hscope hb) ihb
  | @«for» l i ln cl init c incr b hi hc hn hb ihi ihb =>
    have hinit : Places [] ((genStmtOpt Γ init).getD (return)) ∧
        Keeps IrGen.context ((genStmtOpt Γ init).getD (return)) ∧
        L.Performs ft false ((genStmtOpt Γ init).getD (return))
          (D.execOpt (returnsAggregate ft) init) (D.envAfterOpt init) := by
      cases init with
      | none => exact ⟨.pure _, .pure _, performs_pure⟩
      | some s => exact ⟨genStmt_places Γ s, genStmt_context Γ s, ihi s rfl⟩
    exact performs_genFor hnodup hinit.1 hinit.2.1 hinit.2.2 hc hn (genStmt_places Γ b)
      (hscope hb) ihb
  | @ret l i ln cl e he =>
    have h : L.Performs ft l _ _ _ := performs_genReturn hnodup he
    cases e <;> exact h
  | «break» => exact performs_emitBreak
  | «continue» => exact performs_emitContinue

end Implements

end TinyC
