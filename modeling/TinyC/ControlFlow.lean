import TinyC.StmtFrame
import TinyC.Structured

/-!
# The lowering of structured control flow

The code of a structured body evaluates the primitives its source evaluates, in the same
order, and takes the same exit or runs on forever with it.
-/

namespace TinyC

/-- The code so far is part of the finished function `F`, and so are its strings. -/
structure Within (g F : IrGen) : Prop where
  code : g.func.instrs <+: F.func.instrs
  strConsts : g.module.strConsts <:+ F.module.strConsts

def IrGen.pos (g : IrGen) : ℕ := g.func.instrs.length

namespace Within

variable {α : Type} {own : List ℕ} {F g g' : IrGen}

theorem of_grows (h : Grows g g') (hF : Within g' F) : Within g F :=
  ⟨h.code.trans hF.code, h.strConsts.trans hF.strConsts⟩

theorem back {m : Gen α} (hm : Places own m) (hF : Within (m g).2 F) : Within g F :=
  hF.of_grows (hm.grows g)

theorem emitted {ins : IRInstr} (hF : Within (emit ins g).2 F) :
    F.func.instrs[g.pos]? = some ins := getElem?_of_append_singleton_prefix hF.code

/-- In code that places no label twice, a label is found where it is placed. -/
theorem placed (hnodup : (labelsOf F.func.instrs).Nodup) {l : ℕ}
    (hF : Within (emitLabel l g).2 F) : labelIndex F.func.instrs l = some g.pos :=
  labelIndex_of_nodup hnodup hF.code

end Within

/-! ### Runs that list primitives -/

structure Config (W V : Type) where
  pc : ℕ
  obs : Observed W
  temps : ℕ → V

def Config.state {W V : Type} (c : Config W V) : IrState W V := ⟨c.pc, c.obs.world, c.temps⟩

def isControl (op : IROp) : Bool :=
  op = .label || op = .jmp || op = .jz || op = .jnz || op = .copy

/-- `τ'` comes from `τ` by writing temps from `n` on. -/
def AgreeBelow {V : Type} (n : ℕ) (τ τ' : ℕ → V) : Prop := ∀ t < n, τ' t = τ t

namespace AgreeBelow

variable {V : Type} {m n : ℕ} {τ τ' τ'' : ℕ → V}

theorem refl : AgreeBelow n τ τ := fun _ _ => rfl

theorem trans (h : AgreeBelow n τ τ') (h' : AgreeBelow m τ' τ'') (hle : n ≤ m) :
    AgreeBelow n τ τ'' := fun t ht => (h' t (ht.trans_le hle)).trans (h t ht)

theorem update {t : ℕ} (h : AgreeBelow n τ τ') (hle : n ≤ t) (v : V) :
    AgreeBelow n τ (Function.update τ' t v) := fun u hu => by
  rw [Function.update_of_ne (by omega)]
  exact h u hu

theorem mono (h : AgreeBelow m τ τ') (hle : n ≤ m) : AgreeBelow n τ τ' :=
  fun t ht => h t (ht.trans_le hle)

end AgreeBelow

section

variable {W V Env : Type} (Γ : TypeEnv) (F : IrGen) (M : IrMachine W V)

/-- A run of the finished function, made of single labels, jumps and copies and of whole runs
of the code of a primitive. -/
inductive Traced : ℕ → Config W V → Config W V → Prop where
  | refl (c : Config W V) : Traced 0 c c
  | control {n : ℕ} {c c' : Config W V} {s : IrState W V} {i : IRInstr}
      (hi : F.func.instrs[c.pc]? = some i) (hop : isControl i.op)
      (hstep : M.step F.func.instrs c.state = some s)
      (ht : Traced n ⟨s.pc, ⟨s.world, c.obs.trace⟩, s.temps⟩ c') : Traced (n + 1) c c'
  | prim {k n : ℕ} {c c' : Config W V} {s : IrState W V} {p : Prim} {g : IrGen}
      (hg : g.pos = c.pc) (hF : Within (genPrim Γ p g).2 F)
      (hs : M.Steps F.func.instrs k c.state s) (hend : s.pc = (genPrim Γ p g).2.pos)
      (ht : Traced n ⟨s.pc, ⟨s.world, c.obs.trace ++ [p]⟩, s.temps⟩ c') : Traced (k + n) c c'

/-- What is assumed of the code of the primitives in `S`: it does what `D` says in a state of
the generator and temps that stand for the environment, and writes new temps only. -/
structure Implements (D : PrimSem W V Env) (S : Prim → Prop) where
  stands : Env → IrGen → (ℕ → V) → Prop
  stands_mono : ∀ {ρ : Env} {g g' : IrGen} {τ τ' : ℕ → V}, stands ρ g τ →
    (∀ x, g'.scope.lookup vtabBuckets x = g.scope.lookup vtabBuckets x) →
    g.func.nextTemp ≤ g'.func.nextTemp → AgreeBelow g.func.nextTemp τ τ' → stands ρ g' τ'
  isTrue : M.isTrue = D.isTrue
  ofBool : ∀ b, M.literal (irvInt (if b then 1 else 0) typeInt) = D.ofBool b
  run : ∀ {p : Prim} {ρ : Env} {g : IrGen} {τ : ℕ → V} (w : W), S p → stands ρ g τ →
    Within (genPrim Γ p g).2 F →
    ∃ k τ', M.Steps F.func.instrs k ⟨g.pos, w, τ⟩
        ⟨(genPrim Γ p g).2.pos, (D.eval p ρ w).2, τ'⟩ ∧
      AgreeBelow g.func.nextTemp τ τ' ∧
      match p with
      | .decls ds => stands (D.declare ds ρ) (genPrim Γ p g).2 τ'
      | _ => (genPrim Γ p g).1.kind ≠ .none ∧
          M.operand τ' (genPrim Γ p g).1 = (D.eval p ρ w).1

end

namespace Traced

variable {W V Env : Type} {Γ : TypeEnv} {F : IrGen} {M : IrMachine W V}

theorem trans {m n : ℕ} {c c' c'' : Config W V} (h : Traced Γ F M m c c')
    (h' : Traced Γ F M n c' c'') : Traced Γ F M (m + n) c c'' := by
  induction h with
  | refl => simpa using h'
  | control hi hop hstep _ ih =>
    rw [Nat.add_right_comm]
    exact .control hi hop hstep (ih h')
  | prim hg hF hs hend _ ih =>
    rw [Nat.add_assoc]
    exact .prim hg hF hs hend (ih h')

/-- A traced run is a run. -/
theorem steps {n : ℕ} {c c' : Config W V} (h : Traced Γ F M n c c') :
    M.Steps F.func.instrs n c.state c'.state := by
  induction h with
  | refl => exact .refl _
  | control _ _ hstep _ ih => exact .head hstep ih
  | prim _ _ hs _ _ ih => exact hs.trans ih

theorem single {pc pc' : ℕ} {o : Observed W} {τ τ' : ℕ → V} {i : IRInstr}
    (hi : F.func.instrs[pc]? = some i) (hop : isControl i.op)
    (hstep : M.step F.func.instrs ⟨pc, o.world, τ⟩ = some ⟨pc', o.world, τ'⟩) :
    Traced Γ F M 1 ⟨pc, o, τ⟩ ⟨pc', o, τ'⟩ := .control hi hop hstep (.refl _)

variable {g : IrGen} {l : ℕ} {v : IRValue} {pc : ℕ} (o : Observed W) (τ : ℕ → V)

theorem label (hF : Within (emitLabel l g).2 F) :
    Traced Γ F M 1 ⟨g.pos, o, τ⟩ ⟨(emitLabel l g).2.pos, o, τ⟩ := by
  have hi := Within.emitted hF
  have hpos : (emitLabel l g).2.pos = g.pos + 1 := List.length_append
  rw [hpos]
  exact single hi rfl (by simp only [IrMachine.step, hi]; rfl)

theorem jmp (hF : Within (emitJmp l g).2 F) (hl : labelIndex F.func.instrs l = some pc) :
    Traced Γ F M 1 ⟨g.pos, o, τ⟩ ⟨pc, o, τ⟩ := by
  have hi := Within.emitted hF
  exact single hi rfl (by simp [IrMachine.step, hi, IrMachine.jump, hl])

theorem jz_true (hF : Within (emitJz v l g).2 F) (hv : M.isTrue (M.operand τ v) = true) :
    Traced Γ F M 1 ⟨g.pos, o, τ⟩ ⟨(emitJz v l g).2.pos, o, τ⟩ := by
  have hi := Within.emitted hF
  have hpos : (emitJz v l g).2.pos = g.pos + 1 := List.length_append
  rw [hpos]
  exact single hi rfl (by simp [IrMachine.step, hi, hv, IrMachine.next])

theorem jz_false (hF : Within (emitJz v l g).2 F) (hv : M.isTrue (M.operand τ v) = false)
    (hl : labelIndex F.func.instrs l = some pc) : Traced Γ F M 1 ⟨g.pos, o, τ⟩ ⟨pc, o, τ⟩ := by
  have hi := Within.emitted hF
  exact single hi rfl (by simp [IrMachine.step, hi, hv, IrMachine.jump, hl])

theorem jnz_true (hF : Within (emitJnz v l g).2 F) (hv : M.isTrue (M.operand τ v) = true)
    (hl : labelIndex F.func.instrs l = some pc) : Traced Γ F M 1 ⟨g.pos, o, τ⟩ ⟨pc, o, τ⟩ := by
  have hi := Within.emitted hF
  exact single hi rfl (by simp [IrMachine.step, hi, hv, IrMachine.jump, hl])

theorem jnz_false (hF : Within (emitJnz v l g).2 F) (hv : M.isTrue (M.operand τ v) = false) :
    Traced Γ F M 1 ⟨g.pos, o, τ⟩ ⟨(emitJnz v l g).2.pos, o, τ⟩ := by
  have hi := Within.emitted hF
  have hpos : (emitJnz v l g).2.pos = g.pos + 1 := List.length_append
  rw [hpos]
  exact single hi rfl (by simp [IrMachine.step, hi, hv, IrMachine.next])

theorem copy {t : ℕ} {ty : CType} (hv : v.kind ≠ .none)
    (hF : Within (emit { op := .copy, dst := irvTemp t ty, src1 := v } g).2 F) :
    Traced Γ F M 1 ⟨g.pos, o, τ⟩
      ⟨(emit { op := .copy, dst := irvTemp t ty, src1 := v } g).2.pos, o,
        Function.update τ t (M.operand τ v)⟩ := by
  have hi := Within.emitted hF
  have hpos : (emit { op := .copy, dst := irvTemp t ty, src1 := v } g).2.pos = g.pos + 1 :=
    List.length_append
  rw [hpos]
  exact single hi rfl (by simp [IrMachine.step, hi, hv, IrMachine.writeTemp, irvTemp])

end Traced

/-! ### Expressions -/

theorem irvTemp_kind_ne_none (t : ℕ) (ty : CType) : (irvTemp t ty).kind ≠ .none := by
  simp [irvTemp]

namespace Implements

variable {W V Env : Type} {Γ : TypeEnv} {F : IrGen} {M : IrMachine W V} {D : PrimSem W V Env}
  {S : Prim → Prop} (L : Implements Γ F M D S)

theorem stands_after {α : Type} {own : List ℕ} {m : Gen α} {ρ : Env} {g : IrGen} {τ τ' : ℕ → V}
    (hm : EmitsWith own m) (h : L.stands ρ g τ) (ha : AgreeBelow g.func.nextTemp τ τ') :
    L.stands ρ (m g).2 τ' :=
  L.stands_mono h (fun _ => by rw [(hm g).scope]) (hm g).temps ha

/-- The code of `m` does what `ev` says and leaves its value in the operand it returns. -/
def Computes (m : Gen IRValue) (ev : Env → PrimSem.Run W V) : Prop :=
  ∀ (ρ : Env) (g : IrGen) (o : Observed W) (τ : ℕ → V), L.stands ρ g τ → Within (m g).2 F →
    ∃ k τ', Traced Γ F M k ⟨g.pos, o, τ⟩ ⟨(m g).2.pos, (ev ρ o).2, τ'⟩ ∧
      AgreeBelow g.func.nextTemp τ τ' ∧ (m g).1.kind ≠ .none ∧
      M.operand τ' (m g).1 = (ev ρ o).1

variable {L} (hnodup : (labelsOf F.func.instrs).Nodup)

theorem computes_prim {p : Prim} (hp : S p) (hvalue : ∀ ds, p ≠ .decls ds) :
    L.Computes (genPrim Γ p) (D.evalPrim p) := by
  intro ρ g o τ hst hF
  obtain ⟨k, τ', hsteps, hagree, hp'⟩ := L.run o.world hp hst hF
  have hrun : Traced Γ F M (k + 0) ⟨g.pos, o, τ⟩
      ⟨(genPrim Γ p g).2.pos, (D.evalPrim p ρ o).2, τ'⟩ :=
    .prim (c := ⟨g.pos, o, τ⟩) rfl hF hsteps rfl (.refl _)
  cases p with
  | decls ds => exact absurd rfl (hvalue ds)
  | value e => exact ⟨_, τ', hrun, hagree, hp'.1, hp'.2⟩
  | aggregate e => exact ⟨_, τ', hrun, hagree, hp'.1, hp'.2⟩

include hnodup in
theorem computes_ternary {ty : Option CType} {cond thenExpr elseExpr : Gen IRValue}
    {ec et ee : Env → PrimSem.Run W V} (hc : Emits cond) (ht : Emits thenExpr)
    (he : Emits elseExpr) (sc : L.Computes cond ec) (st : L.Computes thenExpr et)
    (se : L.Computes elseExpr ee) :
    L.Computes (genTernary ty cond thenExpr elseExpr)
      (fun ρ => do if D.isTrue (← ec ρ) then et ρ else ee ρ) := by
  intro ρ g o τ hst hF
  let n := g.func.nextLabel
  let r := g.func.nextTemp
  let res := irvTemp r (ty.getD typeInt)
  let g₁ : IrGen := (newTemp (newLabel (newLabel (newLabel g).2).2).2).2
  let c := cond g₁
  let gz := (emitJz c.1 (n + 1) c.2).2
  let gt := (emitLabel n gz).2
  let tv := thenExpr gt
  let gc := (emit { op := .copy, dst := res, src1 := tv.1 } tv.2).2
  let gj := (emitJmp (n + 2) gc).2
  let ge := (emitLabel (n + 1) gj).2
  let ev := elseExpr ge
  let gd := (emit { op := .copy, dst := res, src1 := ev.1 } ev.2).2
  change Within (emitLabel (n + 2) gd).2 F at hF
  have hgd : Within gd F := hF.back (.emitLabel _)
  have hev : Within ev.2 F := hgd.back (.emit (by simp))
  have hge : Within ge F := hev.back he.places
  have hgj : Within gj F := hge.back (.emitLabel _)
  have hgc : Within gc F := hgj.back (.emitJmp _)
  have htv : Within tv.2 F := hgc.back (.emit (by simp))
  have hgt : Within gt F := htv.back ht.places
  have hgz : Within gz F := hgt.back (.emitLabel _)
  have hcond : Within c.2 F := hgz.back (.emit (by simp))
  have htemps₁ : g₁.func.nextTemp = r + 1 := rfl
  have htemps : r + 1 ≤ c.2.func.nextTemp := (hc g₁).temps
  have hst₁ : L.stands ρ g₁ τ := L.stands_mono hst (fun _ => rfl) (Nat.le_succ r) .refl
  obtain ⟨k₁, τ₁, run₁, agree₁, -, val₁⟩ := sc ρ g₁ o τ hst₁ hcond
  have hst₂ : L.stands ρ c.2 τ₁ := L.stands_after hc hst₁ agree₁
  rw [htemps₁] at agree₁
  have hend : labelIndex F.func.instrs (n + 2 : ℕ) = some gd.pos := hF.placed hnodup
  have hlast := fun o τ => Traced.label (M := M) (Γ := Γ) o τ hF
  have hcases : ((do if D.isTrue (← ec ρ) then et ρ else ee ρ : PrimSem.Run W V) o) =
      (if D.isTrue (ec ρ o).1 then et ρ else ee ρ) (ec ρ o).2 := rfl
  beta_reduce
  rw [hcases]
  by_cases htrue : D.isTrue (ec ρ o).1 = true
  · have hjz : M.isTrue (M.operand τ₁ c.1) = true := by rw [L.isTrue, val₁, htrue]
    have hst₃ : L.stands ρ gt τ₁ := L.stands_mono hst₂ (fun _ => rfl) le_rfl .refl
    obtain ⟨k₂, τ₂, run₂, agree₂, hkind, val₂⟩ := st ρ gt (ec ρ o).2 τ₁ hst₃ htv
    rw [if_pos htrue]
    have run₃ := (run₁.trans (.jz_true _ _ hgz hjz)).trans ((Traced.label _ _ hgt).trans
      (run₂.trans ((Traced.copy _ _ hkind hgc).trans ((Traced.jmp _ _ hgj hend).trans
        (hlast _ _)))))
    refine ⟨_, _, run₃, ?_, irvTemp_kind_ne_none r _, ?_⟩
    · exact ((agree₁.trans agree₂ htemps).mono (Nat.le_succ r)).update le_rfl _
    · exact (Function.update_self ..).trans val₂
  · rw [Bool.not_eq_true] at htrue
    have hjz : M.isTrue (M.operand τ₁ c.1) = false := by rw [L.isTrue, val₁, htrue]
    have helse : labelIndex F.func.instrs (n + 1 : ℕ) = some gj.pos := hge.placed hnodup
    have htemps₂ : c.2.func.nextTemp ≤ tv.2.func.nextTemp := (ht gt).temps
    have hst₃ : L.stands ρ ge τ₁ :=
      L.stands_mono hst₂ (fun _ => congrArg (ScopeChain.lookup vtabBuckets · _) (ht gt).scope)
        htemps₂ .refl
    obtain ⟨k₂, τ₂, run₂, agree₂, hkind, val₂⟩ := se ρ ge (ec ρ o).2 τ₁ hst₃ hev
    rw [if_neg (by simp [htrue])]
    have run₃ := (run₁.trans (.jz_false _ _ hgz hjz helse)).trans ((Traced.label _ _ hge).trans
      (run₂.trans ((Traced.copy _ _ hkind hgd).trans (hlast _ _))))
    refine ⟨_, _, run₃, ?_, irvTemp_kind_ne_none r _, ?_⟩
    · exact ((agree₁.trans agree₂ (htemps.trans htemps₂)).mono (Nat.le_succ r)).update le_rfl _
    · exact (Function.update_self ..).trans val₂

/-- The value of `&&` or `||` after a left operand that is `b`: the right operand counts only
if `b` leaves it open. -/
def secondTest (D : PrimSem W V Env) (isAnd b : Bool) (right : PrimSem.Run W V) :
    PrimSem.Run W Bool :=
  if b = isAnd then do return D.isTrue (← right) else return b

include hnodup in
/-- The jumps of `&&` and `||` go to `trueLabel` if the value is true, and on if it is not. -/
theorem shortCircuitTest_traced {isAnd b : Bool} {lv : IRValue} {right : Gen IRValue}
    {er : Env → PrimSem.Run W V} (hr : Emits right) (sr : L.Computes right er) {f l pc : ℕ}
    {ρ : Env} {g : IrGen} {o : Observed W} {τ : ℕ → V} (hst : L.stands ρ g τ)
    (hlv : M.isTrue (M.operand τ lv) = b) (hl : labelIndex F.func.instrs l = some pc)
    (hF : Within (genShortCircuitTest isAnd lv right f l g).2 F) :
    ∃ k τ', Traced Γ F M k ⟨g.pos, o, τ⟩
        ⟨if (secondTest D isAnd b (er ρ) o).1 then pc
          else (genShortCircuitTest isAnd lv right f l g).2.pos,
          (secondTest D isAnd b (er ρ) o).2, τ'⟩ ∧ AgreeBelow g.func.nextTemp τ τ' := by
  cases isAnd with
  | true =>
    let gz := (emitJz lv f g).2
    let r := right gz
    let gn := (emitJnz r.1 l r.2).2
    let gj := (emitJmp f gn).2
    change Within (emitLabel f gj).2 F at hF
    have hgj : Within gj F := hF.back (.emitLabel _)
    have hgn : Within gn F := hgj.back (.emitJmp _)
    have hright : Within r.2 F := hgn.back (.emit (by simp))
    have hgz : Within gz F := hright.back hr.places
    have hf : labelIndex F.func.instrs f = some gj.pos := hF.placed hnodup
    have hlabel := fun o τ => Traced.label (M := M) (Γ := Γ) o τ hF
    cases b with
    | false => exact ⟨_, τ, (Traced.jz_false _ _ hgz hlv hf).trans (hlabel _ _), .refl⟩
    | true =>
      have hst' : L.stands ρ gz τ := L.stands_mono hst (fun _ => rfl) le_rfl .refl
      obtain ⟨k, τ', run, agree, -, val⟩ := sr ρ gz o τ hst' hright
      have hval : M.isTrue (M.operand τ' r.1) = (secondTest D true true (er ρ) o).1 := by
        rw [L.isTrue, val]
        rfl
      have run' := (Traced.jz_true o τ hgz hlv).trans run
      cases hv : (secondTest D true true (er ρ) o).1 with
      | true => exact ⟨_, τ', run'.trans (.jnz_true _ _ hgn (hval.trans hv) hl), agree⟩
      | false =>
        exact ⟨_, τ', (run'.trans (.jnz_false _ _ hgn (hval.trans hv))).trans
          ((Traced.jmp _ _ hgj hf).trans (hlabel _ _)), agree⟩
  | false =>
    let gn := (emitJnz lv l g).2
    let r := right gn
    change Within (emitJnz r.1 l r.2).2 F at hF
    have hright : Within r.2 F := hF.back (.emit (by simp))
    have hgn : Within gn F := hright.back hr.places
    cases b with
    | true => exact ⟨_, τ, Traced.jnz_true _ _ hgn hlv hl, .refl⟩
    | false =>
      have hst' : L.stands ρ gn τ := L.stands_mono hst (fun _ => rfl) le_rfl .refl
      obtain ⟨k, τ', run, agree, -, val⟩ := sr ρ gn o τ hst' hright
      have hval : M.isTrue (M.operand τ' r.1) = (secondTest D false false (er ρ) o).1 := by
        rw [L.isTrue, val]
        rfl
      have run' := (Traced.jnz_false o τ hgn hlv).trans run
      cases hv : (secondTest D false false (er ρ) o).1 with
      | true => exact ⟨_, τ', run'.trans (.jnz_true _ _ hF (hval.trans hv) hl), agree⟩
      | false => exact ⟨_, τ', run'.trans (.jnz_false _ _ hF (hval.trans hv)), agree⟩

include hnodup in
theorem computes_shortCircuit {isAnd : Bool} {left right : Gen IRValue}
    {el er : Env → PrimSem.Run W V} (hl : Emits left) (hr : Emits right)
    (sl : L.Computes left el) (sr : L.Computes right er) :
    L.Computes (genShortCircuit isAnd left right)
      (fun ρ => do
        let b := D.isTrue (← el ρ)
        let v ← secondTest D isAnd b (er ρ)
        return D.ofBool v) := by
  intro ρ g o τ hst hF
  let n := g.func.nextLabel
  let r := g.func.nextTemp
  let res := irvTemp r typeInt
  let g₁ : IrGen := (newLabel (newLabel (newLabel (newTemp g).2).2).2).2
  let l := left g₁
  let gr := (genShortCircuitTest isAnd l.1 right (n + 1) (n + 2) l.2).2
  let gz := (emit { op := .copy, dst := res, src1 := irvInt 0 typeInt } gr).2
  let gj := (emitJmp n gz).2
  let gt := (emitLabel (n + 2) gj).2
  let gd := (emit { op := .copy, dst := res, src1 := irvInt 1 typeInt } gt).2
  change Within (emitLabel n gd).2 F at hF
  have hgd : Within gd F := hF.back (.emitLabel _)
  have hgt : Within gt F := hgd.back (.emit (by simp))
  have hgj : Within gj F := hgt.back (.emitLabel _)
  have hgz : Within gz F := hgj.back (.emitJmp _)
  have hgr : Within gr F := hgz.back (.emit (by simp))
  have hleft : Within l.2 F := hgr.back (Emits.genShortCircuitTest isAnd l.1 hr (n + 1) (n + 2)).places
  have htemps : r + 1 ≤ l.2.func.nextTemp := (hl g₁).temps
  have hst₁ : L.stands ρ g₁ τ := L.stands_mono hst (fun _ => rfl) (Nat.le_succ r) .refl
  obtain ⟨k₁, τ₁, run₁, agree₁, -, val₁⟩ := sl ρ g₁ o τ hst₁ hleft
  have hst₂ : L.stands ρ l.2 τ₁ := L.stands_after hl hst₁ agree₁
  change AgreeBelow (r + 1) τ τ₁ at agree₁
  have hend : labelIndex F.func.instrs n = some gd.pos := hF.placed hnodup
  have htrueLabel : labelIndex F.func.instrs (n + 2 : ℕ) = some gj.pos := hgt.placed hnodup
  have hval₁ : M.isTrue (M.operand τ₁ l.1) = D.isTrue (el ρ o).1 := by rw [L.isTrue, val₁]
  obtain ⟨k₂, τ₂, run₂, agree₂⟩ :=
    shortCircuitTest_traced hnodup hr sr hst₂ hval₁ htrueLabel (o := (el ρ o).2) hgr
  have agree := (agree₁.trans agree₂ htemps).mono (Nat.le_succ r)
  have hres : ∀ (b : Bool) (c : BitVec 64), irvInt c typeInt = irvInt (if b then 1 else 0) typeInt →
      M.operand τ₂ (irvInt c typeInt) = D.ofBool b := by
    intro b c h
    rw [h]
    exact L.ofBool b
  have htail : ∀ (v : Bool) (o₂ : Observed W), ∃ k,
      Traced Γ F M k ⟨if v then gj.pos else gr.pos, o₂, τ₂⟩
        ⟨(emitLabel n gd).2.pos, o₂, Function.update τ₂ r (D.ofBool v)⟩ := by
    intro v o₂
    have hlast := fun τ => Traced.label (M := M) (Γ := Γ) o₂ τ hF
    cases v with
    | false =>
      have hcopy := Traced.copy (M := M) (Γ := Γ) o₂ τ₂ (by simp [irvInt]) hgz
      rw [hres false 0 rfl] at hcopy
      exact ⟨_, hcopy.trans ((Traced.jmp _ _ hgj hend).trans (hlast _))⟩
    | true =>
      have hcopy := Traced.copy (M := M) (Γ := Γ) o₂ τ₂ (by simp [irvInt]) hgd
      rw [hres true 1 rfl] at hcopy
      exact ⟨_, (Traced.label _ _ hgt).trans (hcopy.trans (hlast _))⟩
  obtain ⟨k₃, run₃⟩ := htail (secondTest D isAnd (D.isTrue (el ρ o).1) (er ρ) (el ρ o).2).1
    (secondTest D isAnd (D.isTrue (el ρ o).1) (er ρ) (el ρ o).2).2
  exact ⟨_, _, (run₁.trans run₂).trans run₃, agree.update le_rfl _, irvTemp_kind_ne_none r _,
    Function.update_self ..⟩

theorem evalExpr_prim {e : Expr} (h : PrimSem.isComposite e = false) :
    D.evalExpr e = D.evalPrim (.value e) := by
  cases e with
  | binop i op l r =>
    simp only [PrimSem.isComposite, Bool.or_eq_false_iff, decide_eq_false_iff_not] at h
    funext ρ
    rw [PrimSem.evalExpr, if_neg h.1, if_neg h.2]
  | ternary => simp [PrimSem.isComposite] at h
  | _ => rfl

theorem evalExpr_logical {i : Info} {op : TokenKind} {l r : Expr} (hop : op = .and ∨ op = .or) :
    D.evalExpr (.binop i op l r) = fun ρ => do
      let b := D.isTrue (← D.evalExpr l ρ)
      let v ← secondTest D (op = .and) b (D.evalExpr r ρ)
      return D.ofBool v := by
  funext ρ
  rcases hop with rfl | rfl
  · rw [PrimSem.evalExpr, if_pos rfl]
    refine congrArg (D.evalExpr l ρ >>= ·) (funext fun v => ?_)
    cases D.isTrue v <;> rfl
  · rw [PrimSem.evalExpr, if_neg (by simp), if_pos rfl]
    refine congrArg (D.evalExpr l ρ >>= ·) (funext fun v => ?_)
    cases D.isTrue v <;> rfl

include hnodup in
/-- The code of an expression made of primitives does what the expression means. -/
theorem computes_genExpr {e : Expr} (h : ComposedOf S e) :
    L.Computes (genExpr Γ e) (D.evalExpr e) := by
  induction h with
  | prim hp h =>
    rw [evalExpr_prim hp]
    exact computes_prim h (by simp)
  | @logical i op l r hop _ _ ihl ihr =>
    rw [evalExpr_logical hop]
    have hgen : genExpr Γ (.binop i op l r) =
        genShortCircuit (op = .and) (genExpr Γ l) (genExpr Γ r) := if_pos hop
    rw [hgen]
    exact computes_shortCircuit hnodup (genNode_emits Γ l).expr (genNode_emits Γ r).expr ihl ihr
  | @ternary i c t e _ _ _ ihc iht ihe =>
    exact computes_ternary hnodup (genNode_emits Γ c).expr (genNode_emits Γ t).expr
      (genNode_emits Γ e).expr ihc iht ihe

/-! ### Arrivals -/

variable (Γ F M) in
/-- Where a run that means `r` arrives: at `normal`, at the targets `brk` and `cnt`, at a
return, or nowhere within `n` steps. Temps below `N` are left alone. -/
def Arrives (N : ℕ) (post : (ℕ → V) → Prop) (normal brk cnt n : ℕ) (c : Config W V)
    (r : Outcome V × Observed W) : Prop :=
  match r.1 with
  | .normal => ∃ k τ, Traced Γ F M k c ⟨normal, r.2, τ⟩ ∧ AgreeBelow N c.temps τ ∧ post τ
  | .brk => ∃ k τ, Traced Γ F M k c ⟨brk, r.2, τ⟩ ∧ AgreeBelow N c.temps τ
  | .cnt => ∃ k τ, Traced Γ F M k c ⟨cnt, r.2, τ⟩ ∧ AgreeBelow N c.temps τ
  | .ret v => ∃ k pc τ, Traced Γ F M k c ⟨pc, r.2, τ⟩ ∧
      M.exit F.func.instrs ⟨pc, r.2.world, τ⟩ = some (.ret v)
  | .timeout => ∃ k c', n ≤ k ∧ Traced Γ F M k c c'

namespace Arrives

variable {N N' normal normal' brk cnt n : ℕ} {post post' : (ℕ → V) → Prop} {c c' : Config W V}
  {r : Outcome V × Observed W}

/-- What comes before the run. -/
theorem after {j : ℕ} (h : Arrives Γ F M N' post normal brk cnt n c' r)
    (hrun : Traced Γ F M j c c') (hagree : AgreeBelow N c.temps c'.temps) (hle : N ≤ N') :
    Arrives Γ F M N post normal brk cnt (n + j) c r := by
  obtain ⟨out, o⟩ := r
  cases out with
  | normal =>
    obtain ⟨k, τ, run, agree, hpost⟩ := h
    exact ⟨_, τ, hrun.trans run, hagree.trans agree hle, hpost⟩
  | brk =>
    obtain ⟨k, τ, run, agree⟩ := h
    exact ⟨_, τ, hrun.trans run, hagree.trans agree hle⟩
  | cnt =>
    obtain ⟨k, τ, run, agree⟩ := h
    exact ⟨_, τ, hrun.trans run, hagree.trans agree hle⟩
  | ret v =>
    obtain ⟨k, pc, τ, run, hexit⟩ := h
    exact ⟨_, pc, τ, hrun.trans run, hexit⟩
  | timeout =>
    obtain ⟨k, c'', hle', run⟩ := h
    exact ⟨_, c'', by omega, hrun.trans run⟩

theorem less {m : ℕ} (h : Arrives Γ F M N post normal brk cnt n c r) (hle : m ≤ n) :
    Arrives Γ F M N post normal brk cnt m c r := by
  obtain ⟨out, o⟩ := r
  cases out with
  | timeout =>
    obtain ⟨k, c'', hle', run⟩ := h
    exact ⟨k, c'', hle.trans hle', run⟩
  | _ => exact h

/-- What comes after a normal end. -/
theorem andThen (h : Arrives Γ F M N post normal brk cnt n c r)
    (hnext : ∀ o τ, AgreeBelow N c.temps τ → post τ →
      ∃ k, Traced Γ F M k ⟨normal, o, τ⟩ ⟨normal', o, τ⟩ ∧ post' τ) :
    Arrives Γ F M N post' normal' brk cnt n c r := by
  obtain ⟨out, o⟩ := r
  cases out with
  | normal =>
    obtain ⟨k, τ, run, agree, hpost⟩ := h
    obtain ⟨k', run', hpost'⟩ := hnext o τ agree hpost
    exact ⟨_, τ, run.trans run', agree, hpost'⟩
  | _ => exact h

theorem weaken (h : Arrives Γ F M N post normal brk cnt n c r)
    (hpost : ∀ τ, AgreeBelow N c.temps τ → post τ → post' τ) :
    Arrives Γ F M N post' normal brk cnt n c r :=
  h.andThen fun _ τ hagree hp => ⟨0, .refl _, hpost τ hagree hp⟩

/-- One run after another. -/
theorem bind {ex : Outcome V × Observed W} {k : PrimSem.Run W (Outcome V)}
    (h : Arrives Γ F M N post normal brk cnt n c ex) (hle : N ≤ N')
    (hk : ∀ τ, AgreeBelow N c.temps τ → post τ →
      Arrives Γ F M N' post' normal' brk cnt n ⟨normal, ex.2, τ⟩ (k ex.2)) :
    Arrives Γ F M N post' normal' brk cnt n c (PrimSem.afterStmt k ex.1 ex.2) := by
  obtain ⟨out, o⟩ := ex
  cases out with
  | normal =>
    obtain ⟨j, τ, run, agree, hpost⟩ := h
    exact ((hk τ agree hpost).after run agree hle).less (Nat.le_add_right _ _)
  | _ => exact h

end Arrives

/-! ### Loops -/

section

variable {N pt pb pn pc pe : ℕ} {inv : (ℕ → V) → Prop} {test : PrimSem.Run W Bool}
  {body : ℕ → PrimSem.Run W (Outcome V)} {incr : PrimSem.Run W Unit} (brk cnt : ℕ)

/-- A loop from its test at `pt` to its end at `pe`. -/
theorem arrives_execLoop (hinv : ∀ {τ τ'}, inv τ → AgreeBelow N τ τ' → inv τ')
    (htest : ∀ o τ, inv τ → ∃ k τ', Traced Γ F M (k + 1) ⟨pt, o, τ⟩
      ⟨if (test o).1 then pb else pe, (test o).2, τ'⟩ ∧ AgreeBelow N τ τ')
    (hbody : ∀ n o τ, inv τ →
      Arrives Γ F M N (fun _ => True) pn pe pc n ⟨pb, o, τ⟩ (body n o))
    (hincr : ∀ p, p = pn ∨ p = pc → ∀ o τ, inv τ → ∃ k τ', Traced Γ F M k ⟨p, o, τ⟩
      ⟨pt, (incr o).2, τ'⟩ ∧ AgreeBelow N τ τ')
    (n : ℕ) (o : Observed W) (τ : ℕ → V) (hτ : inv τ) :
    Arrives Γ F M N (fun _ => True) pe brk cnt n ⟨pt, o, τ⟩
      (PrimSem.execLoop test body incr n o) := by
  induction n generalizing o τ with
  | zero => exact ⟨0, _, le_rfl, .refl _⟩
  | succ n ih =>
    obtain ⟨k, τ₁, run₁, agree₁⟩ := htest o τ hτ
    have hτ₁ := hinv hτ agree₁
    change Arrives Γ F M N _ pe brk cnt (n + 1) ⟨pt, o, τ⟩
      ((if (test o).1 then (do
        let out ← body n
        PrimSem.afterBody (do incr; PrimSem.execLoop test body incr n) out)
      else return .normal : PrimSem.Run W (Outcome V)) (test o).2)
    cases htrue : (test o).1 with
    | false =>
      rw [htrue] at run₁
      exact ⟨_, τ₁, run₁, agree₁, trivial⟩
    | true =>
      rw [htrue] at run₁
      have hround : ∀ p, p = pn ∨ p = pc → ∀ (o' : Observed W) (k' : ℕ) (τ' : ℕ → V),
          Traced Γ F M k' ⟨pb, (test o).2, τ₁⟩ ⟨p, o', τ'⟩ → AgreeBelow N τ₁ τ' →
          Arrives Γ F M N (fun _ => True) pe brk cnt (n + 1) ⟨pt, o, τ⟩
            (PrimSem.execLoop test body incr n (incr o').2) := by
        intro p hp o' k' τ' run₂ agree₂
        obtain ⟨k₃, τ₃, run₃, agree₃⟩ := hincr p hp o' τ' (hinv hτ₁ agree₂)
        have hτ₃ := hinv (hinv hτ₁ agree₂) agree₃
        exact ((ih (incr o').2 τ₃ hτ₃).after ((run₁.trans run₂).trans run₃)
          ((agree₁.trans agree₂ le_rfl).trans agree₃ le_rfl) le_rfl).less (by omega)
      have hb := hbody n (test o).2 τ₁ hτ₁
      change Arrives Γ F M N (fun _ => True) pe brk cnt (n + 1) ⟨pt, o, τ⟩
        (PrimSem.afterBody (do incr; PrimSem.execLoop test body incr n)
          (body n (test o).2).1 (body n (test o).2).2)
      generalize body n (test o).2 = r at hb ⊢
      obtain ⟨out, o'⟩ := r
      cases out with
      | normal =>
        obtain ⟨k', τ', run₂, agree₂, -⟩ := hb
        exact hround pn (.inl rfl) o' k' τ' run₂ agree₂
      | cnt =>
        obtain ⟨k', τ', run₂, agree₂⟩ := hb
        exact hround pc (.inr rfl) o' k' τ' run₂ agree₂
      | brk =>
        obtain ⟨k', τ', run₂, agree₂⟩ := hb
        exact ⟨_, τ', run₁.trans run₂, agree₁.trans agree₂ le_rfl, trivial⟩
      | ret v =>
        obtain ⟨k', p, τ', run₂, hexit⟩ := hb
        exact ⟨_, p, τ', run₁.trans run₂, hexit⟩
      | timeout =>
        obtain ⟨k', c', hle, run₂⟩ := hb
        exact ⟨_, c', by omega, run₁.trans run₂⟩

/-- A loop from its body at `pb` to its end at `pe`, the test being at `pc`. -/
theorem arrives_execDoLoop (hinv : ∀ {τ τ'}, inv τ → AgreeBelow N τ τ' → inv τ')
    (hstart : ∀ o τ, Traced Γ F M 1 ⟨pt, o, τ⟩ ⟨pb, o, τ⟩)
    (hbody : ∀ n o τ, inv τ →
      Arrives Γ F M N (fun _ => True) pc pe pc n ⟨pb, o, τ⟩ (body n o))
    (htest : ∀ o τ, inv τ → ∃ k τ', Traced Γ F M k ⟨pc, o, τ⟩
      ⟨if (test o).1 then pt else pe, (test o).2, τ'⟩ ∧ AgreeBelow N τ τ')
    (n : ℕ) (o : Observed W) (τ : ℕ → V) (hτ : inv τ) :
    Arrives Γ F M N (fun _ => True) pe brk cnt n ⟨pt, o, τ⟩
      (PrimSem.execDoLoop test body n o) := by
  induction n generalizing o τ with
  | zero => exact ⟨0, _, le_rfl, .refl _⟩
  | succ n ih =>
    have run₁ := hstart o τ
    have hround : ∀ (o' : Observed W) (k' : ℕ) (τ' : ℕ → V),
        Traced Γ F M k' ⟨pb, o, τ⟩ ⟨pc, o', τ'⟩ → AgreeBelow N τ τ' →
        Arrives Γ F M N (fun _ => True) pe brk cnt (n + 1) ⟨pt, o, τ⟩
          ((do if ← test then PrimSem.execDoLoop test body n else return .normal :
            PrimSem.Run W (Outcome V)) o') := by
      intro o' k' τ' run₂ agree₂
      obtain ⟨k₃, τ₃, run₃, agree₃⟩ := htest o' τ' (hinv hτ agree₂)
      have hτ₃ := hinv (hinv hτ agree₂) agree₃
      have agree := agree₂.trans agree₃ le_rfl
      change Arrives Γ F M N (fun _ => True) pe brk cnt (n + 1) ⟨pt, o, τ⟩
        ((if (test o').1 then PrimSem.execDoLoop test body n else return .normal :
            PrimSem.Run W (Outcome V)) (test o').2)
      cases htrue : (test o').1 with
      | false =>
        rw [htrue] at run₃
        exact ⟨_, τ₃, (run₁.trans run₂).trans run₃, agree, trivial⟩
      | true =>
        rw [htrue] at run₃
        exact ((ih (test o').2 τ₃ hτ₃).after ((run₁.trans run₂).trans run₃) agree le_rfl).less
          (by omega)
    have hb := hbody n o τ hτ
    change Arrives Γ F M N (fun _ => True) pe brk cnt (n + 1) ⟨pt, o, τ⟩
      (PrimSem.afterBody (do if ← test then PrimSem.execDoLoop test body n else return .normal)
        (body n o).1 (body n o).2)
    generalize body n o = r at hb ⊢
    obtain ⟨out, o'⟩ := r
    cases out with
    | normal =>
      obtain ⟨k', τ', run₂, agree₂, -⟩ := hb
      exact hround o' k' τ' run₂ agree₂
    | cnt =>
      obtain ⟨k', τ', run₂, agree₂⟩ := hb
      exact hround o' k' τ' run₂ agree₂
    | brk =>
      obtain ⟨k', τ', run₂, agree₂⟩ := hb
      exact ⟨_, τ', run₁.trans run₂, agree₂, trivial⟩
    | ret v =>
      obtain ⟨k', p, τ', run₂, hexit⟩ := hb
      exact ⟨_, p, τ', run₁.trans run₂, hexit⟩
    | timeout =>
      obtain ⟨k', c', hle, run₂⟩ := hb
      exact ⟨_, c', by omega, run₁.trans run₂⟩

end

end Implements

end TinyC
