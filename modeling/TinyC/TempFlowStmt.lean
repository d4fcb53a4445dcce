import TinyC.TempFlowExpr
import TinyC.JumpTargets

/-!
# Statements read only temps that are written

A statement entered where the variables in scope are written leaves them written. A `case` or a
named label asks of the jumps to it that they bring the variables in scope there.
-/

namespace TinyC

open World

/-- The temps that hold the addresses of the variables of a scope. -/
def scopeTemps (sc : ScopeChain VarEntry) : Set ℕ :=
  {t | ∃ fr ∈ sc, ∃ b, ∃ p ∈ fr b, p.2.addr.kind = .temp t}

/-- The number of a `case`, `default` or named label. -/
def ownLabel (s : Stmt) (g : IrGen) : Option ℕ :=
  match s with
  | .case node _ _ _ _ =>
      (g.caseEntries.find? fun ce => ce.node = node && ce.isDefault = false).map CaseEntry.labelId
  | .default node _ _ _ =>
      (g.caseEntries.find? fun ce => ce.node = node && ce.isDefault = true).map CaseEntry.labelId
  | .label _ _ name _ => g.gotoLabels.lookup name
  | _ => none

/-- The addresses of the variables in whose scope the label `l` stands. -/
def declaredAt (Γ : TypeEnv) (body : Stmt) (g₀ : IrGen) (l : ℤ) : Set ℕ :=
  {t | ∃ s g, Nested Γ (fun _ => True) body g₀ s g ∧ (ownLabel s g).map Nat.cast = some l ∧
    t ∈ scopeTemps g.scope}

/-- The labels of `s` ask for the variables in scope at them. -/
def AsksFor (Γ : TypeEnv) (asks : ℤ → Set ℕ) (s : Stmt) (g : IrGen) : Prop :=
  ∀ s' g' l, Nested Γ (fun _ => True) s g s' g' → ownLabel s' g' = some l →
    scopeTemps g'.scope ⊆ asks l

theorem AsksFor.inside {Γ : TypeEnv} {asks : ℤ → Set ℕ} {k : Nesting} {s s' : Stmt} {g g' : IrGen}
    (h : AsksFor Γ asks s g) (hin : Inside Γ k s g s' g') : AsksFor Γ asks s' g' :=
  fun s'' g'' l hn hl => h s'' g'' l (.step hin trivial hn) hl

theorem asksFor_declaredAt (Γ : TypeEnv) (s : Stmt) (g : IrGen) :
    AsksFor Γ (declaredAt Γ s g) s g := fun s' g' l hn hl t ht => ⟨s', g', hn, by rw [hl]; rfl, ht⟩

theorem Inside.gotoLabels {Γ : TypeEnv} {k : Nesting} {s s' : Stmt} {g g' : IrGen}
    (h : Inside Γ k s g s' g') : g'.gotoLabels = g.gotoLabels := by
  obtain ⟨m, hm, rfl⟩ := h.start
  exact (hm.grows g).gotoLabels

/-! ### Scopes -/

theorem scopeTemps_push (sc : ScopeChain VarEntry) : scopeTemps sc.push = scopeTemps sc := by
  ext t
  simp [scopeTemps, ScopeChain.push]

theorem scopeTemps_define (n : ℕ) (sc : ScopeChain VarEntry) (name : String) (e : VarEntry) :
    scopeTemps sc ⊆ scopeTemps (sc.define n name e) := by
  rintro t ⟨fr, hfr, b, p, hp, ht⟩
  cases sc with
  | nil => simp at hfr
  | cons fr₀ rest =>
    rcases List.mem_cons.mp hfr with rfl | hfr
    · refine ⟨_, List.mem_cons_self, b, p, ?_, ht⟩
      by_cases hb : b = ScopeChain.bucket n name
      · subst hb
        rw [Function.update_self]
        exact List.mem_cons_of_mem _ hp
      · rwa [Function.update_of_ne hb]
    · exact ⟨fr, List.mem_cons_of_mem _ hfr, b, p, hp, ht⟩

namespace World

variable {w w' : World} {A A' : Set ℕ}

theorem Scoped.subset (h : Scoped w A) : scopeTemps w.gen.scope ⊆ A := by
  rintro t ⟨fr, hfr, b, p, hp, ht⟩
  exact (h fr hfr b p hp).written t ht

/-- Only the temps of the scope count. -/
theorem Scoped.of_subset (h : Scoped w A) (hw : Le w w') (hsc : w'.gen.scope = w.gen.scope)
    (hA : scopeTemps w.gen.scope ⊆ A') : Scoped w' A' := by
  intro fr hfr b p hp
  rw [hsc] at hfr
  have hv := h fr hfr b p hp
  have hv' : Valid w (scopeTemps w.gen.scope) p.2.addr :=
    ⟨fun t ht => ⟨fr, hfr, b, p, hp, ht⟩, hv.taken, hv.types⟩
  exact hv'.mono hw hA

theorem Scoped.later (h : Scoped w A) (hw : Later w w') (hA : scopeTemps w.gen.scope ⊆ A') :
    Scoped w' A' := h.of_subset hw.toLe hw.scope hA

theorem Scoped.of_func_eq (h : Scoped w A) {g : IrGen} (hf : g.func = w.gen.func)
    (hs : g.scope = w.gen.scope) : Scoped ⟨g, w.plan⟩ A :=
  h.mono ⟨⟨⟨fun _ _ => rfl, fun _ _ => rfl⟩, hf ▸ le_rfl, hf ▸ le_rfl⟩, hs⟩ Set.Subset.rfl

/-- A variable whose address is written comes into scope. -/
theorem Scoped.define (h : Scoped w A) {addr : IRValue} (ha : Valid w A addr) (name : String)
    (isGlobal : Bool) : Scoped ⟨(vscopeDefine name addr isGlobal w.gen).2, w.plan⟩ A := by
  intro fr hfr b p hp
  rcases ScopeChain.mem_define hfr hp with he | ⟨fr', hfr', hp'⟩
  · rw [he]
    exact ⟨ha.written, ha.taken, ha.types⟩
  · have hv := h fr' hfr' b p hp'
    exact ⟨hv.written, hv.taken, hv.types⟩

/-- What the lowering of a statement can rely on. -/
structure Ready (asks : ℤ → Set ℕ) (w : World) (A : Set ℕ) : Prop where
  vars : Scoped w A
  targets : ∀ l, l = w.gen.breakLabel ∨ l = w.gen.contLabel → l ≠ 0 →
    ∃ S ⊆ scopeTemps w.gen.scope, Knows w l S
  cases : ∀ ce ∈ w.gen.caseEntries, Knows w ce.labelId (asks ce.labelId)
  gotos : ∀ p ∈ w.gen.gotoLabels, Knows w p.2 (asks p.2)

/-- What holds after a statement that starts in `w`. -/
def Done {α : Type} (w : World) (w' : World) (A' : Set ℕ) (_ : α) : Prop :=
  Scoped w' A' ∧ scopeTemps w.gen.scope ⊆ scopeTemps w'.gen.scope

namespace Ready

variable {asks : ℤ → Set ℕ}

theorem after (h : Ready asks w A) (hw : Le w w') (hd : Done w w' A' ())
    (hctx : w'.gen.context = w.gen.context) (hgoto : w'.gen.gotoLabels = w.gen.gotoLabels) :
    Ready asks w' A' where
  vars := hd.1
  targets l hl h0 := by
    have hb : w'.gen.breakLabel = w.gen.breakLabel := congrArg Context.breakLabel hctx
    have hc : w'.gen.contLabel = w.gen.contLabel := congrArg Context.contLabel hctx
    rw [hb, hc] at hl
    obtain ⟨S, hS, hk⟩ := h.targets l hl h0
    exact ⟨S, hS.trans hd.2, hk.mono hw⟩
  cases ce hce := by
    have hces : w'.gen.caseEntries = w.gen.caseEntries := congrArg Context.caseEntries hctx
    exact (h.cases ce (hces ▸ hce)).mono hw
  gotos p hp := (h.gotos p (hgoto ▸ hp)).mono hw

theorem later (h : Ready asks w A) (hw : Later w w') (hA : scopeTemps w.gen.scope ⊆ A')
    (hctx : w'.gen.context = w.gen.context) (hgoto : w'.gen.gotoLabels = w.gen.gotoLabels) :
    Ready asks w' A' :=
  h.after hw.toLe ⟨h.vars.later hw hA, by rw [hw.scope]⟩ hctx hgoto

/-- The start of a loop body. -/
theorem enter (h : Ready asks w A) (hle : Le w w') (hv : Scoped w' A')
    (hcases : w'.gen.caseEntries = w.gen.caseEntries)
    (hgoto : w'.gen.gotoLabels = w.gen.gotoLabels) {S : Set ℕ}
    (hS : S ⊆ scopeTemps w'.gen.scope) (hb : Knows w' w'.gen.breakLabel S)
    (hc : Knows w' w'.gen.contLabel S) : Ready asks w' A' where
  vars := hv
  targets l hl _ := by
    rcases hl with rfl | rfl
    · exact ⟨S, hS, hb⟩
    · exact ⟨S, hS, hc⟩
  cases ce hce := (h.cases ce (hcases ▸ hce)).mono hle
  gotos p hp := (h.gotos p (hgoto ▸ hp)).mono hle

end Ready

end World

/-! ### Pieces of statements -/

namespace Evaluates

variable {asks : ℤ → Set ℕ} {w : World} {A : Set ℕ} {Γ : TypeEnv}

/-- A change of the state that leaves function and scope alone. -/
theorem update {f : IrGen → IrGen} (hf : ∀ g, (f g).func = g.func)
    (hs : ∀ g, (f g).scope = g.scope) :
    Evaluates asks w A (modify f : Gen Unit) fun _ A' _ => A' = A :=
  Flows.of_func_eq (hf _) ⟨hs _, rfl⟩

theorem setTargets (b c : ℕ) :
    Evaluates asks w A (setTargets b c) fun _ A' _ => A' = A := update (fun _ => rfl) fun _ => rfl

theorem genEffect (e : Option Expr) (hs : Scoped w A) :
    Evaluates asks w A (genEffect (e.map (genExpr Γ))) (Leaves A) := by
  cases e with
  | none => exact pure Set.Subset.rfl
  | some e => exact (genExpr_evaluable Γ asks e w A hs).bind fun _ _ _ _ hr => pure hr.1

theorem ifHead (c : Expr) (hs : Scoped w A) {S : Set ℕ} (hS : S ⊆ A) :
    Evaluates asks w A (ifHead (genExpr Γ c)) fun w' A' ls =>
      A ⊆ A' ∧ Knows w' ls.1 S ∧ Knows w' ls.2 S := by
  refine newLabel_bind S fun w₁ e l₁ _ he => newLabel_bind S fun w₂ d l₂ _ hd => ?_
  refine value_bind (genExpr_evaluable Γ asks c) (hs.mono (l₁.trans l₂) le_rfl)
    fun w₃ A₃ v l₃ s₃ _ hv => ?_
  have he₃ := he.mono (l₂.trans l₃).toLe
  refine (emitJz hv he₃ ((hS.trans s₃).trans Set.subset_union_left)).bind fun w₄ A₄ _ l₄ hA => ?_
  exact pure ⟨hA ▸ s₃, he₃.mono l₄.toLe, hd.mono (l₃.trans l₄).toLe⟩

theorem elseHead {ls : ℕ × ℕ} {S : Set ℕ} (he : Knows w ls.1 S) (hd : Knows w ls.2 S)
    (hS : S ⊆ A) : Evaluates asks w A (elseHead ls) fun _ A' _ => A' = S := by
  refine (emitJmp hd (hS.trans Set.subset_union_left)).bind fun w₁ A₁ _ l₁ hA => ?_
  exact emitLabel (he.mono l₁.toLe) (hA ▸ Set.subset_univ S)

theorem whileHead (c : Expr) {S : Set ℕ} (hs : Scoped w S) (hS : S ⊆ A) :
    Evaluates asks w A (whileHead (genExpr Γ c)) fun w' A' ls =>
      A' = S ∧ Knows w' ls.top S ∧ Knows w' ls.done S := by
  refine newLabel_bind S fun w₁ t l₁ _ ht => newLabel_bind S fun w₂ b l₂ _ hb =>
    newLabel_bind S fun w₃ e l₃ _ he => ?_
  refine (setTargets _ _).bind fun w₄ A₄ _ l₄ hA => ?_
  subst hA
  have ht₄ := ht.mono (l₂.trans (l₃.trans l₄)).toLe
  refine (emitLabel ht₄ hS).bind fun w₅ A₅ _ l₅ hA => ?_
  subst hA
  have hs₅ := hs.mono (l₁.trans (l₂.trans (l₃.trans (l₄.trans l₅)))) le_rfl
  refine value_bind (genExpr_evaluable Γ asks c) hs₅ fun w₆ A₆ v l₆ s₆ _ hv => ?_
  have he₆ := he.mono (l₄.trans (l₅.trans l₆)).toLe
  refine (emitJz hv he₆ (s₆.trans Set.subset_union_left)).bind fun w₇ A₇ _ l₇ hA => ?_
  subst hA
  have hb₇ := hb.mono (l₃.trans (l₄.trans (l₅.trans (l₆.trans l₇)))).toLe
  refine (emitLabel hb₇ s₆).bind fun w₈ A₈ _ l₈ hA => ?_
  have l := l₆.trans (l₇.trans l₈)
  exact pure ⟨hA, ht₄.mono (l₅.trans l).toLe, he₆.mono (l₇.trans l₈).toLe⟩

theorem doHead {S : Set ℕ} (hS : S ⊆ A) :
    Evaluates asks w A doHead fun w' A' ls =>
      A' = S ∧ Knows w' ls.body S ∧ Knows w' ls.cont S ∧ Knows w' ls.done S := by
  refine newLabel_bind S fun w₁ b l₁ _ hb => newLabel_bind S fun w₂ t l₂ _ ht =>
    newLabel_bind S fun w₃ e l₃ _ he => ?_
  refine (setTargets _ _).bind fun w₄ A₄ _ l₄ hA => ?_
  subst hA
  have hb₄ := hb.mono (l₂.trans (l₃.trans l₄)).toLe
  refine (emitLabel hb₄ hS).bind fun w₅ A₅ _ l₅ hA => ?_
  have l := l₄.trans l₅
  exact pure ⟨hA, hb₄.mono l₅.toLe, ht.mono (l₃.trans l).toLe, he.mono l.toLe⟩

theorem forHead (S : Set ℕ) :
    Evaluates asks w A forHead fun w' A' ls =>
      A' = A ∧ Knows w' ls.top S ∧ Knows w' ls.body S ∧ Knows w' ls.cont S ∧
        Knows w' ls.done S := by
  refine newLabel_bind S fun w₁ t l₁ _ ht => newLabel_bind S fun w₂ b l₂ _ hb =>
    newLabel_bind S fun w₃ i l₃ _ hi => newLabel_bind S fun w₄ e l₄ _ he => ?_
  refine (setTargets _ _).bind fun w₅ A₅ _ l₅ hA => ?_
  have l := l₄.trans l₅
  exact pure ⟨hA, ht.mono (l₂.trans (l₃.trans l)).toLe, hb.mono (l₃.trans l).toLe, hi.mono l.toLe,
    he.mono l₅.toLe⟩

end Evaluates

/-! ### Statements -/

/-- Does the statement declare variables of the scope it stands in? -/
def Stmt.declares : Stmt → Bool
  | .decl _ => true
  | .label _ _ _ s | .case _ _ _ _ s | .default _ _ _ s => s.declares
  | _ => false

/-- The first clause of a `for` is a declaration or an expression. -/
def ForInitWellPlaced : Option Stmt → Prop
  | none | some (.decl _) | some (.expr _) => True
  | _ => False

mutual

/-- A declaration stands in a block or in the first clause of a `for`, not as a branch or a
body. -/
def Stmt.WellPlaced : Stmt → Prop
  | .compound ss => StmtsWellPlaced ss
  | .ifElse _ _ _ t e => t.declares = false ∧ t.WellPlaced ∧ StmtOptWellPlaced e
  | .while _ _ _ b | .doWhile _ _ _ b | .switch _ _ _ b => b.declares = false ∧ b.WellPlaced
  | .for _ _ init _ _ b =>
      ForInitWellPlaced init ∧ b.declares = false ∧ b.WellPlaced
  | .label _ _ _ s | .case _ _ _ _ s | .default _ _ _ s => s.WellPlaced
  | _ => True

def StmtsWellPlaced : List Stmt → Prop
  | [] => True
  | s :: ss => s.WellPlaced ∧ StmtsWellPlaced ss

def StmtOptWellPlaced : Option Stmt → Prop
  | none => True
  | some s => s.declares = false ∧ s.WellPlaced

end

/-- What holds after code that starts in `w` and declares nothing in the scope around it. -/
def Kept {α : Type} (w : World) (w' : World) (A' : Set ℕ) (_ : α) : Prop :=
  Scoped w' A' ∧ w'.gen.scope = w.gen.scope

theorem Kept.done {α : Type} {w w' : World} {A' : Set ℕ} {a : α} (h : Kept w w' A' a) :
    Done w w' A' a := ⟨h.1, by rw [h.2]⟩

namespace Flows

variable {asks : ℤ → Set ℕ} {w : World} {A : Set ℕ} {Γ : TypeEnv}

theorem withScope {m : Gen Unit} (hs : Scoped w A)
    (hm : ∀ w₁, Le w w₁ → Scoped w₁ A → w₁.gen = (pushScope w.gen).2 →
      Flows asks w₁ A m fun _ A' _ => scopeTemps w.gen.scope ⊆ A') :
    Flows asks w A (withScope m) (Kept w) := by
  let w₁ : World := ⟨(pushScope w.gen).2, w.plan⟩
  have hle : Le w w₁ := ⟨⟨fun _ _ => rfl, fun _ _ => rfl⟩, le_rfl, le_rfl⟩
  have hvars : Scoped w₁ A := by
    intro fr hfr b p hp
    rcases List.mem_cons.mp hfr with rfl | hfr
    · simp at hp
    · exact (hs fr hfr b p hp).mono hle Set.Subset.rfl
  have hpush : Flows asks w A pushScope fun w' A' _ => w' = w₁ ∧ A' = A :=
    of_func_eq rfl ⟨rfl, rfl⟩
  change Flows asks w A (pushScope >>= fun _ => m >>= fun _ =>
    modify fun g => { g with scope := w.gen.scope }) _
  refine hpush.bind fun w' A' _ _ h => ?_
  obtain ⟨rfl, rfl⟩ := h
  refine (hm w₁ hle hvars rfl).bind fun w₂ A₂ _ hle₂ hA₂ => ?_
  have hle' := hle.trans hle₂
  have hle'' : Le w ⟨{ w₂.gen with scope := w.gen.scope }, w₂.plan⟩ :=
    ⟨⟨hle'.plan.live, hle'.plan.type⟩, hle'.temps, hle'.labels⟩
  have hscope := hs.of_subset hle'' rfl hA₂
  exact of_func_eq rfl ⟨hscope, rfl⟩

/-- Restoring targets at the end. -/
theorem keepTargets {m : Gen Unit} (hm : Flows asks w A m (Kept w)) :
    Flows asks w A (keepTargets m) (Kept w) := by
  change Flows asks w A (m >>= fun _ => modify fun g =>
    { g with breakLabel := w.gen.breakLabel, contLabel := w.gen.contLabel }) _
  exact hm.bind fun _ _ _ _ hk => of_func_eq rfl ⟨hk.1.of_func_eq rfl rfl, hk.2⟩

theorem keepSwitch {m : Gen Unit} (hm : Flows asks w A m (Kept w)) :
    Flows asks w A (keepSwitch m) (Kept w) := by
  change Flows asks w A (m >>= fun _ => modify fun g => { g with
    caseEntries := w.gen.caseEntries
    swDefaultLbl := w.gen.swDefaultLbl
    breakLabel := w.gen.breakLabel }) _
  exact hm.bind fun _ _ _ _ hk => of_func_eq rfl ⟨hk.1.of_func_eq rfl rfl, hk.2⟩

end Flows

/-- The lowering of `s` flows wherever it is ready. -/
def Lowers (Γ : TypeEnv) (asks : ℤ → Set ℕ) (s : Stmt) : Prop :=
  ∀ w A, Ready asks w A → AsksFor Γ asks s w.gen → Flows asks w A (genStmt Γ s) fun w' A' a =>
    Done w w' A' a ∧ (s.declares = false → w'.gen.scope = w.gen.scope)

/-- A branch or a body keeps the scope. -/
def LowersPart (Γ : TypeEnv) (asks : ℤ → Set ℕ) (s : Stmt) : Prop :=
  ∀ w A, Ready asks w A → AsksFor Γ asks s w.gen → Flows asks w A (genStmt Γ s) (Kept w)

theorem Lowers.part {Γ : TypeEnv} {asks : ℤ → Set ℕ} {s : Stmt} (h : Lowers Γ asks s)
    (hs : s.declares = false) : LowersPart Γ asks s := fun w A hr ha =>
  (h w A hr ha).mono fun _ _ _ _ hd => ⟨hd.1.1, hd.2 hs⟩

theorem Lowers.of_kept {Γ : TypeEnv} {asks : ℤ → Set ℕ} {s : Stmt}
    (h : LowersPart Γ asks s) : Lowers Γ asks s := fun w A hr ha =>
  (h w A hr ha).mono fun _ _ _ _ hk => ⟨hk.done, fun _ => hk.2⟩

namespace Flows

variable {asks : ℤ → Set ℕ} {w : World} {A : Set ℕ} {Γ : TypeEnv}

/-- The last piece of a statement that declares nothing. -/
theorem last {α : Type} {w₀ : World} {m : Gen α} {S : Set ℕ} (hs : Scoped w₀ S)
    (l : Later w₀ w) (hm : Evaluates asks w A m fun _ A' _ => A' = S) :
    Flows asks w A m (Kept w₀) :=
  Flows.mono hm fun _ _ _ hle hr => by
    have l' : Later w₀ _ := l.trans ⟨hle, hr.1⟩
    exact ⟨hs.mono l' hr.2.ge, l'.scope⟩

theorem scopeOnly (hr : Ready asks w A) : Scoped w (scopeTemps w.gen.scope) :=
  hr.vars.of_subset (.refl w) rfl Set.Subset.rfl

/-- A part that has kept the scope leaves what is in scope written. -/
theorem written_after {α : Type} {w₁ w₂ : World} {A₂ : Set ℕ} {a : α} (l : Later w w₁)
    (h : Kept w₁ w₂ A₂ a) : scopeTemps w.gen.scope ⊆ A₂ := by
  have h' := h.1.subset
  rwa [h.2, l.scope] at h'

theorem genIf (c : Expr) {t : Stmt} {e : Option Stmt} {ln cl : ℤ}
    (ht : LowersPart Γ asks t) (he : ∀ s ∈ e, LowersPart Γ asks s) (hr : Ready asks w A)
    (ha : AsksFor Γ asks (.ifElse ln cl c t e) w.gen) :
    Flows asks w A (genIf (genExpr Γ c) (genStmt Γ t) (genStmtOpt Γ e)) (Kept w) := by
  have hS := hr.vars.subset
  have hvars := scopeOnly hr
  refine Flows.bind_gen (Evaluates.ifHead c hr.vars hS) fun w₁ A₁ hle₁ hg₁ h₁ => ?_
  obtain ⟨hsc₁, hA₁, hels, hend⟩ := h₁
  have l₁ : Later w w₁ := ⟨hle₁, hsc₁⟩
  have hin₁ : Inside Γ .plain (.ifElse ln cl c t e) w.gen t w₁.gen := hg₁ ▸ .thenStmt
  have hr₁ := hr.later l₁ (hS.trans hA₁) hin₁.context hin₁.gotoLabels
  refine (ht w₁ A₁ hr₁ (ha.inside hin₁)).bind_gen fun w₂ A₂ hle₂ hg₂ hk₂ => ?_
  have hS₂ := written_after l₁ hk₂
  have l₂ : Later w w₂ := l₁.trans ⟨hle₂, hk₂.2⟩
  cases e with
  | none => exact last hvars l₂ (Evaluates.emitLabel (hels.mono hle₂) hS₂)
  | some e =>
    refine Flows.bind_gen (Evaluates.elseHead (hels.mono hle₂) (hend.mono hle₂) hS₂)
      fun w₃ A₃ hle₃ hg₃ h₃ => ?_
    obtain ⟨hsc₃, rfl⟩ := h₃
    have l₃ : Later w w₃ := l₂.trans ⟨hle₃, hsc₃⟩
    have hin₃ : Inside Γ .plain (.ifElse ln cl c t (some e)) w.gen e w₃.gen := by
      rw [hg₃, hg₂, hg₁]
      exact .elseStmt
    have hr₃ := hr.later l₃ Set.Subset.rfl hin₃.context hin₃.gotoLabels
    refine (he e rfl w₃ _ hr₃ (ha.inside hin₃)).bind fun w₄ A₄ _ hle₄ hk₄ => ?_
    exact last hvars (l₃.trans ⟨hle₄, hk₄.2⟩)
      (Evaluates.emitLabel (hend.mono (hle₂.trans (hle₃.trans hle₄))) (written_after l₃ hk₄))

theorem genWhile (c : Expr) {b : Stmt} {ln cl : ℤ} (hb : LowersPart Γ asks b)
    (hr : Ready asks w A) (ha : AsksFor Γ asks (.while ln cl c b) w.gen) :
    Flows asks w A (genWhile (genExpr Γ c) (genStmt Γ b)) (Kept w) := by
  have hvars := scopeOnly hr
  refine keepTargets (Flows.bind_gen (Evaluates.whileHead c hvars hr.vars.subset)
    fun w₁ A₁ hle₁ hg₁ h₁ => ?_)
  obtain ⟨hsc₁, rfl, htop, hdone⟩ := h₁
  have l₁ : Later w w₁ := ⟨hle₁, hsc₁⟩
  have hin : Inside Γ .loop (.while ln cl c b) w.gen b w₁.gen := hg₁ ▸ .whileBody
  have hcases : w₁.gen.cases = w.gen.cases :=
    hg₁ ▸ Keeps.whileHead stable_cases Keeps.setTargets_cases Γ c w.gen
  have hbreak : w₁.gen.breakLabel = (TinyC.whileHead (genExpr Γ c) w.gen).1.done :=
    hg₁ ▸ ((genNode_emits Γ c).expr _).breakLabel
  have hcont : w₁.gen.contLabel = (TinyC.whileHead (genExpr Γ c) w.gen).1.top :=
    hg₁ ▸ ((genNode_emits Γ c).expr _).contLabel
  have hr₁ := hr.enter hle₁ (hvars.mono l₁ Set.Subset.rfl) (congrArg Prod.fst hcases)
    hin.gotoLabels (by rw [hsc₁]) (hbreak ▸ hdone) (hcont ▸ htop)
  refine (hb w₁ _ hr₁ (ha.inside hin)).bind fun w₂ A₂ _ hle₂ hk₂ => ?_
  have l₂ : Later w₁ w₂ := ⟨hle₂, hk₂.2⟩
  refine Flows.bind (Evaluates.emitJmp (htop.mono hle₂)
    ((written_after l₁ hk₂).trans Set.subset_union_left)) fun w₃ A₃ _ hle₃ h₃ => ?_
  exact last hvars (l₁.trans (l₂.trans ⟨hle₃, h₃.1⟩)) (Evaluates.emitLabel
    (hdone.mono (hle₂.trans hle₃)) (h₃.2 ▸ Set.subset_univ _))

theorem genDoWhile (c : Expr) {b : Stmt} {ln cl : ℤ} (hb : LowersPart Γ asks b)
    (hr : Ready asks w A) (ha : AsksFor Γ asks (.doWhile ln cl c b) w.gen) :
    Flows asks w A (genDoWhile (genExpr Γ c) (genStmt Γ b)) (Kept w) := by
  have hvars := scopeOnly hr
  refine keepTargets (Flows.bind_gen (Evaluates.doHead hr.vars.subset)
    fun w₁ A₁ hle₁ hg₁ h₁ => ?_)
  obtain ⟨hsc₁, rfl, hbody, hcont, hdone⟩ := h₁
  have l₁ : Later w w₁ := ⟨hle₁, hsc₁⟩
  have hin : Inside Γ .loop (.doWhile ln cl c b) w.gen b w₁.gen := hg₁ ▸ .doBody
  have hbreak : w₁.gen.breakLabel = (TinyC.doHead w.gen).1.done := hg₁ ▸ rfl
  have hcont₁ : w₁.gen.contLabel = (TinyC.doHead w.gen).1.cont := hg₁ ▸ rfl
  have hcases : w₁.gen.caseEntries = w.gen.caseEntries := hg₁ ▸ rfl
  have hr₁ := hr.enter hle₁ (hvars.mono l₁ Set.Subset.rfl) hcases hin.gotoLabels (by rw [hsc₁])
    (hbreak ▸ hdone) (hcont₁ ▸ hcont)
  refine (hb w₁ _ hr₁ (ha.inside hin)).bind fun w₂ A₂ _ hle₂ hk₂ => ?_
  have l₂ : Later w₁ w₂ := ⟨hle₂, hk₂.2⟩
  refine Flows.bind (Evaluates.emitLabel (hcont.mono hle₂) (written_after l₁ hk₂))
    fun w₃ A₃ _ hle₃ h₃ => ?_
  obtain ⟨hsc₃, rfl⟩ := h₃
  have l₃ : Later w₁ w₃ := l₂.trans ⟨hle₃, hsc₃⟩
  have hvars₃ := hvars.mono (l₁.trans l₃) Set.Subset.rfl
  refine Flows.bind (genExpr_evaluable Γ asks c w₃ _ hvars₃) fun w₄ A₄ v hle₄ h₄ => ?_
  have l₄ : Later w₁ w₄ := l₃.trans ⟨hle₄, h₄.1⟩
  refine Flows.bind (Evaluates.emitJnz h₄.2.2 (hbody.mono l₄.toLe)
    (h₄.2.1.trans Set.subset_union_left)) fun w₅ A₅ _ hle₅ h₅ => ?_
  exact last hvars (l₁.trans (l₄.trans ⟨hle₅, h₅.1⟩)) (Evaluates.emitLabel
    (hdone.mono (l₄.toLe.trans hle₅)) (h₅.2 ▸ h₄.2.1))

theorem genDecls (ds : List Decl) (hs : Scoped w A) :
    Flows asks w A (genDecls Γ ds) (Done w) := by
  induction ds generalizing w A with
  | nil => exact .pure ⟨hs, Set.Subset.rfl⟩
  | cons d ds ih =>
    cases d with
    | var v =>
      let ty := v.declType.getD typeInt
      refine Flows.bind (m := genVarDecl Γ v) (R := Done w) ?_ fun w₁ A₁ _ hle₁ h₁ =>
        (ih h₁.1).mono fun w₂ A₂ _ hle₂ h₂ => ⟨h₂.1, h₁.2.trans h₂.2⟩
      refine Flows.bind (Evaluates.genAlloca Γ ty) fun w₁ A₁ addr hle₁ h₁ => ?_
      obtain ⟨hsc₁, hA₁, haddr⟩ := h₁
      have hs₁ : Scoped w₁ A₁ := hs.mono ⟨hle₁, hsc₁⟩ hA₁
      let w₂ : World := ⟨(vscopeDefine v.name addr false w₁.gen).2, w₁.plan⟩
      have hdefine : Flows asks w₁ A₁ (vscopeDefine v.name addr false) fun w' A' _ =>
          w' = w₂ ∧ A' = A₁ := of_func_eq rfl ⟨rfl, rfl⟩
      refine hdefine.bind fun w' A' _ hle₂ h₂ => ?_
      obtain ⟨rfl, rfl⟩ := h₂
      have hs₂ : Scoped w₂ A' := hs₁.define haddr v.name false
      have hgrow : scopeTemps w.gen.scope ⊆ scopeTemps w₂.gen.scope :=
        hsc₁ ▸ scopeTemps_define _ _ _ _
      have haddr₂ : Valid w₂ A' addr := haddr.mono hle₂ Set.Subset.rfl
      cases v.init with
      | none => exact .pure ⟨hs₂, hgrow⟩
      | some e =>
        exact Flows.mono ((genNode_flows Γ asks e).init w₂ A' addr ty hs₂ haddr₂)
          fun w₃ A₃ _ hle₃ h₃ => ⟨hs₂.mono ⟨hle₃, h₃.1⟩ h₃.2, by rw [h₃.1]; exact hgrow⟩
    | typedef _ _ => exact ih hs
    | agg _ => exact ih hs
    | enum _ => exact ih hs

theorem forInit (init : Option Stmt) (hp : ForInitWellPlaced init) (hs : Scoped w A) :
    Flows asks w A ((genStmtOpt Γ init).getD (return)) (Done w) := by
  cases init with
  | none => exact .pure ⟨hs, Set.Subset.rfl⟩
  | some s =>
    cases s with
    | decl ds => exact genDecls ds hs
    | expr e =>
      exact Flows.mono (Evaluates.genEffect e hs) fun _ _ _ hle hr =>
        ⟨hs.mono ⟨hle, hr.1⟩ hr.2, by rw [hr.1]⟩
    | _ => exact hp.elim

end Flows

namespace Evaluates

variable {asks : ℤ → Set ℕ} {w : World} {A : Set ℕ} {Γ : TypeEnv}

theorem forTest (c : Option Expr) {ls : LoopLabels} {S : Set ℕ} (hs : Scoped w S) (hS : S ⊆ A)
    (ht : Knows w ls.top S) (hb : Knows w ls.body S) (hd : Knows w ls.done S) :
    Evaluates asks w A (forTest (c.map (genExpr Γ)) ls) fun _ A' _ => A' = S := by
  refine (emitLabel ht hS).bind fun w₁ A₁ _ l₁ hA => ?_
  subst hA
  have htest : Evaluates asks w₁ A₁ (genLoopTest (c.map (genExpr Γ)) ls.done) (Leaves A₁) := by
    cases c with
    | none => exact pure Set.Subset.rfl
    | some c =>
      refine value_bind (genExpr_evaluable Γ asks c) (hs.mono l₁ le_rfl)
        fun w₂ A₂ v l₂ s₂ _ hv => ?_
      exact (emitJz hv (hd.mono (l₁.trans l₂).toLe) (s₂.trans Set.subset_union_left)).mono
        fun _ _ _ _ hA => hA ▸ s₂
  refine htest.bind fun w₂ A₂ _ l₂ s₂ => ?_
  exact emitLabel (hb.mono (l₁.trans l₂).toLe) s₂

theorem forTail (e : Option Expr) {ls : LoopLabels} {S : Set ℕ} (hs : Scoped w S) (hS : S ⊆ A)
    (ht : Knows w ls.top S) (hc : Knows w ls.cont S) (hd : Knows w ls.done S) :
    Evaluates asks w A (forTail (e.map (genExpr Γ)) ls) fun _ A' _ => A' = S := by
  refine (emitLabel hc hS).bind fun w₁ A₁ _ l₁ hA => ?_
  subst hA
  refine (genEffect e (hs.mono l₁ le_rfl)).bind fun w₂ A₂ _ l₂ s₂ => ?_
  have l := l₁.trans l₂
  refine (emitJmp (ht.mono l.toLe) (Set.Subset.trans s₂ Set.subset_union_left)).bind
    fun w₃ A₃ _ l₃ hA => ?_
  exact emitLabel (hd.mono (l.trans l₃).toLe) (hA ▸ Set.subset_univ _)

end Evaluates

namespace Flows

variable {asks : ℤ → Set ℕ} {w : World} {A : Set ℕ} {Γ : TypeEnv}

theorem genFor (init : Option Stmt) (c incr : Option Expr) {b : Stmt} {ln cl : ℤ}
    (hp : ForInitWellPlaced init) (hb : LowersPart Γ asks b) (hr : Ready asks w A)
    (ha : AsksFor Γ asks (.for ln cl init c incr b) w.gen) :
    Flows asks w A (genFor ((genStmtOpt Γ init).getD (return)) (c.map (genExpr Γ))
      (incr.map (genExpr Γ)) (genStmt Γ b)) (Kept w) := by
  -- the variables of the first clause are written at all labels of the loop
  let S := scopeTemps
    ((genStmtOpt Γ init).getD (return) (pushScope (TinyC.forHead w.gen).2).2).2.scope
  refine keepTargets (Flows.bind_gen (Evaluates.forHead S) fun w₁ A₁ hle₁ hg₁ h₁ => ?_)
  obtain ⟨hsc₁, rfl, htop, hbody, hcont, hdone⟩ := h₁
  have l₁ : Later w w₁ := ⟨hle₁, hsc₁⟩
  have hs₁ := hr.vars.mono l₁ Set.Subset.rfl
  refine (withScope hs₁ fun w₂ hle₂ hs₂ hg₂ => ?_).mono fun _ _ _ _ hk => ⟨hk.1, hk.2.trans hsc₁⟩
  refine (forInit init hp hs₂).bind_gen fun w₃ A₃ hle₃ hg₃ h₃ => ?_
  have hS₃ : scopeTemps w₃.gen.scope = S := by rw [hg₃, hg₂, hg₁]
  have hs₃ : Scoped w₃ S := h₃.1.of_subset (.refl w₃) rfl hS₃.le
  have hle₁₃ := hle₂.trans hle₃
  refine Flows.bind_gen (Evaluates.forTest c hs₃ (hS₃ ▸ h₃.1.subset) (htop.mono hle₁₃)
    (hbody.mono hle₁₃) (hdone.mono hle₁₃)) fun w₄ A₄ hle₄ hg₄ h₄ => ?_
  obtain ⟨hsc₄, rfl⟩ := h₄
  have l₄ : Later w₃ w₄ := ⟨hle₄, hsc₄⟩
  have hle₁₄ := hle₁₃.trans hle₄
  have hin : Inside Γ .loop (.for ln cl init c incr b) w.gen b w₄.gen := by
    rw [hg₄, hg₃, hg₂, hg₁]
    exact .forBody
  have hinit : Keeps IrGen.context ((genStmtOpt Γ init).getD (return)) := by
    cases init with
    | none => exact .pure _
    | some s => exact genStmt_context Γ s
  have hctx : w₄.gen.context = (TinyC.forHead w.gen).2.context := by
    rw [hg₄, hg₃, hg₂, hg₁]
    exact (Keeps.forTest stable_context Γ c _ _).trans (hinit _)
  have hbreak : w₄.gen.breakLabel = (TinyC.forHead w.gen).1.done :=
    congrArg Context.breakLabel hctx
  have hcont₄ : w₄.gen.contLabel = (TinyC.forHead w.gen).1.cont := congrArg Context.contLabel hctx
  have hcases : w₄.gen.caseEntries = w.gen.caseEntries := congrArg Context.caseEntries hctx
  have hr₄ := hr.enter (hle₁.trans hle₁₄) (hs₃.mono l₄ Set.Subset.rfl) hcases hin.gotoLabels
    (by rw [hsc₄, hS₃]) (hbreak ▸ hdone.mono hle₁₄) (hcont₄ ▸ hcont.mono hle₁₄)
  refine (hb w₄ _ hr₄ (ha.inside hin)).bind fun w₅ A₅ _ hle₅ hk₅ => ?_
  have hS₅ : S ⊆ A₅ := by
    have h := hk₅.1.subset
    rwa [hk₅.2, hsc₄, hS₃] at h
  have l₅ : Later w₃ w₅ := l₄.trans ⟨hle₅, hk₅.2⟩
  have hle₁₅ := hle₁₄.trans hle₅
  refine Flows.mono (Evaluates.forTail incr (hs₃.mono l₅ Set.Subset.rfl) hS₅ (htop.mono hle₁₅)
    (hcont.mono hle₁₅) (hdone.mono hle₁₅)) fun w₆ A₆ _ hle₆ h₆ => ?_
  have hpush : scopeTemps w₂.gen.scope = scopeTemps w₁.gen.scope := hg₂ ▸ scopeTemps_push _
  rw [h₆.2, ← hS₃, ← hpush]
  exact h₃.2

/-- A `return` ends the path. -/
theorem emitRet {v : IRValue} (hs : Scoped w A) (hv : Valid w A v) :
    Flows asks w A (TinyC.emit { op := .ret, src1 := v }) (Kept w) := by
  have hops : ∀ u ∈ ({ op := .ret, src1 := v } : IRInstr).operands, Valid w A u := by
    simp [IRInstr.operands, IRInstr.usesDst, Valid.irvNone, hv]
  have hwithin := Evaluates.within_of hops (by simp [irvNone])
  have h : Evaluates asks w A (TinyC.emit { op := .ret, src1 := v }) fun _ A' _ => A' = Set.univ :=
    .emit_of (by simp) hwithin fun P hP => ⟨⟨Evaluates.reads_subset hops, trivial⟩,
      Set.Subset.rfl, Evaluates.fits_of hP hops (by simp [irvNone])⟩
  exact last (hs.mono (.refl w) (Set.subset_univ A)) (.refl w) h

theorem genReturn (e : Option Expr) (hs : Scoped w A) :
    Flows asks w A (genReturn (e.map fun e => (e.typeOrInt, genNode Γ e))) (Kept w) := by
  cases e with
  | none => exact emitRet hs .irvNone
  | some e =>
    have hn := genNode_flows Γ asks e
    have hvalue := Evaluable.ite (p := isAggregateType (some (returnType w.gen.func.funcType
      e.typeOrInt)) = true) hn.aggAddr hn.expr w A hs
    change Flows asks w A ((if isAggregateType (some (returnType w.gen.func.funcType
      e.typeOrInt)) then (genNode Γ e).aggAddr else (genNode Γ e).expr) >>= fun rv =>
        TinyC.emit { op := .ret, src1 := rv }) _
    refine Flows.bind hvalue fun w₁ A₁ v hle₁ h₁ => ?_
    have l₁ : Later w w₁ := ⟨hle₁, h₁.1⟩
    exact (emitRet (hs.mono l₁ h₁.2.1) h₁.2.2).mono fun _ _ _ _ hk => ⟨hk.1, hk.2.trans l₁.scope⟩

/-- A jump out of the statement. -/
theorem jump {l : ℕ} {S : Set ℕ} (hs : Scoped w A) (hl : Knows w l S) (hS : S ⊆ A ∪ asks l) :
    Flows asks w A (TinyC.emitJmp l) (Kept w) :=
  last (hs.mono (.refl w) (Set.subset_univ A)) (.refl w) (Evaluates.emitJmp hl hS)

theorem emitBreak (hr : Ready asks w A) : Flows asks w A emitBreak (Kept w) := by
  change Flows asks w A (if w.gen.breakLabel = 0 then return else TinyC.emitJmp w.gen.breakLabel) _
  split
  case isTrue => exact .pure ⟨hr.vars, rfl⟩
  case isFalse h =>
    obtain ⟨S, hS, hl⟩ := hr.targets _ (.inl rfl) h
    exact jump hr.vars hl ((hS.trans hr.vars.subset).trans Set.subset_union_left)

theorem emitContinue (hr : Ready asks w A) : Flows asks w A emitContinue (Kept w) := by
  change Flows asks w A (if w.gen.contLabel = 0 then return else TinyC.emitJmp w.gen.contLabel) _
  split
  case isTrue => exact .pure ⟨hr.vars, rfl⟩
  case isFalse h =>
    obtain ⟨S, hS, hl⟩ := hr.targets _ (.inr rfl) h
    exact jump hr.vars hl ((hS.trans hr.vars.subset).trans Set.subset_union_left)

theorem emitGoto (name : String) (hr : Ready asks w A) :
    Flows asks w A (emitGoto name) (Kept w) := by
  rcases emitGoto_cases name w.gen with ⟨-, hrun⟩ | ⟨l, hl, hrun⟩
  · exact .congr hrun (.pure ⟨hr.vars, rfl⟩)
  · obtain ⟨before, after, heq, -⟩ := List.lookup_eq_some_iff.mp hl
    apply Flows.congr hrun
    exact jump hr.vars (hr.gotos (name, l) (heq ▸ List.mem_append_right before List.mem_cons_self))
      Set.subset_union_right

/-- A label that asks for the variables in scope. -/
theorem ownLabel_placed {l : ℕ} (hr : Ready asks w A) (hl : Knows w l (asks l))
    (ha : scopeTemps w.gen.scope ⊆ asks l) :
    Flows asks w A (TinyC.emitLabel l) (Kept w) :=
  last (hr.vars.of_subset (.refl w) rfl (Set.subset_inter hr.vars.subset ha)) (.refl w)
    (Evaluates.placeLabel hl)

theorem emitCaseLabel (node : ℕ) (isDefault : Bool) (hr : Ready asks w A)
    (ha : ∀ ce, w.gen.caseEntries.find? (fun ce => ce.node = node && ce.isDefault = isDefault) =
      some ce → scopeTemps w.gen.scope ⊆ asks ce.labelId) :
    Flows asks w A (emitCaseLabel node isDefault) (Kept w) := by
  rcases emitCaseLabel_cases node isDefault w.gen with ⟨-, hrun⟩ | ⟨ce, hce, hrun⟩
  · exact .congr hrun (.pure ⟨hr.vars, rfl⟩)
  · apply Flows.congr hrun
    exact ownLabel_placed hr (hr.cases ce (List.mem_of_find?_eq_some hce)) (ha ce hce)

theorem emitNamedLabel (name : String) (hr : Ready asks w A)
    (ha : ∀ l, w.gen.gotoLabels.lookup name = some l → scopeTemps w.gen.scope ⊆ asks l) :
    Flows asks w A (emitNamedLabel name) (Kept w) := by
  rcases emitNamedLabel_cases name w.gen with ⟨-, hrun⟩ | ⟨l, hl, hrun⟩
  · exact .congr hrun (.pure ⟨hr.vars, rfl⟩)
  · obtain ⟨before, after, heq, -⟩ := List.lookup_eq_some_iff.mp hl
    apply Flows.congr hrun
    exact ownLabel_placed hr
      (hr.gotos (name, l) (heq ▸ List.mem_append_right before List.mem_cons_self)) (ha l hl)

end Flows

/-- The labels of the cases that are collected. -/
structure World.Cases (asks : ℤ → Set ℕ) (w : World) : Prop where
  entries : ∀ ce ∈ w.gen.caseEntries, Knows w ce.labelId (asks ce.labelId)
  default : w.gen.swDefaultLbl ≠ 0 → Knows w w.gen.swDefaultLbl (asks w.gen.swDefaultLbl)

theorem World.Cases.later {asks : ℤ → Set ℕ} {w w' : World} (h : Cases asks w) (hle : Le w w')
    (hcases : w'.gen.cases = w.gen.cases) : Cases asks w' where
  entries ce hce := by
    have heq : w'.gen.caseEntries = w.gen.caseEntries := congrArg Prod.fst hcases
    exact (h.entries ce (heq ▸ hce)).mono hle
  default hd := by
    have heq : w'.gen.swDefaultLbl = w.gen.swDefaultLbl := congrArg Prod.snd hcases
    rw [heq] at hd ⊢
    exact (h.default hd).mono hle

namespace Evaluates

variable {asks : ℤ → Set ℕ} {w : World} {A : Set ℕ} {Γ : TypeEnv}

theorem keeping {α γ : Type} {f : IrGen → γ} {m : Gen α} {R : World → Set ℕ → α → Prop}
    (h : Evaluates asks w A m R) (hf : Keeps f m) :
    Evaluates asks w A m fun w' A' a => R w' A' a ∧ f w'.gen = f w.gen := by
  intro hpos
  obtain ⟨P, B, he, hs, hr⟩ := h hpos
  exact ⟨P, B, he, hs, hr, hf w.gen⟩

/-- What the scan for cases does to the plan. -/
def Collects (asks : ℤ → Set ℕ) (m : Gen Unit) : Prop :=
  ∀ w A, Cases asks w → Evaluates asks w A m fun w' A' _ => A' = A ∧ Cases asks w'

theorem Collects.pure : Collects asks (Pure.pure ()) := fun _ _ h => .pure ⟨rfl, h⟩

theorem Collects.seq {m k : Gen Unit} (hm : Collects asks m) (hk : Collects asks k) :
    Collects asks (m >>= fun _ => k) := fun w A h =>
  (hm w A h).bind fun w₁ A₁ _ _ h₁ => h₁.1 ▸ hk w₁ A₁ h₁.2

theorem addCase (node : ℕ) (val : BitVec 64) (isDefault : Bool) :
    Collects asks (addCase node val isDefault) := by
  intro w A h
  refine ((newLabel fun l => asks l).keeping (Keeps.newLabel stable_cases)).bind
    fun w₁ A₁ l l₁ h₁ => ?_
  obtain ⟨⟨hA, -, hl⟩, hkeep⟩ := h₁
  have hc := h.later l₁.toLe hkeep
  refine Flows.of_func_eq rfl ⟨rfl, hA, fun ce hce => ?_, fun hd => ?_⟩
  · rcases List.mem_cons.mp hce with rfl | hce
    · exact ⟨hl.taken, hl.live⟩
    · exact ⟨(hc.entries ce hce).taken, (hc.entries ce hce).live⟩
  · cases isDefault with
    | true => exact ⟨hl.taken, hl.live⟩
    | false => exact ⟨(hc.default hd).taken, (hc.default hd).live⟩

end Evaluates

theorem collectSwitchCases_collects (asks : ℤ → Set ℕ) (s : Stmt) :
    Evaluates.Collects asks (collectSwitchCases s) :=
  collectSwitchCases_rule .pure .seq .addCase s

namespace Evaluates

variable {asks : ℤ → Set ℕ} {w : World} {A : Set ℕ} {Γ : TypeEnv}

theorem genDispatch {sv : IRValue} (ty : CType) {ces : List CaseEntry} (hsv : Valid w A sv)
    (hces : ∀ ce ∈ ces, Knows w ce.labelId (asks ce.labelId)) :
    Evaluates asks w A (genDispatch sv ty ces) (Leaves A) := by
  induction ces generalizing w A with
  | nil => exact pure Set.Subset.rfl
  | cons ce ces ih =>
    have hl := hces ce List.mem_cons_self
    have htest : Evaluates asks w A (genCaseTest sv ty ce) (Leaves A) := by
      refine ite (fun _ => pure Set.Subset.rfl) fun _ => ?_
      refine (emitTo (fun _ => ⟨rfl, rfl, by simp⟩) hsv (.irvInt _ _)).yields_bind
        fun w₁ A₁ cmp l₁ s₁ hcmp => ?_
      exact (emitJnz hcmp (hl.mono l₁.toLe) Set.subset_union_right).mono
        fun _ _ _ _ hA => Set.Subset.trans s₁ hA.ge
    refine htest.leaves_bind fun w₁ A₁ _ l₁ s₁ => ?_
    exact (ih (hsv.mono l₁.toLe s₁) fun ce' hce' =>
      (hces ce' (List.mem_cons_of_mem ce hce')).mono l₁.toLe).widenLeaves s₁

theorem switchHead {collect : Gen Unit} (e : Expr) (hs : Scoped w A)
    (hc : Collects asks collect) (hb : Keeps IrGen.breakLabel collect) {S : Set ℕ} (hS : S ⊆ A) :
    Evaluates asks w A (switchHead collect (genExpr Γ e)) fun w' A' l =>
      A' = Set.univ ∧ Knows w' l S ∧ Cases asks w' ∧ w'.gen.breakLabel = l := by
  refine newLabel_bind S fun w₁ d l₁ _ hd => ?_
  let w₂ : World := ⟨{ w₁.gen with breakLabel := d, caseEntries := [], swDefaultLbl := 0 }, w₁.plan⟩
  have hset : Evaluates asks w₁ A (modify fun g : IrGen =>
      { g with breakLabel := d, caseEntries := [], swDefaultLbl := 0 }) fun w' A' _ =>
        w' = w₂ ∧ A' = A := Flows.of_func_eq rfl ⟨rfl, rfl, rfl⟩
  refine hset.bind fun w' A' _ l₂ h₂ => ?_
  obtain ⟨rfl, rfl⟩ := h₂
  have hc₂ : Cases asks w₂ := ⟨by simp [w₂], by simp [w₂]⟩
  refine ((hc w₂ A' hc₂).keeping hb).bind fun w₃ A₃ _ l₃ h₃ => ?_
  obtain ⟨⟨rfl, hc₃⟩, hb₃⟩ := h₃
  have l₁₃ := l₁.trans (l₂.trans l₃)
  refine ((genExpr_evaluable Γ asks e w₃ _ (hs.mono l₁₃ Set.Subset.rfl)).keeping
    (Keeps.genExpr stable_context Γ e)).bind fun w₄ A₄ sv l₄ h₄ => ?_
  obtain ⟨⟨s₄, hsv⟩, hk₄⟩ := h₄
  have hcopy : Evaluates asks w₄ A₄ (TinyC.emitTo (sv.type.getD typeInt) .copy sv irvNone)
      (Yields A₄) := emitTo (fun _ => ⟨rfl, rfl, by simp⟩) hsv .irvNone
  replace hcopy := hcopy.keeping
    (Keeps.emitTo stable_context (sv.type.getD typeInt) .copy sv irvNone (by simp))
  refine hcopy.bind fun w₅ A₅ copy l₅ h₅ => ?_
  obtain ⟨⟨s₅, hcopy⟩, hk₅⟩ := h₅
  let cases (c : Context) := (c.caseEntries, c.swDefaultLbl)
  have hc₅ := (hc₃.later l₄.toLe (congrArg cases hk₄)).later l₅.toLe (congrArg cases hk₅)
  refine get_bind ?_
  refine ((genDispatch _ hcopy hc₅.entries).keeping
    (Keeps.genDispatch stable_context copy _ w₅.gen.caseEntries)).bind fun w₆ A₆ _ l₆ h₆ => ?_
  have hc₆ := hc₅.later l₆.toLe (congrArg cases h₆.2)
  have hd₆ := hd.mono (l₂.trans (l₃.trans (l₄.trans (l₅.trans l₆)))).toLe
  have hjump : Evaluates asks w₆ A₆
      (TinyC.emitJmp (if w₅.gen.swDefaultLbl = 0 then d else w₅.gen.swDefaultLbl))
      fun _ A' _ => A' = Set.univ := by
    split
    case isTrue =>
      have hS₆ : S ⊆ A₆ := (hS.trans s₄).trans (Set.Subset.trans s₅ h₆.1)
      exact emitJmp hd₆ (hS₆.trans Set.subset_union_left)
    case isFalse h0 => exact emitJmp ((hc₅.default h0).mono l₆.toLe) Set.subset_union_right
  refine (hjump.keeping (Keeps.emitJmp stable_context _)).bind fun w₇ A₇ _ l₇ h₇ => ?_
  have hctx := h₇.2.trans (h₆.2.trans (hk₅.trans hk₄))
  exact pure ⟨h₇.1, hd₆.mono l₇.toLe, hc₆.later l₇.toLe (congrArg cases h₇.2),
    (congrArg Context.breakLabel hctx).trans hb₃⟩

end Evaluates

namespace Flows

variable {asks : ℤ → Set ℕ} {w : World} {A : Set ℕ} {Γ : TypeEnv}

theorem genSwitch (e : Expr) {b : Stmt} {ln cl : ℤ} (hb : LowersPart Γ asks b)
    (hr : Ready asks w A) (ha : AsksFor Γ asks (.switch ln cl e b) w.gen) :
    Flows asks w A (genSwitch (collectSwitchCases b) (genExpr Γ e) (genStmt Γ b)) (Kept w) := by
  have hvars := scopeOnly hr
  refine keepSwitch (Flows.bind_gen (Evaluates.switchHead e hr.vars
    (collectSwitchCases_collects asks b) (collectSwitchCases_keeps (fun _ _ _ _ => rfl) b)
    hr.vars.subset) fun w₁ A₁ hle₁ hg₁ h₁ => ?_)
  obtain ⟨hsc₁, rfl, hdone, hcases, hbreak⟩ := h₁
  have l₁ : Later w w₁ := ⟨hle₁, hsc₁⟩
  have hin : Inside Γ .switch (.switch ln cl e b) w.gen b w₁.gen := hg₁ ▸ .switchBody
  have hr₁ : Ready asks w₁ Set.univ := by
    refine ⟨hr.vars.mono l₁ (Set.subset_univ A), fun l hl h0 => ?_, hcases.entries, fun p hp => ?_⟩
    · rw [hsc₁]
      rcases hl with rfl | rfl
      · exact ⟨_, Set.Subset.rfl, hbreak ▸ hdone⟩
      · rw [hin.switch_contLabel] at h0 ⊢
        obtain ⟨S, hS, hl⟩ := hr.targets _ (.inr rfl) h0
        exact ⟨S, hS, hl.mono hle₁⟩
    · exact (hr.gotos p (hin.gotoLabels ▸ hp)).mono hle₁
  refine (hb w₁ _ hr₁ (ha.inside hin)).bind fun w₂ A₂ _ hle₂ hk₂ => ?_
  exact last hvars (l₁.trans ⟨hle₂, hk₂.2⟩)
    (Evaluates.emitLabel (hdone.mono hle₂) (written_after l₁ hk₂))

/-- A statement under a label of its own. -/
theorem labelled {m : Gen Unit} {s s' : Stmt} (hs : Lowers Γ asks s')
    (hm : Flows asks w A m (Kept w)) (hin : Inside Γ .plain s w.gen s' (m w.gen).2)
    (hr : Ready asks w A) (ha : AsksFor Γ asks s w.gen) :
    Flows asks w A (m >>= fun _ => genStmt Γ s') fun w' A' a =>
      Done w w' A' a ∧ (s'.declares = false → w'.gen.scope = w.gen.scope) := by
  refine hm.bind_gen fun w₁ A₁ hle₁ hg₁ hk₁ => ?_
  rw [← hg₁] at hin
  have hr₁ := hr.after hle₁ hk₁.done hin.context hin.gotoLabels
  refine (hs w₁ A₁ hr₁ (ha.inside hin)).mono fun w₂ A₂ _ hle₂ h₂ => ?_
  rw [← hk₁.2]
  exact ⟨⟨h₂.1.1, hk₁.2 ▸ h₂.1.2⟩, h₂.2⟩

end Flows

mutual

/-- Every statement lowers to code that reads only what is written. -/
theorem genStmt_lowers (Γ : TypeEnv) (asks : ℤ → Set ℕ) :
    (s : Stmt) → s.WellPlaced → Lowers Γ asks s
  | .compound ss, hp => .of_kept fun w A hr ha => by
      have hss := genStmts_lowers Γ asks ss hp
      refine Flows.withScope hr.vars fun w₁ hle₁ hs₁ hg₁ => ?_
      have hpush : scopeTemps w₁.gen.scope = scopeTemps w.gen.scope := hg₁ ▸ scopeTemps_push _
      have hr₁ := hr.after hle₁ ⟨hs₁, hpush.ge⟩ (hg₁ ▸ rfl) (hg₁ ▸ rfl)
      refine (hss w₁ A hr₁ fun before s after heq => ?_).mono fun w₂ A₂ _ _ h₂ => ?_
      · subst heq
        rw [hg₁]
        exact ha.inside .item
      · exact hpush ▸ h₂.2.trans h₂.1.subset
  | .expr e, _ => .of_kept fun w A hr _ =>
      Flows.mono (Evaluates.genEffect e hr.vars) fun _ _ _ hle h => ⟨hr.vars.mono ⟨hle, h.1⟩ h.2, h.1⟩
  | .decl ds, _ => fun w A hr _ =>
      (Flows.genDecls ds hr.vars).mono fun _ _ _ _ hd => ⟨hd, by simp [Stmt.declares]⟩
  | .ifElse _ _ c t e, hp => .of_kept fun w A hr ha =>
      Flows.genIf c ((genStmt_lowers Γ asks t hp.2.1).part hp.1) (genStmtOpt_lowers Γ asks e hp.2.2)
        hr ha
  | .while _ _ c b, hp => .of_kept fun w A hr ha =>
      Flows.genWhile c ((genStmt_lowers Γ asks b hp.2).part hp.1) hr ha
  | .doWhile _ _ c b, hp => .of_kept fun w A hr ha =>
      Flows.genDoWhile c ((genStmt_lowers Γ asks b hp.2).part hp.1) hr ha
  | .for _ _ init c incr b, hp => .of_kept fun w A hr ha =>
      Flows.genFor init c incr hp.1 ((genStmt_lowers Γ asks b hp.2.2).part hp.2.1) hr ha
  | .ret _ _ e, _ => .of_kept fun _ _ hr _ => Flows.genReturn e hr.vars
  | .break _ _, _ => .of_kept fun _ _ hr _ => Flows.emitBreak hr
  | .continue _ _, _ => .of_kept fun _ _ hr _ => Flows.emitContinue hr
  | .goto _ _ name, _ => .of_kept fun _ _ hr _ => Flows.emitGoto name hr
  | .switch _ _ e b, hp => .of_kept fun w A hr ha =>
      Flows.genSwitch e ((genStmt_lowers Γ asks b hp.2).part hp.1) hr ha
  | .case node _ _ _ s, hp => fun w A hr ha =>
      Flows.labelled (genStmt_lowers Γ asks s hp) (Flows.emitCaseLabel node false hr fun ce hce =>
        ha _ _ ce.labelId (.refl _ _) (congrArg (Option.map CaseEntry.labelId) hce)) .case hr ha
  | .default node _ _ s, hp => fun w A hr ha =>
      Flows.labelled (genStmt_lowers Γ asks s hp) (Flows.emitCaseLabel node true hr fun ce hce =>
        ha _ _ ce.labelId (.refl _ _) (congrArg (Option.map CaseEntry.labelId) hce)) .default hr ha
  | .label _ _ name s, hp => fun w A hr ha =>
      Flows.labelled (genStmt_lowers Γ asks s hp) (Flows.emitNamedLabel name hr fun l hl =>
        ha _ _ l (.refl _ _) hl) .label hr ha

theorem genStmts_lowers (Γ : TypeEnv) (asks : ℤ → Set ℕ) :
    (ss : List Stmt) → StmtsWellPlaced ss → ∀ w A, Ready asks w A →
      (∀ before s after, ss = before ++ s :: after →
        AsksFor Γ asks s (genStmts Γ before w.gen).2) →
      Flows asks w A (genStmts Γ ss) (Done w)
  | [], _, _, _, hr, _ => .pure ⟨hr.vars, Set.Subset.rfl⟩
  | s :: ss, hp, w, A, hr, ha => by
      have hs := genStmt_lowers Γ asks s hp.1 w A hr (ha [] s ss rfl)
      have hss := genStmts_lowers Γ asks ss hp.2
      refine hs.bind_gen fun w₁ A₁ hle₁ hg₁ h₁ => ?_
      have hr₁ := hr.after hle₁ h₁.1 (hg₁ ▸ genStmt_context Γ s w.gen)
        (hg₁ ▸ ((genStmt_places Γ s).grows w.gen).gotoLabels)
      refine (hss w₁ A₁ hr₁ fun before s' after heq => ?_).mono fun _ _ _ _ h₂ =>
        ⟨h₂.1, h₁.1.2.trans h₂.2⟩
      have h := ha (s :: before) s' after (by rw [heq]; rfl)
      rw [hg₁]
      exact h

theorem genStmtOpt_lowers (Γ : TypeEnv) (asks : ℤ → Set ℕ) :
    (s : Option Stmt) → StmtOptWellPlaced s → ∀ x ∈ s, LowersPart Γ asks x
  | none, _ => by simp
  | some s, hp => by
      have hs := genStmt_lowers Γ asks s hp.2
      intro x hx
      obtain rfl := Option.some.inj hx
      exact hs.part hp.1

end

end TinyC
