import TinyC.MisplacedStatements
import TinyC.StmtFrame

/-!
# The context of the three passes

The parser, sema and irgen walk over nested statements and keep what encloses the current one. Each
comes out of a statement with the context it went in with.
-/

namespace TinyC

/-! ### Irgen -/

structure IrGen.SameContext (g g' : IrGen) : Prop where
  scope : SameChain g.scope g'.scope
  breakLabel : g'.breakLabel = g.breakLabel
  contLabel : g'.contLabel = g.contLabel
  caseEntries : g'.caseEntries = g.caseEntries
  swDefaultLbl : g'.swDefaultLbl = g.swDefaultLbl

/-- `m` defines names in the innermost scope only. -/
def KeepsScopes {α : Type} (m : Gen α) : Prop := ∀ g, SameChain g.scope (m g).2.scope

namespace KeepsScopes

variable {α β : Type} {m : Gen α} {k : α → Gen β}

theorem ofKeeps (h : Keeps IrGen.scope m) : KeepsScopes m := fun g => by
  rw [h g]
  exact .refl _

theorem pure (a : α) : KeepsScopes (Pure.pure a : Gen α) := fun _ => .refl _

theorem bind (hm : KeepsScopes m) (hk : ∀ a, KeepsScopes (k a)) : KeepsScopes (m >>= k) :=
  fun g => (hm g).trans (hk (m g).1 (m g).2)

theorem get_bind {k : IrGen → Gen β} (hk : ∀ g, KeepsScopes (k g)) : KeepsScopes (get >>= k) :=
  fun g => hk g g

theorem update {f : IrGen → IrGen} (hf : ∀ g, (f g).scope = g.scope) :
    KeepsScopes (modify f : Gen Unit) := .ofKeeps hf

theorem withScope (m : Gen Unit) : KeepsScopes (withScope m) := fun _ => .refl _

theorem keepTargets {m : Gen Unit} (h : KeepsScopes m) : KeepsScopes (keepTargets m) :=
  get_bind fun _ => bind h fun _ => update fun _ => rfl

theorem keepSwitch {m : Gen Unit} (h : KeepsScopes m) : KeepsScopes (keepSwitch m) :=
  get_bind fun _ => bind h fun _ => update fun _ => rfl

theorem genExpr (Γ : TypeEnv) (e : Expr) : KeepsScopes (genExpr Γ e) :=
  ofKeeps (.genExpr stable_scope Γ e)

theorem emitLabel (l : ℕ) : KeepsScopes (emitLabel l) := ofKeeps (.emitLabel stable_scope l)

theorem emitJmp (l : ℕ) : KeepsScopes (emitJmp l) := ofKeeps (.emitJmp stable_scope l)

theorem genDecls (Γ : TypeEnv) (ds : List Decl) : KeepsScopes (genDecls Γ ds) := by
  induction ds with
  | nil => exact pure _
  | cons d ds ih =>
    cases d with
    | var v =>
      have hdefine : ∀ addr, KeepsScopes (vscopeDefine v.name addr false) :=
        fun addr g => .define _ _ _ _
      refine bind (bind (ofKeeps (.ofEmits stable_scope (Emits.genAlloca Γ _))) fun _ =>
        bind (hdefine _) fun _ => ?_) fun _ => ih
      cases v.init with
      | none => exact pure _
      | some e => exact ofKeeps (.ofEmits stable_scope ((genNode_emits Γ e).init _ _))
    | _ => exact ih

theorem genIf (Γ : TypeEnv) (c : Expr) {t : Gen Unit} {e : Option (Gen Unit)}
    (ht : KeepsScopes t) (he : ∀ m ∈ e, KeepsScopes m) :
    KeepsScopes (genIf (TinyC.genExpr Γ c) t e) := by
  refine bind (ofKeeps (.ifHead stable_scope Γ c)) fun ls => bind ht fun _ => ?_
  cases e with
  | none => exact emitLabel _
  | some m =>
    exact bind (ofKeeps (.elseHead stable_scope ls)) fun _ => bind (he m rfl) fun _ => emitLabel _

theorem genWhile (Γ : TypeEnv) (c : Expr) {body : Gen Unit} (h : KeepsScopes body) :
    KeepsScopes (genWhile (TinyC.genExpr Γ c) body) :=
  keepTargets <| bind (ofKeeps (.whileHead stable_scope (fun _ _ _ => rfl) Γ c)) fun _ =>
    bind h fun _ => bind (emitJmp _) fun _ => emitLabel _

theorem genDoWhile (Γ : TypeEnv) (c : Expr) {body : Gen Unit} (h : KeepsScopes body) :
    KeepsScopes (genDoWhile (TinyC.genExpr Γ c) body) :=
  keepTargets <| bind (ofKeeps (.doHead stable_scope fun _ _ _ => rfl)) fun _ =>
    bind h fun _ => bind (emitLabel _) fun _ => bind (genExpr Γ c) fun _ =>
      bind (ofKeeps (.emit stable_scope (by simp))) fun _ => emitLabel _

theorem genFor (init : Gen Unit) (cond incr : Option (Gen IRValue)) (body : Gen Unit) :
    KeepsScopes (genFor init cond incr body) :=
  keepTargets <| bind (ofKeeps (.forHead stable_scope fun _ _ _ => rfl)) fun _ => withScope _

theorem genSwitch (Γ : TypeEnv) {collect body : Gen Unit} (e : Expr)
    (hcol : Keeps IrGen.scope collect) (h : KeepsScopes body) :
    KeepsScopes (genSwitch collect (TinyC.genExpr Γ e) body) := by
  have hhead : KeepsScopes (switchHead collect (TinyC.genExpr Γ e)) :=
    bind (ofKeeps (.newLabel stable_scope)) fun _ => bind (update fun _ => rfl) fun _ =>
      bind (ofKeeps hcol) fun _ => bind (genExpr Γ e) fun _ =>
        bind (ofKeeps (.emitTo stable_scope _ _ _ _ (by simp))) fun _ => get_bind fun _ =>
          bind (ofKeeps (.genDispatch stable_scope _ _ _)) fun _ =>
            bind (emitJmp _) fun _ => pure _
  exact keepSwitch <| bind hhead fun _ => bind h fun _ => emitLabel _

end KeepsScopes

mutual

/-- A statement leaves the scopes it was lowered in, but for its own declarations. -/
theorem genStmt_scopes (Γ : TypeEnv) (s : Stmt) : KeepsScopes (genStmt Γ s) := by
  cases s with
  | compound ss => exact .withScope _
  | expr e => exact .ofKeeps (.genEffect stable_scope Γ e)
  | decl ds => exact .genDecls Γ ds
  | ifElse ln cl c t e => exact .genIf Γ c (genStmt_scopes Γ t) (genStmtOpt_scopes Γ e)
  | «while» ln cl c b => exact .genWhile Γ c (genStmt_scopes Γ b)
  | doWhile ln cl c b => exact .genDoWhile Γ c (genStmt_scopes Γ b)
  | «for» ln cl init c incr b => exact .genFor _ _ _ _
  | ret ln cl e => exact .ofKeeps (.genReturn stable_scope Γ e)
  | «break» ln cl => exact .ofKeeps (.emitBreak stable_scope)
  | «continue» ln cl => exact .ofKeeps (.emitContinue stable_scope)
  | «switch» ln cl e b =>
    exact .genSwitch Γ e (collectSwitchCases_keeps (fun _ _ _ _ => rfl) b) (genStmt_scopes Γ b)
  | «case» n ln cl e b =>
    exact .bind (.ofKeeps (.emitCaseLabel stable_scope _ _)) fun _ => genStmt_scopes Γ b
  | default n ln cl b =>
    exact .bind (.ofKeeps (.emitCaseLabel stable_scope _ _)) fun _ => genStmt_scopes Γ b
  | goto ln cl l => exact .ofKeeps (.emitGoto stable_scope l)
  | label ln cl l b =>
    exact .bind (.ofKeeps (.emitNamedLabel stable_scope l)) fun _ => genStmt_scopes Γ b

theorem genStmtOpt_scopes (Γ : TypeEnv) (s : Option Stmt) :
    ∀ m ∈ genStmtOpt Γ s, KeepsScopes m := by
  cases s with
  | none => simp [genStmtOpt]
  | some s =>
    have hs := genStmt_scopes Γ s
    intro m hm
    obtain rfl : genStmt Γ s = m := by simpa [genStmtOpt] using hm
    exact hs

end

theorem genStmt_sameContext (Γ : TypeEnv) (s : Stmt) (g : IrGen) :
    g.SameContext (genStmt Γ s g).2 := by
  have hcontext := genStmt_context Γ s g
  simp only [IrGen.context, Context.mk.injEq] at hcontext
  exact ⟨genStmt_scopes Γ s g, hcontext.1, hcontext.2.1, hcontext.2.2.1, hcontext.2.2.2⟩

/-! ### All passes -/

/-- Whatever the tokens and the tree are, each pass returns with the context it was called with;
and sema reports the statements that C99 does not allow where they stand, and no other. -/
theorem traversal_restores_context {L : Type} [TokenSource L] :
    (∀ (n : ℕ) (p p' : Parser L) (s : RawStmt),
      parseStatement (parsers n) p = .ok (s, p') → p.SameContext p') ∧
    (∀ (n : ℕ) (ds : DeclSpec) (topLevel : Bool) (p p' : Parser L)
      (r : List RawDecl × Option RawFunc),
      parseDeclList (parsers n) ds topLevel p = .ok (r, p') → p.SameContext p') ∧
    (∀ (s s' : RawStmt) (σ σ' : Sema), checkStmt s σ = .ok (s', σ') → σ.SameContext σ' ∧
      ∃ new, σ'.diags = σ.diags ++ new ∧
        new.filter Diag.isMisplaced = s.misplaced σ.enclosing) ∧
    ∀ (Γ : TypeEnv) (s : Stmt) (g : IrGen), g.SameContext (genStmt Γ s g).2 := by
  refine ⟨?_, ?_, ?_, genStmt_sameContext⟩
  · intro n p p' s h
    exact sameContext_parseRules.parseStatement (sameContext_parseRules.parsers n) p s p' h
  · intro n ds topLevel p p' r h
    exact sameContext_parseRules.parseDeclList (sameContext_parseRules.parsers n) ds topLevel p r
      p' h
  · intro s s' σ σ' h
    exact checkStmt_faults s σ s' σ' h

/-- The parser before a block whose last `case` and `continue` are in no switch and no loop. -/
def misplacedBlock : Parser SourceText :=
  parserInit (sourceText ⟨fun _ => 0, fun _ => ""⟩
    ("{ while (1) { int x; { break; } switch (2) { case 1: continue; } } { case 3: continue; } }"
      |>.toList.map ch)) (typeTableInit arenaAddr)

theorem misplaced_block : ∃ s p s' σ,
    parseStatement (parsers 40) misplacedBlock = .ok (s, p) ∧ misplacedBlock.SameContext p ∧
      checkStmt s (semaInit p.types) = .ok (s', σ) ∧ (semaInit p.types).SameContext σ ∧
        σ.diags.filter Diag.isMisplaced = [⟨true, 1, 70, "'case' outside switch"⟩,
          ⟨true, 1, 78, "'continue' outside loop"⟩] := by
  have hrun : ((do
      let (s, p) ← parseStatement (parsers 40) misplacedBlock
      let _ ← checkStmt s (semaInit p.types)
      return s.misplaced ⟨false, false⟩ : Except Stuck (List Diag))).toOption =
        some [⟨true, 1, 70, "'case' outside switch"⟩, ⟨true, 1, 78, "'continue' outside loop"⟩] := by
    decide +kernel
  obtain ⟨hparser, -, hsema, -⟩ := traversal_restores_context (L := SourceText)
  cases hparse : parseStatement (parsers 40) misplacedBlock with
  | error e =>
    rw [hparse] at hrun
    cases hrun
  | ok r =>
    obtain ⟨s, p⟩ := r
    rw [hparse] at hrun
    cases hcheck : checkStmt s (semaInit p.types) with
    | error e =>
      simp only [bind, Except.bind, hcheck] at hrun
      cases hrun
    | ok r =>
      obtain ⟨s', σ⟩ := r
      simp only [bind, Except.bind, hcheck] at hrun
      obtain ⟨hcontext, new, hnew, hreport⟩ := hsema s s' _ σ hcheck
      refine ⟨s, p, s', σ, rfl, hparser 40 _ p s hparse, hcheck, hcontext, ?_⟩
      obtain rfl : σ.diags = new := hnew
      exact hreport.trans (Option.some.inj hrun)

end TinyC
