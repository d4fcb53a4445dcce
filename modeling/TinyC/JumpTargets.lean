import TinyC.ControlFlowStmt

/-!
# Where `break` and `continue` go

Whatever stands inside a loop or a switch, its `break` jumps to the label right at the end of
the code of the innermost one, and a `continue` to the point where the innermost loop goes on.
-/

namespace TinyC

/-- How a statement stands in another. -/
inductive Nesting where
  | plain | loop | switch | init

/-- `Inside Γ k s g s' g'`: to lower `s` in the state `g`, irgen lowers its part `s'` in `g'`. -/
inductive Inside (Γ : TypeEnv) : Nesting → Stmt → IrGen → Stmt → IrGen → Prop where
  | item {g : IrGen} {before after : List Stmt} {s : Stmt} :
      Inside Γ .plain (.compound (before ++ s :: after)) g s
        (genStmts Γ before (pushScope g).2).2
  | thenStmt {g : IrGen} {ln cl : ℤ} {c : Expr} {t : Stmt} {e : Option Stmt} :
      Inside Γ .plain (.ifElse ln cl c t e) g t (ifHead (genExpr Γ c) g).2
  | elseStmt {g : IrGen} {ln cl : ℤ} {c : Expr} {t e : Stmt} :
      Inside Γ .plain (.ifElse ln cl c t (some e)) g e
        ((ifHead (genExpr Γ c) >>= fun ls => genStmt Γ t >>= fun _ => elseHead ls) g).2
  | whileBody {g : IrGen} {ln cl : ℤ} {c : Expr} {b : Stmt} :
      Inside Γ .loop (.while ln cl c b) g b (whileHead (genExpr Γ c) g).2
  | doBody {g : IrGen} {ln cl : ℤ} {c : Expr} {b : Stmt} :
      Inside Γ .loop (.doWhile ln cl c b) g b (doHead g).2
  | forBody {g : IrGen} {ln cl : ℤ} {init : Option Stmt} {c incr : Option Expr} {b : Stmt} :
      Inside Γ .loop (.for ln cl init c incr b) g b
        ((forHead >>= fun ls => pushScope >>= fun _ =>
          (genStmtOpt Γ init).getD (return) >>= fun _ => forTest (c.map (genExpr Γ)) ls) g).2
  | switchBody {g : IrGen} {ln cl : ℤ} {e : Expr} {b : Stmt} :
      Inside Γ .switch (.switch ln cl e b) g b
        (switchHead (collectSwitchCases b) (genExpr Γ e) g).2
  | forInit {g : IrGen} {ln cl : ℤ} {i : Stmt} {c incr : Option Expr} {b : Stmt} :
      Inside Γ .init (.for ln cl (some i) c incr b) g i (pushScope (forHead g).2).2
  | case {g : IrGen} {node : ℕ} {ln cl : ℤ} {e : Expr} {s : Stmt} :
      Inside Γ .plain (.case node ln cl e s) g s (emitCaseLabel node false g).2
  | default {g : IrGen} {node : ℕ} {ln cl : ℤ} {s : Stmt} :
      Inside Γ .plain (.default node ln cl s) g s (emitCaseLabel node true g).2
  | label {g : IrGen} {ln cl : ℤ} {name : String} {s : Stmt} :
      Inside Γ .plain (.label ln cl name s) g s (emitNamedLabel name g).2

theorem genStmts_append (Γ : TypeEnv) (before after : List Stmt) :
    genStmts Γ (before ++ after) = genStmts Γ before >>= fun _ => genStmts Γ after := by
  induction before with
  | nil => rfl
  | cons s before ih =>
    rw [List.cons_append, genStmts, genStmts, ih]
    rfl

namespace Places

variable {α : Type}

theorem ifHead {cond : Gen IRValue} (hc : Places [] cond) : Places [] (ifHead cond) :=
  newLabel_bind fun _ => newLabel_bind fun _ => mono
    (seq hc fun _ => seq (emit (by simp)) fun _ => pure _) (List.nil_subset _)

theorem whileHead {cond : Gen IRValue} (hc : Places [] cond) : Places [] (whileHead cond) :=
  newLabel_bind fun t => newLabel_bind fun b => newLabel_bind fun e =>
    have h := seq (setTargets e t) fun _ => bind (emitLabel t) fun _ => seq hc fun c =>
      seq (emitJz c e) fun _ =>
        bind (emitLabel b) fun _ => pure (⟨t, b, t, e⟩ : LoopLabels)
    h.mono (by simp)

theorem doHead : Places [] doHead :=
  newLabel_bind fun b => newLabel_bind fun t => newLabel_bind fun e =>
    have h := seq (setTargets e t) fun _ => bind (emitLabel b) fun _ =>
      pure (⟨b, b, t, e⟩ : LoopLabels)
    h.mono (by simp)

theorem forHead : Places [] forHead :=
  newLabel_bind fun _ => newLabel_bind fun _ => newLabel_bind fun _ => newLabel_bind fun _ =>
    mono (seq (setTargets _ _) fun _ => pure _) (List.nil_subset _)

end Places

theorem optExpr_places (Γ : TypeEnv) (e : Option Expr) : ∀ m ∈ e.map (genExpr Γ), Places [] m := by
  intro m hm
  obtain ⟨e, -, rfl⟩ := Option.mem_map.mp hm
  exact .genExpr Γ e

theorem forInit_places (Γ : TypeEnv) (init : Option Stmt) :
    Places [] ((genStmtOpt Γ init).getD (return)) := by
  cases init with
  | none => exact .pure _
  | some s => exact genStmt_places Γ s

namespace Inside

variable {Γ : TypeEnv} {k : Nesting} {s s' : Stmt} {g g' : IrGen}

/-- The code before a part is that of a generator of its own. -/
theorem start (h : Inside Γ k s g s' g') : ∃ m : Gen Unit, Places [] m ∧ g' = (m g).2 := by
  cases h with
  | @item _ before after s =>
    exact ⟨pushScope >>= fun _ => genStmts Γ before,
      .seq .pushScope fun _ => genStmts_places Γ before, rfl⟩
  | @thenStmt _ ln cl c t e =>
    exact ⟨ifHead (genExpr Γ c) >>= fun _ => return, .seq (.ifHead (.genExpr Γ c)) fun _ => .pure _,
      rfl⟩
  | @elseStmt _ ln cl c t e =>
    refine ⟨_, ?_, rfl⟩
    simp only [ifHead, bind_assoc, pure_bind]
    refine .newLabel_bind fun el => .newLabel_bind fun d => ?_
    have h := Places.seq (.genExpr Γ c) fun v => .seq
      (.emitJz v el) fun _ =>
        .seq (genStmt_places Γ t) fun _ => .seq (.emitJmp d) fun _ => .emitLabel el
    exact h.mono (by simp)
  | @whileBody _ ln cl c b =>
    exact ⟨whileHead (genExpr Γ c) >>= fun _ => return,
      .seq (.whileHead (.genExpr Γ c)) fun _ => .pure _, rfl⟩
  | doBody => exact ⟨doHead >>= fun _ => return, .seq .doHead fun _ => .pure _, rfl⟩
  | @forBody _ ln cl init c incr b =>
    refine ⟨_, ?_, rfl⟩
    simp only [forHead, bind_assoc, pure_bind]
    refine .newLabel_bind fun t => .newLabel_bind fun b => .newLabel_bind fun i =>
      .newLabel_bind fun e => ?_
    have h := Places.seq (.setTargets e i) fun _ => .seq .pushScope fun _ =>
      .seq (forInit_places Γ init) fun _ => .forTest (optExpr_places Γ c) ⟨t, b, i, e⟩
    exact h.mono (by simp)
  | @switchBody _ ln cl e _ =>
    refine ⟨switchHead (collectSwitchCases s') (genExpr Γ e) >>= fun _ => return, ?_, rfl⟩
    exact .seq (.switchHead (collectSwitchCases_places s') (.genExpr Γ e)) fun _ => .pure _
  | forInit => exact ⟨forHead >>= fun _ => pushScope, .seq .forHead fun _ => .pushScope, rfl⟩
  | @case _ node ln cl e s => exact ⟨_, .emitCaseLabel node false, rfl⟩
  | @default _ node ln cl s => exact ⟨_, .emitCaseLabel node true, rfl⟩
  | @label _ ln cl name s => exact ⟨_, .emitNamedLabel name, rfl⟩

/-- What is lowered after a part only adds to its code. -/
theorem grows (h : Inside Γ k s g s' g') : Grows (genStmt Γ s' g').2 (genStmt Γ s g).2 := by
  cases h with
  | @item _ before after _ =>
    have hrun : (genStmt Γ (.compound (before ++ s' :: after)) g).2 =
        { (genStmts Γ after (genStmt Γ s' (genStmts Γ before (pushScope g).2).2).2).2 with
          scope := g.scope } := by
      rw [genStmt, genStmts_append, genStmts]
      rfl
    rw [hrun]
    exact ((genStmts_places Γ after).grows _).trans (.of_eq rfl rfl rfl)
  | @thenStmt _ ln cl c t e =>
    cases e with
    | none => exact (Places.emitLabel (ifHead (genExpr Γ c) g).1.1).grows _
    | some e =>
      have h := Places.seq (.emitJmp (ifHead (genExpr Γ c) g).1.2) fun _ =>
        .bind (.emitLabel (ifHead (genExpr Γ c) g).1.1) fun _ => .seq (genStmt_places Γ e) fun _ =>
          .emitLabel (ifHead (genExpr Γ c) g).1.2
      exact h.grows _
  | @elseStmt _ ln cl c t e => exact (Places.emitLabel (ifHead (genExpr Γ c) g).1.2).grows _
  | @whileBody _ ln cl c b =>
    have h := Places.seq (.emitJmp (whileHead (genExpr Γ c) g).1.top) fun _ =>
      .emitLabel (whileHead (genExpr Γ c) g).1.done
    exact (h.grows _).trans (.of_eq rfl rfl rfl)
  | @doBody _ ln cl c b =>
    have h := Places.bind (.emitLabel (doHead g).1.cont) fun _ => .seq (.genExpr Γ c) fun v =>
      .seq (.emitJnz v (doHead g).1.body) fun _ => .emitLabel (doHead g).1.done
    exact (h.grows _).trans (.of_eq rfl rfl rfl)
  | @forBody _ ln cl init c incr b =>
    have h := Places.forTail (optExpr_places Γ incr) (forHead g).1
    exact (h.grows _).trans (.of_eq rfl rfl rfl)
  | @switchBody _ ln cl e _ =>
    have h := Places.emitLabel (switchHead (collectSwitchCases s') (genExpr Γ e) g).1
    exact (h.grows _).trans (.of_eq rfl rfl rfl)
  | @forInit _ ln cl i c incr b =>
    have h := Places.bind (.forTest (optExpr_places Γ c) (forHead g).1) fun _ =>
      .seq (genStmt_places Γ b) fun _ => .forTail (optExpr_places Γ incr) (forHead g).1
    exact (h.grows _).trans (.of_eq rfl rfl rfl)
  | _ => exact .refl _

theorem tidy (h : Inside Γ k s g s' g') (ht : Tidy g) : Tidy g' := by
  obtain ⟨m, hm, rfl⟩ := h.start
  exact hm.tidy g (by simp) ht

theorem labels_le (h : Inside Γ k s g s' g') : g.func.nextLabel ≤ g'.func.nextLabel := by
  obtain ⟨m, hm, rfl⟩ := h.start
  exact (hm.grows g).labels

end Inside

theorem Tidy.newLabel {g : IrGen} (h : Tidy g) : Tidy (newLabel g).2 :=
  (EmitsWith.places Emits.newLabel).tidy g (by simp) h

theorem Within.unplaced_at {F g : IrGen} {l : ℕ} (hu : Unplaced l g)
    (hF : Within (emitLabel l g).2 F) : labelIndex F.func.instrs l = some g.pos :=
  labelIndex_eq hu.code hF.code

theorem pos_emitLabel (l : ℕ) (g : IrGen) : (emitLabel l g).2.pos = g.pos + 1 := List.length_append

section

variable {Γ : TypeEnv} {F g gb : IrGen} {s b : Stmt}

/-- The label `break` goes to is placed at the very end of the code. -/
def BreaksAt (Γ : TypeEnv) (F : IrGen) (s : Stmt) (g gb : IrGen) : Prop :=
  gb.breakLabel ≠ 0 ∧ ∃ pc, labelIndex F.func.instrs gb.breakLabel = some pc ∧
    (genStmt Γ s g).2.pos = pc + 1

/-- Where a loop goes on: a `while` at the start of its code, the others right after the code
of the body, with the condition or the third clause. -/
def continuePoint (Γ : TypeEnv) (s : Stmt) (g : IrGen) (b : Stmt) (gb : IrGen) : ℕ :=
  match s with
  | .while _ _ _ _ => g.pos
  | _ => (genStmt Γ b gb).2.pos

/-- The label `continue` goes to is placed there. -/
def ContinuesAt (Γ : TypeEnv) (F : IrGen) (s : Stmt) (g : IrGen) (b : Stmt) (gb : IrGen) : Prop :=
  gb.contLabel ≠ 0 ∧
    labelIndex F.func.instrs gb.contLabel = some (continuePoint Γ s g b gb)

theorem while_targets {ln cl : ℤ} {c : Expr} (ht : Tidy g) (hpos : 0 < g.func.nextLabel)
    (hF : Within (genStmt Γ (.while ln cl c b) g).2 F) :
    BreaksAt Γ F (.while ln cl c b) g (whileHead (genExpr Γ c) g).2 ∧
      ContinuesAt Γ F (.while ln cl c b) g b (whileHead (genExpr Γ c) g).2 := by
  let t := g.func.nextLabel
  let g₃ := (newLabel (newLabel (newLabel g).2).2).2
  have hdone : Unplaced (t + 2) g₃ := ht.newLabel.newLabel.unplaced_newLabel
  have htop : Unplaced t (setTargets (t + 2) t g₃).2 := by
    have h := (EmitsWith.places Emits.newLabel).unplaced _ t (by simp) ht.unplaced_newLabel
    have h' := (EmitsWith.places Emits.newLabel).unplaced _ t (by simp) h
    exact (Places.setTargets (t + 2) t).unplaced _ t (by simp) h'
  have hhead := Places.seq (.setTargets (t + 2) t) fun _ => .bind (.emitLabel t) fun _ =>
    .seq (.genExpr Γ c) fun v => .seq
      (.emitJz v (t + 2)) fun _ =>
        .bind (.emitLabel (t + 1)) fun _ => .seq (genStmt_places Γ b) fun _ => .emitJmp t
  have hend := hhead.unplaced g₃ (t + 2) (by simp) hdone
  have hbreak : (whileHead (genExpr Γ c) g).2.breakLabel = t + 2 :=
    ((genNode_emits Γ c).expr _).breakLabel
  have hcont : (whileHead (genExpr Γ c) g).2.contLabel = t :=
    ((genNode_emits Γ c).expr _).contLabel
  have hFend : Within (emitLabel (t + 2) _).2 F := ⟨hF.code, hF.strConsts⟩
  have hFtop : Within (emitLabel t (setTargets (t + 2) t g₃).2).2 F := by
    have h := Places.seq (.genExpr Γ c) fun v => .seq
      (.emitJz v (t + 2)) fun _ =>
        .bind (.emitLabel (t + 1)) fun _ => .seq (genStmt_places Γ b) fun _ =>
          .seq (.emitJmp t) fun _ => .emitLabel (t + 2)
    exact hFend.of_grows (h.grows _)
  have topAt := hFtop.unplaced_at htop
  unfold BreaksAt ContinuesAt
  rw [hbreak, hcont]
  exact ⟨⟨Nat.succ_ne_zero _, _, hFend.unplaced_at hend, pos_emitLabel _ _⟩, hpos.ne', topAt⟩

theorem doWhile_targets {ln cl : ℤ} {c : Expr} (ht : Tidy g)
    (hF : Within (genStmt Γ (.doWhile ln cl c b) g).2 F) :
    BreaksAt Γ F (.doWhile ln cl c b) g (doHead g).2 ∧
      ContinuesAt Γ F (.doWhile ln cl c b) g b (doHead g).2 := by
  let t := g.func.nextLabel
  let g₃ := (newLabel (newLabel (newLabel g).2).2).2
  have hdone : Unplaced (t + 2) g₃ := ht.newLabel.newLabel.unplaced_newLabel
  have hnext : Unplaced (t + 1) g₃ :=
    (EmitsWith.places Emits.newLabel).unplaced _ (t + 1) (by simp) ht.newLabel.unplaced_newLabel
  have hbody := Places.seq (.setTargets (t + 2) (t + 1)) fun _ => .bind (.emitLabel t) fun _ =>
    genStmt_places Γ b
  have htail := Places.seq (.genExpr Γ c) fun v => .emitJnz v t
  have hcontAt := hbody.unplaced g₃ (t + 1) (by simp) hnext
  have hendAt := (hbody.bind fun _ => .bind (.emitLabel (t + 1)) fun _ => htail).unplaced g₃ (t + 2)
    (by simp) hdone
  have hFend : Within (emitLabel (t + 2) _).2 F := ⟨hF.code, hF.strConsts⟩
  have hFcont : Within (emitLabel (t + 1) (genStmt Γ b (doHead g).2).2).2 F :=
    hFend.of_grows ((htail.bind fun _ => .emitLabel (t + 2)).grows _)
  have contAt := hFcont.unplaced_at hcontAt
  exact ⟨⟨Nat.succ_ne_zero _, _, hFend.unplaced_at hendAt, pos_emitLabel _ _⟩,
    Nat.succ_ne_zero _, contAt⟩

theorem for_targets {ln cl : ℤ} {init : Option Stmt} {c incr : Option Expr} (ht : Tidy g)
    (hgb : gb = ((forHead >>= fun ls => pushScope >>= fun _ =>
      (genStmtOpt Γ init).getD (return) >>= fun _ => forTest (c.map (genExpr Γ)) ls) g).2)
    (hF : Within (genStmt Γ (.for ln cl init c incr b) g).2 F) :
    BreaksAt Γ F (.for ln cl init c incr b) g gb ∧
      ContinuesAt Γ F (.for ln cl init c incr b) g b gb := by
  let t := g.func.nextLabel
  let ls : LoopLabels := ⟨t, t + 1, t + 2, t + 3⟩
  let g₄ := (newLabel (newLabel (newLabel (newLabel g).2).2).2).2
  have hdone : Unplaced (t + 3) g₄ := ht.newLabel.newLabel.newLabel.unplaced_newLabel
  have hnext : Unplaced (t + 2) g₄ :=
    (EmitsWith.places Emits.newLabel).unplaced _ (t + 2) (by simp)
      ht.newLabel.newLabel.unplaced_newLabel
  have hbody := Places.seq (.setTargets (t + 3) (t + 2)) fun _ => .seq .pushScope fun _ =>
    .seq (forInit_places Γ init) fun _ => .bind (.forTest (optExpr_places Γ c) ls) fun _ =>
      genStmt_places Γ b
  have htail := Places.seq (.genEffect (optExpr_places Γ incr)) fun _ => .emitJmp t
  have hcontAt := hbody.unplaced g₄ (t + 2) (by simp [ls]) hnext
  have hendAt := (hbody.bind fun _ => .bind (.emitLabel (t + 2)) fun _ => htail).unplaced g₄ (t + 3)
    (by simp [ls]) hdone
  have hcontext : gb.context = (setTargets (t + 3) (t + 2) g₄).2.context := by
    rw [hgb]
    have hinit : Keeps IrGen.context ((genStmtOpt Γ init).getD (return)) := by
      cases init with
      | none => exact .pure _
      | some s => exact genStmt_context Γ s
    exact (Keeps.bind hinit fun _ => .forTest stable_context Γ c ls) _
  have hbreak : gb.breakLabel = t + 3 := congrArg Context.breakLabel hcontext
  have hcont : gb.contLabel = t + 2 := congrArg Context.contLabel hcontext
  subst hgb
  let gc := (genStmt Γ b ((forHead >>= fun ls => pushScope >>= fun _ =>
    (genStmtOpt Γ init).getD (return) >>= fun _ => forTest (c.map (genExpr Γ)) ls) g).2).2
  let gj := ((genEffect (incr.map (genExpr Γ)) >>= fun _ => emitJmp t) (emitLabel (t + 2) gc).2).2
  have hFend : Within (emitLabel (t + 3) gj).2 F := ⟨hF.code, hF.strConsts⟩
  have hFcont : Within (emitLabel (t + 2) gc).2 F :=
    (hFend.back (.emitLabel (t + 3))).back htail
  have contAt := hFcont.unplaced_at hcontAt
  unfold BreaksAt ContinuesAt
  rw [hbreak, hcont]
  exact ⟨⟨Nat.succ_ne_zero _, _, hFend.unplaced_at hendAt, pos_emitLabel _ _⟩,
    Nat.succ_ne_zero _, contAt⟩

theorem switch_targets {ln cl : ℤ} {e : Expr} (ht : Tidy g) (hpos : 0 < g.func.nextLabel)
    (hF : Within (genStmt Γ (.switch ln cl e b) g).2 F) :
    BreaksAt Γ F (.switch ln cl e b) g (switchHead (collectSwitchCases b) (genExpr Γ e) g).2 := by
  let d := g.func.nextLabel
  let set : IrGen → IrGen := fun g =>
    { g with breakLabel := d, caseEntries := [], swDefaultLbl := 0 }
  have hset : Places [] (modify set : Gen Unit) :=
    .update (fun _ => rfl) (fun _ => rfl) (fun _ => rfl) fun _ => List.nil_subset _
  have hhead := hset.seq fun _ => Places.seq (collectSwitchCases_places b) fun _ =>
    .seq (.genExpr Γ e) fun sv => .seq (.emitTo (sv.type.getD typeInt) .copy sv irvNone
      (by simp)) fun svCopy =>
        .get_bind fun g => .seq (.genDispatch svCopy (sv.type.getD typeInt) g.caseEntries) fun _ =>
          .seq (.emitJmp (if g.swDefaultLbl = 0 then d else g.swDefaultLbl)) fun _ =>
            genStmt_places Γ b
  have hend := hhead.unplaced (newLabel g).2 d (by simp) ht.unplaced_newLabel
  have hbreak : (switchHead (collectSwitchCases b) (genExpr Γ e) g).2.breakLabel = d := by
    have hf : Stable IrGen.breakLabel := fun _ _ _ h => h.breakLabel
    have hkeep := Keeps.bind (collectSwitchCases_keeps (fun _ _ _ _ => rfl) b) fun _ =>
      .bind (.genExpr hf Γ e) fun sv => .bind (.emitTo hf (sv.type.getD typeInt) .copy sv irvNone
        (by simp)) fun svCopy => .get_bind fun g =>
          .bind (.genDispatch hf svCopy (sv.type.getD typeInt) g.caseEntries) fun _ =>
            .emitJmp hf (if g.swDefaultLbl = 0 then d else g.swDefaultLbl)
    exact hkeep (set (newLabel g).2)
  let B := (genStmt Γ b (switchHead (collectSwitchCases b) (genExpr Γ e) g).2).2
  have hFend : Within (emitLabel d B).2 F := ⟨hF.code, hF.strConsts⟩
  rw [BreaksAt, hbreak]
  exact ⟨hpos.ne', _, hFend.unplaced_at hend, pos_emitLabel _ _⟩

end

/-- A chain of statements inside one another, of the nestings `ok` only. -/
inductive Nested (Γ : TypeEnv) (ok : Nesting → Prop) : Stmt → IrGen → Stmt → IrGen → Prop where
  | refl (s : Stmt) (g : IrGen) : Nested Γ ok s g s g
  | step {k : Nesting} {s s' s'' : Stmt} {g g' g'' : IrGen} (h : Inside Γ k s g s' g') (hk : ok k)
      (hs : Nested Γ ok s' g' s'' g'') : Nested Γ ok s g s'' g''

namespace Inside

variable {Γ : TypeEnv} {k : Nesting} {s s' : Stmt} {g g' : IrGen}

theorem context (h : Inside Γ .plain s g s' g') : g'.context = g.context := by
  cases h with
  | item => exact genStmts_context Γ _ _
  | thenStmt => exact Keeps.ifHead stable_context Γ _ g
  | elseStmt =>
    exact (Keeps.bind (.ifHead stable_context Γ _) fun ls => .bind (genStmt_context Γ _) fun _ =>
      .elseHead stable_context ls) g
  | case => exact Keeps.emitCaseLabel stable_context _ _ g
  | default => exact Keeps.emitCaseLabel stable_context _ _ g
  | label => exact Keeps.emitNamedLabel stable_context _ g

theorem switch_contLabel (h : Inside Γ .switch s g s' g') : g'.contLabel = g.contLabel := by
  cases h with
  | switchBody => exact Keeps.switchHead Γ (collectSwitchCases_keeps (fun _ _ _ _ => rfl) _) _ g

end Inside

namespace Nested

variable {Γ : TypeEnv} {ok : Nesting → Prop} {s s' : Stmt} {g g' : IrGen}

theorem tidy (h : Nested Γ ok s g s' g') (ht : Tidy g) : Tidy g' := by
  induction h with
  | refl => exact ht
  | step h _ _ ih => exact ih (h.tidy ht)

theorem labels_le (h : Nested Γ ok s g s' g') : g.func.nextLabel ≤ g'.func.nextLabel := by
  induction h with
  | refl => exact le_rfl
  | step h _ _ ih => exact h.labels_le.trans ih

theorem grows (h : Nested Γ ok s g s' g') : Grows (genStmt Γ s' g').2 (genStmt Γ s g).2 := by
  induction h with
  | refl => exact .refl _
  | step h _ _ ih => exact ih.trans h.grows

theorem breakLabel (h : Nested Γ (· = .plain) s g s' g') : g'.breakLabel = g.breakLabel := by
  induction h with
  | refl => rfl
  | step h hk _ ih =>
    subst hk
    exact ih.trans (congrArg Context.breakLabel h.context)

theorem contLabel (h : Nested Γ (fun k => k = .plain ∨ k = .switch) s g s' g') :
    g'.contLabel = g.contLabel := by
  induction h with
  | refl => rfl
  | step h hk _ ih =>
    rcases hk with rfl | rfl
    · exact ih.trans (congrArg Context.contLabel h.context)
    · exact ih.trans h.switch_contLabel

end Nested

section

variable {Γ : TypeEnv} {F g gb g' : IrGen} {s b : Stmt} {ln cl : ℤ}

theorem breaksAt {k : Nesting} (h : Inside Γ k s g b gb) (hk : k = .loop ∨ k = .switch)
    (ht : Tidy g) (hpos : 0 < g.func.nextLabel) (hF : Within (genStmt Γ s g).2 F) :
    BreaksAt Γ F s g gb := by
  cases h with
  | whileBody => exact (while_targets ht hpos hF).1
  | doBody => exact (doWhile_targets ht hF).1
  | forBody => exact (for_targets ht rfl hF).1
  | switchBody => exact switch_targets ht hpos hF
  | _ => simp at hk

theorem continuesAt (h : Inside Γ .loop s g b gb) (ht : Tidy g) (hpos : 0 < g.func.nextLabel)
    (hF : Within (genStmt Γ s g).2 F) : ContinuesAt Γ F s g b gb := by
  cases h with
  | whileBody => exact (while_targets ht hpos hF).2
  | doBody => exact (doWhile_targets ht hF).2
  | forBody => exact (for_targets ht rfl hF).2

/-- A `break` that no inner loop or switch takes leaves the code of `s`. -/
theorem break_jumps {k : Nesting} (h : Inside Γ k s g b gb) (hk : k = .loop ∨ k = .switch)
    (ht : Tidy g) (hpos : 0 < g.func.nextLabel) (hF : Within (genStmt Γ s g).2 F)
    (hb : Nested Γ (· = .plain) b gb (.break ln cl) g') :
    ∃ l pc : ℕ, F.func.instrs[g'.pos]? = some { op := .jmp, labelId := l } ∧
      labelIndex F.func.instrs l = some pc ∧ (genStmt Γ s g).2.pos = pc + 1 := by
  obtain ⟨hne, pc, hat, hend⟩ := breaksAt h hk ht hpos hF
  rw [← hb.breakLabel] at hne hat
  have hgen : genStmt Γ (.break ln cl) g' = emitJmp g'.breakLabel g' :=
    congrFun (if_neg hne : (if g'.breakLabel = 0 then return else emitJmp g'.breakLabel) = _) g'
  have hF' : Within (emitJmp g'.breakLabel g').2 F :=
    hgen ▸ (hF.of_grows h.grows).of_grows hb.grows
  exact ⟨_, pc, hF'.emitted, hat, hend⟩

/-- A `continue` that no inner loop takes jumps to where the loop goes on. -/
theorem continue_jumps (h : Inside Γ .loop s g b gb) (ht : Tidy g) (hpos : 0 < g.func.nextLabel)
    (hF : Within (genStmt Γ s g).2 F)
    (hc : Nested Γ (fun k => k = .plain ∨ k = .switch) b gb (.continue ln cl) g') :
    ∃ l : ℕ, F.func.instrs[g'.pos]? = some { op := .jmp, labelId := l } ∧
      labelIndex F.func.instrs l = some (continuePoint Γ s g b gb) := by
  obtain ⟨hne, hat⟩ := continuesAt h ht hpos hF
  rw [← hc.contLabel] at hne hat
  have hgen : genStmt Γ (.continue ln cl) g' = emitJmp g'.contLabel g' :=
    congrFun (if_neg hne : (if g'.contLabel = 0 then return else emitJmp g'.contLabel) = _) g'
  have hF' : Within (emitJmp g'.contLabel g').2 F :=
    hgen ▸ (hF.of_grows h.grows).of_grows hc.grows
  exact ⟨_, hF'.emitted, hat⟩

end

end TinyC
