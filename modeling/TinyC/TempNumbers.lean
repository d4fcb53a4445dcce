import TinyC.TempsWritten

/-!
# The temps of a function are numbered

Whatever a statement is and wherever its declarations stand, its code uses temps that have been
taken, and each `alloca` in it has a temp of its own.
-/

namespace TinyC

open World

/-- From `w`, the code of `m` is numbered, and `R` holds after it. -/
def Numbers {α : Type} (w : World) (m : Gen α) (R : World → α → Prop) : Prop :=
  0 < w.gen.func.nextTemp → ∃ P is, Le w ⟨(m w.gen).2, P⟩ ∧
    (m w.gen).2.func.instrs = w.gen.func.instrs ++ is ∧
    Numbered w.gen.func.nextTemp (m w.gen).2.func.nextTemp is ∧ R ⟨(m w.gen).2, P⟩ (m w.gen).1

/-- The addresses of the variables in scope are values of temps that have been taken. -/
abbrev InScope (w : World) : Prop := Scoped w Set.univ

namespace Numbers

variable {α β : Type} {w : World} {R R' : World → α → Prop} {S : World → β → Prop}

theorem of_flows {asks : ℤ → Set ℕ} {A : Set ℕ} {m : Gen α} {T : World → Set ℕ → α → Prop}
    (h : Flows asks w A m T) : Numbers w m fun w' a => ∃ A', T w' A' a := by
  intro hpos
  obtain ⟨P, B, he, ht⟩ := h hpos
  obtain ⟨is, hcode, hpass⟩ := he.code
  exact ⟨P, is, he.toLe, hcode, hpass.toNumbered, B, ht⟩

theorem bind {m : Gen α} {k : α → Gen β} (hm : Numbers w m R)
    (hk : ∀ w' a, Le w w' → R w' a → Numbers w' (k a) S) : Numbers w (m >>= k) S := by
  intro hpos
  obtain ⟨P, is, hle, hcode, hnum, hr⟩ := hm hpos
  obtain ⟨P', js, hle', hcode', hnum', hs⟩ := hk _ _ hle hr (hpos.trans_le hle.temps)
  refine ⟨P', is ++ js, hle.trans hle', ?_, hnum.append hle.temps hle'.temps hnum', hs⟩
  exact hcode'.trans (by rw [hcode, List.append_assoc])

theorem mono {m : Gen α} (hm : Numbers w m R) (h : ∀ w' a, Le w w' → R w' a → R' w' a) :
    Numbers w m R' := by
  intro hpos
  obtain ⟨P, is, hle, hcode, hnum, hr⟩ := hm hpos
  exact ⟨P, is, hle, hcode, hnum, h _ _ hle hr⟩

/-- A change of the state that leaves the function alone. -/
theorem of_func_eq {m : Gen α} (h : (m w.gen).2.func = w.gen.func)
    (hr : R ⟨(m w.gen).2, w.plan⟩ (m w.gen).1) : Numbers w m R := fun _ =>
  ⟨w.plan, [], ⟨⟨fun _ _ => rfl, fun _ _ => rfl⟩, by rw [h], by rw [h]⟩, by rw [h]; simp, .nil, hr⟩

theorem pure {a : α} (hr : R w a) : Numbers w (Pure.pure a) R := of_func_eq rfl hr

theorem get_bind {k : IrGen → Gen β} (hk : Numbers w (k w.gen) S) :
    Numbers w (get >>= k) S := hk

theorem emit {ins : IRInstr} (hop : ins.op ≠ .alloca) (h : ins.Within w.gen.func.nextTemp)
    (hs : InScope w) : Numbers w (emit ins) fun w' _ => InScope w' := fun _ =>
  have hle : Le w ⟨(TinyC.emit ins w.gen).2, w.plan⟩ :=
    ⟨⟨fun _ _ => rfl, fun _ _ => rfl⟩, le_rfl, le_rfl⟩
  ⟨w.plan, [ins], hle, rfl, .single hop h, hs.mono ⟨hle, rfl⟩ Set.Subset.rfl⟩

end Numbers

/-- `m` emits numbered code, whatever variables are in scope, and leaves such a scope. -/
def Orderly {α : Type} (m : Gen α) : Prop :=
  ∀ w, InScope w → Numbers w m fun w' _ => InScope w'

namespace Orderly

variable {α β : Type} {Γ : TypeEnv}

theorem pure (a : α) : Orderly (Pure.pure a : Gen α) := fun _ hs => .pure hs

theorem bind {m : Gen α} {k : α → Gen β} (hm : Orderly m) (hk : ∀ a, Orderly (k a)) :
    Orderly (m >>= k) := fun w hs => (hm w hs).bind fun w' a _ hs' => hk a w' hs'

theorem get_bind {k : IrGen → Gen β} (hk : ∀ g, Orderly (k g)) : Orderly (get >>= k) :=
  fun w hs => hk w.gen w hs

/-- A change of the state that leaves function and scope alone. -/
theorem update {f : IrGen → IrGen} (hf : ∀ g, (f g).func = g.func)
    (hs : ∀ g, (f g).scope = g.scope) : Orderly (modify f : Gen Unit) := fun _ h =>
  .of_func_eq (hf _) (h.of_func_eq (hf _) (hs _))

theorem emit {ins : IRInstr} (hop : ins.op ≠ .alloca)
    (h : ∀ v ∈ ins.values, ∀ t, v.kind ≠ .temp t) : Orderly (TinyC.emit ins) := fun _ hs =>
  .emit hop (fun v hv t ht => absurd ht (h v hv t)) hs

theorem emitLabel (l : ℕ) : Orderly (emitLabel l) :=
  emit (by simp) (by simp [IRInstr.values, irvNone])

theorem emitJmp (l : ℕ) : Orderly (emitJmp l) := emit (by simp) (by simp [IRInstr.values, irvNone])

theorem newLabel : Orderly newLabel := fun w hs =>
  (Numbers.of_flows (@Evaluates.newLabel (fun _ => ∅) w ∅ fun _ => ∅)).mono
    fun _ _ hle ⟨_, hsc, _⟩ => hs.mono ⟨hle, hsc⟩ Set.Subset.rfl

/-- The value of an expression in what follows it. -/
theorem value_bind {m : Gen IRValue} {k : IRValue → Gen β} (hm : Evaluable (fun _ => ∅) m)
    (hk : ∀ v w, InScope w → Valid w Set.univ v → Numbers w (k v) fun w' _ => InScope w') :
    Orderly (m >>= k) := fun w hs =>
  (Numbers.of_flows (hm w Set.univ hs)).bind fun w' v hle ⟨A, hsc, _, hv⟩ =>
    hk v w' (hs.mono ⟨hle, hsc⟩ Set.Subset.rfl) (hv.mono (.refl w') (Set.subset_univ A))

/-- An instruction whose one operand is a value. -/
theorem emit_value {op : IROp} {v : IRValue} {l : ℤ} {w : World} (hop : op ≠ .alloca)
    (hs : InScope w) (hv : Valid w Set.univ v) :
    Numbers w (TinyC.emit { op := op, src1 := v, labelId := l }) fun w' _ => InScope w' := by
  refine .emit hop (fun u hu t ht => ?_) hs
  simp only [IRInstr.values, List.mem_cons, List.not_mem_nil, or_false] at hu
  rcases hu with rfl | rfl | rfl
  · cases ht
  · exact hv.taken t ht
  · cases ht

theorem withScope {m : Gen Unit} (h : Orderly m) : Orderly (withScope m) := by
  intro w hs
  let w₁ : World := ⟨(pushScope w.gen).2, w.plan⟩
  have hle : Le w w₁ := ⟨⟨fun _ _ => rfl, fun _ _ => rfl⟩, le_rfl, le_rfl⟩
  have hpush : Numbers w pushScope fun w' _ => InScope w' := by
    refine .of_func_eq rfl fun fr hfr b p hp => ?_
    rcases List.mem_cons.mp hfr with rfl | hfr
    · simp at hp
    · exact (hs fr hfr b p hp).mono hle Set.Subset.rfl
  refine Numbers.get_bind (hpush.bind fun w₁ _ hle₁ hs₁ => (h w₁ hs₁).bind fun w₂ _ hle₂ _ => ?_)
  have hle' := hle₁.trans hle₂
  have hle'' : Le w ⟨{ w₂.gen with scope := w.gen.scope }, w₂.plan⟩ :=
    ⟨⟨hle'.plan.live, hle'.plan.type⟩, hle'.temps, hle'.labels⟩
  exact .of_func_eq rfl (hs.mono ⟨hle'', rfl⟩ Set.Subset.rfl)

theorem keepTargets {m : Gen Unit} (h : Orderly m) : Orderly (keepTargets m) :=
  get_bind fun _ => h.bind fun _ => update (fun _ => rfl) fun _ => rfl

theorem keepSwitch {m : Gen Unit} (h : Orderly m) : Orderly (keepSwitch m) :=
  get_bind fun _ => h.bind fun _ => update (fun _ => rfl) fun _ => rfl

theorem setTargets (b c : ℕ) : Orderly (setTargets b c) := update (fun _ => rfl) fun _ => rfl

theorem genEffect (e : Option Expr) : Orderly (genEffect (e.map (genExpr Γ))) := by
  cases e with
  | none => exact pure _
  | some e => exact value_bind (genExpr_evaluable Γ _ e) fun _ _ hs _ => .pure hs

theorem ifHead (c : Expr) : Orderly (ifHead (genExpr Γ c)) :=
  newLabel.bind fun _ => newLabel.bind fun _ => value_bind (genExpr_evaluable Γ _ c)
    fun _ _ hs hv => (emit_value (by simp) hs hv).bind fun _ _ _ hs => .pure hs

theorem genIf (c : Expr) {t : Gen Unit} {e : Option (Gen Unit)} (ht : Orderly t)
    (he : ∀ m ∈ e, Orderly m) : Orderly (genIf (genExpr Γ c) t e) := by
  refine (ifHead c).bind fun ls => ht.bind fun _ => ?_
  cases e with
  | none => exact emitLabel _
  | some e =>
    exact ((emitJmp _).bind fun _ => emitLabel _).bind fun _ => (he e rfl).bind fun _ => emitLabel _

theorem whileHead (c : Expr) : Orderly (whileHead (genExpr Γ c)) :=
  newLabel.bind fun _ => newLabel.bind fun _ => newLabel.bind fun _ => (setTargets _ _).bind fun _ =>
    (emitLabel _).bind fun _ => value_bind (genExpr_evaluable Γ _ c) fun _ _ hs hv =>
      (emit_value (by simp) hs hv).bind fun _ _ _ hs => (emitLabel _ _ hs).bind fun _ _ _ hs =>
        .pure hs

theorem genWhile (c : Expr) {b : Gen Unit} (hb : Orderly b) :
    Orderly (genWhile (genExpr Γ c) b) :=
  keepTargets <| (whileHead c).bind fun _ => hb.bind fun _ => (emitJmp _).bind fun _ => emitLabel _

theorem genDoWhile (c : Expr) {b : Gen Unit} (hb : Orderly b) :
    Orderly (genDoWhile (genExpr Γ c) b) := by
  have hhead : Orderly doHead :=
    newLabel.bind fun _ => newLabel.bind fun _ => newLabel.bind fun _ =>
      (setTargets _ _).bind fun _ => (emitLabel _).bind fun _ => pure _
  exact keepTargets <| hhead.bind fun _ => hb.bind fun _ => (emitLabel _).bind fun _ =>
    value_bind (genExpr_evaluable Γ _ c) fun _ _ hs hv =>
      (emit_value (by simp) hs hv).bind fun w _ _ hs => emitLabel _ w hs

theorem genLoopTest (c : Option Expr) (l : ℕ) : Orderly (genLoopTest (c.map (genExpr Γ)) l) := by
  cases c with
  | none => exact pure _
  | some c =>
    exact value_bind (genExpr_evaluable Γ _ c) fun _ _ hs hv => emit_value (by simp) hs hv

theorem genFor {init : Gen Unit} (c e : Option Expr) {b : Gen Unit} (hi : Orderly init)
    (hb : Orderly b) : Orderly (genFor init (c.map (genExpr Γ)) (e.map (genExpr Γ)) b) := by
  have hhead : Orderly forHead :=
    newLabel.bind fun _ => newLabel.bind fun _ => newLabel.bind fun _ => newLabel.bind fun _ =>
      (setTargets _ _).bind fun _ => pure _
  have htest : ∀ ls, Orderly (forTest (c.map (genExpr Γ)) ls) := fun ls =>
    (emitLabel _).bind fun _ => (genLoopTest c _).bind fun _ => emitLabel _
  have htail : ∀ ls, Orderly (forTail (e.map (genExpr Γ)) ls) := fun ls =>
    (emitLabel _).bind fun _ => (genEffect e).bind fun _ => (emitJmp _).bind fun _ => emitLabel _
  exact keepTargets <| hhead.bind fun ls => withScope <| hi.bind fun _ => (htest ls).bind fun _ =>
    hb.bind fun _ => htail ls

theorem genReturn (e : Option Expr) :
    Orderly (genReturn (e.map fun e => (e.typeOrInt, genNode Γ e))) := by
  cases e with
  | none => exact emit (by simp) (by simp [IRInstr.values, irvNone])
  | some e =>
    have hn := genNode_flows Γ (fun _ => ∅) e
    exact get_bind fun g => value_bind (Evaluable.ite (p := isAggregateType (some (returnType
      g.func.funcType e.typeOrInt)) = true) hn.aggAddr hn.expr) fun _ _ hs hv =>
        emit_value (by simp) hs hv

theorem genDispatch {sv : IRValue} (ty : CType) (ces : List CaseEntry) {w : World}
    (hs : InScope w) (hsv : Valid w Set.univ sv) :
    Numbers w (genDispatch sv ty ces) fun w' _ => InScope w' := by
  induction ces generalizing w with
  | nil => exact .pure hs
  | cons ce ces ih =>
    have htest : Numbers w (genCaseTest sv ty ce) fun w' _ => InScope w' := by
      unfold genCaseTest
      split
      · exact .pure hs
      · have hcmp : Evaluates (fun _ => ∅) w Set.univ
            (emitTo typeInt .eq sv (irvInt ce.val ty)) (Yields Set.univ) :=
          Evaluates.emitTo (fun _ => ⟨rfl, rfl, by simp⟩) hsv (.irvInt ce.val ty)
        exact (Numbers.of_flows hcmp).bind fun w' v hle ⟨A, hsc, _, hv⟩ =>
          emit_value (by simp) (hs.mono ⟨hle, hsc⟩ Set.Subset.rfl)
            (hv.mono (.refl w') (Set.subset_univ A))
    exact htest.bind fun w' _ hle hs' => ih hs' (hsv.mono hle Set.Subset.rfl)

theorem addCase (node : ℕ) (val : BitVec 64) (isDefault : Bool) :
    Orderly (addCase node val isDefault) :=
  newLabel.bind fun _ => update (fun _ => rfl) fun _ => rfl

theorem genSwitch (e : Expr) {b : Gen Unit} (s : Stmt) (hb : Orderly b) :
    Orderly (genSwitch (collectSwitchCases s) (genExpr Γ e) b) := by
  have hcollect : Orderly (collectSwitchCases s) :=
    collectSwitchCases_rule (pure _) (fun hm hk => hm.bind fun _ => hk) addCase s
  have hhead : Orderly (switchHead (collectSwitchCases s) (genExpr Γ e)) := by
    refine newLabel.bind fun d => ?_
    have hset : Orderly (modify fun g : IrGen =>
        { g with breakLabel := d, caseEntries := [], swDefaultLbl := 0 }) :=
      update (fun _ => rfl) fun _ => rfl
    refine hset.bind fun _ => hcollect.bind fun _ =>
      value_bind (genExpr_evaluable Γ _ e) fun sv w hs hsv => ?_
    have hcopy : Evaluates (fun _ => ∅) w Set.univ
        (emitTo (sv.type.getD typeInt) .copy sv irvNone) (Yields Set.univ) :=
      Evaluates.emitTo (fun _ => ⟨rfl, rfl, by simp⟩) hsv .irvNone
    refine (Numbers.of_flows hcopy).bind fun w₁ v hle₁ ⟨A, hsc, _, hv⟩ => Numbers.get_bind ?_
    have hs₁ : InScope w₁ := hs.mono ⟨hle₁, hsc⟩ Set.Subset.rfl
    have hv₁ : Valid w₁ Set.univ v := hv.mono (.refl w₁) (Set.subset_univ A)
    exact (genDispatch _ _ hs₁ hv₁).bind fun w₂ _ _ hs₂ => (emitJmp _ w₂ hs₂).bind
      fun _ _ _ hs₃ => .pure hs₃
  exact keepSwitch <| hhead.bind fun _ => hb.bind fun _ => emitLabel _

theorem genDecls (ds : List Decl) : Orderly (genDecls Γ ds) := by
  intro w hs
  have hflow : Flows (fun _ => ∅) w Set.univ (TinyC.genDecls Γ ds) (Done w) := Flows.genDecls ds hs
  exact (Numbers.of_flows hflow).mono fun w' _ _ ⟨A, hd⟩ =>
    hd.1.mono (.refl w') (Set.subset_univ A)

theorem emitCaseLabel (node : ℕ) (isDefault : Bool) : Orderly (emitCaseLabel node isDefault) :=
  get_bind fun _ => by
    split
    · exact emitLabel _
    · exact pure _

theorem emitNamedLabel (name : String) : Orderly (emitNamedLabel name) := get_bind fun _ => by
  split
  · exact emitLabel _
  · exact pure _

theorem emitGoto (name : String) : Orderly (emitGoto name) := get_bind fun _ => by
  split
  · exact emitJmp _
  · exact pure _

theorem emitBreak : Orderly emitBreak := get_bind fun _ => by
  split
  · exact pure _
  · exact emitJmp _

theorem emitContinue : Orderly emitContinue := get_bind fun _ => by
  split
  · exact pure _
  · exact emitJmp _

end Orderly

mutual

/-- Every statement emits numbered code. -/
theorem genStmt_orderly (Γ : TypeEnv) : (s : Stmt) → Orderly (genStmt Γ s)
  | .compound ss => .withScope (genStmts_orderly Γ ss)
  | .expr e => .genEffect e
  | .decl ds => .genDecls ds
  | .ifElse _ _ c t e => .genIf c (genStmt_orderly Γ t) (genStmtOpt_orderly Γ e)
  | .while _ _ c b => .genWhile c (genStmt_orderly Γ b)
  | .doWhile _ _ c b => .genDoWhile c (genStmt_orderly Γ b)
  | .for _ _ init c incr b => by
      have hinit := genStmtOpt_orderly Γ init
      refine .genFor c incr ?_ (genStmt_orderly Γ b)
      cases init with
      | none => exact .pure _
      | some s => exact hinit _ rfl
  | .ret _ _ e => .genReturn e
  | .break _ _ => .emitBreak
  | .continue _ _ => .emitContinue
  | .switch _ _ e b => .genSwitch e b (genStmt_orderly Γ b)
  | .case _ _ _ _ s | .default _ _ _ s =>
      .bind (.emitCaseLabel _ _) fun _ => genStmt_orderly Γ s
  | .goto _ _ name => .emitGoto name
  | .label _ _ name s => .bind (.emitNamedLabel name) fun _ => genStmt_orderly Γ s

theorem genStmts_orderly (Γ : TypeEnv) : (ss : List Stmt) → Orderly (genStmts Γ ss)
  | [] => .pure _
  | s :: ss => .bind (genStmt_orderly Γ s) fun _ => genStmts_orderly Γ ss

theorem genStmtOpt_orderly (Γ : TypeEnv) :
    (s : Option Stmt) → ∀ m ∈ genStmtOpt Γ s, Orderly m
  | none => by simp [genStmtOpt]
  | some s => by
      have hs := genStmt_orderly Γ s
      intro m hm
      obtain rfl : genStmt Γ s = m := by simpa [genStmtOpt] using hm
      exact hs

end

/-- The code of a function is numbered from 1. -/
theorem genFunc_numbered (Γ : TypeEnv) (module : IRModule) {scope : ScopeChain VarEntry}
    (d : FuncDef) (hscope : FileScope scope) :
    Numbered 1 (funcEnd Γ module scope d).func.nextTemp (funcEnd Γ module scope d).func.instrs := by
  let w₀ : World := ⟨funcInit module scope d, fun _ => ∅, fun _ => none⟩
  have hhead : Numbers w₀ (genFuncHead Γ d) fun w' _ => InScope w' :=
    (Numbers.of_flows (@Flows.genFuncHead (fun _ => ∅) w₀ Set.univ Γ d hscope.scoped)).mono
      fun w' _ _ ⟨A, hs, _⟩ => hs.mono (.refl w') (Set.subset_univ A)
  obtain ⟨P, is, hle, hcode, hnum, -⟩ := (hhead.bind fun w' _ _ hs => genStmt_orderly Γ d.body w' hs)
    Nat.one_pos
  have heq : (funcEnd Γ module scope d).func.instrs = is := hcode
  exact heq ▸ hnum

end TinyC
