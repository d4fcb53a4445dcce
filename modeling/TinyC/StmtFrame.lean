import TinyC.GenFrame

/-!
# What lowering a statement does to the state

Every generator only adds code, temps, labels and string constants. A statement moreover
puts back the targets of `break` and `continue` and the entries of the enclosing switch, and
of the labels taken before it places none but those of cases and of names.
-/

namespace TinyC

structure Grows (g g' : IrGen) : Prop where
  code : g.func.instrs <+: g'.func.instrs
  strConsts : g.module.strConsts <:+ g'.module.strConsts
  definitions : g'.definitions = g.definitions
  temps : g.func.nextTemp ≤ g'.func.nextTemp
  labels : g.func.nextLabel ≤ g'.func.nextLabel
  funcType : g'.func.funcType = g.func.funcType
  gotoLabels : g'.gotoLabels = g.gotoLabels

namespace Grows

theorem refl (g : IrGen) : Grows g g :=
  ⟨List.prefix_rfl, List.suffix_rfl, rfl, le_rfl, le_rfl, rfl, rfl⟩

theorem trans {g g' g'' : IrGen} (h : Grows g g') (h' : Grows g' g'') : Grows g g'' :=
  ⟨h.code.trans h'.code, h.strConsts.trans h'.strConsts, h'.definitions.trans h.definitions,
    h.temps.trans h'.temps, h.labels.trans h'.labels, h'.funcType.trans h.funcType, h'.gotoLabels.trans h.gotoLabels⟩

theorem of_eq {g g' : IrGen} (hfunc : g'.func = g.func) (hmodule : g'.module = g.module)
    (hgoto : g'.gotoLabels = g.gotoLabels) : Grows g g' := by
  refine ⟨?_, ?_, ?_, ?_, ?_, ?_, hgoto⟩ <;> simp [IrGen.definitions, hfunc, hmodule]

theorem code_length_le {g g' : IrGen} (h : Grows g g') :
    g.func.instrs.length ≤ g'.func.instrs.length := h.code.length_le

end Grows

theorem ExtendsWith.grows {own : List ℕ} {g g' : IrGen} (h : ExtendsWith own g g') : Grows g g' :=
  ⟨h.codePrefix, h.strConsts, h.definitions, h.temps, h.labels, h.funcType, h.gotoLabels⟩

/-- A label that has been taken, that no code places and that belongs to no case and no name. -/
structure Unplaced (l : ℕ) (g : IrGen) : Prop where
  taken : l < g.func.nextLabel
  code : (l : ℤ) ∉ labelsOf g.func.instrs
  caseEntries : ∀ ce ∈ g.caseEntries, ce.labelId ≠ l
  gotoLabels : ∀ p ∈ g.gotoLabels, p.2 ≠ l

/-- Only labels that have been taken are placed or kept. -/
structure Tidy (g : IrGen) : Prop where
  code : ∀ l ∈ labelsOf g.func.instrs, l < g.func.nextLabel
  caseEntries : ∀ ce ∈ g.caseEntries, ce.labelId < g.func.nextLabel
  gotoLabels : ∀ p ∈ g.gotoLabels, p.2 < g.func.nextLabel

theorem Tidy.unplaced_newLabel {g : IrGen} (h : Tidy g) :
    Unplaced g.func.nextLabel (newLabel g).2 where
  taken := Nat.lt_succ_self _
  code hmem := lt_irrefl _ (h.code _ hmem)
  caseEntries ce hce := (h.caseEntries ce hce).ne
  gotoLabels p hp := (h.gotoLabels p hp).ne

/-- A generator that of the labels taken before it places only `own`. -/
structure Places {α : Type} (own : List ℕ) (m : Gen α) : Prop where
  grows : ∀ g, Grows g (m g).2
  unplaced : ∀ g l, l ∉ own → Unplaced l g → Unplaced l (m g).2
  tidy : ∀ g, (∀ l ∈ own, l < g.func.nextLabel) → Tidy g → Tidy (m g).2

theorem EmitsWith.places {α : Type} {own : List ℕ} {m : Gen α} (h : EmitsWith own m) :
    Places own m where
  grows g := (h g).grows
  unplaced g l hl hu := by
    have he := h g
    obtain ⟨block, hblock, hcount, -⟩ := he.code
    refine ⟨hu.taken.trans_le he.labels, fun hmem => ?_, he.caseEntries ▸ hu.caseEntries,
      he.gotoLabels ▸ hu.gotoLabels⟩
    rw [hblock, labelsOf_append, List.mem_append] at hmem
    rcases hmem with hmem | hmem
    · exact hu.code hmem
    · have hpos := List.count_pos_iff.mpr hmem
      have hle := hcount l
      have htaken := hu.taken
      rw [List.count_eq_zero.mpr hl, if_neg (by omega)] at hle
      omega
  tidy g hown ht := by
    have he := h g
    obtain ⟨block, hblock, hcount, hnonneg⟩ := he.code
    have hlabels := he.labels
    refine ⟨fun l hmem => ?_, fun ce hce => ?_, fun p hp => ?_⟩
    · rw [hblock, labelsOf_append, List.mem_append] at hmem
      rcases hmem with hmem | hmem
      · have := ht.code l hmem
        omega
      · obtain ⟨n, rfl⟩ := Int.eq_ofNat_of_zero_le (hnonneg l hmem)
        have hpos := List.count_pos_iff.mpr hmem
        have hle := hcount n
        by_cases hn : n ∈ own
        · have := hown n hn
          omega
        · rw [List.count_eq_zero.mpr hn] at hle
          split at hle <;> omega
    · exact (ht.caseEntries ce (he.caseEntries ▸ hce)).trans_le hlabels
    · exact (ht.gotoLabels p (he.gotoLabels ▸ hp)).trans_le hlabels

namespace Places

variable {α β : Type} {own own' : List ℕ}

theorem bind {m : Gen α} {k : α → Gen β} (hm : Places own m) (hk : ∀ a, Places own' (k a)) :
    Places (own ++ own') (m >>= k) where
  grows g := (hm.grows g).trans ((hk (m g).1).grows (m g).2)
  unplaced g l hl hu := by
    rw [List.mem_append, not_or] at hl
    exact (hk (m g).1).unplaced _ l hl.2 (hm.unplaced g l hl.1 hu)
  tidy g hown ht := by
    have hown₁ : ∀ l ∈ own, l < g.func.nextLabel :=
      fun l hl => hown l (List.mem_append_left _ hl)
    have hown₂ : ∀ l ∈ own', l < (m g).2.func.nextLabel :=
      fun l hl => (hown l (List.mem_append_right _ hl)).trans_le (hm.grows g).labels
    exact (hk (m g).1).tidy _ hown₂ (hm.tidy g hown₁ ht)

/-- The same for a generator that reads the state first. -/
theorem get_bind {k : IrGen → Gen β} (hk : ∀ a, Places own (k a)) : Places own (get >>= k) where
  grows g := (hk g).grows g
  unplaced g := (hk g).unplaced g
  tidy g := (hk g).tidy g

theorem seq {m : Gen α} {k : α → Gen β} (hm : Places [] m) (hk : ∀ a, Places own (k a)) :
    Places own (m >>= k) := bind hm hk

theorem mono {m : Gen α} (h : Places own m) (hsub : own ⊆ own') : Places own' m where
  grows := h.grows
  unplaced g l hl hu := h.unplaced g l (fun hmem => hl (hsub hmem)) hu
  tidy g hown ht := h.tidy g (fun l hl => hown l (hsub hl)) ht

theorem andThen {m : Gen α} {k : α → Gen β} (hm : Places own m) (hk : ∀ a, Places [] (k a)) :
    Places own (m >>= k) := (bind hm hk).mono (by simp)

theorem newLabel_bind {k : ℕ → Gen β} (hk : ∀ l, Places (l :: own) (k l)) :
    Places own (newLabel >>= k) where
  grows g := ((EmitsWith.places Emits.newLabel).grows g).trans ((hk _).grows _)
  unplaced g l hl hu := by
    have hne : l ≠ g.func.nextLabel := hu.taken.ne
    have hu' := (EmitsWith.places Emits.newLabel).unplaced g l (by simp) hu
    exact (hk _).unplaced _ l (by simp [hne, hl]) hu'
  tidy g hown ht := by
    have ht' := (EmitsWith.places Emits.newLabel).tidy g (by simp) ht
    refine (hk _).tidy _ (fun l hl => ?_) ht'
    rcases List.mem_cons.mp hl with rfl | hl
    · exact Nat.lt_succ_self _
    · exact Nat.lt_succ_of_lt (hown l hl)

theorem pure (a : α) : Places [] (Pure.pure a : Gen α) := EmitsWith.places (Emits.pure a)

theorem emit {ins : IRInstr} (h : ins.op ≠ .label) : Places [] (emit ins) :=
  EmitsWith.places (Emits.emit h)

theorem emitJmp (l : ℕ) : Places [] (emitJmp l) := EmitsWith.places (Emits.emitJmp l)

theorem emitJz (v : IRValue) (l : ℕ) : Places [] (emitJz v l) := EmitsWith.places (Emits.emitJz v l)

theorem emitJnz (v : IRValue) (l : ℕ) : Places [] (emitJnz v l) :=
  EmitsWith.places (Emits.emitJnz v l)

theorem emitTo (ty : CType) (op : IROp) (a b : IRValue) (h : op ≠ .label) :
    Places [] (emitTo ty op a b) := EmitsWith.places (Emits.emitTo h)

theorem emitLabel (l : ℕ) : Places [l] (emitLabel l) := EmitsWith.places (EmitsWith.emitLabel l)

/-- A change of the state that leaves code, counters and labels alone. -/
theorem update {f : IrGen → IrGen} (hfunc : ∀ g, (f g).func = g.func)
    (hmodule : ∀ g, (f g).module = g.module) (hgoto : ∀ g, (f g).gotoLabels = g.gotoLabels)
    (hcase : ∀ g, (f g).caseEntries ⊆ g.caseEntries) : Places [] (modify f : Gen Unit) where
  grows g := .of_eq (hfunc g) (hmodule g) (hgoto g)
  unplaced g l _ hu :=
    { taken := hu.taken.trans_eq (congrArg IRFunc.nextLabel (hfunc g)).symm
      code := fun h => hu.code (congrArg IRFunc.instrs (hfunc g) ▸ h)
      caseEntries := fun ce hce => hu.caseEntries ce (hcase g hce)
      gotoLabels := fun p hp => hu.gotoLabels p (hgoto g ▸ hp) }
  tidy g _ ht := by
    have hnext : ((modify f : Gen Unit) g).2.func.nextLabel = g.func.nextLabel :=
      congrArg IRFunc.nextLabel (hfunc g)
    refine ⟨fun l hl => ?_, fun ce hce => ?_, fun p hp => ?_⟩ <;> rw [hnext]
    · exact ht.code l (congrArg IRFunc.instrs (hfunc g) ▸ hl)
    · exact ht.caseEntries ce (hcase g hce)
    · exact ht.gotoLabels p (hgoto g ▸ hp)

theorem pushScope : Places [] pushScope :=
  update (fun _ => rfl) (fun _ => rfl) (fun _ => rfl) fun _ => List.Subset.refl _

theorem setTargets (b c : ℕ) : Places [] (setTargets b c) :=
  update (fun _ => rfl) (fun _ => rfl) (fun _ => rfl) fun _ => List.Subset.refl _

theorem withScope {m : Gen Unit} (h : Places own m) : Places own (withScope m) :=
  get_bind fun _ => seq pushScope fun _ => andThen h fun _ =>
    update (fun _ => rfl) (fun _ => rfl) (fun _ => rfl) fun _ => List.Subset.refl _

theorem keepTargets {m : Gen Unit} (h : Places own m) : Places own (keepTargets m) :=
  get_bind fun _ => andThen h fun _ =>
    update (fun _ => rfl) (fun _ => rfl) (fun _ => rfl) fun _ => List.Subset.refl _

/-- The entries that come back are those from before. -/
theorem keepSwitch {m : Gen Unit} (h : Places own m) : Places own (keepSwitch m) where
  grows g :=
    have hg := h.grows g
    ⟨hg.code, hg.strConsts, hg.definitions, hg.temps, hg.labels, hg.funcType, hg.gotoLabels⟩
  unplaced g l hl hu :=
    have hu' := h.unplaced g l hl hu
    ⟨hu'.taken, hu'.code, hu.caseEntries, hu'.gotoLabels⟩
  tidy g hown ht :=
    have ht' := h.tidy g hown ht
    ⟨ht'.code, fun ce hce => (ht.caseEntries ce hce).trans_le (h.grows g).labels, ht'.gotoLabels⟩

theorem vscopeDefine (name : String) (addr : IRValue) (isGlobal : Bool) :
    Places [] (vscopeDefine name addr isGlobal) :=
  update (fun _ => rfl) (fun _ => rfl) (fun _ => rfl) fun _ => List.Subset.refl _

/-! ### The parts of statements -/

theorem genInitializer (Γ : TypeEnv) (addr : IRValue) (ty : CType) (init : Option Expr) :
    Places [] (genInitializer Γ addr ty init) := by
  cases init with
  | none => exact pure _
  | some e => exact EmitsWith.places ((genNode_emits Γ e).init addr ty)

theorem genDecls (Γ : TypeEnv) (ds : List Decl) : Places [] (genDecls Γ ds) := by
  induction ds with
  | nil => exact pure _
  | cons d ds ih =>
    cases d with
    | var v =>
      exact seq (seq (EmitsWith.places (Emits.genAlloca Γ _)) fun _ =>
        seq (vscopeDefine _ _ _) fun _ => genInitializer Γ _ _ _) fun _ => ih
    | _ => exact ih

theorem genExpr (Γ : TypeEnv) (e : Expr) : Places [] (genExpr Γ e) :=
  EmitsWith.places (genNode_emits Γ e).expr

theorem genEffect {e : Option (Gen IRValue)} (h : ∀ m ∈ e, Places [] m) :
    Places [] (genEffect e) := by
  cases e with
  | none => exact pure _
  | some m => exact seq (h m rfl) fun _ => pure _

theorem genIf {cond : Gen IRValue} {thenStmt : Gen Unit} {elseStmt : Option (Gen Unit)}
    (hc : Places [] cond) (ht : Places [] thenStmt) (he : ∀ m ∈ elseStmt, Places [] m) :
    Places [] (genIf cond thenStmt elseStmt) := by
  simp only [TinyC.genIf, TinyC.ifHead, bind_assoc, pure_bind]
  refine newLabel_bind fun e => newLabel_bind fun d => ?_
  refine seq hc fun c => seq (emit (by simp)) fun _ => seq ht fun _ => ?_
  cases elseStmt with
  | none => exact (emitLabel e).mono (by simp)
  | some m =>
    have h : Places [e, d] (TinyC.elseHead (e, d) >>= fun _ => m >>= fun _ => TinyC.emitLabel d) :=
      bind (seq (emitJmp _) fun _ => emitLabel e) fun _ => seq (he m rfl) fun _ => emitLabel d
    exact h.mono (by simp)

theorem genLoopTest {cond : Option (Gen IRValue)} (h : ∀ m ∈ cond, Places [] m) (l : ℕ) :
    Places [] (genLoopTest cond l) := by
  cases cond with
  | none => exact pure _
  | some m => exact seq (h m rfl) fun _ => emit (by simp)

theorem genWhile {cond : Gen IRValue} {body : Gen Unit} (hc : Places [] cond)
    (hb : Places [] body) : Places [] (genWhile cond body) := by
  simp only [TinyC.genWhile, whileHead, bind_assoc, pure_bind]
  refine keepTargets <| newLabel_bind fun t => newLabel_bind fun b => newLabel_bind fun e => ?_
  have h := seq (setTargets e t) fun _ => bind (emitLabel t) fun _ => seq hc fun c =>
    seq (emitJz c e) fun _ =>
      bind (emitLabel b) fun _ => seq hb fun _ => seq (emitJmp t) fun _ => emitLabel e
  exact h.mono (by simp)

theorem genDoWhile {cond : Gen IRValue} {body : Gen Unit} (hc : Places [] cond)
    (hb : Places [] body) : Places [] (genDoWhile cond body) := by
  simp only [TinyC.genDoWhile, doHead, bind_assoc, pure_bind]
  refine keepTargets <| newLabel_bind fun b => newLabel_bind fun t => newLabel_bind fun e => ?_
  have h := seq (setTargets e t) fun _ => bind (emitLabel b) fun _ => seq hb fun _ =>
    bind (emitLabel t) fun _ => seq hc fun c =>
      seq (emitJnz c b) fun _ => emitLabel e
  exact h.mono (by simp)

theorem forTest {cond : Option (Gen IRValue)} (h : ∀ m ∈ cond, Places [] m) (ls : LoopLabels) :
    Places [ls.top, ls.body] (forTest cond ls) :=
  bind (emitLabel _) fun _ => seq (genLoopTest h _) fun _ => emitLabel _

theorem forTail {incr : Option (Gen IRValue)} (h : ∀ m ∈ incr, Places [] m) (ls : LoopLabels) :
    Places [ls.cont, ls.done] (forTail incr ls) :=
  bind (emitLabel _) fun _ => seq (genEffect h) fun _ => seq (emitJmp _) fun _ => emitLabel _

theorem genFor {init body : Gen Unit} {cond incr : Option (Gen IRValue)} (hi : Places [] init)
    (hc : ∀ m ∈ cond, Places [] m) (hn : ∀ m ∈ incr, Places [] m) (hb : Places [] body) :
    Places [] (genFor init cond incr body) := by
  simp only [TinyC.genFor, forHead, bind_assoc, pure_bind]
  refine keepTargets <| newLabel_bind fun t => newLabel_bind fun b => newLabel_bind fun i =>
    newLabel_bind fun e => ?_
  have h := seq (setTargets e i) fun _ => withScope <| seq hi fun _ =>
    bind (forTest hc ⟨t, b, i, e⟩) fun _ => seq hb fun _ => forTail hn ⟨t, b, i, e⟩
  exact h.mono (by simp)

theorem genReturn {e : Option (CType × NodeGen)} (h : ∀ n ∈ e, n.2.Emits) :
    Places [] (genReturn e) := by
  cases e with
  | none => exact emit (by simp)
  | some n =>
    have hn := h n rfl
    exact get_bind fun g => seq (EmitsWith.places (Emits.ite hn.aggAddr hn.expr)) fun _ =>
      emit (by simp)

/-- Entries are added for new labels only. -/
theorem addCase (node : ℕ) (val : BitVec 64) (isDefault : Bool) :
    Places [] (addCase node val isDefault) := by
  refine newLabel_bind fun lbl => ⟨fun g => ⟨List.prefix_rfl, List.suffix_rfl, rfl, le_rfl, le_rfl,
    rfl, rfl⟩, fun g l hl hu => ⟨hu.taken, hu.code, fun ce hce => ?_, hu.gotoLabels⟩,
    fun g hown ht => ⟨ht.code, fun ce hce => ?_, ht.gotoLabels⟩⟩
  · rcases List.mem_cons.mp hce with rfl | hce
    · exact fun h => hl (by simp [← h])
    · exact hu.caseEntries ce hce
  · rcases List.mem_cons.mp hce with rfl | hce
    · exact hown _ List.mem_cons_self
    · exact ht.caseEntries ce hce

theorem genDispatch (sv : IRValue) (ty : CType) (ces : List CaseEntry) :
    Places [] (genDispatch sv ty ces) := by
  induction ces with
  | nil => exact pure _
  | cons ce ces ih =>
    refine seq ?_ fun _ => ih
    exact EmitsWith.places (Emits.ite (.pure _) (.bind (.emitTo (by simp)) fun _ =>
      .emitJnz _ _))

theorem switchHead {collect : Gen Unit} {e : Gen IRValue} (hcol : Places [] collect)
    (he : Places [] e) : Places [] (switchHead collect e) := by
  refine newLabel_bind fun d => ?_
  have h := seq (update (f := fun g : IrGen =>
    { g with breakLabel := d, caseEntries := [], swDefaultLbl := 0 }) (fun _ => rfl) (fun _ => rfl)
    (fun _ => rfl) fun _ => List.nil_subset _) fun _ => seq hcol fun _ => seq he fun sv =>
      seq (emitTo (sv.type.getD typeInt) .copy sv irvNone (by simp)) fun svCopy => get_bind fun g =>
          seq (genDispatch svCopy (sv.type.getD typeInt) g.caseEntries) fun _ =>
            seq (emitJmp (if g.swDefaultLbl = 0 then d else g.swDefaultLbl)) fun _ => pure d
  exact h.mono (List.nil_subset _)

theorem genSwitch {collect body : Gen Unit} {e : Gen IRValue} (hcol : Places [] collect)
    (he : Places [] e) (hb : Places [] body) : Places [] (genSwitch collect e body) := by
  simp only [TinyC.genSwitch, TinyC.switchHead, bind_assoc, pure_bind]
  refine keepSwitch <| newLabel_bind fun d => ?_
  have h := seq (update (f := fun g : IrGen =>
    { g with breakLabel := d, caseEntries := [], swDefaultLbl := 0 }) (fun _ => rfl) (fun _ => rfl)
    (fun _ => rfl) fun _ => List.nil_subset _) fun _ => seq hcol fun _ => seq he fun sv =>
      seq (emitTo (sv.type.getD typeInt) .copy sv irvNone (by simp)) fun svCopy => get_bind fun g =>
          seq (genDispatch svCopy (sv.type.getD typeInt) g.caseEntries) fun _ =>
            seq (emitJmp (if g.swDefaultLbl = 0 then d else g.swDefaultLbl)) fun _ =>
              seq hb fun _ => emitLabel d
  exact h

/-- A case places the label of its entry. -/
theorem emitCaseLabel (node : ℕ) (isDefault : Bool) : Places [] (emitCaseLabel node isDefault) := by
  have h : ∀ g : IrGen, ∃ m : Gen Unit, Places (g.caseEntries.map CaseEntry.labelId) m ∧
      TinyC.emitCaseLabel node isDefault g = m g := by
    intro g
    rcases emitCaseLabel_cases node isDefault g with ⟨-, hrun⟩ | ⟨ce, hce, hrun⟩
    · exact ⟨return, (pure _).mono (List.nil_subset _), hrun⟩
    · have hmem := List.mem_of_find?_eq_some hce
      exact ⟨_, (emitLabel _).mono (by simpa using ⟨ce, hmem, rfl⟩), hrun⟩
  constructor
  · intro g
    obtain ⟨m, hm, hrun⟩ := h g
    rw [hrun]
    exact hm.grows g
  · intro g l _ hu
    obtain ⟨m, hm, hrun⟩ := h g
    rw [hrun]
    exact hm.unplaced g l (by simpa using fun ce hce => hu.caseEntries ce hce) hu
  · intro g _ ht
    obtain ⟨m, hm, hrun⟩ := h g
    rw [hrun]
    exact hm.tidy g (by simpa using fun ce hce => ht.caseEntries ce hce) ht

theorem emitNamedLabel (name : String) : Places [] (emitNamedLabel name) := by
  have h : ∀ g : IrGen, ∃ m : Gen Unit, Places (g.gotoLabels.map Prod.snd) m ∧
      TinyC.emitNamedLabel name g = m g := by
    intro g
    rcases emitNamedLabel_cases name g with ⟨-, hrun⟩ | ⟨l, hl, hrun⟩
    · exact ⟨return, (pure _).mono (List.nil_subset _), hrun⟩
    · obtain ⟨before, after, hsplit, -⟩ := List.lookup_eq_some_iff.mp hl
      exact ⟨_, (emitLabel _).mono (by simp [hsplit]), hrun⟩
  constructor
  · intro g
    obtain ⟨m, hm, hrun⟩ := h g
    rw [hrun]
    exact hm.grows g
  · intro g l _ hu
    obtain ⟨m, hm, hrun⟩ := h g
    rw [hrun]
    exact hm.unplaced g l (by simpa using fun a hp => hu.gotoLabels (a, l) hp rfl) hu
  · intro g _ ht
    obtain ⟨m, hm, hrun⟩ := h g
    rw [hrun]
    exact hm.tidy g (by simpa using fun a b hp => ht.gotoLabels (b, a) hp) ht

theorem emitGoto (name : String) : Places [] (emitGoto name) :=
  get_bind fun g => by
    split
    · exact emitJmp _
    · exact pure _

theorem emitBreak : Places [] emitBreak := get_bind fun g => by
  split
  · exact pure _
  · exact emitJmp _

theorem emitContinue : Places [] emitContinue := get_bind fun g => by
  split
  · exact pure _
  · exact emitJmp _

end Places

/-! #### The scans for cases and for names -/

mutual

/-- What holds of nothing, of one after the other and of an entry holds of the scan for cases. -/
theorem collectSwitchCases_rule {Q : Gen Unit → Prop} (hpure : Q (return))
    (hseq : ∀ {m k : Gen Unit}, Q m → Q k → Q (m >>= fun _ => k))
    (hadd : ∀ node val isDefault, Q (addCase node val isDefault)) :
    (s : Stmt) → Q (collectSwitchCases s)
  | .case _ _ _ _ s | .default _ _ _ s =>
      hseq (hadd _ _ _) (collectSwitchCases_rule hpure hseq hadd s)
  | .compound ss => collectSwitchCasesList_rule hpure hseq hadd ss
  | .ifElse _ _ _ t e => hseq (collectSwitchCases_rule hpure hseq hadd t)
      (collectSwitchCasesOpt_rule hpure hseq hadd e)
  | .while _ _ _ b | .doWhile _ _ _ b | .for _ _ _ _ _ b | .label _ _ _ b =>
      collectSwitchCases_rule hpure hseq hadd b
  | .switch _ _ _ _ | .expr _ | .decl _ | .ret _ _ _ | .break _ _ | .continue _ _
  | .goto _ _ _ => hpure

theorem collectSwitchCasesList_rule {Q : Gen Unit → Prop} (hpure : Q (return))
    (hseq : ∀ {m k : Gen Unit}, Q m → Q k → Q (m >>= fun _ => k))
    (hadd : ∀ node val isDefault, Q (addCase node val isDefault)) :
    (ss : List Stmt) → Q (collectSwitchCasesList ss)
  | [] => hpure
  | s :: ss => hseq (collectSwitchCases_rule hpure hseq hadd s)
      (collectSwitchCasesList_rule hpure hseq hadd ss)

theorem collectSwitchCasesOpt_rule {Q : Gen Unit → Prop} (hpure : Q (return))
    (hseq : ∀ {m k : Gen Unit}, Q m → Q k → Q (m >>= fun _ => k))
    (hadd : ∀ node val isDefault, Q (addCase node val isDefault)) :
    (s : Option Stmt) → Q (collectSwitchCasesOpt s)
  | none => hpure
  | some s => collectSwitchCases_rule hpure hseq hadd s

end

mutual

theorem collectLabels_rule {Q : Gen Unit → Prop} (hpure : Q (return))
    (hseq : ∀ {m k : Gen Unit}, Q m → Q k → Q (m >>= fun _ => k))
    (hadd : ∀ name, Q (addLabel name)) : (s : Stmt) → Q (collectLabels s)
  | .label _ _ name s => hseq (hadd name) (collectLabels_rule hpure hseq hadd s)
  | .compound ss => collectLabelsList_rule hpure hseq hadd ss
  | .ifElse _ _ _ t e => hseq (collectLabels_rule hpure hseq hadd t)
      (collectLabelsOpt_rule hpure hseq hadd e)
  | .while _ _ _ b | .doWhile _ _ _ b | .for _ _ _ _ _ b | .switch _ _ _ b | .case _ _ _ _ b
  | .default _ _ _ b => collectLabels_rule hpure hseq hadd b
  | .expr _ | .decl _ | .ret _ _ _ | .break _ _ | .continue _ _ | .goto _ _ _ => hpure

theorem collectLabelsList_rule {Q : Gen Unit → Prop} (hpure : Q (return))
    (hseq : ∀ {m k : Gen Unit}, Q m → Q k → Q (m >>= fun _ => k))
    (hadd : ∀ name, Q (addLabel name)) : (ss : List Stmt) → Q (collectLabelsList ss)
  | [] => hpure
  | s :: ss => hseq (collectLabels_rule hpure hseq hadd s)
      (collectLabelsList_rule hpure hseq hadd ss)

theorem collectLabelsOpt_rule {Q : Gen Unit → Prop} (hpure : Q (return))
    (hseq : ∀ {m k : Gen Unit}, Q m → Q k → Q (m >>= fun _ => k))
    (hadd : ∀ name, Q (addLabel name)) : (s : Option Stmt) → Q (collectLabelsOpt s)
  | none => hpure
  | some s => collectLabels_rule hpure hseq hadd s

end

theorem collectSwitchCases_places (s : Stmt) : Places [] (collectSwitchCases s) :=
  collectSwitchCases_rule (.pure _) (fun hm hk => .seq hm fun _ => hk) .addCase s

mutual

/-- A statement places new labels, those of its cases and those of its names. -/
theorem genStmt_places (Γ : TypeEnv) : (s : Stmt) → Places [] (genStmt Γ s)
  | .compound ss => .withScope (genStmts_places Γ ss)
  | .expr e => .genEffect (by
      intro m hm
      obtain ⟨e, -, rfl⟩ := Option.mem_map.mp hm
      exact .genExpr Γ e)
  | .decl ds => .genDecls Γ ds
  | .ifElse _ _ c t e => .genIf (.genExpr Γ c) (genStmt_places Γ t) (genStmtOpt_places Γ e)
  | .while _ _ c b => .genWhile (.genExpr Γ c) (genStmt_places Γ b)
  | .doWhile _ _ c b => .genDoWhile (.genExpr Γ c) (genStmt_places Γ b)
  | .for _ _ init c incr b => by
      have hexpr : ∀ e : Option Expr, ∀ m ∈ e.map (genExpr Γ), Places [] m := by
        intro e m hm
        obtain ⟨e, -, rfl⟩ := Option.mem_map.mp hm
        exact .genExpr Γ e
      refine .genFor ?_ (hexpr c) (hexpr incr) (genStmt_places Γ b)
      have hinit := genStmtOpt_places Γ init
      cases init with
      | none => exact .pure _
      | some s => exact hinit _ rfl
  | .ret _ _ e => .genReturn (by
      intro n hn
      obtain ⟨e, -, rfl⟩ := Option.mem_map.mp hn
      exact genNode_emits Γ e)
  | .break _ _ => .emitBreak
  | .continue _ _ => .emitContinue
  | .switch _ _ e b =>
      .genSwitch (collectSwitchCases_places b) (.genExpr Γ e) (genStmt_places Γ b)
  | .case _ _ _ _ s | .default _ _ _ s => .seq (.emitCaseLabel _ _) fun _ => genStmt_places Γ s
  | .goto _ _ name => .emitGoto name
  | .label _ _ name s => .seq (.emitNamedLabel name) fun _ => genStmt_places Γ s

theorem genStmts_places (Γ : TypeEnv) : (ss : List Stmt) → Places [] (genStmts Γ ss)
  | [] => .pure _
  | s :: ss => .seq (genStmt_places Γ s) fun _ => genStmts_places Γ ss

theorem genStmtOpt_places (Γ : TypeEnv) :
    (s : Option Stmt) → ∀ m ∈ genStmtOpt Γ s, Places [] m
  | none => by simp [genStmtOpt]
  | some s => by
      have hs := genStmt_places Γ s
      intro m hm
      obtain rfl : genStmt Γ s = m := by simpa [genStmtOpt] using hm
      exact hs

end

/-! ### What a statement puts back -/

/-- A generator that leaves `f` of the state as it is. -/
def Keeps {α β : Type} (f : IrGen → β) (m : Gen α) : Prop := ∀ g, f (m g).2 = f g

/-- Emitting code and adding to the module does not change `f`. -/
def Stable {β : Type} (f : IrGen → β) : Prop :=
  ∀ (own : List ℕ) (g g' : IrGen), ExtendsWith own g g' → f g' = f g

namespace Keeps

variable {α β γ : Type} {f : IrGen → γ}

theorem bind {m : Gen α} {k : α → Gen β} (hm : Keeps f m) (hk : ∀ a, Keeps f (k a)) :
    Keeps f (m >>= k) := fun g => (hk (m g).1 (m g).2).trans (hm g)

theorem get_bind {k : IrGen → Gen β} (hk : ∀ a, Keeps f (k a)) : Keeps f (get >>= k) :=
  fun g => hk g g

theorem pure (a : α) : Keeps f (Pure.pure a : Gen α) := fun _ => rfl

theorem ofEmits {own : List ℕ} {m : Gen α} (hf : Stable f) (hm : EmitsWith own m) : Keeps f m :=
  fun g => hf own g _ (hm g)

theorem emitLabel (hf : Stable f) (l : ℕ) : Keeps f (emitLabel l) :=
  ofEmits hf (EmitsWith.emitLabel l)

theorem emit (hf : Stable f) {ins : IRInstr} (h : ins.op ≠ .label) : Keeps f (emit ins) :=
  ofEmits hf (Emits.emit h)

theorem emitJmp (hf : Stable f) (l : ℕ) : Keeps f (emitJmp l) := ofEmits hf (Emits.emitJmp l)

theorem emitTo (hf : Stable f) (ty : CType) (op : IROp) (a b : IRValue) (h : op ≠ .label) :
    Keeps f (emitTo ty op a b) := ofEmits hf (Emits.emitTo h)

theorem newLabel (hf : Stable f) : Keeps f newLabel := ofEmits hf Emits.newLabel

theorem genExpr (hf : Stable f) (Γ : TypeEnv) (e : Expr) : Keeps f (genExpr Γ e) :=
  ofEmits hf (genNode_emits Γ e).expr

theorem genEffect (hf : Stable f) (Γ : TypeEnv) (e : Option Expr) :
    Keeps f (genEffect (e.map (TinyC.genExpr Γ))) := by
  cases e with
  | none => exact pure _
  | some e => exact bind (genExpr hf Γ e) fun _ => pure _

theorem ifHead (hf : Stable f) (Γ : TypeEnv) (c : Expr) :
    Keeps f (ifHead (TinyC.genExpr Γ c)) :=
  bind (newLabel hf) fun _ => bind (newLabel hf) fun _ => bind (genExpr hf Γ c) fun _ =>
    bind (emit hf (by simp)) fun _ => pure _

theorem elseHead (hf : Stable f) (ls : ℕ × ℕ) : Keeps f (elseHead ls) :=
  bind (emit hf (by simp)) fun _ => emitLabel hf _

theorem genIf (hf : Stable f) (Γ : TypeEnv) (c : Expr) {t : Gen Unit} {e : Option (Gen Unit)}
    (ht : Keeps f t) (he : ∀ m ∈ e, Keeps f m) : Keeps f (genIf (TinyC.genExpr Γ c) t e) := by
  refine bind (ifHead hf Γ c) fun ls => bind ht fun _ => ?_
  cases e with
  | none => exact emitLabel hf _
  | some m => exact bind (elseHead hf ls) fun _ => bind (he m rfl) fun _ => emitLabel hf _

theorem genReturn (hf : Stable f) (Γ : TypeEnv) (e : Option Expr) :
    Keeps f (genReturn (e.map fun e => (e.typeOrInt, genNode Γ e))) := by
  cases e with
  | none => exact emit hf (by simp)
  | some e =>
    have he := genNode_emits Γ e
    exact get_bind fun g => bind (ofEmits hf (Emits.ite he.aggAddr he.expr)) fun _ =>
      emit hf (by simp)

theorem emitCaseLabel (hf : Stable f) (node : ℕ) (isDefault : Bool) :
    Keeps f (emitCaseLabel node isDefault) := get_bind fun _ => by
  split
  · exact emitLabel hf _
  · exact pure _

theorem emitNamedLabel (hf : Stable f) (name : String) : Keeps f (emitNamedLabel name) :=
  get_bind fun _ => by
    split
    · exact emitLabel hf _
    · exact pure _

theorem emitGoto (hf : Stable f) (name : String) : Keeps f (emitGoto name) := get_bind fun _ => by
  split
  · exact emit hf (by simp)
  · exact pure _

theorem emitBreak (hf : Stable f) : Keeps f emitBreak := get_bind fun _ => by
  split
  · exact pure _
  · exact emit hf (by simp)

theorem emitContinue (hf : Stable f) : Keeps f emitContinue := get_bind fun _ => by
  split
  · exact pure _
  · exact emit hf (by simp)

/-! #### The loops, whatever targets they set -/

theorem whileHead (hf : Stable f) (ht : ∀ b c, Keeps f (setTargets b c)) (Γ : TypeEnv) (c : Expr) :
    Keeps f (whileHead (TinyC.genExpr Γ c)) :=
  bind (newLabel hf) fun _ => bind (newLabel hf) fun _ => bind (newLabel hf) fun _ =>
    bind (ht _ _) fun _ => bind (emitLabel hf _) fun _ => bind (genExpr hf Γ c) fun _ =>
      bind (emit hf (by simp)) fun _ => bind (emitLabel hf _) fun _ => pure _

theorem doHead (hf : Stable f) (ht : ∀ b c, Keeps f (setTargets b c)) : Keeps f doHead :=
  bind (newLabel hf) fun _ => bind (newLabel hf) fun _ => bind (newLabel hf) fun _ =>
    bind (ht _ _) fun _ => bind (emitLabel hf _) fun _ => pure _

theorem forHead (hf : Stable f) (ht : ∀ b c, Keeps f (setTargets b c)) : Keeps f forHead :=
  bind (newLabel hf) fun _ => bind (newLabel hf) fun _ => bind (newLabel hf) fun _ =>
    bind (newLabel hf) fun _ => bind (ht _ _) fun _ => pure _

theorem forTest (hf : Stable f) (Γ : TypeEnv) (c : Option Expr) (ls : LoopLabels) :
    Keeps f (forTest (c.map (TinyC.genExpr Γ)) ls) := by
  refine bind (emitLabel hf _) fun _ => bind ?_ fun _ => emitLabel hf _
  cases c with
  | none => exact pure _
  | some c => exact bind (genExpr hf Γ c) fun _ => emit hf (by simp)

theorem forTail (hf : Stable f) (Γ : TypeEnv) (e : Option Expr) (ls : LoopLabels) :
    Keeps f (forTail (e.map (TinyC.genExpr Γ)) ls) :=
  bind (emitLabel hf _) fun _ => bind (genEffect hf Γ e) fun _ => bind (emit hf (by simp)) fun _ =>
    emitLabel hf _

end Keeps

theorem stable_scope : Stable IrGen.scope := fun _ _ _ h => h.scope

/-- What a statement inside a loop or a switch goes by. -/
structure Context where
  breakLabel : ℕ
  contLabel : ℕ
  caseEntries : List CaseEntry
  swDefaultLbl : ℕ

def IrGen.context (g : IrGen) : Context :=
  ⟨g.breakLabel, g.contLabel, g.caseEntries, g.swDefaultLbl⟩

def IrGen.cases (g : IrGen) : List CaseEntry × ℕ := (g.caseEntries, g.swDefaultLbl)

theorem stable_context : Stable IrGen.context := fun _ _ _ h => by
  simp [IrGen.context, h.breakLabel, h.contLabel, h.caseEntries, h.swDefaultLbl]

theorem stable_cases : Stable IrGen.cases := fun _ _ _ h => by
  simp [IrGen.cases, h.caseEntries, h.swDefaultLbl]

theorem stable_contLabel : Stable IrGen.contLabel := fun _ _ _ h => h.contLabel

namespace Keeps

variable {α β γ : Type} {f : IrGen → γ}

/-- What depends on the context only is kept with it. -/
theorem of_context {m : Gen α} (h : Keeps IrGen.context m) (p : Context → γ) :
    Keeps (fun g => p g.context) m := fun g => congrArg p (h g)

theorem cases_of_context {m : Gen α} (h : Keeps IrGen.context m) : Keeps IrGen.cases m :=
  h.of_context fun c => (c.caseEntries, c.swDefaultLbl)

theorem setTargets_cases (b c : ℕ) : Keeps IrGen.cases (setTargets b c) := fun _ => rfl

/-- A loop puts its targets back. -/
theorem keepTargets {m : Gen Unit} (h : Keeps IrGen.cases m) :
    Keeps IrGen.context (keepTargets m) := fun g => by
  have hg := h g
  simp only [IrGen.cases, Prod.mk.injEq] at hg
  change Context.mk _ _ (m g).2.caseEntries (m g).2.swDefaultLbl = _
  rw [hg.1, hg.2]
  rfl

theorem keepTargets_of (hf : ∀ g b c, f { g with breakLabel := b, contLabel := c } = f g)
    {m : Gen Unit} (h : Keeps f m) : Keeps f (TinyC.keepTargets m) :=
  fun g => (hf _ _ _).trans (h g)

/-- A switch puts its entries back. -/
theorem keepSwitch {m : Gen Unit} (h : Keeps IrGen.contLabel m) :
    Keeps IrGen.context (keepSwitch m) := fun g => by
  change Context.mk _ (m g).2.contLabel _ _ = _
  rw [h g]
  rfl

theorem withScope (hf : ∀ g sc, f { g with scope := sc } = f g) {m : Gen Unit} (h : Keeps f m) :
    Keeps f (withScope m) := fun g =>
  (hf _ _).trans ((h _).trans (hf g _))

theorem genWhile (Γ : TypeEnv) (c : Expr) {body : Gen Unit} (h : Keeps IrGen.context body) :
    Keeps IrGen.context (genWhile (TinyC.genExpr Γ c) body) :=
  keepTargets <| bind (whileHead stable_cases setTargets_cases Γ c) fun _ =>
    bind (cases_of_context h) fun _ => bind (emit stable_cases (by simp)) fun _ =>
      emitLabel stable_cases _

theorem genDoWhile (Γ : TypeEnv) (c : Expr) {body : Gen Unit} (h : Keeps IrGen.context body) :
    Keeps IrGen.context (genDoWhile (TinyC.genExpr Γ c) body) :=
  keepTargets <| bind (doHead stable_cases setTargets_cases) fun _ =>
    bind (cases_of_context h) fun _ => bind (emitLabel stable_cases _) fun _ =>
      bind (genExpr stable_cases Γ c) fun _ => bind (emit stable_cases (by simp)) fun _ =>
        emitLabel stable_cases _

theorem genFor (Γ : TypeEnv) {init body : Gen Unit} (c e : Option Expr)
    (hi : Keeps IrGen.context init) (h : Keeps IrGen.context body) :
    Keeps IrGen.context
      (genFor init (c.map (TinyC.genExpr Γ)) (e.map (TinyC.genExpr Γ)) body) :=
  keepTargets <| bind (forHead stable_cases setTargets_cases) fun ls =>
    withScope (fun _ _ => rfl) <| bind (cases_of_context hi) fun _ =>
      bind (forTest stable_cases Γ c ls) fun _ => bind (cases_of_context h) fun _ =>
        forTail stable_cases Γ e ls

theorem genDispatch (hf : Stable f) (sv : IRValue) (ty : CType) (ces : List CaseEntry) :
    Keeps f (genDispatch sv ty ces) := by
  induction ces with
  | nil => exact pure _
  | cons ce ces ih =>
    exact bind (ofEmits hf (Emits.ite (.pure _) (.bind (.emitTo (by simp)) fun _ =>
      .emitJnz _ _))) fun _ => ih

theorem switchHead (Γ : TypeEnv) {collect : Gen Unit} (hcol : Keeps IrGen.contLabel collect)
    (e : Expr) : Keeps IrGen.contLabel (switchHead collect (TinyC.genExpr Γ e)) :=
  bind (newLabel stable_contLabel) fun _ => bind (fun _ => rfl) fun _ => bind hcol fun _ =>
    bind (genExpr stable_contLabel Γ e) fun _ =>
      bind (ofEmits stable_contLabel (Emits.emitTo (by simp))) fun _ => get_bind fun _ =>
        bind (genDispatch stable_contLabel _ _ _) fun _ =>
          bind (emit stable_contLabel (by simp)) fun _ => pure _

theorem genSwitch (Γ : TypeEnv) {collect body : Gen Unit} (e : Expr)
    (hcol : Keeps IrGen.contLabel collect) (h : Keeps IrGen.context body) :
    Keeps IrGen.context (genSwitch collect (TinyC.genExpr Γ e) body) :=
  keepSwitch <| bind (switchHead Γ hcol e) fun _ =>
    bind (h.of_context Context.contLabel) fun _ => emitLabel stable_contLabel _

theorem genDecls (Γ : TypeEnv) (ds : List Decl) : Keeps IrGen.context (genDecls Γ ds) := by
  induction ds with
  | nil => exact pure _
  | cons d ds ih =>
    cases d with
    | var v =>
      refine bind (bind (ofEmits stable_context (Emits.genAlloca Γ _)) fun _ =>
        bind (fun _ => rfl) fun _ => ?_) fun _ => ih
      cases v.init with
      | none => exact pure _
      | some e => exact ofEmits stable_context ((genNode_emits Γ e).init _ _)
    | _ => exact ih

end Keeps

/-- The scan keeps what the entry of a case keeps. -/
theorem collectSwitchCases_keeps {γ : Type} {f : IrGen → γ}
    (h : ∀ node val isDefault, Keeps f (addCase node val isDefault)) (s : Stmt) :
    Keeps f (collectSwitchCases s) :=
  collectSwitchCases_rule (.pure _) (fun hm hk => .bind hm fun _ => hk) h s

mutual

/-- A statement leaves the context it was lowered in. -/
theorem genStmt_context (Γ : TypeEnv) : (s : Stmt) → Keeps IrGen.context (genStmt Γ s)
  | .compound ss => .withScope (fun _ _ => rfl) (genStmts_context Γ ss)
  | .expr e => .genEffect stable_context Γ e
  | .decl ds => .genDecls Γ ds
  | .ifElse _ _ c t e =>
      .genIf stable_context Γ c (genStmt_context Γ t) (genStmtOpt_context Γ e)
  | .while _ _ c b => .genWhile Γ c (genStmt_context Γ b)
  | .doWhile _ _ c b => .genDoWhile Γ c (genStmt_context Γ b)
  | .for _ _ init c incr b => by
      have hinit := genStmtOpt_context Γ init
      refine .genFor Γ c incr ?_ (genStmt_context Γ b)
      cases init with
      | none => exact .pure _
      | some s => exact hinit _ rfl
  | .ret _ _ e => .genReturn stable_context Γ e
  | .break _ _ => .emitBreak stable_context
  | .continue _ _ => .emitContinue stable_context
  | .switch _ _ e b =>
      .genSwitch Γ e (collectSwitchCases_keeps (fun _ _ _ _ => rfl) b) (genStmt_context Γ b)
  | .case _ _ _ _ s | .default _ _ _ s =>
      .bind (.emitCaseLabel stable_context _ _) fun _ => genStmt_context Γ s
  | .goto _ _ name => .emitGoto stable_context name
  | .label _ _ name s => .bind (.emitNamedLabel stable_context name) fun _ => genStmt_context Γ s

theorem genStmts_context (Γ : TypeEnv) : (ss : List Stmt) → Keeps IrGen.context (genStmts Γ ss)
  | [] => .pure _
  | s :: ss => .bind (genStmt_context Γ s) fun _ => genStmts_context Γ ss

theorem genStmtOpt_context (Γ : TypeEnv) :
    (s : Option Stmt) → ∀ m ∈ genStmtOpt Γ s, Keeps IrGen.context m
  | none => by simp [genStmtOpt]
  | some s => by
      have hs := genStmt_context Γ s
      intro m hm
      obtain rfl : genStmt Γ s = m := by simpa [genStmtOpt] using hm
      exact hs

end

end TinyC
