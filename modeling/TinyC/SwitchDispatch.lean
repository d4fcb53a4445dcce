import TinyC.OperatorValue
import TinyC.StmtRules
import TinyC.SwitchLowering

/-!
# Switch dispatch

Control goes from the value of a switch to the case that the value selects.
-/

namespace TinyC

/-! ### What the code of a switch jumps to -/

section

variable {Γ : TypeEnv} {e : Expr} {b : Stmt} {g : IrGen} {l : ℤ}

theorem mem_switchEntries {ce : CaseEntry} (h : ce ∈ switchEntries b g) :
    (∃ c ∈ switchNodes b, ce = c.entry ce.labelId) ∧ g.func.nextLabel < ce.labelId ∧
      ce.labelId < g.func.nextLabel + 1 + (switchNodes b).length := by
  obtain ⟨hc, hlo, hhi⟩ := mem_entriesFrom (List.mem_reverse.mp h)
  exact ⟨hc, hlo, hhi⟩

/-- The last jump before the body goes to a default if there is one. -/
theorem switchElse_cases (b : Stmt) (g : IrGen) :
    (∃ ce ∈ switchEntries b g, ce.isDefault = true ∧ switchElse b g = ce.labelId) ∨
      (∀ ce ∈ switchEntries b g, ce.isDefault = false) ∧ switchElse b g = g.func.nextLabel := by
  rcases defaultFrom_cases 0 (g.func.nextLabel + 1) (switchNodes b) with
    ⟨ce, hce, hdef, heq⟩ | ⟨hnone, heq⟩
  · have hmem : ce ∈ switchEntries b g := List.mem_reverse.mpr hce
    have hne : ce.labelId ≠ 0 := by
      have := (mem_switchEntries hmem).2.1
      omega
    refine .inl ⟨ce, hmem, hdef, ?_⟩
    rw [switchElse, heq, if_neg hne]
  · refine .inr ⟨fun ce hce => ?_, ?_⟩
    · obtain ⟨⟨c, hc, hentry⟩, -⟩ := mem_switchEntries hce
      rw [hentry]
      exact hnone c hc
    · rw [switchElse, heq, if_pos rfl]

theorem jumpsOf_caseTests {sv : IRValue} {ty : CType} {n : ℕ} {ces : List CaseEntry}
    (h : l ∈ jumpsOf (caseTests sv ty n ces)) : ∃ ce ∈ ces, l = (ce.labelId : ℤ) := by
  induction ces generalizing n with
  | nil => cases h
  | cons ce ces ih =>
    rw [caseTests] at h
    by_cases hdef : ce.isDefault = true
    · rw [if_pos hdef] at h
      obtain ⟨ce', hce', hl⟩ := ih h
      exact ⟨ce', List.mem_cons_of_mem ce hce', hl⟩
    · rw [if_neg hdef] at h
      rcases List.mem_cons.mp (show l ∈ (ce.labelId : ℤ) :: jumpsOf (caseTests sv ty (n + 1) ces)
        from h) with rfl | h
      · exact ⟨ce, List.mem_cons_self, rfl⟩
      · obtain ⟨ce', hce', hl⟩ := ih h
        exact ⟨ce', List.mem_cons_of_mem ce hce', hl⟩

/-- The tests jump to labels that the scan has taken. -/
theorem jumpsOf_dispatchCode {t n : ℕ} {ty : CType}
    (h : l ∈ jumpsOf (dispatchCode t ty n (switchEntries b g) (switchElse b g))) :
    0 ≤ l ∧ l < (switchScan b g).func.nextLabel := by
  have hscan : (switchScan b g).func.nextLabel = g.func.nextLabel + 1 + (switchNodes b).length := rfl
  rw [dispatchCode, jumpsOf_append, List.mem_append] at h
  rcases h with h | h
  · obtain ⟨ce, hce, rfl⟩ := jumpsOf_caseTests h
    have := (mem_switchEntries hce).2.2
    omega
  · obtain rfl : l = (switchElse b g : ℤ) := List.mem_singleton.mp h
    rcases switchElse_cases b g with ⟨ce, hce, -, heq⟩ | ⟨-, heq⟩
    · have := (mem_switchEntries hce).2.2
      omega
    · omega

end

/-! ### The target of `continue` -/

/-- `continue` goes to a label that is taken already. -/
def ContinueTaken (g : IrGen) : Prop := g.contLabel < g.func.nextLabel

theorem Inside.continueTaken {Γ : TypeEnv} {k : Nesting} {s s' : Stmt} {g g' : IrGen}
    (h : Inside Γ k s g s' g') (hg : ContinueTaken g) : ContinueTaken g' := by
  have hle := h.labels_le
  have hsame : g'.contLabel = g.contLabel → ContinueTaken g' := fun heq => by
    have := hg
    unfold ContinueTaken at *
    omega
  cases k with
  | plain => exact hsame (congrArg Context.contLabel h.context)
  | switch => exact hsame h.switch_contLabel
  | init =>
    cases h with
    | forInit => exact show g.func.nextLabel + 2 < g.func.nextLabel + 4 by omega
  | loop =>
    cases h with
    | @whileBody _ ln cl c b =>
      let t := g.func.nextLabel
      let g₃ := (newLabel (newLabel (newLabel g).2).2).2
      have hcont : (whileHead (genExpr Γ c) g).2.contLabel = t :=
        ((genNode_emits Γ c).expr _).contLabel
      have hhead := Places.seq (.setTargets (t + 2) t) fun _ => .bind (.emitLabel t) fun _ =>
        .seq (.genExpr Γ c) fun v => .seq (.emitJz v (t + 2)) fun _ =>
          .bind (.emitLabel (t + 1)) fun _ => .pure (⟨t, t + 1, t, t + 2⟩ : LoopLabels)
      have hlabels : t + 3 ≤ (whileHead (genExpr Γ c) g).2.func.nextLabel := (hhead.grows g₃).labels
      rw [ContinueTaken, hcont]
      omega
    | doBody => exact show g.func.nextLabel + 1 < g.func.nextLabel + 3 by omega
    | @forBody _ ln cl init c incr b =>
      let t := g.func.nextLabel
      let ls : LoopLabels := ⟨t, t + 1, t + 2, t + 3⟩
      let g₄ := (newLabel (newLabel (newLabel (newLabel g).2).2).2).2
      have hinit : Keeps IrGen.context ((genStmtOpt Γ init).getD (return)) := by
        cases init with
        | none => exact .pure _
        | some s => exact genStmt_context Γ s
      have hkeep := Keeps.bind hinit fun _ => .forTest stable_context Γ c ls
      have hcont := congrArg Context.contLabel
        (hkeep (pushScope (setTargets (t + 3) (t + 2) g₄).2).2)
      have hrest := Places.seq (.setTargets (t + 3) (t + 2)) fun _ => .seq .pushScope fun _ =>
        .seq (forInit_places Γ init) fun _ => .forTest (optExpr_places Γ c) ls
      have hlabels := (hrest.grows g₄).labels
      refine lt_of_eq_of_lt hcont (lt_of_lt_of_le ?_ hlabels)
      exact show t + 2 < t + 4 by omega

theorem GeneratesIn.continueTaken {Γ : TypeEnv} {s s' : Stmt} {g g' : IrGen}
    (h : GeneratesIn Γ s g s' g') (hg : ContinueTaken g) : ContinueTaken g' := by
  induction h with
  | refl => exact hg
  | step h _ _ ih => exact ih (h.continueTaken hg)

/-! ### The value is evaluated once -/

section

variable {Γ : TypeEnv} {e : Expr} {b : Stmt} {g : IrGen} {ln cl : ℤ}

/-- What the value's code adds, with the labels it places and jumps to. -/
theorem switchValue_code (Γ : TypeEnv) (e : Expr) (b : Stmt) (g : IrGen) :
    ∃ code, (switchValue Γ e b g).2.func.instrs = g.func.instrs ++ code ∧
      (∀ l ∈ jumpsOf code, l ∈ labelsOf code) ∧
      ∀ l ∈ labelsOf code, ((switchScan b g).func.nextLabel : ℤ) ≤ l ∧
        l < (switchValue Γ e b g).2.func.nextLabel := by
  obtain ⟨code, hcode, hwithin, hnonneg⟩ := ((genNode_emits Γ e).expr (switchScan b g)).code
  obtain ⟨code', hcode', -, hout⟩ := (Closing.rules.node_of Γ e).expr (switchScan b g)
  obtain rfl : code = code' := List.append_cancel_left (hcode.symm.trans hcode')
  refine ⟨code, hcode, fun l hl => ?_, fun l hl => ?_⟩
  · rcases hout l hl with hl | ⟨l', hl', -⟩
    · exact hl
    · cases hl'
  · obtain ⟨k, rfl⟩ := Int.eq_ofNat_of_zero_le (hnonneg l hl)
    have hcount := (List.count_pos_iff.mpr hl).trans_le (hwithin k)
    rw [List.count_nil, Nat.zero_add] at hcount
    split at hcount
    · rename_i hrange
      exact ⟨Int.ofNat_le.mpr hrange.1, Int.ofNat_lt.mpr hrange.2⟩
    · exact absurd hcount (lt_irrefl 0)

theorem switchBody_instrs (Γ : TypeEnv) (e : Expr) (b : Stmt) (g : IrGen) :
    (switchBody Γ e b g).func.instrs = (switchValue Γ e b g).2.func.instrs ++ switchCopy Γ e b g ::
      dispatchCode (switchTemp Γ e b g) (switchType Γ e b g) (switchTemp Γ e b g + 1)
        (switchEntries b g) (switchElse b g) := by
  rw [switchBody, run_switchHead]

theorem switchBody_nextLabel (Γ : TypeEnv) (e : Expr) (b : Stmt) (g : IrGen) :
    (switchBody Γ e b g).func.nextLabel = (switchValue Γ e b g).2.func.nextLabel := by
  rw [switchBody, run_switchHead]

theorem switchBody_context (Γ : TypeEnv) (e : Expr) (b : Stmt) (g : IrGen) :
    (switchBody Γ e b g).context = ⟨g.func.nextLabel, g.contLabel, switchEntries b g,
      defaultFrom 0 (g.func.nextLabel + 1) (switchNodes b)⟩ := by
  rw [switchBody, run_switchHead]
  exact switchValue_context Γ e b g

theorem switchBody_gotoLabels (Γ : TypeEnv) (e : Expr) (b : Stmt) (g : IrGen) :
    (switchBody Γ e b g).gotoLabels = g.gotoLabels := by
  rw [switchBody, run_switchHead]
  exact ((genNode_emits Γ e).expr (switchScan b g)).gotoLabels

/-- The code of a switch is that of its body and a label. -/
theorem genStmt_switch_instrs (Γ : TypeEnv) (ln cl : ℤ) (e : Expr) (b : Stmt) (g : IrGen) :
    (genStmt Γ (.switch ln cl e b) g).2.func.instrs =
      (genStmt Γ b (switchBody Γ e b g)).2.func.instrs ++
        [{ op := .label, labelId := g.func.nextLabel }] := by
  have hend : (switchHead (collectSwitchCases b) (genExpr Γ e) g).1 = g.func.nextLabel := by
    rw [run_switchHead]
  rw [← hend]
  rfl

/-- The body jumps to no label of the value's code. -/
theorem body_jumps (hb : b.Parsed) (ht : Tidy g) (hg : ContinueTaken g) :
    ∃ code, (genStmt Γ b (switchBody Γ e b g)).2.func.instrs =
        (switchBody Γ e b g).func.instrs ++ code ∧
      ∀ l ∈ jumpsOf code, l < (switchScan b g).func.nextLabel ∨
        (switchValue Γ e b g).2.func.nextLabel ≤ l := by
  have hscan : (switchScan b g).func.nextLabel = g.func.nextLabel + 1 + (switchNodes b).length := rfl
  let T := (switchBody Γ e b g).targets
  have hcontext : T.context = _ := switchBody_context Γ e b g
  have hgotos : T.gotoLabels = g.gotoLabels := switchBody_gotoLabels Γ e b g
  obtain ⟨happends, code, hcode, -, hout⟩ := genStmt_settles Γ b hb T (switchBody Γ e b g) rfl
  obtain ⟨code', hcode', hwithin, hnonneg⟩ := happends.code
  obtain rfl : code = code' := List.append_cancel_left (hcode.symm.trans hcode')
  -- names have labels taken before the switch
  have hname : ∀ {names : List String} {k : ℕ}, k ∈ names.filterMap (T.gotoLabels.lookup ·) →
      k < g.func.nextLabel := by
    intro names k hk
    obtain ⟨name, -, hlookup⟩ := List.mem_filterMap.mp hk
    rw [hgotos] at hlookup
    obtain ⟨before, after, heq, -⟩ := List.lookup_eq_some_iff.mp hlookup
    refine ht.gotoLabels (name, k) ?_
    rw [heq]
    exact List.mem_append_right _ List.mem_cons_self
  refine ⟨code, hcode, fun l hl => ?_⟩
  rcases hout l hl with hl | ⟨k, hk, rfl⟩
  · obtain ⟨k, rfl⟩ := Int.eq_ofNat_of_zero_le (hnonneg l hl)
    have hcount := (List.count_pos_iff.mpr hl).trans_le (hwithin k)
    rw [switchBody_nextLabel] at hcount
    by_cases hfresh : (switchValue Γ e b g).2.func.nextLabel ≤ k
    · exact .inr (Int.ofNat_le.mpr hfresh)
    · rw [if_neg fun h => hfresh h.1, Nat.add_zero] at hcount
      refine .inl (Int.ofNat_lt.mpr ?_)
      rcases List.mem_append.mp (List.count_pos_iff.mp hcount) with hk | hk
      · obtain ⟨c, -, hc⟩ := List.mem_filterMap.mp hk
        obtain ⟨ce, hce, rfl⟩ := Option.map_eq_some_iff.mp hc
        have hmem := List.mem_of_find?_eq_some hce
        rw [hcontext] at hmem
        have := (mem_switchEntries hmem).2.2
        omega
      · have := hname hk
        omega
  · refine .inl (Int.ofNat_lt.mpr ?_)
    rcases List.mem_append.mp hk with hk | hk
    · rw [hcontext] at hk
      have htaken : g.contLabel < g.func.nextLabel := hg
      have hmem := (List.mem_filter.mp hk).1
      dsimp only at hmem
      rcases List.mem_cons.mp hmem with rfl | hmem
      · omega
      · obtain rfl := List.mem_singleton.mp hmem
        omega
    · have := hname hk
      omega

/-- The value's code is passed once in the code of the switch. -/
theorem switchValue_passedOnce {F : IrGen} (hb : b.Parsed) (ht : Tidy g) (hg : ContinueTaken g)
    (hF : Within (genStmt Γ (.switch ln cl e b) g).2 F) :
    PassedOnce F.func.instrs g.pos (switchValue Γ e b g).2.pos
      (genStmt Γ (.switch ln cl e b) g).2.pos := by
  obtain ⟨code, hcode, hjumps, hlabels⟩ := switchValue_code Γ e b g
  obtain ⟨body, hbody, hbodyJumps⟩ := body_jumps (Γ := Γ) (e := e) hb ht hg
  let dispatch := dispatchCode (switchTemp Γ e b g) (switchType Γ e b g) (switchTemp Γ e b g + 1)
    (switchEntries b g) (switchElse b g)
  let rest := switchCopy Γ e b g :: dispatch ++ body ++
    [{ op := .label, labelId := (g.func.nextLabel : ℤ) }]
  have hall : (genStmt Γ (.switch ln cl e b) g).2.func.instrs = g.func.instrs ++ code ++ rest := by
    rw [genStmt_switch_instrs, hbody, switchBody_instrs, hcode]
    simp only [rest, dispatch, List.append_assoc, List.cons_append]
  obtain ⟨post, hpost⟩ := hF.code
  have hlo : g.pos = g.func.instrs.length := rfl
  have hmid : (switchValue Γ e b g).2.pos = g.func.instrs.length + code.length := by
    rw [IrGen.pos, hcode, List.length_append]
  have hhi : (genStmt Γ (.switch ln cl e b) g).2.pos =
      g.func.instrs.length + code.length + rest.length := by
    rw [IrGen.pos, hall, List.length_append, List.length_append]
  have hscan : g.func.nextLabel ≤ (switchScan b g).func.nextLabel := by
    rw [show (switchScan b g).func.nextLabel = g.func.nextLabel + 1 + (switchNodes b).length from rfl]
    omega
  rw [← hpost, hall, hlo, hmid, hhi]
  refine passedOnce hjumps (fun l hl hpre => ?_) fun l hl hmem => ?_
  · have hfresh := (hlabels l hl).1
    have htidy := ht.code l hpre
    omega
  · have hrange := hlabels l hmem
    have hcases : l ∈ jumpsOf dispatch ∨ l ∈ jumpsOf body := by
      have hsplit : jumpsOf rest = jumpsOf dispatch ++ jumpsOf body := by
        have hcopy : jumpsOf rest = jumpsOf (dispatch ++ body ++
            [{ op := .label, labelId := (g.func.nextLabel : ℤ) }]) := rfl
        rw [hcopy, jumpsOf_append, jumpsOf_append]
        exact List.append_nil _
      rw [hsplit] at hl
      exact List.mem_append.mp hl
    rcases hcases with hl | hl
    · have := jumpsOf_dispatchCode hl
      omega
    · rcases hbodyJumps l hl with h | h <;> omega

end

/-! ### The lowering of a switch -/

/-- The label `l` is that of a case whose test succeeds, else of a default, else `done`. -/
def LeadsTo (test : BitVec 64 → Bool) (ces : List CaseEntry) (done l : ℕ) : Prop :=
  (∃ ce ∈ ces, ce.isDefault = false ∧ test ce.val = true ∧ l = ce.labelId) ∨
    (∀ ce ∈ ces, ce.isDefault = false → test ce.val = false) ∧
      ((∃ ce ∈ ces, ce.isDefault = true ∧ l = ce.labelId) ∨
        (∀ ce ∈ ces, ce.isDefault = false) ∧ l = done)

/-- What a switch that is lowered in `g` comes to in the finished function `F`. -/
structure SwitchLowered (Γ : TypeEnv) (F : IrGen) (ln cl : ℤ) (e : Expr) (b : Stmt) (g : IrGen) :
    Prop where
  /-- What is registered for the body are the cases of this switch. -/
  registers : ∀ c : CaseNode, (∃ l, c.entry l ∈ (switchBody Γ e b g).caseEntries) ↔
    ∃ s g', CaseAt Γ b (switchBody Γ e b g) c s g'
  ownNodes : ((switchBody Γ e b g).caseEntries.map CaseEntry.node).Nodup
  ownLabels : ((switchBody Γ e b g).caseEntries.map CaseEntry.labelId).Nodup
  /-- The value comes first, and is evaluated once. -/
  value : (switchValue Γ e b g).2.func.instrs <+: F.func.instrs
  once : PassedOnce F.func.instrs g.pos (switchValue Γ e b g).2.pos
    (genStmt Γ (.switch ln cl e b) g).2.pos
  copied : F.func.instrs[(switchValue Γ e b g).2.pos]? = some (switchCopy Γ e b g)
  /-- A value in a slot is copied to another slot. -/
  copies : ∀ (E : Env) (s : MState) (t : ℕ),
    (switchValue Γ e b g).1.kind = .temp t → isFpType (some (switchType Γ e b g)) = false →
    ∃ s', RunsTo E (codegenInstr Γ F.func (regallocRun F.func) (switchCopy Γ e b g)) s s' ∧
      slotOf (regallocRun F.func) s' (switchTemp Γ e b g) = slotOf (regallocRun F.func) s t
  /-- The slot of an integer is compared with the cases, all its eight bytes. -/
  dispatches : isFpType (some (switchType Γ e b g)) = false → ∀ (E : Env) (s : MState), ∃ s' l,
    exec E (((F.func.instrs.take (switchBody Γ e b g).pos).drop
        ((switchValue Γ e b g).2.pos + 1)).flatMap
          (codegenInstr Γ F.func (regallocRun F.func))) s = some (s', .jump ((l : ℕ) : ℤ)) ∧
      LeadsTo (fun val => slotOf (regallocRun F.func) s (switchTemp Γ e b g) == val)
        (switchBody Γ e b g).caseEntries (switchBody Γ e b g).breakLabel l
  /-- The label of a case is found right before its statement. -/
  placed : ∀ c s g', CaseAt Γ b (switchBody Γ e b g) c s g' →
    ∃ l, c.entry l ∈ (switchBody Γ e b g).caseEntries ∧
      labelIndex F.func.instrs l = some g'.pos ∧
      Within (genStmt Γ s (emitLabel l g').2).2 F
  placedOnce : ∀ (c : CaseNode) (l : ℕ), c.entry l ∈ (switchBody Γ e b g).caseEntries →
    (labelsOf F.func.instrs).count (l : ℤ) = 1
  /-- The target of `break` is found right after the body. -/
  done : labelIndex F.func.instrs (switchBody Γ e b g).breakLabel =
    some (genStmt Γ b (switchBody Γ e b g)).2.pos
  restores : (genStmt Γ (.switch ln cl e b) g).2.context = g.context

section

variable {Γ : TypeEnv} {m : IRModule} {scope : ScopeChain VarEntry} {d : FuncDef} {e : Expr}
  {b : Stmt} {g : IrGen} {ln cl : ℤ}

/-- A temp in a slot, copied as a word. -/
theorem runsTo_copy (E : Env) (Γ : TypeEnv) (f : IRFunc) (ra : RegAlloc) (s : MState) (t n : ℕ)
    {ty : Option CType} {dstTy : CType} (hty : isFpType (some dstTy) = false)
    (hsrc : isFpType ty = false) :
    ∃ s', RunsTo E (codegenInstr Γ f ra
        { op := .copy, dst := irvTemp n dstTy, src1 := ⟨.temp t, ty⟩ }) s s' ∧
      slotOf ra s' n = slotOf ra s t := by
  let s₁ := s.setReg .rax (slotOf ra s t)
  refine ⟨setSlot ra s₁ n (s₁.reg .rax), fun js => ?_, ?_⟩
  · have hcode : codegenInstr Γ f ra { op := .copy, dst := irvTemp n dstTy, src1 := ⟨.temp t, ty⟩ } =
        loadReg ra ⟨.temp t, ty⟩ .rax ++ storeReg ra ⟨.temp n, some dstTy⟩ .rax := by
      simp [codegenInstr, irvTemp, hty, hsrc]
    rw [hcode, List.append_assoc, exec_loadReg, exec_storeReg]
  · rw [slotOf_setSlot_self, setReg_reg_self]

/-- A label that the switch takes is placed at most once in the function. -/
theorem count_caseLabel_le (hparsed : d.body.Parsed) {l : ℕ}
    (hl : (funcStart Γ m scope d).func.nextLabel ≤ l) :
    (labelsOf (funcEnd Γ m scope d).func.instrs).count (l : ℤ) ≤ 1 := by
  obtain ⟨n, hn, hcount, -, -⟩ := @funcEnd_labels Γ m scope d hparsed
  have hnone : (nameLabels (namesFrom n (labelNames d.body)).reverse d.body).count l = 0 := by
    refine List.count_eq_zero.mpr fun hmem => ?_
    obtain ⟨name, -, hlookup⟩ := List.mem_filterMap.mp hmem
    have := (mem_namesFrom (mem_of_lookup_namesFrom hlookup)).2.2
    omega
  have h := (hcount l).2
  rw [hnone, Nat.zero_add] at h
  exact h.trans (by split <;> omega)

/-- Temps are only added. -/
theorem tempRules : StmtRules fun {α} (m : Gen α) => ∀ g, g.func.nextTemp ≤ (m g).2.func.nextTemp where
  pure _ _ := le_rfl
  bind hm hk g := (hm g).trans (hk _ _)
  get_bind hk g := hk g g
  newTemp _ := Nat.le_succ _
  newLabel _ := le_rfl
  emit _ _ := le_rfl
  addStringConst data g := (Emits.addStringConst data g).temps
  update _ hf g := (hf g).ge

theorem one_le_funcStart (Γ : TypeEnv) (m : IRModule) (scope : ScopeChain VarEntry) (d : FuncDef) :
    1 ≤ (funcStart Γ m scope d).func.nextTemp := tempRules.genFuncHead Γ d (funcInit m scope d)

theorem GeneratesIn.temps {s s' : Stmt} {g' : IrGen} (h : GeneratesIn Γ s g s' g') :
    g.func.nextTemp ≤ g'.func.nextTemp := by
  induction h with
  | refl => exact le_rfl
  | step h _ _ ih =>
    obtain ⟨k, hk, rfl⟩ := h.start
    exact (hk.grows _).temps.trans ih

theorem GeneratesIn.parsed {s s' : Stmt} {g' : IrGen} (h : GeneratesIn Γ s g s' g')
    (hs : s.Parsed) : s'.Parsed := by
  induction h with
  | refl => exact hs
  | step h _ _ ih => exact ih (h.parsed hs)

/-- Only a switch changes the entries of its body. -/
theorem Inside.caseEntries {k : Nesting} {s s' : Stmt} {g' : IrGen} (h : Inside Γ k s g s' g')
    (hk : k ≠ .switch) : g'.caseEntries = g.caseEntries := by
  cases k with
  | plain => exact congrArg Context.caseEntries h.context
  | switch => exact absurd rfl hk
  | init =>
    cases h with
    | forInit => rfl
  | loop =>
    cases h with
    | @whileBody _ ln cl c b =>
      exact congrArg Prod.fst (Keeps.whileHead stable_cases Keeps.setTargets_cases Γ c g)
    | doBody => rfl
    | @forBody _ ln cl init c incr b =>
      let t := g.func.nextLabel
      let g₄ := (newLabel (newLabel (newLabel (newLabel g).2).2).2).2
      have hinit : Keeps IrGen.context ((genStmtOpt Γ init).getD (return)) := by
        cases init with
        | none => exact .pure _
        | some s => exact genStmt_context Γ s
      have hkeep := Keeps.bind hinit fun _ => .forTest stable_context Γ c ⟨t, t + 1, t + 2, t + 3⟩
      exact congrArg Context.caseEntries (hkeep (pushScope (setTargets (t + 3) (t + 2) g₄).2).2)

theorem Nested.caseEntries {s s' : Stmt} {g' : IrGen} (h : Nested Γ (· ≠ .switch) s g s' g') :
    g'.caseEntries = g.caseEntries := by
  induction h with
  | refl => rfl
  | step h hk _ ih => exact ih.trans (h.caseEntries hk)

theorem switchBody_caseEntries (Γ : TypeEnv) (e : Expr) (b : Stmt) (g : IrGen) :
    (switchBody Γ e b g).caseEntries = switchEntries b g :=
  congrArg Context.caseEntries (switchBody_context Γ e b g)

/-- The entries are those of the nodes. -/
theorem exists_switchEntry {c : CaseNode} :
    (∃ l, c.entry l ∈ switchEntries b g) ↔ c ∈ switchNodes b := by
  constructor
  · rintro ⟨l, hl⟩
    obtain ⟨⟨c', hc', heq⟩, -⟩ := mem_switchEntries hl
    have hsame : c = c' := by
      cases c
      cases c'
      cases heq
      rfl
    exact hsame ▸ hc'
  · intro hc
    obtain ⟨l, hl⟩ := exists_entry hc
    exact ⟨l, List.mem_reverse.mpr hl⟩

/-- A case places the label of its own entry. -/
theorem CaseAt.emits {c : CaseNode} {s : Stmt} {g' : IrGen} {l : ℕ}
    (hnodes : ((switchNodes b).map CaseNode.node).Nodup) (hl : c.entry l ∈ switchEntries b g)
    (h : CaseAt Γ b (switchBody Γ e b g) c s g') :
    ∃ t, Nested Γ (· ≠ .switch) b (switchBody Γ e b g) t g' ∧
      genStmt Γ t g' = genStmt Γ s (emitLabel l g').2 := by
  obtain ⟨t, ht, hn⟩ := h
  have hentries : g'.caseEntries = switchEntries b g :=
    hn.caseEntries.trans (switchBody_caseEntries Γ e b g)
  have hlabel : caseLabel g'.caseEntries c = some l := by
    rw [hentries]
    exact caseLabel_register hnodes (List.mem_reverse.mp hl)
  have hemit : emitCaseLabel c.node c.isDefault g' = emitLabel l g' := by
    rcases emitCaseLabel_cases c.node c.isDefault g' with ⟨hnone, -⟩ | ⟨ce, hce, hrun⟩
    · rw [caseLabel, hnone] at hlabel
      cases hlabel
    · rw [caseLabel, hce] at hlabel
      rw [hrun, show ce.labelId = l from Option.some.inj hlabel]
  refine ⟨t, hn, ?_⟩
  rcases asCase?_cases ht with ⟨ln, cl, e', rfl, hc⟩ | ⟨ln, cl, rfl, hc⟩
  · rw [hc] at hemit
    have hrun : genStmt Γ (.case c.node ln cl e' s) g' =
        genStmt Γ s (emitCaseLabel c.node false g').2 := rfl
    rw [hrun, show emitCaseLabel c.node false g' = emitLabel l g' from hemit]
  · rw [hc] at hemit
    have hrun : genStmt Γ (.default c.node ln cl s) g' =
        genStmt Γ s (emitCaseLabel c.node true g').2 := rfl
    rw [hrun, show emitCaseLabel c.node true g' = emitLabel l g' from hemit]

/-- A label that is placed at most once is found where it is placed. -/
theorem labelIndex_of_count {F : IrGen} {g' : IrGen} {l : ℕ}
    (hcount : (labelsOf F.func.instrs).count (l : ℤ) ≤ 1) (hF : Within (emitLabel l g').2 F) :
    labelIndex F.func.instrs l = some g'.pos ∧ (labelsOf F.func.instrs).count (l : ℤ) = 1 := by
  have hcode := hF.code
  obtain ⟨post, hpost⟩ := hcode
  have hsplit : (labelsOf F.func.instrs).count (l : ℤ) =
      (labelsOf g'.func.instrs).count (l : ℤ) + 1 + (labelsOf post).count (l : ℤ) := by
    rw [← hpost]
    change (labelsOf (g'.func.instrs ++ [{ op := .label, labelId := l }] ++ post)).count (l : ℤ) = _
    rw [labelsOf_append, labelsOf_append, List.count_append, List.count_append]
    simp [labelsOf]
  refine ⟨labelIndex_eq (List.count_eq_zero.mp (by omega)) hF.code, by omega⟩

/-- The tests of a switch stand between the copy of its value and its body. -/
theorem switchBody_slice {F : IrGen} (hF : Within (switchBody Γ e b g) F) :
    (F.func.instrs.take (switchBody Γ e b g).pos).drop ((switchValue Γ e b g).2.pos + 1) =
      dispatchCode (switchTemp Γ e b g) (switchType Γ e b g) (switchTemp Γ e b g + 1)
        (switchEntries b g) (switchElse b g) := by
  obtain ⟨post, hpost⟩ := hF.code
  have htake : F.func.instrs.take (switchBody Γ e b g).pos = (switchBody Γ e b g).func.instrs := by
    rw [← hpost]
    exact List.take_left
  rw [htake, switchBody_instrs, ← List.drop_drop]
  exact congrArg (List.drop 1) List.drop_left

theorem leadsTo_of_selects {E : Env} {ra : RegAlloc} {s : MState} {t : ℕ} {ty : CType} {l : ℕ}
    (hty : isDoubleType (some ty) = false)
    (h : Selects E ra s t ty (switchEntries b g) (switchElse b g) l) :
    LeadsTo (fun val => slotOf ra s t == val) (switchEntries b g) g.func.nextLabel l := by
  have htest : caseTest E ra s t ty = fun val => slotOf ra s t == val := by
    funext val
    rw [caseTest, if_neg (Bool.eq_false_iff.mp hty)]
  rw [Selects, htest] at h
  rcases h with h | ⟨hnone, rfl⟩
  · exact .inl h
  · refine .inr ⟨hnone, ?_⟩
    rcases switchElse_cases b g with ⟨ce, hce, hdef, hl⟩ | ⟨hno, hl⟩
    · exact .inl ⟨ce, hce, hdef, hl⟩
    · exact .inr ⟨hno, hl⟩

theorem isDoubleType_of_not_fp {ty : CType} (h : isFpType (some ty) = false) :
    isDoubleType (some ty) = false := by
  by_contra hdbl
  simp only [isDoubleType, Bool.not_eq_false] at hdbl
  split at hdbl
  · rename_i heq
    rw [heq] at h
    cases h
  · cases hdbl

theorem isFpType_of_getD {ty : Option CType} (h : isFpType (some (ty.getD typeInt)) = false) :
    isFpType ty = false := by
  cases ty with
  | none => rfl
  | some ty => exact h

theorem nodes_entriesFrom (n : ℕ) (cs : List CaseNode) :
    (entriesFrom n cs).map CaseEntry.node = cs.map CaseNode.node := by
  induction cs generalizing n with
  | nil => rfl
  | cons c cs ih => exact congrArg (c.node :: ·) (ih (n + 1))

/-- Every switch of a function is lowered so. -/
theorem switch_lowered (hparsed : d.body.Parsed)
    (hgen : GeneratesIn Γ d.body (funcStart Γ m scope d) (.switch ln cl e b) g)
    (hint : (funcEnd Γ m scope d).func.nextTemp ≤ 2 ^ 31) :
    SwitchLowered Γ (funcEnd Γ m scope d) ln cl e b g := by
  let F := funcEnd Γ m scope d
  obtain ⟨hstart, -⟩ := funcStart_scanning Γ m scope d
  obtain ⟨n, -, htargets⟩ := funcStart_targets Γ m scope d
  have hswitch := hgen.parsed hparsed
  have htidy : Tidy g := hgen.tidy hstart.tidy
  have hpos : 0 < g.func.nextLabel := hstart.labels.trans_le hgen.labels_le
  have hcont : ContinueTaken g := hgen.continueTaken
    (lt_of_eq_of_lt (congrArg (fun T : Targets => T.context.contLabel) htargets) hstart.labels)
  have hF : Within (genStmt Γ (.switch ln cl e b) g).2 F := ⟨hgen.grows.code, hgen.grows.strConsts⟩
  have hinside : Inside Γ .switch (.switch ln cl e b) g b (switchBody Γ e b g) := .switchBody
  have hbody : Within (genStmt Γ b (switchBody Γ e b g)).2 F := hF.of_grows hinside.grows
  have hgb : Within (switchBody Γ e b g) F := hbody.back (genStmt_places Γ b)
  have hentries := switchBody_caseEntries Γ e b g
  have hbreak : (switchBody Γ e b g).breakLabel = g.func.nextLabel :=
    congrArg Context.breakLabel (switchBody_context Γ e b g)
  have hplaced : ∀ {c : CaseNode} {s : Stmt} {g' : IrGen},
      CaseAt Γ b (switchBody Γ e b g) c s g' → ∃ l, c.entry l ∈ switchEntries b g ∧
        labelIndex F.func.instrs l = some g'.pos ∧
        Within (genStmt Γ s (emitLabel l g').2).2 F ∧
        (labelsOf F.func.instrs).count (l : ℤ) = 1 := by
    intro c s g' hc
    obtain ⟨l, hl⟩ := exists_switchEntry.mpr (hc.mem_switchNodes hswitch.2)
    obtain ⟨t, hn, hrun⟩ := hc.emits hswitch.1 hl
    have hcase : Within (genStmt Γ s (emitLabel l g').2).2 F :=
      hrun ▸ hbody.of_grows hn.grows
    have hlabel := hgen.labels_le
    have hown := (mem_switchEntries hl).2.1
    obtain ⟨hindex, hcount⟩ := labelIndex_of_count
      (count_caseLabel_le hparsed (show (funcStart Γ m scope d).func.nextLabel ≤ l from
        hlabel.trans hown.le)) (hcase.back (genStmt_places Γ s))
    exact ⟨l, hl, hindex, hcase, hcount⟩
  have hvalue : (switchValue Γ e b g).2.func.instrs ++ [switchCopy Γ e b g] <+: F.func.instrs := by
    refine List.IsPrefix.trans ?_ hgb.code
    rw [switchBody_instrs]
    exact ⟨_, List.append_assoc _ _ _⟩
  have hone : 1 ≤ switchTemp Γ e b g :=
    (one_le_funcStart Γ m scope d).trans (hgen.temps.trans ((genNode_emits Γ e).expr (switchScan b g)).temps)
  have hroom : switchTemp Γ e b g + 1 + testCount (switchEntries b g) ≤ F.func.nextTemp := by
    have hnext : (switchBody Γ e b g).func.nextTemp =
        switchTemp Γ e b g + 1 + testCount (switchEntries b g) := by
      rw [switchBody, run_switchHead]
    rw [← hnext]
    exact ((genStmt_places Γ b).grows _).temps.trans hgen.grows.temps
  have hsome : ∀ {c : CaseNode} {l : ℕ}, c.entry l ∈ switchEntries b g →
      ∃ s g', CaseAt Γ b (switchBody Γ e b g) c s g' := fun hl =>
    exists_caseAt Γ _ b (exists_switchEntry.mp ⟨_, hl⟩) _
  refine
    { registers := fun c => ?_
      ownNodes := ?_
      ownLabels := ?_
      value := (List.prefix_append _ _).trans hvalue
      once := switchValue_passedOnce hswitch.2 htidy hcont hF
      copied := ?_
      copies := fun E s t ht hfp => ?_
      dispatches := fun hfp E s => ?_
      placed := fun c s g' hc => ?_
      placedOnce := fun c l hl => ?_
      done := ?_
      restores := genStmt_context Γ _ g }
  · rw [hentries]
    constructor
    · rintro ⟨l, hl⟩
      exact hsome hl
    · rintro ⟨s, g', hc⟩
      exact exists_switchEntry.mpr (hc.mem_switchNodes hswitch.2)
  · rw [hentries, switchEntries, List.map_reverse, List.nodup_reverse, nodes_entriesFrom]
    exact hswitch.1
  · rw [hentries, switchEntries, List.map_reverse, List.nodup_reverse, labels_entriesFrom]
    exact List.nodup_range'
  · obtain ⟨post, hpost⟩ := hvalue
    rw [← hpost, IrGen.pos]
    simp
  · have hsrc : isFpType (switchValue Γ e b g).1.type = false := isFpType_of_getD hfp
    have hvalue : (switchValue Γ e b g).1 = ⟨.temp t, (switchValue Γ e b g).1.type⟩ := by
      rw [← ht]
    rw [switchCopy, hvalue]
    exact runsTo_copy E Γ _ _ s t _ hfp hsrc
  · rw [switchBody_slice hgb, hentries, hbreak]
    have hdbl := isDoubleType_of_not_fp hfp
    obtain ⟨s', l, hexec, hsel⟩ := @exec_dispatchCode E Γ F.func (switchTemp Γ e b g)
      (switchTemp Γ e b g + 1) (switchType Γ e b g) (hfp.trans hdbl.symm) hint hone
      (switchEntries b g) (switchElse b g) (Nat.lt_succ_self _) hroom s
    exact ⟨s', l, hexec, leadsTo_of_selects hdbl hsel⟩
  · obtain ⟨l, hl, hindex, hcase, -⟩ := hplaced hc
    exact ⟨l, hentries ▸ hl, hindex, hcase⟩
  · rw [hentries] at hl
    obtain ⟨s, g', hc⟩ := hsome hl
    obtain ⟨l', hl', -, -, hcount⟩ := hplaced hc
    have hsame := entriesFrom_inj hswitch.1 (List.mem_reverse.mp hl) (List.mem_reverse.mp hl') rfl
    rw [show l = l' from congrArg CaseEntry.labelId hsame]
    exact hcount
  · obtain ⟨-, pc, hindex, hend⟩ := switch_targets htidy hpos hF
    have hlast : (genStmt Γ (.switch ln cl e b) g).2.pos =
        (genStmt Γ b (switchBody Γ e b g)).2.pos + 1 := by
      rw [IrGen.pos, genStmt_switch_instrs, List.length_append]
      rfl
    exact hindex.trans (congrArg some (Nat.succ.inj (hend.symm.trans hlast)))

end

/-! ### A switch on a floating value -/

/-- `void f(ty x) { switch (x) { case 5: ; } }` -/
def switchFunc (ty : CType) : FuncDef where
  name := "f"
  funcType := some (.func typeVoid (.cons (some "x") ty .nil) false .none)
  params := [{ name := some "x", paramType := some ty }]
  body := .switch 1 18 (.ident { type := some ty } "x") fiveCase
where
  fiveCase : Stmt := .case 1 1 30 (.intLit { type := some typeInt } 5 0) (.expr none)

def switchFunc.start (ty : CType) : IrGen := funcStart .empty {} [fun _ => []] (switchFunc ty)

def switchFunc.finish (ty : CType) : IrGen := funcEnd .empty {} [fun _ => []] (switchFunc ty)

theorem switch_lowered_int : SwitchLowered .empty (switchFunc.finish typeInt) 1 18
    (.ident { type := some typeInt } "x") switchFunc.fiveCase (switchFunc.start typeInt) :=
  switch_lowered ⟨by decide, trivial⟩ (.refl _ _) (by decide +kernel)

/-- Arithmetic that is right for the double five times as large as the least positive one, and for
the number 5: these are different. -/
def fiveUnit : FpUnit where
  arith _ _ a _ := a
  compare a b := { zf := a == b }
  ofInt _ v := if v = 5 then 0x4014000000000000 else v
  truncate _ v := v

/-- The case has the value of the slot, and is not where control goes. -/
theorem double_slot_not_dispatched :
    let F := switchFunc.finish typeDouble
    let g := switchFunc.start typeDouble
    let x : Expr := .ident { type := some typeDouble } "x"
    let b := switchFunc.fiveCase
    ¬∀ (E : Env) (s s' : MState) (l : ℕ),
      exec E (((F.func.instrs.take (switchBody .empty x b g).pos).drop
        ((switchValue .empty x b g).2.pos + 1)).flatMap
          (codegenInstr .empty F.func (regallocRun F.func))) s = some (s', .jump (l : ℤ)) →
      (∃ ce ∈ (switchBody .empty x b g).caseEntries, ce.isDefault = false ∧
        slotOf (regallocRun F.func) s (switchTemp .empty x b g) = ce.val) →
      ∃ ce ∈ (switchBody .empty x b g).caseEntries, ce.isDefault = false ∧
        slotOf (regallocRun F.func) s (switchTemp .empty x b g) = ce.val ∧ l = ce.labelId := by
  intro F g x b h
  let t := switchTemp .empty x b g
  let E : Env := { idleEnv with fp := fiveUnit }
  let s := setSlot (regallocRun F.func) (slotsState 0 0) t 5
  have hslot : slotOf (regallocRun F.func) s t = 5 := slotOf_setSlot_self _ _ _ _
  have hentries : switchEntries b g = [⟨1, 5, false, 2⟩] := by decide +kernel
  have helse : switchElse b g = 1 := by decide +kernel
  have hone : 1 ≤ t := by decide +kernel
  have hroom : t + 1 + testCount (switchEntries b g) ≤ F.func.nextTemp := by decide +kernel
  have hty : switchType .empty x b g = typeDouble := by decide +kernel
  have hF : Within (switchBody .empty x b g) F := by
    have hinside : Inside .empty .switch (.switch 1 18 x b) g b (switchBody .empty x b g) :=
      .switchBody
    have hgrows := ((genStmt_places .empty b).grows (switchBody .empty x b g)).trans hinside.grows
    exact ⟨hgrows.code, hgrows.strConsts⟩
  have hmiss : caseTest E (regallocRun F.func) s t typeDouble 5 = false := by
    change (fiveUnit.compare (slotOf (regallocRun F.func) s t) (fiveUnit.ofInt true 5)).zf = false
    rw [hslot]
    decide
  obtain ⟨s', l, hexec, hsel⟩ := @exec_dispatchCode E .empty F.func t (t + 1)
    (switchType .empty x b g) (by rw [hty]; rfl) (by decide +kernel) hone (switchEntries b g)
    (switchElse b g) (Nat.lt_succ_self _) hroom s
  rw [← switchBody_slice hF] at hexec
  have hgoes := h E s s' l hexec
  rw [switchBody_caseEntries, hentries] at hgoes
  obtain ⟨ce, hce, -, -, hl⟩ := hgoes ⟨_, List.mem_cons_self, rfl, hslot⟩
  obtain rfl := List.mem_singleton.mp hce
  rw [hty, hentries, helse] at hsel
  rcases hsel with ⟨ce, hce, -, htest, -⟩ | ⟨-, hl'⟩
  · obtain rfl := List.mem_singleton.mp hce
    rw [hmiss] at htest
    cases htest
  · rw [hl'] at hl
    cases hl

end TinyC
