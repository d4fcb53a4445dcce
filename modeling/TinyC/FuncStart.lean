import TinyC.StmtFrame

/-!
# Where the body of a function starts

Before the body, irgen captures the parameters and gives each name of a label its number.
-/

namespace TinyC

/-- No label is placed before the body, and the names have theirs. -/
structure BodyStart (g : IrGen) : Prop where
  code : labelsOf g.func.instrs = []
  caseEntries : g.caseEntries = []
  labels : 0 < g.func.nextLabel
  gotoLabels : ∀ p ∈ g.gotoLabels, p.2 < g.func.nextLabel

theorem BodyStart.tidy {g : IrGen} (h : BodyStart g) : Tidy g where
  code l hl := by simp [h.code] at hl
  caseEntries ce hce := by simp [h.caseEntries] at hce
  gotoLabels := h.gotoLabels

/-- What the code before a body leaves as it is. -/
def IrGen.prologue (g : IrGen) : List ℤ × List CaseEntry × ℕ × Option CType :=
  (labelsOf g.func.instrs, g.caseEntries, g.func.nextLabel, g.func.funcType)

namespace Keeps

theorem emit_prologue {ins : IRInstr} (h : ins.op ≠ .label) :
    Keeps IrGen.prologue (TinyC.emit ins) := fun g => by
  have hlabels : labelsOf (g.func.instrs ++ [ins]) = labelsOf g.func.instrs := by
    simp [labelsOf, h]
  change (labelsOf (g.func.instrs ++ [ins]), _) = _
  rw [hlabels]
  rfl

theorem genAlloca_prologue (Γ : TypeEnv) (ty : CType) :
    Keeps IrGen.prologue (genAlloca Γ ty) :=
  bind (fun _ => rfl) fun _ => bind (emit_prologue (by simp)) fun _ => pure _

theorem genParamCapture_prologue (idx : ℕ) (ty : CType) (addr : ℕ) :
    Keeps IrGen.prologue (genParamCapture idx ty addr) := by
  unfold genParamCapture
  split
  · exact bind (emit_prologue (paramCopy_ne_label _ _ _ _)) fun _ => pure _
  · exact bind (fun _ => rfl) fun _ =>
      bind (emit_prologue (paramCopy_ne_label _ _ _ _)) fun _ => pure _

theorem genParams_prologue (Γ : TypeEnv) (ps : List ParamDecl) (idx : ℕ) :
    Keeps IrGen.prologue (genParams Γ ps idx) := by
  induction ps generalizing idx with
  | nil => exact pure _
  | cons p ps ih =>
    unfold genParams
    split
    · exact ih _
    · exact bind (genAlloca_prologue Γ _) fun _ => bind (genParamCapture_prologue _ _ _) fun _ =>
        bind (fun _ => rfl) fun _ => bind (ih _) fun _ => pure _

theorem storeParams_prologue (vs : List (IRValue × Option IRValue)) :
    Keeps IrGen.prologue (storeParams vs) := by
  induction vs with
  | nil => exact pure _
  | cons v vs ih =>
    obtain ⟨addr, _ | val⟩ := v
    · exact ih
    · exact bind (emit_prologue (by simp)) fun _ => ih

theorem genSretParam_prologue (Γ : TypeEnv) (ty : CType) :
    Keeps IrGen.prologue (genSretParam Γ ty) := by
  unfold genSretParam
  split
  · exact bind (fun _ => rfl) fun _ => bind (emit_prologue (by simp)) fun _ => fun _ => rfl
  · exact pure _

end Keeps

/-- What holds of the state through the scan for names, the type of the function being `ft`. -/
def Scanning (ft : Option CType) (g : IrGen) : Prop := BodyStart g ∧ g.func.funcType = ft

theorem addLabel_scanning {ft : Option CType} (name : String) {g : IrGen} (h : Scanning ft g) :
    Scanning ft (addLabel name g).2 := by
  refine ⟨⟨h.1.code, h.1.caseEntries, Nat.succ_pos _, fun p hp => ?_⟩, h.2⟩
  rcases List.mem_cons.mp hp with rfl | hp
  · exact Nat.lt_succ_self _
  · exact Nat.lt_succ_of_lt (h.1.gotoLabels p hp)

theorem collectLabels_scanning {ft : Option CType} (s : Stmt) :
    ∀ {g : IrGen}, Scanning ft g → Scanning ft (collectLabels s g).2 :=
  collectLabels_rule (Q := fun m => ∀ {g : IrGen}, Scanning ft g → Scanning ft (m g).2)
    (fun h => h) (fun hm hk _ h => hk (hm h)) (fun name _ h => addLabel_scanning name h) s

theorem funcStart_scanning (Γ : TypeEnv) (module : IRModule) (scope : ScopeChain VarEntry)
    (d : FuncDef) : Scanning d.funcType (funcStart Γ module scope d) := by
  let g₀ := funcInit module scope d
  let g₁ := (genSretParam Γ g₀.func.retType g₀).2
  let vals := genParams Γ d.params 0 g₁
  let g₂ := (storeParams vals.1 vals.2).2
  have hkeep : g₂.prologue = g₀.prologue :=
    (Keeps.storeParams_prologue vals.1 vals.2).trans
      ((Keeps.genParams_prologue Γ d.params 0 g₁).trans (Keeps.genSretParam_prologue Γ _ g₀))
  simp only [IrGen.prologue, Prod.mk.injEq] at hkeep
  obtain ⟨hcode, hcases, hlabel, hft⟩ := hkeep
  have hstart : Scanning d.funcType { g₂ with gotoLabels := [] } :=
    ⟨⟨hcode, hcases, by rw [hlabel]; exact Nat.one_pos, by simp⟩, hft⟩
  exact collectLabels_scanning d.body hstart

/-! ### What the head of a function leaves alone -/

/-- Neither emitting code nor what the head of a function sets matters to `f`. -/
structure HeadFrame {γ : Type} (f : IrGen → γ) : Prop where
  stable : Stable f
  sretTemp : ∀ g t, f { g with func := { g.func with sretTemp := t } } = f g
  scope : ∀ g sc, f { g with scope := sc } = f g
  gotoLabels : ∀ g ls, f { g with gotoLabels := ls } = f g

namespace Keeps

variable {γ : Type} {f : IrGen → γ}

theorem newTemp (hf : Stable f) : Keeps f newTemp := ofEmits hf Emits.newTemp

theorem genParamCapture (hf : Stable f) (idx : ℕ) (ty : CType) (addr : ℕ) :
    Keeps f (genParamCapture idx ty addr) := by
  unfold TinyC.genParamCapture
  split
  · exact bind (emit hf (paramCopy_ne_label _ _ _ _)) fun _ => pure _
  · exact bind (newTemp hf) fun _ =>
      bind (emit hf (paramCopy_ne_label _ _ _ _)) fun _ => pure _

theorem genParams (hf : HeadFrame f) (Γ : TypeEnv) (ps : List ParamDecl) (idx : ℕ) :
    Keeps f (genParams Γ ps idx) := by
  induction ps generalizing idx with
  | nil => exact pure _
  | cons p ps ih =>
    unfold TinyC.genParams
    split
    · exact ih _
    · exact bind (ofEmits hf.stable (Emits.genAlloca Γ _)) fun _ =>
        bind (genParamCapture hf.stable _ _ _) fun _ => bind (fun g => hf.scope g _) fun _ =>
          bind (ih _) fun _ => pure _

theorem storeParams (hf : Stable f) (vs : List (IRValue × Option IRValue)) :
    Keeps f (storeParams vs) := by
  induction vs with
  | nil => exact pure _
  | cons v vs ih =>
    obtain ⟨addr, _ | val⟩ := v
    · exact ih
    · exact bind (ofEmits hf (Emits.genStore _ _)) fun _ => ih

theorem genSretParam (hf : Stable f)
    (hsret : ∀ g t, f { g with func := { g.func with sretTemp := t } } = f g) (Γ : TypeEnv)
    (ty : CType) : Keeps f (genSretParam Γ ty) := by
  unfold TinyC.genSretParam
  split
  · exact bind (newTemp hf) fun t => bind (emit hf (by simp)) fun _ => fun g => hsret g t
  · exact pure _

theorem collectLabels (hf : Stable f) (hgotos : ∀ g ls, f { g with gotoLabels := ls } = f g)
    (s : Stmt) : Keeps f (collectLabels s) :=
  collectLabels_rule (pure _) (fun hm hk => bind hm fun _ => hk)
    (fun _ => bind (newLabel hf) fun _ => fun g => hgotos g _) s

theorem genFuncHead (hf : HeadFrame f) (Γ : TypeEnv) (d : FuncDef) : Keeps f (genFuncHead Γ d) :=
  get_bind fun _ => bind (genSretParam hf.stable hf.sretTemp Γ _) fun _ =>
    bind (genParams hf Γ _ _) fun _ => bind (storeParams hf.stable _) fun _ =>
      bind (fun g => hf.gotoLabels g _) fun _ => collectLabels hf.stable hf.gotoLabels d.body

end Keeps

theorem headFrame_context : HeadFrame IrGen.context :=
  ⟨stable_context, fun _ _ => rfl, fun _ _ => rfl, fun _ _ => rfl⟩

theorem headFrame_definitions : HeadFrame IrGen.definitions :=
  ⟨fun _ _ _ h => h.definitions, fun _ _ => rfl, fun _ _ => rfl, fun _ _ => rfl⟩

end TinyC
