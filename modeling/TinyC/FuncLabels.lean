import TinyC.JumpTargets
import TinyC.StmtLedger
import TinyC.UnitFunctions

/-!
# The labels of a function

The labels and jumps in the code of a finished function, and where its `goto` statements go.
-/

namespace TinyC

/-! ### The head of a function -/

namespace Closing

variable {α β : Type}

theorem seq {m : Gen α} {k : α → Gen β} (hm : Closing [] [] m) (hk : ∀ a, Closing [] [] (k a)) :
    Closing [] [] (m >>= k) := bind hm hk

theorem get_bind {k : IrGen → Gen β} (hk : ∀ g, Closing [] [] (k g)) :
    Closing [] [] (get >>= k) := fun g => hk g g

theorem update {f : IrGen → IrGen} (hf : ∀ g, (f g).func.instrs = g.func.instrs) :
    Closing [] [] (modify f : Gen Unit) := fun g => .of_instrs_eq (hf g)

theorem paramCopy_straight (idx : ℕ) (ty : CType) (addr t : ℕ) :
    (paramCopy idx ty addr t).op.straight = true := by
  unfold paramCopy
  split <;> rfl

theorem genParams (Γ : TypeEnv) (ps : List ParamDecl) (idx : ℕ) :
    Closing [] [] (genParams Γ ps idx) := by
  have hcapture : ∀ idx ty addr, Closing [] [] (genParamCapture idx ty addr) :=
    fun idx ty addr => by
      unfold genParamCapture
      split
      · exact seq (emit (paramCopy_straight _ _ _ _)) fun _ => pure _
      · exact newTemp_bind fun t => seq (emit (paramCopy_straight _ _ _ _)) fun _ => pure _
  induction ps generalizing idx with
  | nil => exact pure _
  | cons p ps ih =>
    unfold TinyC.genParams
    split
    · exact ih _
    · exact seq (genAlloca Γ _) fun _ => seq (hcapture _ _ _) fun _ =>
        seq (update fun _ => rfl) fun _ => seq (ih _) fun _ => pure _

theorem storeParams (vs : List (IRValue × Option IRValue)) : Closing [] [] (storeParams vs) := by
  induction vs with
  | nil => exact pure _
  | cons v vs ih =>
    obtain ⟨addr, _ | val⟩ := v
    · exact ih
    · exact seq (emit rfl) fun _ => ih

theorem genSretParam (Γ : TypeEnv) (ty : CType) : Closing [] [] (genSretParam Γ ty) := by
  unfold TinyC.genSretParam
  split
  · exact newTemp_bind fun _ => seq (emit rfl) fun _ => update fun _ => rfl
  · exact pure _

theorem addLabel (name : String) : Closing [] [] (addLabel name) :=
  newLabel_bind fun _ => update fun _ => rfl

/-- The head of a function jumps nowhere. -/
theorem genFuncHead (Γ : TypeEnv) (d : FuncDef) : Closing [] [] (genFuncHead Γ d) :=
  get_bind fun _ => seq (genSretParam Γ _) fun _ => seq (genParams Γ _ _) fun _ =>
    seq (storeParams _) fun _ => seq (update fun _ => rfl) fun _ =>
      collectLabels_rule (pure _) (fun hm hk => seq hm fun _ => hk) addLabel d.body

end Closing

section

variable (Γ : TypeEnv) (m : IRModule) (scope : ScopeChain VarEntry) (d : FuncDef)

/-- At the start of the body there is neither a label nor a jump. -/
theorem funcStart_code : labelsOf (funcStart Γ m scope d).func.instrs = [] ∧
    jumpsOf (funcStart Γ m scope d).func.instrs = [] := by
  have hlabels := (funcStart_scanning Γ m scope d).1.code
  refine ⟨hlabels, List.eq_nil_iff_forall_not_mem.mpr fun k hk => ?_⟩
  obtain ⟨block, hblock, -, hout⟩ := Closing.genFuncHead Γ d (funcInit m scope d)
  have hcode : (funcStart Γ m scope d).func.instrs = block := hblock
  rw [hcode] at hk hlabels
  rcases hout k hk with hk | ⟨l, hl, -⟩
  · rw [hlabels] at hk
    cases hk
  · cases hl

/-- The names have consecutive labels, and no other has been taken after them. -/
theorem funcStart_targets : ∃ n, n + (labelNames d.body).length =
      (funcStart Γ m scope d).func.nextLabel ∧
    (funcStart Γ m scope d).targets = ⟨⟨0, 0, [], 0⟩, (namesFrom n (labelNames d.body)).reverse⟩ := by
  let g₀ := funcInit m scope d
  let g₁ := (genSretParam Γ g₀.func.retType g₀).2
  let vals := genParams Γ d.params 0 g₁
  let g₂ : IrGen := { (storeParams vals.1 vals.2).2 with gotoLabels := [] }
  have hstart : funcStart Γ m scope d = (collectLabels d.body g₂).2 := rfl
  have hgoto : (funcStart Γ m scope d).gotoLabels =
      (namesFrom g₂.func.nextLabel (labelNames d.body)).reverse := by
    rw [hstart, run_collectLabels]
    exact List.append_nil _
  have hnext : (funcStart Γ m scope d).func.nextLabel =
      g₂.func.nextLabel + (labelNames d.body).length := by
    rw [hstart, run_collectLabels]
  have hcontext : (funcStart Γ m scope d).context = ⟨0, 0, [], 0⟩ :=
    Keeps.genFuncHead headFrame_context Γ d g₀
  refine ⟨g₂.func.nextLabel, hnext.symm, ?_⟩
  rw [IrGen.targets, hcontext, hgoto]

end

/-! ### Names and their labels -/

section

variable {n : ℕ} {names : List String} {name : String} {l : ℕ}

theorem mem_namesFrom (h : (name, l) ∈ namesFrom n names) :
    name ∈ names ∧ n ≤ l ∧ l < n + names.length := by
  obtain ⟨hname, hl⟩ := List.of_mem_zip h
  exact ⟨hname, List.mem_range'_1.mp hl⟩

theorem namesFrom_inj {name' : String} (h : (name, l) ∈ namesFrom n names)
    (h' : (name', l) ∈ namesFrom n names) : name = name' := by
  induction names generalizing n with
  | nil => cases h
  | cons a names ih =>
    rw [namesFrom_cons] at h h'
    rcases List.mem_cons.mp h with h | h <;> rcases List.mem_cons.mp h' with h' | h'
    · rw [Prod.mk.injEq] at h h'
      exact h.1.trans h'.1.symm
    · have hlo := (mem_namesFrom h').2.1
      rw [Prod.mk.injEq] at h
      omega
    · have hlo := (mem_namesFrom h).2.1
      rw [Prod.mk.injEq] at h'
      omega
    · exact ih h h'

theorem lookup_namesFrom (h : name ∈ names) :
    ∃ l, (namesFrom n names).reverse.lookup name = some l := by
  cases hl : (namesFrom n names).reverse.lookup name with
  | some l => exact ⟨l, rfl⟩
  | none =>
    rw [List.lookup_eq_none_iff] at hl
    have hlen : names.length ≤ (List.range' n names.length).length := by simp
    obtain ⟨i, hi, rfl⟩ := List.getElem_of_mem h
    have hi' : i < (List.range' n names.length).length := hi.trans_le hlen
    have hzip : i < (names.zip (List.range' n names.length)).length := by
      rw [List.length_zip]
      exact lt_min hi hi'
    have hmem : (names[i], (List.range' n names.length)[i]) ∈ namesFrom n names := by
      have heq : (names.zip (List.range' n names.length))[i] =
          (names[i], (List.range' n names.length)[i]) := List.getElem_zip
      rw [← heq]
      exact List.getElem_mem hzip
    have := hl _ (List.mem_reverse.mpr hmem)
    simp at this

theorem mem_of_lookup_namesFrom (h : (namesFrom n names).reverse.lookup name = some l) :
    (name, l) ∈ namesFrom n names := by
  obtain ⟨before, after, heq, -⟩ := List.lookup_eq_some_iff.mp h
  rw [← List.mem_reverse, heq]
  exact List.mem_append_right _ List.mem_cons_self

/-- The labels that the names find are different ones exactly if the names are. -/
theorem nodup_lookups (n : ℕ) (names : List String) :
    (names.filterMap fun name => (namesFrom n names).reverse.lookup name).Nodup ↔ names.Nodup := by
  let f : String → ℕ := fun name => ((namesFrom n names).reverse.lookup name).getD 0
  have hf : ∀ name ∈ names, (namesFrom n names).reverse.lookup name = some (f name) := by
    intro name hname
    obtain ⟨l, hl⟩ := lookup_namesFrom (n := n) hname
    simp only [f, hl, Option.getD_some]
  have hmap : (names.filterMap fun name => (namesFrom n names).reverse.lookup name) = names.map f := by
    rw [List.filterMap_congr hf, ← List.filterMap_eq_map]
    rfl
  rw [hmap]
  constructor
  · exact List.Nodup.of_map f
  · intro h
    refine h.map_on fun a ha b hb hab => ?_
    have ha := mem_of_lookup_namesFrom (hf a ha)
    have hb := mem_of_lookup_namesFrom (hf b hb)
    exact namesFrom_inj ha (hab ▸ hb)

end

/-! ### The code of a function -/

/-- No label is defined twice, and each that is jumped to is defined. -/
structure LabelsOnce (is : List IRInstr) : Prop where
  once : ∀ l ∈ labelsOf is, (labelsOf is).count l = 1
  defined : ∀ l ∈ jumpsOf is, (labelsOf is).count l = 1

theorem labelsOnce_of_nodup {is : List IRInstr} (h : (labelsOf is).Nodup)
    (hjumps : ∀ k ∈ jumpsOf is, k ∈ labelsOf is) : LabelsOnce is :=
  ⟨fun _ hl => List.count_eq_one_of_mem h hl, fun k hk => List.count_eq_one_of_mem h (hjumps k hk)⟩

theorem LabelsOnce.nodup {is : List IRInstr} (h : LabelsOnce is) : (labelsOf is).Nodup := by
  refine List.nodup_iff_count_le_one.mpr fun l => ?_
  by_cases hl : l ∈ labelsOf is
  · exact (h.once l hl).le
  · rw [List.count_eq_zero.mpr hl]
    exact Nat.zero_le 1

section

variable {Γ : TypeEnv} {m : IRModule} {scope : ScopeChain VarEntry} {d : FuncDef}

/-- What is placed in the code of a function: the labels of the names as often as these stand
there, and others that are taken in the body once at most. -/
theorem funcEnd_labels (h : d.body.Parsed) :
    ∃ n, n + (labelNames d.body).length = (funcStart Γ m scope d).func.nextLabel ∧
      (∀ l : ℕ, (nameLabels (namesFrom n (labelNames d.body)).reverse d.body).count l ≤
        (labelsOf (funcEnd Γ m scope d).func.instrs).count (l : ℤ) ∧
        (labelsOf (funcEnd Γ m scope d).func.instrs).count (l : ℤ) ≤
          (nameLabels (namesFrom n (labelNames d.body)).reverse d.body).count l +
            if (funcStart Γ m scope d).func.nextLabel ≤ l then 1 else 0) ∧
      (∀ k ∈ labelsOf (funcEnd Γ m scope d).func.instrs, 0 ≤ k) ∧
      ∀ k ∈ jumpsOf (funcEnd Γ m scope d).func.instrs,
        k ∈ labelsOf (funcEnd Γ m scope d).func.instrs := by
  obtain ⟨n, hn, htargets⟩ := funcStart_targets Γ m scope d
  obtain ⟨hlabels, hjumps⟩ := funcStart_code Γ m scope d
  let T : Targets := ⟨⟨0, 0, [], 0⟩, (namesFrom n (labelNames d.body)).reverse⟩
  obtain ⟨happends, hcloses⟩ := genStmt_settles Γ d.body h T (funcStart Γ m scope d) htargets
  have hplaced : placed T (switchNodes d.body) (labelNames d.body) =
      nameLabels T.gotoLabels d.body := by
    have hnone : (switchNodes d.body).filterMap (caseLabel []) = [] :=
      List.filterMap_eq_nil_iff.mpr fun c _ => rfl
    exact congrArg (· ++ nameLabels T.gotoLabels d.body) hnone
  rw [hplaced] at happends hcloses
  obtain ⟨block, hblock, hown, hout⟩ := hcloses
  obtain ⟨block', hblock', hwithin, hnonneg⟩ := happends.code
  obtain rfl : block = block' := List.append_cancel_left (hblock.symm.trans hblock')
  have hend : (funcEnd Γ m scope d).func.instrs = (funcStart Γ m scope d).func.instrs ++ block :=
    hblock
  rw [hend, labelsOf_append, jumpsOf_append, hlabels, hjumps, List.nil_append, List.nil_append]
  refine ⟨n, hn, fun l => ⟨hown l, (hwithin l).trans (Nat.add_le_add_left ?_ _)⟩, hnonneg,
    fun k hk => ?_⟩
  · split
    · rename_i hl
      rw [if_pos hl.1]
    · exact Nat.zero_le _
  · rcases hout k hk with hk | ⟨l, hl, rfl⟩
    · exact hk
    · obtain ⟨name, -, hname⟩ := List.mem_filterMap.mp hl
      have hmem := (mem_namesFrom (mem_of_lookup_namesFrom hname)).1
      have hplace : l ∈ nameLabels T.gotoLabels d.body := List.mem_filterMap.mpr ⟨name, hmem, hname⟩
      exact List.count_pos_iff.mp ((List.count_pos_iff.mpr hplace).trans_le (hown l))

/-- The labels of a function are in order exactly if its names are different ones. -/
theorem labelsOnce_iff (h : d.body.Parsed) :
    LabelsOnce (funcEnd Γ m scope d).func.instrs ↔ (labelNames d.body).Nodup := by
  obtain ⟨n, hn, hcount, hnonneg, hjumps⟩ := @funcEnd_labels Γ m scope d h
  constructor
  · intro honce
    refine (nodup_lookups n _).mp (List.nodup_iff_count_le_one.mpr fun l => (hcount l).1.trans ?_)
    exact List.nodup_iff_count_le_one.mp honce.nodup _
  · intro hnodup
    refine labelsOnce_of_nodup (List.nodup_iff_count_le_one.mpr fun k => ?_) hjumps
    by_cases hk : k ∈ labelsOf (funcEnd Γ m scope d).func.instrs
    · obtain ⟨l, rfl⟩ := Int.eq_ofNat_of_zero_le (hnonneg k hk)
      refine (hcount l).2.trans ?_
      by_cases hl : l ∈ nameLabels (namesFrom n (labelNames d.body)).reverse d.body
      · obtain ⟨name, -, hname⟩ := List.mem_filterMap.mp hl
        have hlt := (mem_namesFrom (mem_of_lookup_namesFrom hname)).2.2
        rw [if_neg (by omega)]
        exact List.nodup_iff_count_le_one.mp ((nodup_lookups n _).mpr hnodup) l
      · rw [List.count_eq_zero.mpr hl, Nat.zero_add]
        split <;> omega
    · rw [List.count_eq_zero.mpr hk]
      exact Nat.zero_le 1

end

/-! ### `goto` -/

/-- To lower `s` in `g`, irgen lowers `s'` in `g'`, however deep `s'` stands in `s`. -/
abbrev GeneratesIn (Γ : TypeEnv) (s : Stmt) (g : IrGen) (s' : Stmt) (g' : IrGen) : Prop :=
  Nested Γ (fun _ => True) s g s' g'

section

variable {Γ : TypeEnv} {s s' : Stmt} {g g' : IrGen} {name : String}

theorem GeneratesIn.gotoLabels (h : GeneratesIn Γ s g s' g') : g'.gotoLabels = g.gotoLabels := by
  induction h with
  | refl => rfl
  | step h _ _ ih =>
    obtain ⟨k, hk, rfl⟩ := h.start
    exact ih.trans (hk.grows _).gotoLabels

theorem mem_gotoNamesList {before after : List Stmt} (h : name ∈ gotoNames s) :
    name ∈ gotoNamesList (before ++ s :: after) := by
  induction before with
  | nil => exact List.mem_append_left _ h
  | cons t before ih => exact List.mem_append_right _ ih

theorem parsed_of_list {before after : List Stmt}
    (h : Stmt.ParsedList (before ++ s :: after)) : s.Parsed := by
  induction before with
  | nil => exact h.1
  | cons t before ih => exact ih h.2

theorem Inside.parsed {k : Nesting} (h : Inside Γ k s g s' g') (hs : s.Parsed) : s'.Parsed := by
  cases h with
  | item => exact parsed_of_list hs
  | thenStmt => exact hs.1
  | elseStmt => exact hs.2
  | forBody => exact hs.2
  | switchBody => exact hs.2
  | forInit =>
    cases s' with
    | expr e => trivial
    | decl ds => trivial
    | _ => cases hs.1
  | _ => exact hs

theorem Inside.gotoNames {k : Nesting} (h : Inside Γ k s g s' g') (hs : s.Parsed)
    (hname : name ∈ gotoNames s') : name ∈ gotoNames s := by
  cases h with
  | item => exact mem_gotoNamesList hname
  | thenStmt => exact List.mem_append_left _ hname
  | elseStmt => exact List.mem_append_right _ hname
  | forInit =>
    cases s' with
    | expr e => cases hname
    | decl ds => cases hname
    | _ => cases hs.1
  | _ => exact hname

/-- A `goto` that is lowered stands in the statement. -/
theorem GeneratesIn.gotoName {ln cl : ℤ} (h : GeneratesIn Γ s g (.goto ln cl name) g') (hs : s.Parsed) :
    name ∈ gotoNames s := by
  generalize hgoto : Stmt.goto ln cl name = t at h
  induction h with
  | refl =>
    subst hgoto
    exact List.mem_singleton_self name
  | step h _ _ ih => exact h.gotoNames hs (ih (h.parsed hs) hgoto)

/-- The label statements of a name in `s`, each with the state it is lowered in. -/
def LabelAt (Γ : TypeEnv) (s : Stmt) (g : IrGen) (name : String) (g' : IrGen) : Prop :=
  ∃ ln cl s', GeneratesIn Γ s g (.label ln cl name s') g'

theorem LabelAt.step {k : Nesting} (h : Inside Γ k s g s' g') {g'' : IrGen}
    (hl : LabelAt Γ s' g' name g'') : LabelAt Γ s g name g'' := by
  obtain ⟨ln, cl, t, ht⟩ := hl
  exact ⟨ln, cl, t, .step h trivial ht⟩

mutual

/-- A name that is collected stands somewhere. -/
theorem exists_labelAt (Γ : TypeEnv) (name : String) : (s : Stmt) → name ∈ labelNames s →
    ∀ g, ∃ g', LabelAt Γ s g name g'
  | .label ln cl a s, h => fun g => by
      rcases List.mem_cons.mp h with rfl | h
      · exact ⟨g, ln, cl, s, .refl _ _⟩
      · obtain ⟨g', hg'⟩ := exists_labelAt Γ name s h (emitNamedLabel a g).2
        exact ⟨g', hg'.step .label⟩
  | .compound ss, h => fun g => by
      obtain ⟨before, s, after, rfl, hs⟩ := exists_labelAtList Γ name ss h
      obtain ⟨g', hg'⟩ := hs (genStmts Γ before (pushScope g).2).2
      exact ⟨g', hg'.step .item⟩
  | .ifElse _ _ c t e, h => fun g => by
      rcases List.mem_append.mp h with h | h
      · obtain ⟨g', hg'⟩ := exists_labelAt Γ name t h (ifHead (genExpr Γ c) g).2
        exact ⟨g', hg'.step .thenStmt⟩
      · cases e with
        | none => cases h
        | some e =>
          obtain ⟨g', hg'⟩ := exists_labelAt Γ name e h _
          exact ⟨g', hg'.step .elseStmt⟩
  | .while _ _ _ b, h => fun g => by
      obtain ⟨g', hg'⟩ := exists_labelAt Γ name b h _
      exact ⟨g', hg'.step .whileBody⟩
  | .doWhile _ _ _ b, h => fun g => by
      obtain ⟨g', hg'⟩ := exists_labelAt Γ name b h _
      exact ⟨g', hg'.step .doBody⟩
  | .for _ _ _ _ _ b, h => fun g => by
      obtain ⟨g', hg'⟩ := exists_labelAt Γ name b h _
      exact ⟨g', hg'.step .forBody⟩
  | .switch _ _ _ b, h => fun g => by
      obtain ⟨g', hg'⟩ := exists_labelAt Γ name b h _
      exact ⟨g', hg'.step .switchBody⟩
  | .case _ _ _ _ b, h => fun g => by
      obtain ⟨g', hg'⟩ := exists_labelAt Γ name b h _
      exact ⟨g', hg'.step .case⟩
  | .default _ _ _ b, h => fun g => by
      obtain ⟨g', hg'⟩ := exists_labelAt Γ name b h _
      exact ⟨g', hg'.step .default⟩
  | .expr _, h | .decl _, h | .ret _ _ _, h | .break _ _, h | .continue _ _, h | .goto _ _ _, h =>
      absurd h List.not_mem_nil

theorem exists_labelAtList (Γ : TypeEnv) (name : String) : (ss : List Stmt) →
    name ∈ labelNamesList ss → ∃ before s after, ss = before ++ s :: after ∧
      ∀ g, ∃ g', LabelAt Γ s g name g'
  | [], h => absurd h List.not_mem_nil
  | s :: ss, h => by
      rcases List.mem_append.mp h with h | h
      · exact ⟨[], s, ss, rfl, exists_labelAt Γ name s h⟩
      · obtain ⟨before, s', after, rfl, hs'⟩ := exists_labelAtList Γ name ss h
        exact ⟨s :: before, s', after, rfl, hs'⟩

end

end

/-- Every `goto` to `name` jumps to a label that is emitted at the statements of that name, of
which there is one. -/
def GotosReach (Γ : TypeEnv) (d : FuncDef) (start finish : IrGen) : Prop :=
  ∀ ln cl name g', GeneratesIn Γ d.body start (.goto ln cl name) g' →
    ∃ l : ℕ, finish.func.instrs[g'.pos]? = some { op := .jmp, labelId := l } ∧
      (∃ g'', LabelAt Γ d.body start name g'') ∧
      ∀ g'', LabelAt Γ d.body start name g'' →
        finish.func.instrs[g''.pos]? = some { op := .label, labelId := l }

/-- Each `goto` has its label. -/
def GotosChecked (d : FuncDef) : Prop := ∀ name ∈ gotoNames d.body, name ∈ labelNames d.body

section

variable {Γ : TypeEnv} {m : IRModule} {scope : ScopeChain VarEntry} {d : FuncDef}

/-- The names of all labels are registered. -/
theorem registered_iff (name : String) :
    (∃ l, (name, l) ∈ (funcStart Γ m scope d).gotoLabels) ↔ name ∈ labelNames d.body := by
  obtain ⟨n, -, htargets⟩ := funcStart_targets Γ m scope d
  rw [show (funcStart Γ m scope d).gotoLabels =
    (namesFrom n (labelNames d.body)).reverse from congrArg Targets.gotoLabels htargets]
  constructor
  · rintro ⟨l, hl⟩
    exact (mem_namesFrom (List.mem_reverse.mp hl)).1
  · intro hname
    obtain ⟨l, hl⟩ := lookup_namesFrom (n := n) hname
    exact ⟨l, List.mem_reverse.mpr (mem_of_lookup_namesFrom hl)⟩

theorem gotosReach (hparsed : d.body.Parsed) (h : GotosChecked d) :
    GotosReach Γ d (funcStart Γ m scope d) (funcEnd Γ m scope d) := by
  intro ln cl name g' hgoto
  have hname := h name (hgoto.gotoName hparsed)
  obtain ⟨n, -, htargets⟩ := funcStart_targets Γ m scope d
  obtain ⟨l, hl⟩ := lookup_namesFrom (n := n) hname
  have hlookup : ∀ {s' g''}, GeneratesIn Γ d.body (funcStart Γ m scope d) s' g'' →
      g''.gotoLabels.lookup name = some l := by
    intro s' g'' hlow
    rw [hlow.gotoLabels, show (funcStart Γ m scope d).gotoLabels =
      (namesFrom n (labelNames d.body)).reverse from congrArg Targets.gotoLabels htargets]
    exact hl
  have hwithin : ∀ {s' g''}, GeneratesIn Γ d.body (funcStart Γ m scope d) s' g'' →
      Within (genStmt Γ s' g'').2 (funcEnd Γ m scope d) := fun hlow =>
    ⟨hlow.grows.code, hlow.grows.strConsts⟩
  refine ⟨l, ?_, exists_labelAt Γ name d.body hname _, ?_⟩
  · have hgen : genStmt Γ (.goto ln cl name) g' = emitJmp l g' := by
      rcases emitGoto_cases name g' with ⟨hnone, -⟩ | ⟨l', hl', hrun⟩
      · rw [hlookup hgoto] at hnone
        cases hnone
      · rw [hlookup hgoto] at hl'
        cases hl'
        exact hrun
    have hF := hwithin hgoto
    rw [hgen] at hF
    exact hF.emitted
  · rintro g'' ⟨ln', cl', s', hlabel⟩
    have hgen : emitNamedLabel name g'' = emitLabel l g'' := by
      rcases emitNamedLabel_cases name g'' with ⟨hnone, -⟩ | ⟨l', hl', hrun⟩
      · rw [hlookup hlabel] at hnone
        cases hnone
      · rw [hlookup hlabel] at hl'
        cases hl'
        exact hrun
    have hF : Within (emitNamedLabel name g'').2 (funcEnd Γ m scope d) :=
      (hwithin hlabel).of_grows ((genStmt_places Γ s').grows _)
    rw [hgen] at hF
    exact hF.emitted

end

end TinyC
