import TinyC.SilentCode

/-!
# What the scans register

The scan before a switch gives each of its cases a label, the scan before a function each name.
The labels are taken from the counter one after the other.
-/

namespace TinyC

/-! ### Cases -/

/-- A `case` or `default` node. -/
structure CaseNode where
  node : ℕ
  val : BitVec 64
  isDefault : Bool
  deriving DecidableEq, Repr

mutual

/-- The cases and defaults that belong to a switch with the body `s`, and to none inside it. -/
def switchNodes : Stmt → List CaseNode
  | .case node _ _ e s => ⟨node, evalConstExpr e, false⟩ :: switchNodes s
  | .default node _ _ s => ⟨node, 0, true⟩ :: switchNodes s
  | .compound ss => switchNodesList ss
  | .ifElse _ _ _ t e => switchNodes t ++ switchNodesOpt e
  | .while _ _ _ b | .doWhile _ _ _ b | .for _ _ _ _ _ b | .label _ _ _ b => switchNodes b
  | .switch _ _ _ _ | .expr _ | .decl _ | .ret _ _ _ | .break _ _ | .continue _ _
  | .goto _ _ _ => []

def switchNodesList : List Stmt → List CaseNode
  | [] => []
  | s :: ss => switchNodes s ++ switchNodesList ss

def switchNodesOpt : Option Stmt → List CaseNode
  | none => []
  | some s => switchNodes s

end

/-- The entry of a node, its label given. -/
def CaseNode.entry (c : CaseNode) (l : ℕ) : CaseEntry := ⟨c.node, c.val, c.isDefault, l⟩

/-- The entries of nodes registered in this order, with the labels from `n` on. -/
def entriesFrom : ℕ → List CaseNode → List CaseEntry
  | _, [] => []
  | n, c :: cs => c.entry n :: entriesFrom (n + 1) cs

/-- The label of the last default, `d` if there is none. -/
def defaultFrom (d : ℕ) : ℕ → List CaseNode → ℕ
  | _, [] => d
  | n, c :: cs => defaultFrom (if c.isDefault then n else d) (n + 1) cs

def CaseNode.add (c : CaseNode) : Gen Unit := addCase c.node c.val c.isDefault

mutual

theorem collectSwitchCases_eq : (s : Stmt) →
    collectSwitchCases s = (switchNodes s).forM CaseNode.add
  | .case _ _ _ _ s | .default _ _ _ s => by
      rw [collectSwitchCases, collectSwitchCases_eq s]
      rfl
  | .compound ss => collectSwitchCasesList_eq ss
  | .ifElse _ _ _ t e => by
      rw [collectSwitchCases, collectSwitchCases_eq t, collectSwitchCasesOpt_eq e]
      exact List.forM_append.symm
  | .while _ _ _ b | .doWhile _ _ _ b | .for _ _ _ _ _ b | .label _ _ _ b =>
      collectSwitchCases_eq b
  | .switch _ _ _ _ | .expr _ | .decl _ | .ret _ _ _ | .break _ _ | .continue _ _
  | .goto _ _ _ => rfl

theorem collectSwitchCasesList_eq : (ss : List Stmt) →
    collectSwitchCasesList ss = (switchNodesList ss).forM CaseNode.add
  | [] => rfl
  | s :: ss => by
      rw [collectSwitchCasesList, collectSwitchCases_eq s, collectSwitchCasesList_eq ss]
      exact List.forM_append.symm

theorem collectSwitchCasesOpt_eq : (s : Option Stmt) →
    collectSwitchCasesOpt s = (switchNodesOpt s).forM CaseNode.add
  | none => rfl
  | some s => collectSwitchCases_eq s

end

/-- The state once nodes are registered. -/
def IrGen.register (g : IrGen) (cs : List CaseNode) : IrGen :=
  { g with
    func := { g.func with nextLabel := g.func.nextLabel + cs.length }
    caseEntries := (entriesFrom g.func.nextLabel cs).reverse ++ g.caseEntries
    swDefaultLbl := defaultFrom g.swDefaultLbl g.func.nextLabel cs }

theorem run_forM_add (cs : List CaseNode) (g : IrGen) :
    cs.forM CaseNode.add g = ((), g.register cs) := by
  induction cs generalizing g with
  | nil => rfl
  | cons c cs ih =>
    have hadd : c.add g = ((), g.register [c]) := rfl
    have hrun : (c :: cs).forM CaseNode.add g = cs.forM CaseNode.add (c.add g).2 := rfl
    have hnext : ∀ n : ℕ, n + 1 + cs.length = n + (cs.length + 1) := by omega
    rw [hrun, hadd, ih]
    simp only [IrGen.register, entriesFrom, defaultFrom, List.length_cons, List.length_nil,
      List.reverse_cons, List.reverse_nil, List.nil_append, List.append_assoc, List.cons_append,
      hnext, Nat.zero_add]

/-- The scan registers the nodes of its switch and no others, each with a label of its own. -/
theorem run_collectSwitchCases (s : Stmt) (g : IrGen) :
    collectSwitchCases s g = ((), g.register (switchNodes s)) := by
  rw [collectSwitchCases_eq, run_forM_add]

section

variable {n d : ℕ} {cs : List CaseNode} {ce : CaseEntry}

theorem labels_entriesFrom (n : ℕ) (cs : List CaseNode) :
    (entriesFrom n cs).map CaseEntry.labelId = List.range' n cs.length := by
  induction cs generalizing n with
  | nil => rfl
  | cons c cs ih => exact congrArg (n :: ·) (ih (n + 1))

theorem mem_entriesFrom (h : ce ∈ entriesFrom n cs) :
    (∃ c ∈ cs, ce = c.entry ce.labelId) ∧ n ≤ ce.labelId ∧ ce.labelId < n + cs.length := by
  induction cs generalizing n with
  | nil => cases h
  | cons c cs ih =>
    rcases List.mem_cons.mp h with rfl | h
    · exact ⟨⟨c, List.mem_cons_self, rfl⟩, le_rfl, Nat.lt_add_of_pos_right (Nat.succ_pos _)⟩
    · obtain ⟨⟨c', hc', heq⟩, hlo, hhi⟩ := ih h
      refine ⟨⟨c', List.mem_cons_of_mem c hc', heq⟩, by omega, ?_⟩
      rw [List.length_cons]
      omega

theorem exists_entry {c : CaseNode} (h : c ∈ cs) : ∃ l, c.entry l ∈ entriesFrom n cs := by
  induction cs generalizing n with
  | nil => cases h
  | cons c' cs ih =>
    rcases List.mem_cons.mp h with rfl | h
    · exact ⟨n, List.mem_cons_self⟩
    · obtain ⟨l, hl⟩ := ih (n := n + 1) h
      exact ⟨l, List.mem_cons_of_mem _ hl⟩

/-- The default label is that of a default, and if there is one it is taken. -/
theorem defaultFrom_cases (d n : ℕ) (cs : List CaseNode) :
    (∃ ce ∈ entriesFrom n cs, ce.isDefault = true ∧ defaultFrom d n cs = ce.labelId) ∨
      (∀ c ∈ cs, c.isDefault = false) ∧ defaultFrom d n cs = d := by
  induction cs generalizing d n with
  | nil => exact .inr ⟨by simp, rfl⟩
  | cons c cs ih =>
    rcases ih (if c.isDefault then n else d) (n + 1) with ⟨ce, hce, hdef, heq⟩ | ⟨hnone, heq⟩
    · exact .inl ⟨ce, List.mem_cons_of_mem _ hce, hdef, heq⟩
    · by_cases hc : c.isDefault = true
      · exact .inl ⟨c.entry n, List.mem_cons_self, hc, heq.trans (if_pos hc)⟩
      · refine .inr ⟨List.forall_mem_cons.mpr ⟨?_, hnone⟩, heq.trans (if_neg hc)⟩
        exact Bool.eq_false_iff.mpr hc

/-- Entries of different nodes are told apart by their nodes. -/
theorem entriesFrom_inj (h : (cs.map CaseNode.node).Nodup) {ce' : CaseEntry}
    (hce : ce ∈ entriesFrom n cs) (hce' : ce' ∈ entriesFrom n cs) (hnode : ce.node = ce'.node) :
    ce = ce' := by
  induction cs generalizing n with
  | nil => cases hce
  | cons c cs ih =>
    obtain ⟨hc, hcs⟩ := List.nodup_cons.mp h
    have hother : ∀ e ∈ entriesFrom (n + 1) cs, e.node ≠ c.node := by
      intro e he heq
      obtain ⟨⟨c', hc', hentry⟩, -⟩ := mem_entriesFrom he
      refine hc (List.mem_map.mpr ⟨c', hc', ?_⟩)
      rw [← heq, hentry]
      rfl
    rcases List.mem_cons.mp hce with rfl | hce
    · rcases List.mem_cons.mp hce' with rfl | hce'
      · rfl
      · exact absurd hnode.symm (hother _ hce')
    · rcases List.mem_cons.mp hce' with rfl | hce'
      · exact absurd hnode (hother _ hce)
      · exact ih hcs hce hce'

end

/-- The label that the entries have for a node. -/
def caseLabel (ces : List CaseEntry) (c : CaseNode) : Option ℕ :=
  (ces.find? fun ce => ce.node = c.node && ce.isDefault = c.isDefault).map CaseEntry.labelId

theorem find?_of_unique {α : Type} {p : α → Bool} {xs : List α} {a : α} (ha : a ∈ xs)
    (hp : p a = true) (h : ∀ b ∈ xs, p b = true → b = a) : xs.find? p = some a := by
  cases hfind : xs.find? p with
  | none => exact absurd hp (List.find?_eq_none.mp hfind a ha)
  | some b => rw [h b (List.mem_of_find?_eq_some hfind) (List.find?_some hfind)]

/-- After the scan each node finds the entry of its own. -/
theorem caseLabel_register {n : ℕ} {cs : List CaseNode} (h : (cs.map CaseNode.node).Nodup)
    {c : CaseNode} {l : ℕ} (hc : c.entry l ∈ entriesFrom n cs) :
    caseLabel (entriesFrom n cs).reverse c = some l := by
  rw [caseLabel, find?_of_unique (List.mem_reverse.mpr hc) (by simp [CaseNode.entry])]
  · rfl
  · intro ce hce hp
    rw [Bool.and_eq_true] at hp
    exact entriesFrom_inj h (List.mem_reverse.mp hce) hc (of_decide_eq_true hp.1)

theorem filterMap_caseLabel {n : ℕ} {cs : List CaseNode} (h : (cs.map CaseNode.node).Nodup) :
    cs.filterMap (caseLabel (entriesFrom n cs).reverse) = List.range' n cs.length := by
  have hall : ∀ (m : ℕ) (cs' : List CaseNode), (∀ ce ∈ entriesFrom m cs', ce ∈ entriesFrom n cs) →
      cs'.filterMap (caseLabel (entriesFrom n cs).reverse) = List.range' m cs'.length := by
    intro m cs' hsub
    induction cs' generalizing m with
    | nil => rfl
    | cons c cs' ih =>
      rw [List.filterMap_cons_some (caseLabel_register h (hsub _ List.mem_cons_self)),
        ih (m + 1) fun ce hce => hsub ce (List.mem_cons_of_mem _ hce)]
      rfl
  exact hall n cs fun _ hce => hce

/-! ### Names -/

mutual

theorem collectLabels_eq : (s : Stmt) → collectLabels s = (labelNames s).forM addLabel
  | .label _ _ _ s => by
      rw [collectLabels, collectLabels_eq s]
      rfl
  | .compound ss => collectLabelsList_eq ss
  | .ifElse _ _ _ t e => by
      rw [collectLabels, collectLabels_eq t, collectLabelsOpt_eq e]
      exact List.forM_append.symm
  | .while _ _ _ b | .doWhile _ _ _ b | .for _ _ _ _ _ b | .switch _ _ _ b | .case _ _ _ _ b
  | .default _ _ _ b => collectLabels_eq b
  | .expr _ | .decl _ | .ret _ _ _ | .break _ _ | .continue _ _ | .goto _ _ _ => rfl

theorem collectLabelsList_eq : (ss : List Stmt) →
    collectLabelsList ss = (labelNamesList ss).forM addLabel
  | [] => rfl
  | s :: ss => by
      rw [collectLabelsList, collectLabels_eq s, collectLabelsList_eq ss]
      exact List.forM_append.symm

theorem collectLabelsOpt_eq : (s : Option Stmt) →
    collectLabelsOpt s = (labelNamesOpt s).forM addLabel
  | none => rfl
  | some s => collectLabels_eq s

end

/-- The names with the labels from `n` on. -/
def namesFrom (n : ℕ) (names : List String) : List (String × ℕ) :=
  names.zip (List.range' n names.length)

theorem namesFrom_cons (n : ℕ) (name : String) (names : List String) :
    namesFrom n (name :: names) = (name, n) :: namesFrom (n + 1) names := rfl

theorem run_forM_addLabel (names : List String) (g : IrGen) :
    names.forM addLabel g = ((), { g with
      func := { g.func with nextLabel := g.func.nextLabel + names.length }
      gotoLabels := (namesFrom g.func.nextLabel names).reverse ++ g.gotoLabels }) := by
  induction names generalizing g with
  | nil => rfl
  | cons name names ih =>
    have hrun : (name :: names).forM addLabel g = names.forM addLabel (addLabel name g).2 := rfl
    have hnext : ∀ n : ℕ, n + 1 + names.length = n + (names.length + 1) := by omega
    have hadd : addLabel name g = ((), { g with
      func := { g.func with nextLabel := g.func.nextLabel + 1 }
      gotoLabels := (name, g.func.nextLabel) :: g.gotoLabels }) := rfl
    rw [hrun, hadd, ih]
    simp only [namesFrom_cons, List.length_cons, List.reverse_cons, List.append_assoc,
      List.cons_append, List.nil_append, hnext]

/-- Every label statement is registered, and nothing else is. -/
theorem run_collectLabels (s : Stmt) (g : IrGen) :
    collectLabels s g = ((), { g with
      func := { g.func with nextLabel := g.func.nextLabel + (labelNames s).length }
      gotoLabels := (namesFrom g.func.nextLabel (labelNames s)).reverse ++ g.gotoLabels }) := by
  rw [collectLabels_eq, run_forM_addLabel]

/-- The labels that the label statements of `s` place. -/
def nameLabels (names : List (String × ℕ)) (s : Stmt) : List ℕ :=
  (labelNames s).filterMap fun name => names.lookup name

end TinyC
