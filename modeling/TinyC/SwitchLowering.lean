import TinyC.CaseTests
import TinyC.FuncLabels
import TinyC.PassedOnce

/-!
# The code of a switch

The code of a switch evaluates its value, copies it, tests the cases and ends with the body. The
labels the tests jump to are those the scan has registered, and the body places each of them
before its case.
-/

namespace TinyC

/-! ### The cases of a switch -/

/-- The node of a `case` or `default` statement, and the statement it is put before. -/
def Stmt.asCase? : Stmt → Option (CaseNode × Stmt)
  | .case node _ _ e s => some (⟨node, evalConstExpr e, false⟩, s)
  | .default node _ _ s => some (⟨node, 0, true⟩, s)
  | _ => none

/-- In `b`, lowered from `gb` on, the node `c` is lowered in `g'`, and no switch is around it. -/
def CaseAt (Γ : TypeEnv) (b : Stmt) (gb : IrGen) (c : CaseNode) (s : Stmt) (g' : IrGen) : Prop :=
  ∃ t, t.asCase? = some (c, s) ∧ Nested Γ (· ≠ .switch) b gb t g'

section

variable {Γ : TypeEnv} {s s' t : Stmt} {g g' : IrGen} {c : CaseNode}

theorem asCase?_cases (h : t.asCase? = some (c, s)) :
    (∃ ln cl e, t = .case c.node ln cl e s ∧ c = ⟨c.node, evalConstExpr e, false⟩) ∨
      ∃ ln cl, t = .default c.node ln cl s ∧ c = ⟨c.node, 0, true⟩ := by
  cases t with
  | case node ln cl e s' =>
    cases h
    exact .inl ⟨ln, cl, e, rfl, rfl⟩
  | default node ln cl s' =>
    cases h
    exact .inr ⟨ln, cl, rfl, rfl⟩
  | _ => cases h

theorem mem_switchNodesList {before after : List Stmt} (h : c ∈ switchNodes s) :
    c ∈ switchNodesList (before ++ s :: after) := by
  induction before with
  | nil => exact List.mem_append_left _ h
  | cons t before ih => exact List.mem_append_right _ ih

theorem Inside.switchNodes {k : Nesting} (h : Inside Γ k s g s' g') (hk : k ≠ .switch)
    (hs : s.Parsed) (hc : c ∈ switchNodes s') : c ∈ switchNodes s := by
  cases h with
  | item => exact mem_switchNodesList hc
  | thenStmt => exact List.mem_append_left _ hc
  | elseStmt => exact List.mem_append_right _ hc
  | switchBody => exact absurd rfl hk
  | forInit =>
    cases s' with
    | expr e => cases hc
    | decl ds => cases hc
    | _ => cases hs.1
  | case => exact List.mem_cons_of_mem _ hc
  | default => exact List.mem_cons_of_mem _ hc
  | _ => exact hc

/-- A case that is lowered is one the scan finds. -/
theorem CaseAt.mem_switchNodes (h : CaseAt Γ s g c s' g') (hs : s.Parsed) : c ∈ switchNodes s := by
  obtain ⟨t, ht, hn⟩ := h
  induction hn with
  | refl =>
    rcases asCase?_cases ht with ⟨ln, cl, e, rfl, hc⟩ | ⟨ln, cl, rfl, hc⟩
    · exact List.mem_cons.mpr (.inl hc)
    · exact List.mem_cons.mpr (.inl hc)
  | step h hk _ ih => exact h.switchNodes hk hs (ih (h.parsed hs) ht)

theorem CaseAt.step {k : Nesting} {s₁ : Stmt} {g₁ : IrGen} (h : Inside Γ k s g s₁ g₁)
    (hk : k ≠ .switch) (hc : CaseAt Γ s₁ g₁ c s' g') : CaseAt Γ s g c s' g' := by
  obtain ⟨t, ht, hn⟩ := hc
  exact ⟨t, ht, .step h hk hn⟩

end

mutual

/-- A case the scan finds is lowered somewhere. -/
theorem exists_caseAt (Γ : TypeEnv) (c : CaseNode) : (s : Stmt) → c ∈ switchNodes s →
    ∀ g, ∃ s' g', CaseAt Γ s g c s' g'
  | .case node ln cl e s, h => fun g => by
      rcases List.mem_cons.mp h with rfl | h
      · exact ⟨s, g, _, rfl, .refl _ _⟩
      · obtain ⟨s', g', hc⟩ := exists_caseAt Γ c s h (emitCaseLabel node false g).2
        exact ⟨s', g', hc.step .case (by simp)⟩
  | .default node ln cl s, h => fun g => by
      rcases List.mem_cons.mp h with rfl | h
      · exact ⟨s, g, _, rfl, .refl _ _⟩
      · obtain ⟨s', g', hc⟩ := exists_caseAt Γ c s h (emitCaseLabel node true g).2
        exact ⟨s', g', hc.step .default (by simp)⟩
  | .compound ss, h => fun g => by
      obtain ⟨before, s, after, rfl, hs⟩ := exists_caseAtList Γ c ss h
      obtain ⟨s', g', hc⟩ := hs (genStmts Γ before (pushScope g).2).2
      exact ⟨s', g', hc.step .item (by simp)⟩
  | .ifElse _ _ cond t e, h => fun g => by
      rcases List.mem_append.mp h with h | h
      · obtain ⟨s', g', hc⟩ := exists_caseAt Γ c t h (ifHead (genExpr Γ cond) g).2
        exact ⟨s', g', hc.step .thenStmt (by simp)⟩
      · cases e with
        | none => cases h
        | some e =>
          obtain ⟨s', g', hc⟩ := exists_caseAt Γ c e h _
          exact ⟨s', g', hc.step .elseStmt (by simp)⟩
  | .while _ _ _ b, h => fun g => by
      obtain ⟨s', g', hc⟩ := exists_caseAt Γ c b h _
      exact ⟨s', g', hc.step .whileBody (by simp)⟩
  | .doWhile _ _ _ b, h => fun g => by
      obtain ⟨s', g', hc⟩ := exists_caseAt Γ c b h _
      exact ⟨s', g', hc.step .doBody (by simp)⟩
  | .for _ _ _ _ _ b, h => fun g => by
      obtain ⟨s', g', hc⟩ := exists_caseAt Γ c b h _
      exact ⟨s', g', hc.step .forBody (by simp)⟩
  | .label _ _ _ b, h => fun g => by
      obtain ⟨s', g', hc⟩ := exists_caseAt Γ c b h _
      exact ⟨s', g', hc.step .label (by simp)⟩
  | .switch _ _ _ _, h | .expr _, h | .decl _, h | .ret _ _ _, h | .break _ _, h
  | .continue _ _, h | .goto _ _ _, h => absurd h List.not_mem_nil

theorem exists_caseAtList (Γ : TypeEnv) (c : CaseNode) : (ss : List Stmt) →
    c ∈ switchNodesList ss → ∃ before s after, ss = before ++ s :: after ∧
      ∀ g, ∃ s' g', CaseAt Γ s g c s' g'
  | [], h => absurd h List.not_mem_nil
  | s :: ss, h => by
      rcases List.mem_append.mp h with h | h
      · exact ⟨[], s, ss, rfl, exists_caseAt Γ c s h⟩
      · obtain ⟨before, s', after, rfl, hs'⟩ := exists_caseAtList Γ c ss h
        exact ⟨s :: before, s', after, rfl, hs'⟩

end

/-! ### The head of a switch -/

/-- The state in which the value of a switch is lowered. -/
def switchScan (b : Stmt) (g : IrGen) : IrGen :=
  IrGen.register { (newLabel g).2 with
    breakLabel := g.func.nextLabel, caseEntries := [], swDefaultLbl := 0 } (switchNodes b)

/-- The entries of a switch, the last one first. -/
def switchEntries (b : Stmt) (g : IrGen) : List CaseEntry :=
  (entriesFrom (g.func.nextLabel + 1) (switchNodes b)).reverse

/-- Where the last jump before the body goes: to the last default, or past the body. -/
def switchElse (b : Stmt) (g : IrGen) : ℕ :=
  let d := defaultFrom 0 (g.func.nextLabel + 1) (switchNodes b)
  if d = 0 then g.func.nextLabel else d

section

variable (Γ : TypeEnv) (e : Expr) (b : Stmt) (g : IrGen)

/-- The value of a switch and the state after its code. -/
def switchValue : IRValue × IrGen := genExpr Γ e (switchScan b g)

def switchType : CType := (switchValue Γ e b g).1.type.getD typeInt

/-- The temp the value is copied to. -/
def switchTemp : ℕ := (switchValue Γ e b g).2.func.nextTemp

def switchCopy : IRInstr :=
  { op := .copy, dst := irvTemp (switchTemp Γ e b g) (switchType Γ e b g)
    src1 := (switchValue Γ e b g).1 }

/-- The state in which the body is lowered. -/
def switchBody : IrGen := (switchHead (collectSwitchCases b) (genExpr Γ e) g).2

theorem switchValue_context : (switchValue Γ e b g).2.context =
    ⟨g.func.nextLabel, g.contLabel, switchEntries b g,
      defaultFrom 0 (g.func.nextLabel + 1) (switchNodes b)⟩ := by
  have hkeep := Keeps.genExpr stable_context Γ e (switchScan b g)
  refine hkeep.trans ?_
  rw [switchScan, IrGen.register, IrGen.context, switchEntries]
  simp only [List.append_nil]
  rfl

theorem run_switchHead : switchHead (collectSwitchCases b) (genExpr Γ e) g = (g.func.nextLabel,
    { (switchValue Γ e b g).2 with
      func := { (switchValue Γ e b g).2.func with
        instrs := (switchValue Γ e b g).2.func.instrs ++ switchCopy Γ e b g ::
          dispatchCode (switchTemp Γ e b g) (switchType Γ e b g) (switchTemp Γ e b g + 1)
            (switchEntries b g) (switchElse b g)
        nextTemp := switchTemp Γ e b g + 1 + testCount (switchEntries b g) } }) := by
  let v := switchValue Γ e b g
  let ty := switchType Γ e b g
  let gc : IrGen := (emitTo ty .copy v.1 irvNone v.2).2
  have hentries : gc.caseEntries = switchEntries b g :=
    congrArg Context.caseEntries (switchValue_context Γ e b g)
  have hdefault : gc.swDefaultLbl = defaultFrom 0 (g.func.nextLabel + 1) (switchNodes b) :=
    congrArg Context.swDefaultLbl (switchValue_context Γ e b g)
  have hrun : switchHead (collectSwitchCases b) (genExpr Γ e) g = (g.func.nextLabel,
      (emitJmp (if gc.swDefaultLbl = 0 then g.func.nextLabel else gc.swDefaultLbl)
        (genDispatch (irvTemp (switchTemp Γ e b g) ty) ty gc.caseEntries gc).2).2) := by
    have hscan : (collectSwitchCases b { (newLabel g).2 with
        breakLabel := g.func.nextLabel, caseEntries := [], swDefaultLbl := 0 }) =
        ((), switchScan b g) := run_collectSwitchCases b _
    have hstart : switchHead (collectSwitchCases b) (genExpr Γ e) g =
        (fun scanned : Unit × IrGen => (genExpr Γ e >>= fun sv => emitTo (sv.type.getD typeInt) .copy
          sv >>= fun svCopy => get >>= fun g' => genDispatch svCopy (sv.type.getD typeInt)
            g'.caseEntries >>= fun _ => emitJmp (if g'.swDefaultLbl = 0 then g.func.nextLabel
              else g'.swDefaultLbl) >>= fun _ => (return g.func.nextLabel : Gen ℕ)) scanned.2)
        (collectSwitchCases b { (newLabel g).2 with
          breakLabel := g.func.nextLabel, caseEntries := [], swDefaultLbl := 0 }) := rfl
    rw [hstart, hscan]
    rfl
  rw [hrun, hentries, hdefault, run_genDispatch]
  change (_, ({ v.2 with func := { v.2.func with
    instrs := v.2.func.instrs ++ [switchCopy Γ e b g] ++ _ ++ [_], nextTemp := _ } } : IrGen)) = _
  rw [List.append_assoc, List.append_assoc]
  rfl

end

end TinyC
