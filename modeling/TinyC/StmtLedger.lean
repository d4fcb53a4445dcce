import TinyC.JumpLedger

/-!
# The labels of statements

A statement places the labels that its cases have in the enclosing switch and that its names have
in the function. It jumps to the targets of `break` and `continue`, to names, and to labels of
its own.
-/

namespace TinyC

/-! ### What a statement contains -/

mutual

/-- The names that `goto` statements go to. -/
def gotoNames : Stmt → List String
  | .goto _ _ name => [name]
  | .compound ss => gotoNamesList ss
  | .ifElse _ _ _ t e => gotoNames t ++ gotoNamesOpt e
  | .while _ _ _ b | .doWhile _ _ _ b | .for _ _ _ _ _ b | .switch _ _ _ b | .case _ _ _ _ b
  | .default _ _ _ b | .label _ _ _ b => gotoNames b
  | .expr _ | .decl _ | .ret _ _ _ | .break _ _ | .continue _ _ => []

def gotoNamesList : List Stmt → List String
  | [] => []
  | s :: ss => gotoNames s ++ gotoNamesList ss

def gotoNamesOpt : Option Stmt → List String
  | none => []
  | some s => gotoNames s

end

/-- What may stand first in a `for`. -/
def Stmt.isClause : Stmt → Bool
  | .expr _ | .decl _ => true
  | _ => false

mutual

/-- What the parser sees to: the cases of a switch are nodes of their own, and a `for` begins with
an expression or a declaration. -/
def Stmt.Parsed : Stmt → Prop
  | .switch _ _ _ b => ((switchNodes b).map CaseNode.node).Nodup ∧ b.Parsed
  | .for _ _ init _ _ b => init.all Stmt.isClause ∧ b.Parsed
  | .compound ss => Stmt.ParsedList ss
  | .ifElse _ _ _ t e => t.Parsed ∧ Stmt.ParsedOpt e
  | .while _ _ _ b | .doWhile _ _ _ b | .case _ _ _ _ b | .default _ _ _ b | .label _ _ _ b =>
      b.Parsed
  | .expr _ | .decl _ | .ret _ _ _ | .break _ _ | .continue _ _ | .goto _ _ _ => True

def Stmt.ParsedList : List Stmt → Prop
  | [] => True
  | s :: ss => s.Parsed ∧ Stmt.ParsedList ss

def Stmt.ParsedOpt : Option Stmt → Prop
  | none => True
  | some s => s.Parsed

end

/-! ### Pieces of statements -/

/-- A generator that changes nothing but the function, and accounts for its labels. -/
structure Piece {α : Type} (own out : List ℕ) (m : Gen α) : Prop where
  emits : EmitsWith own m
  closing : Closing own out m

namespace Piece

variable {α β : Type} {own own' out out' : List ℕ}

theorem bind {m : Gen α} {k : α → Gen β} (hm : Piece own out m)
    (hk : ∀ a, Piece own' out' (k a)) : Piece (own ++ own') (out ++ out') (m >>= k) :=
  ⟨.bind hm.emits fun a => (hk a).emits, .bind hm.closing fun a => (hk a).closing⟩

theorem pure (a : α) : Piece [] [] (Pure.pure a : Gen α) := ⟨Emits.pure a, .pure a⟩

theorem ite {p : Prop} [Decidable p] {m k : Gen α} (hm : Piece own out m)
    (hk : Piece own out k) : Piece own out (if p then m else k) := by
  split
  · exact hm
  · exact hk

theorem emit {ins : IRInstr} (h : ins.op ≠ .label) (ht : ins.target? = none) :
    Piece [] [] (emit ins) := ⟨Emits.emit h, Closes.straight ht⟩

theorem emitLabel (l : ℕ) : Piece [l] [] (emitLabel l) := ⟨.emitLabel l, .emitLabel l⟩

theorem emitJmp (l : ℕ) : Piece [] [l] (emitJmp l) := ⟨Emits.emitJmp l, .emitJmp l⟩

theorem emitJz (v : IRValue) (l : ℕ) : Piece [] [l] (emitJz v l) := ⟨Emits.emitJz v l, .emitJz v l⟩

theorem emitJnz (v : IRValue) (l : ℕ) : Piece [] [l] (emitJnz v l) :=
  ⟨Emits.emitJnz v l, .emitJnz v l⟩

theorem emitTo (ty : CType) {op : IROp} (a b : IRValue) (h : op.straight) :
    Piece [] [] (emitTo ty op a b) :=
  ⟨Emits.emitTo (by rintro rfl; cases h), Closing.emitTo h⟩

theorem genExpr (Γ : TypeEnv) (e : Expr) : Piece [] [] (genExpr Γ e) :=
  ⟨(genNode_emits Γ e).expr, (Closing.rules.node_of Γ e).expr⟩

theorem genEffect (Γ : TypeEnv) (e : Option Expr) :
    Piece [] [] (genEffect (e.map (TinyC.genExpr Γ))) := by
  cases e with
  | none => exact pure _
  | some e => exact bind (genExpr Γ e) fun _ => pure _

theorem genLoopTest (Γ : TypeEnv) (c : Option Expr) (l : ℕ) :
    Piece [] (c.toList.map fun _ => l) (genLoopTest (c.map (TinyC.genExpr Γ)) l) := by
  cases c with
  | none => exact pure _
  | some c => exact bind (genExpr Γ c) fun v => emitJz v l

theorem forTest (Γ : TypeEnv) (c : Option Expr) (ls : LoopLabels) :
    Piece [ls.top, ls.body] (c.toList.map fun _ => ls.done)
      (forTest (c.map (TinyC.genExpr Γ)) ls) := by
  have h := bind (emitLabel ls.top) fun _ => bind (genLoopTest Γ c ls.done) fun _ =>
    emitLabel ls.body
  rw [List.append_nil] at h
  exact h

theorem forTail (Γ : TypeEnv) (e : Option Expr) (ls : LoopLabels) :
    Piece [ls.cont, ls.done] [ls.top] (forTail (e.map (TinyC.genExpr Γ)) ls) :=
  bind (emitLabel ls.cont) fun _ => bind (genEffect Γ e) fun _ => bind (emitJmp ls.top) fun _ =>
    emitLabel ls.done

theorem genCaseTest (sv : IRValue) (ty : CType) (ce : CaseEntry) :
    Piece [] (if ce.isDefault then [] else [ce.labelId]) (genCaseTest sv ty ce) := by
  unfold TinyC.genCaseTest
  by_cases h : ce.isDefault = true
  · rw [if_pos h, if_pos h]
    exact pure _
  · rw [if_neg h, if_neg h]
    exact bind (emitTo typeInt _ _ rfl) fun cmp => emitJnz cmp ce.labelId

/-- The comparisons of a switch jump to the labels of its cases. -/
theorem genDispatch (sv : IRValue) (ty : CType) (ces : List CaseEntry) :
    Piece [] ((ces.filter fun ce => !ce.isDefault).map CaseEntry.labelId)
      (genDispatch sv ty ces) := by
  induction ces with
  | nil => exact pure _
  | cons ce ces ih =>
    have hlabels : (if ce.isDefault then [] else [ce.labelId]) ++
        (ces.filter fun ce => !ce.isDefault).map CaseEntry.labelId =
          ((ce :: ces).filter fun ce => !ce.isDefault).map CaseEntry.labelId := by
      cases hd : ce.isDefault <;> simp [hd]
    exact hlabels ▸ bind (genCaseTest sv ty ce) fun _ => ih

end Piece

/-- Labels may be placed after they have been taken one after the other. -/
theorem AppendsWith.newLabels {own : List ℕ} {g g₁ g' : IrGen} {k : ℕ}
    (hcode : g₁.func.instrs = g.func.instrs) (hnext : g₁.func.nextLabel = g.func.nextLabel + k)
    (h : AppendsWith (List.range' g.func.nextLabel k ++ own) g₁ g') : AppendsWith own g g' := by
  obtain ⟨b, hb, hl, hn⟩ := h.code
  have hle := h.labels
  rw [hnext] at hle
  refine ⟨⟨b, hb.trans (congrArg (· ++ b) hcode), fun l => ?_, hn⟩, by omega⟩
  have hcount := hl l
  rw [hnext, List.count_append] at hcount
  by_cases hmem : l ∈ List.range' g.func.nextLabel k
  · have hone : (List.range' g.func.nextLabel k).count l ≤ 1 :=
      List.nodup_iff_count_le_one.mp List.nodup_range' l
    obtain ⟨hlo, hhi⟩ := List.mem_range'_1.mp hmem
    rw [if_neg (by omega)] at hcount
    rw [if_pos (by omega)]
    omega
  · rw [List.count_eq_zero.mpr hmem] at hcount
    refine hcount.trans (by rw [Nat.zero_add]; split <;> split <;> omega)

/-! ### Statements in their context -/

/-- What the jumps of a statement go by. -/
structure Targets where
  context : Context
  gotoLabels : List (String × ℕ)

def IrGen.targets (g : IrGen) : Targets := ⟨g.context, g.gotoLabels⟩

theorem stable_targets : Stable IrGen.targets := fun own g g' h => by
  rw [IrGen.targets, IrGen.targets, stable_context own g g' h, h.gotoLabels]

theorem genStmt_targets (Γ : TypeEnv) (s : Stmt) : Keeps IrGen.targets (genStmt Γ s) := fun g => by
  rw [IrGen.targets, IrGen.targets, genStmt_context Γ s g, ((genStmt_places Γ s).grows g).gotoLabels]

theorem genDecls_targets (Γ : TypeEnv) (ds : List Decl) :
    Keeps IrGen.targets (genDecls Γ ds) := fun g => by
  rw [IrGen.targets, IrGen.targets, Keeps.genDecls Γ ds g, ((Places.genDecls Γ ds).grows g).gotoLabels]

/-- Begun with the targets `T`, the generator places the labels `own` and jumps out to `out`. -/
def Settles {α : Type} (T : Targets) (own out : List ℕ) (m : Gen α) : Prop :=
  ∀ g, g.targets = T → AppendsWith own g (m g).2 ∧ Closes own out g (m g).2

namespace Settles

variable {α β : Type} {T T' : Targets} {own own' out out' : List ℕ}

theorem mono {m : Gen α} (h : Settles T own out m) (hown : ∀ l, own.count l = own'.count l)
    (hout : ∀ l ∈ out, l ∈ own ∨ l ∈ out') : Settles T own' out' m := fun g hg =>
  ⟨(h g hg).1.mono fun l => (hown l).le, (h g hg).2.mono (fun l => (hown l).ge) hout⟩

theorem ofPiece {m : Gen α} (h : Piece own out m) : Settles T own out m :=
  fun g _ => ⟨(h.emits g).toAppendsWith, h.closing g⟩

theorem bind {m : Gen α} {k : α → Gen β} (hm : Settles T own out m) (hkeep : Keeps IrGen.targets m)
    (hk : ∀ a, Settles T own' out' (k a)) : Settles T (own ++ own') (out ++ out') (m >>= k) := by
  intro g hg
  have hm := hm g hg
  have hk := hk (m g).1 (m g).2 ((hkeep g).trans hg)
  exact ⟨hm.1.trans hk.1, hm.2.trans hk.2⟩

theorem piece {m : Gen α} {k : α → Gen β} (hm : Piece own out m)
    (hk : ∀ a, Settles T own' out' (k a)) : Settles T (own ++ own') (out ++ out') (m >>= k) :=
  bind (ofPiece hm) (.ofEmits stable_targets hm.emits) hk

theorem get_bind {k : IrGen → Gen β} (hk : ∀ g, g.targets = T → Settles T own out (k g)) :
    Settles T own out (get >>= k) := fun g hg => hk g hg g hg

/-- A label that is taken is to be placed. -/
theorem newLabel_bind {k : ℕ → Gen β} (hk : ∀ l, Settles T (l :: own) out (k l)) :
    Settles T own out (newLabel >>= k) := by
  intro g hg
  obtain ⟨happends, hcloses⟩ := hk g.func.nextLabel (newLabel g).2 hg
  refine ⟨.newLabel happends, (hcloses.of_start rfl).mono (fun l => ?_) fun l hl => .inr hl⟩
  exact List.Sublist.count_le l (List.sublist_cons_self _ own)

/-- A label that is taken need not be placed if nothing jumps to it. -/
theorem newLabel_unused {k : ℕ → Gen β} (hk : ∀ l, Settles T own out (k l)) :
    Settles T own out (newLabel >>= k) := by
  intro g hg
  obtain ⟨happends, hcloses⟩ := hk g.func.nextLabel (newLabel g).2 hg
  refine ⟨.newLabel (happends.mono fun l => ?_), hcloses.of_start rfl⟩
  exact List.Sublist.count_le l (List.sublist_cons_self _ own)

/-- A change of the state that leaves the function alone. -/
theorem update_bind {f : IrGen → IrGen} {k : Unit → Gen β} (hf : ∀ g, (f g).func = g.func)
    (hT : ∀ g, g.targets = T → (f g).targets = T') (hk : Settles T' own out (k ())) :
    Settles T own out (modify f >>= k) := by
  intro g hg
  obtain ⟨happends, hcloses⟩ := hk (f g) (hT g hg)
  have hstart : AppendsWith [] g (f g) := .of_func_eq (hf g)
  exact ⟨hstart.trans happends, hcloses.of_start (congrArg IRFunc.instrs (hf g))⟩

theorem update_after {m : Gen α} {f : IrGen → IrGen → IrGen} (hf : ∀ g g', (f g g').func = g'.func)
    (hm : Settles T own out m) :
    Settles T own out (get >>= fun g => m >>= fun _ => (modify (f g) : Gen Unit)) := by
  intro g hg
  obtain ⟨happends, hcloses⟩ := hm g hg
  have hend : AppendsWith [] (m g).2 (f g (m g).2) := .of_func_eq (hf g _)
  refine ⟨(happends.trans hend).mono fun l => ?_, hcloses.of_end (congrArg IRFunc.instrs (hf g _))⟩
  rw [List.append_nil]

theorem keepTargets {m : Gen Unit} (h : Settles T own out m) : Settles T own out (keepTargets m) :=
  update_after (fun _ _ => rfl) h

theorem keepSwitch {m : Gen Unit} (h : Settles T own out m) : Settles T own out (keepSwitch m) :=
  update_after (fun _ _ => rfl) h

theorem withScope {m : Gen Unit} (h : Settles T own out m) : Settles T own out (withScope m) := by
  have hpush : Settles T own out (pushScope >>= fun _ => m) :=
    update_bind (fun _ => rfl) (fun _ hg => hg) h
  exact update_after (f := fun saved g => { g with scope := saved.scope }) (fun _ _ => rfl) hpush

theorem genDecls (Γ : TypeEnv) (ds : List Decl) : Settles T [] [] (genDecls Γ ds) := by
  induction ds with
  | nil => exact ofPiece (.pure _)
  | cons d ds ih =>
    cases d with
    | var v =>
      refine bind (?_ : Settles T [] [] _) (fun g => ?_) fun _ => ih
      · have halloca : Piece [] [] (genAlloca Γ (v.declType.getD typeInt)) :=
          ⟨Emits.genAlloca Γ _, Closing.genAlloca Γ _⟩
        refine piece halloca fun addr => ?_
        refine update_bind (fun _ => rfl) (fun _ hg => hg) ?_
        cases v.init with
        | none => exact ofPiece (.pure _)
        | some e => exact ofPiece ⟨(genNode_emits Γ e).init _ _, (Closing.rules.node_of Γ e).init _ _⟩
      · exact genDecls_targets Γ [.var v] g
    | _ => exact ih

/-- The scan takes the labels of a switch, which its body is to place. -/
theorem collect_bind {b : Stmt} {k : Unit → Gen β}
    (hk : ∀ n, Settles ⟨{ T.context with
        caseEntries := (entriesFrom n (switchNodes b)).reverse ++ T.context.caseEntries
        swDefaultLbl := defaultFrom T.context.swDefaultLbl n (switchNodes b) }, T.gotoLabels⟩
      (List.range' n (switchNodes b).length ++ own) out (k ())) :
    Settles T own out (collectSwitchCases b >>= k) := by
  intro g hg
  have hrun : (collectSwitchCases b >>= k) g = k () (g.register (switchNodes b)) := by
    change k (collectSwitchCases b g).1 (collectSwitchCases b g).2 = _
    rw [run_collectSwitchCases]
  obtain ⟨happends, hcloses⟩ := hk g.func.nextLabel (g.register (switchNodes b)) (hg ▸ rfl)
  rw [hrun]
  have hcode : (g.register (switchNodes b)).func.instrs = g.func.instrs := rfl
  refine ⟨.newLabels hcode rfl happends, (hcloses.of_start rfl).mono (fun l => ?_) fun l hl => .inr hl⟩
  · rw [List.count_append]
    exact Nat.le_add_left _ _

end Settles

/-! ### Every statement -/

/-- The labels that cases and names place. -/
def placed (T : Targets) (cs : List CaseNode) (names : List String) : List ℕ :=
  cs.filterMap (caseLabel T.context.caseEntries) ++
    names.filterMap fun name => T.gotoLabels.lookup name

/-- Where `break`, `continue` and `goto` go. -/
def exits (T : Targets) (names : List String) : List ℕ :=
  ([T.context.breakLabel, T.context.contLabel].filter (· ≠ 0)) ++
    names.filterMap fun name => T.gotoLabels.lookup name

/-- A statement with the cases `cs`, the names `ns` and the `goto`s to `gs`. -/
def SettlesStmt (cs : List CaseNode) (ns gs : List String) (m : Gen Unit) : Prop :=
  ∀ T, Settles T (placed T cs ns) (exits T gs) m

namespace SettlesStmt

variable {cs cs' : List CaseNode} {ns ns' gs gs' : List String} {m k : Gen Unit} {T : Targets}

theorem plain (h : ∀ T, Settles T [] [] m) : SettlesStmt [] [] [] m := fun T =>
  (h T).mono (fun _ => rfl) fun _ hl => absurd hl List.not_mem_nil

theorem ofPiece (h : Piece [] [] m) : SettlesStmt [] [] [] m := plain fun _ => .ofPiece h

theorem seq (hm : SettlesStmt cs ns gs m) (hkeep : Keeps IrGen.targets m)
    (hk : SettlesStmt cs' ns' gs' k) :
    SettlesStmt (cs ++ cs') (ns ++ ns') (gs ++ gs') (m >>= fun _ => k) := by
  intro T
  refine (Settles.bind (hm T) hkeep fun _ => hk T).mono (fun l => ?_) fun l hl => .inr ?_
  · simp only [placed, List.filterMap_append, List.count_append]
    omega
  · simp only [exits, List.filterMap_append, List.mem_append] at hl ⊢
    tauto

theorem withScope (h : SettlesStmt cs ns gs m) : SettlesStmt cs ns gs (withScope m) :=
  fun T => (h T).withScope

/-- Inside a loop `break` and `continue` go to labels of the loop. -/
theorem exits_loop {b c l : ℕ} (h : l ∈ exits ⟨{ T.context with breakLabel := b, contLabel := c },
    T.gotoLabels⟩ gs) : l = b ∨ l = c ∨ l ∈ exits T gs := by
  simp only [exits, List.mem_append, List.mem_filter, List.mem_cons, List.not_mem_nil] at h ⊢
  tauto

/-- Inside a switch `break` goes to its end. -/
theorem exits_switch {b d l : ℕ} {ces : List CaseEntry}
    (h : l ∈ exits ⟨⟨b, T.context.contLabel, ces, d⟩, T.gotoLabels⟩ gs) :
    l = b ∨ l ∈ exits T gs := by
  simp only [exits, List.mem_append, List.mem_filter, List.mem_cons, List.not_mem_nil] at h ⊢
  tauto

theorem genIf (Γ : TypeEnv) (c : Expr) {t : Gen Unit} (ht : SettlesStmt cs ns gs t)
    (hkeep : Keeps IrGen.targets t) : SettlesStmt cs ns gs (genIf (genExpr Γ c) t none) := by
  intro T
  simp only [TinyC.genIf, ifHead, bind_assoc, pure_bind]
  refine Settles.newLabel_bind fun el => Settles.newLabel_unused fun _ => ?_
  have h := Settles.piece (T := T) (.genExpr Γ c) fun v => .piece (.emitJz v el) fun _ =>
    .bind (ht T) hkeep fun _ => .ofPiece (.emitLabel el)
  refine h.mono (fun l => ?_) fun l hl => ?_
  · simp only [List.nil_append, List.count_append, List.count_cons, List.count_nil]
    omega
  · simp only [List.nil_append, List.append_nil, List.mem_append, List.mem_cons, List.not_mem_nil] at hl ⊢
    tauto

theorem genIfElse (Γ : TypeEnv) (c : Expr) {t e : Gen Unit} (ht : SettlesStmt cs ns gs t)
    (hkeep : Keeps IrGen.targets t) (he : SettlesStmt cs' ns' gs' e)
    (hkeep' : Keeps IrGen.targets e) :
    SettlesStmt (cs ++ cs') (ns ++ ns') (gs ++ gs') (TinyC.genIf (genExpr Γ c) t (some e)) := by
  intro T
  simp only [TinyC.genIf, ifHead, elseHead, bind_assoc, pure_bind]
  refine Settles.newLabel_bind fun el => Settles.newLabel_bind fun dl => ?_
  have h := Settles.piece (T := T) (.genExpr Γ c) fun v => .piece (.emitJz v el) fun _ =>
    .bind (ht T) hkeep fun _ => .piece (.emitJmp dl) fun _ => .piece (.emitLabel el) fun _ =>
      .bind (he T) hkeep' fun _ => .ofPiece (.emitLabel dl)
  refine h.mono (fun l => ?_) fun l hl => ?_
  · simp only [placed, List.filterMap_append, List.nil_append, List.count_append, List.count_cons,
      List.count_nil]
    omega
  · simp only [exits, List.filterMap_append, List.nil_append, List.append_nil, List.mem_append,
      List.mem_cons, List.not_mem_nil] at hl ⊢
    tauto

theorem genWhile (Γ : TypeEnv) (c : Expr) {b : Gen Unit} (hb : SettlesStmt cs ns gs b)
    (hkeep : Keeps IrGen.targets b) : SettlesStmt cs ns gs (TinyC.genWhile (genExpr Γ c) b) := by
  intro T
  simp only [TinyC.genWhile, whileHead, bind_assoc, pure_bind]
  refine Settles.keepTargets <| Settles.newLabel_bind fun t => Settles.newLabel_bind fun bl =>
    Settles.newLabel_bind fun e => ?_
  let T' : Targets := ⟨{ T.context with breakLabel := e, contLabel := t }, T.gotoLabels⟩
  refine Settles.update_bind (fun _ => rfl) (fun g hg => (by subst hg; rfl : _ = T')) ?_
  have h := Settles.piece (T := T') (.emitLabel t) fun _ => .piece (.genExpr Γ c) fun v =>
    .piece (.emitJz v e) fun _ => .piece (.emitLabel bl) fun _ => .bind (hb T') hkeep fun _ =>
      .piece (.emitJmp t) fun _ => .ofPiece (.emitLabel e)
  have hplaced : placed T' cs ns = placed T cs ns := rfl
  rw [hplaced] at h
  refine h.mono (fun l => ?_) fun l hl => ?_
  · simp only [List.nil_append, List.count_append, List.count_cons, List.count_nil]
    omega
  · simp only [List.nil_append, List.append_nil, List.mem_append, List.mem_cons, List.not_mem_nil] at hl ⊢
    rcases hl with hl | hl | hl
    · tauto
    · have := exits_loop hl
      tauto
    · tauto

theorem genDoWhile (Γ : TypeEnv) (c : Expr) {b : Gen Unit} (hb : SettlesStmt cs ns gs b)
    (hkeep : Keeps IrGen.targets b) :
    SettlesStmt cs ns gs (TinyC.genDoWhile (genExpr Γ c) b) := by
  intro T
  simp only [TinyC.genDoWhile, doHead, bind_assoc, pure_bind]
  refine Settles.keepTargets <| Settles.newLabel_bind fun bl => Settles.newLabel_bind fun t =>
    Settles.newLabel_bind fun e => ?_
  let T' : Targets := ⟨{ T.context with breakLabel := e, contLabel := t }, T.gotoLabels⟩
  refine Settles.update_bind (fun _ => rfl) (fun g hg => (by subst hg; rfl : _ = T')) ?_
  have h := Settles.piece (T := T') (.emitLabel bl) fun _ => .bind (hb T') hkeep fun _ =>
    .piece (.emitLabel t) fun _ => .piece (.genExpr Γ c) fun v => .piece (.emitJnz v bl) fun _ =>
      .ofPiece (.emitLabel e)
  have hplaced : placed T' cs ns = placed T cs ns := rfl
  rw [hplaced] at h
  refine h.mono (fun l => ?_) fun l hl => ?_
  · simp only [List.nil_append, List.count_append, List.count_cons, List.count_nil]
    omega
  · simp only [List.nil_append, List.append_nil, List.mem_append, List.mem_cons,
      List.not_mem_nil] at hl ⊢
    rcases hl with hl | hl
    · have := exits_loop hl
      tauto
    · tauto

theorem genFor (Γ : TypeEnv) {init b : Gen Unit} (c incr : Option Expr)
    (hi : ∀ T, Settles T [] [] init) (hikeep : Keeps IrGen.targets init)
    (hb : SettlesStmt cs ns gs b) (hkeep : Keeps IrGen.targets b) :
    SettlesStmt cs ns gs (TinyC.genFor init (c.map (genExpr Γ)) (incr.map (genExpr Γ)) b) := by
  intro T
  simp only [TinyC.genFor, forHead, bind_assoc, pure_bind]
  refine Settles.keepTargets <| Settles.newLabel_bind fun t => Settles.newLabel_bind fun bl =>
    Settles.newLabel_bind fun i => Settles.newLabel_bind fun e => ?_
  let T' : Targets := ⟨{ T.context with breakLabel := e, contLabel := i }, T.gotoLabels⟩
  refine Settles.update_bind (fun _ => rfl) (fun g hg => (by subst hg; rfl : _ = T')) ?_
  have h := Settles.bind (hi T') hikeep fun _ => .piece (.forTest Γ c ⟨t, bl, i, e⟩) fun _ =>
    .bind (hb T') hkeep fun _ => .ofPiece (.forTail Γ incr ⟨t, bl, i, e⟩)
  have hplaced : placed T' cs ns = placed T cs ns := rfl
  rw [hplaced] at h
  refine Settles.withScope (h.mono (fun l => ?_) fun l hl => ?_)
  · simp only [List.nil_append, List.count_append, List.count_cons, List.count_nil]
    omega
  · simp only [List.nil_append, List.mem_append, List.mem_cons, List.mem_map, List.not_mem_nil,
      or_false] at hl ⊢
    rcases hl with ⟨_, -, rfl⟩ | hl | rfl
    · tauto
    · have := exits_loop hl
      tauto
    · tauto

theorem genSwitch (Γ : TypeEnv) (e : Expr) {s : Stmt} {b : Gen Unit}
    (hnodes : ((switchNodes s).map CaseNode.node).Nodup) (hb : SettlesStmt (switchNodes s) ns gs b)
    (hkeep : Keeps IrGen.targets b) :
    SettlesStmt [] ns gs (TinyC.genSwitch (collectSwitchCases s) (genExpr Γ e) b) := by
  intro T
  simp only [TinyC.genSwitch, switchHead, bind_assoc, pure_bind]
  refine Settles.keepSwitch <| Settles.newLabel_bind fun d => ?_
  refine Settles.update_bind (fun _ => rfl)
    (fun g hg => (by subst hg; rfl : _ = (⟨⟨d, T.context.contLabel, [], 0⟩, T.gotoLabels⟩ : Targets)))
    ?_
  refine Settles.collect_bind (b := s) fun n => ?_
  rw [List.append_nil]
  let T' : Targets := ⟨⟨d, T.context.contLabel, (entriesFrom n (switchNodes s)).reverse,
    defaultFrom 0 n (switchNodes s)⟩, T.gotoLabels⟩
  have hlabels : placed T' (switchNodes s) ns =
      List.range' n (switchNodes s).length ++ placed T [] ns :=
    congrArg (· ++ placed T [] ns) (filterMap_caseLabel hnodes)
  have hentries : ∀ ce ∈ T'.context.caseEntries, ce.labelId ∈ List.range' n (switchNodes s).length := by
    intro ce hce
    exact labels_entriesFrom n (switchNodes s) ▸ List.mem_map_of_mem (List.mem_reverse.mp hce)
  have hdefault : (if T'.context.swDefaultLbl = 0 then d else T'.context.swDefaultLbl) = d ∨
      (if T'.context.swDefaultLbl = 0 then d else T'.context.swDefaultLbl) ∈
        List.range' n (switchNodes s).length := by
    by_cases hzero : T'.context.swDefaultLbl = 0
    · exact .inl (if_pos hzero)
    · rcases defaultFrom_cases 0 n (switchNodes s) with ⟨ce, hce, -, heq⟩ | ⟨-, heq⟩
      · rw [if_neg hzero, show T'.context.swDefaultLbl = ce.labelId from heq]
        exact .inr (hentries ce (List.mem_reverse.mpr hce))
      · exact absurd heq hzero
  have hrest := fun svCopy ty => Settles.get_bind (T := T') (k := fun g =>
      genDispatch svCopy ty g.caseEntries >>= fun _ =>
        emitJmp (if g.swDefaultLbl = 0 then d else g.swDefaultLbl) >>= fun _ => b >>= fun _ =>
          emitLabel d) fun g hg => by
    have hces : g.caseEntries = T'.context.caseEntries :=
      congrArg (fun T : Targets => T.context.caseEntries) hg
    have hdef : g.swDefaultLbl = T'.context.swDefaultLbl :=
      congrArg (fun T : Targets => T.context.swDefaultLbl) hg
    rw [hces, hdef]
    exact .piece (.genDispatch svCopy ty _) fun _ => .piece (.emitJmp _) fun _ =>
      .bind (hb T') hkeep fun _ => .ofPiece (.emitLabel d)
  have h := Settles.piece (T := T') (.genExpr Γ e) fun sv =>
    .piece (@Piece.emitTo (sv.type.getD typeInt) .copy sv irvNone rfl) fun svCopy =>
      hrest svCopy (sv.type.getD typeInt)
  rw [hlabels] at h
  refine h.mono (fun l => ?_) fun l hl => ?_
  · simp only [placed, List.filterMap_nil, List.nil_append, List.count_append, List.count_cons,
      List.count_nil]
    omega
  · simp only [List.nil_append, List.append_nil, List.mem_append, List.mem_cons, List.mem_map,
      List.not_mem_nil, or_false] at hl ⊢
    rcases hl with ⟨ce, hce, rfl⟩ | rfl | hl
    · have := hentries ce (List.mem_filter.mp hce).1
      tauto
    · tauto
    · have := exits_switch hl
      tauto

theorem genReturn (Γ : TypeEnv) (e : Option Expr) :
    SettlesStmt [] [] [] (genReturn (e.map fun e => (e.typeOrInt, genNode Γ e))) := by
  refine plain fun T => ?_
  cases e with
  | none => exact .ofPiece (.emit (by simp) rfl)
  | some e =>
    have hemits := genNode_emits Γ e
    have hclosing := Closing.rules.node_of Γ e
    exact .get_bind fun g _ => .piece
      (.ite ⟨hemits.aggAddr, hclosing.aggAddr⟩ ⟨hemits.expr, hclosing.expr⟩) fun rv =>
        .ofPiece (.emit (by simp) rfl)

/-- `break` and `continue` go to the target the state has for them. -/
theorem exit_settles {f : IrGen → ℕ}
    (h : ∀ g, f g ≠ 0 → f g ∈ exits g.targets []) :
    SettlesStmt [] [] [] (get >>= fun g => if f g = 0 then return else emitJmp (f g)) := by
  intro T
  refine .get_bind fun g hg => ?_
  by_cases hzero : f g = 0
  · rw [if_pos hzero]
    exact plain (fun _ => .ofPiece (.pure _)) T
  · rw [if_neg hzero]
    refine (Settles.ofPiece (.emitJmp (f g))).mono (fun _ => rfl) fun l hl => .inr ?_
    rw [List.mem_singleton.mp hl, ← hg]
    exact h g hzero

theorem emitBreak : SettlesStmt [] [] [] emitBreak :=
  exit_settles fun g hne => by simp [exits, IrGen.targets, IrGen.context, hne]

theorem emitContinue : SettlesStmt [] [] [] emitContinue :=
  exit_settles fun g hne => by simp [exits, IrGen.targets, IrGen.context, hne]

theorem filterMap_singleton {α β : Type} (f : α → Option β) (a : α) :
    [a].filterMap f = (f a).toList := by
  rw [List.filterMap_cons]
  cases f a <;> rfl

/-- A case places the label that the entries have for its node. -/
theorem emitCaseLabel (c : CaseNode) :
    SettlesStmt [c] [] [] (emitCaseLabel c.node c.isDefault) := by
  intro T g hg
  have hplaced : placed T [c] [] = (caseLabel g.caseEntries c).toList := by
    rw [← hg]
    exact (List.append_nil _).trans (filterMap_singleton _ c)
  rw [hplaced]
  rcases emitCaseLabel_cases c.node c.isDefault g with ⟨hnone, hrun⟩ | ⟨ce, hce, hrun⟩
  · rw [hrun, show caseLabel g.caseEntries c = none from congrArg (Option.map _) hnone]
    exact ⟨.of_func_eq rfl, (Closes.of_instrs_eq rfl).mono (fun _ => le_rfl) (by simp)⟩
  · rw [hrun, show caseLabel g.caseEntries c = some ce.labelId from congrArg (Option.map _) hce]
    exact ⟨.emitLabel _ g, (Closes.emitLabel _ g).mono (fun _ => le_rfl) (by simp)⟩

theorem emitNamedLabel (name : String) : SettlesStmt [] [name] [] (emitNamedLabel name) := by
  intro T g hg
  have hplaced : placed T [] [name] = (g.gotoLabels.lookup name).toList := by
    rw [← hg]
    exact filterMap_singleton (fun name => g.gotoLabels.lookup name) name
  rw [hplaced]
  rcases emitNamedLabel_cases name g with ⟨hnone, hrun⟩ | ⟨l, hl, hrun⟩
  · rw [hrun, hnone]
    exact ⟨.of_func_eq rfl, (Closes.of_instrs_eq rfl).mono (fun _ => le_rfl) (by simp)⟩
  · rw [hrun, hl]
    exact ⟨.emitLabel _ g, (Closes.emitLabel _ g).mono (fun _ => le_rfl) (by simp)⟩

theorem emitGoto (name : String) : SettlesStmt [] [] [name] (emitGoto name) := by
  intro T g hg
  rcases emitGoto_cases name g with ⟨-, hrun⟩ | ⟨l, hl, hrun⟩
  · rw [hrun]
    exact ⟨.of_func_eq rfl, (Closes.of_instrs_eq rfl).mono (fun _ => le_rfl) (by simp)⟩
  · rw [hrun]
    refine ⟨(Emits.emitJmp l g).toAppendsWith, (Closing.emitJmp l g).mono (fun _ => le_rfl) ?_⟩
    intro l' hl'
    obtain rfl := List.mem_singleton.mp hl'
    subst hg
    exact .inr (List.mem_append_right _ (List.mem_filterMap.mpr ⟨name, List.mem_singleton_self _, hl⟩))

end SettlesStmt

theorem emitCaseLabel_targets (node : ℕ) (isDefault : Bool) :
    Keeps IrGen.targets (emitCaseLabel node isDefault) := .emitCaseLabel stable_targets _ _

theorem emitNamedLabel_targets (name : String) : Keeps IrGen.targets (emitNamedLabel name) :=
  .emitNamedLabel stable_targets name

/-- The first clause of a `for` places nothing that a case or a name has. -/
theorem forInit_settles (Γ : TypeEnv) (init : Option Stmt) (h : init.all Stmt.isClause = true)
    (T : Targets) : Settles T [] [] ((genStmtOpt Γ init).getD (return)) := by
  cases init with
  | none => exact .ofPiece (.pure _)
  | some s =>
    cases s with
    | expr e => exact .ofPiece (.genEffect Γ e)
    | decl ds => exact .genDecls Γ ds
    | _ => cases h

theorem forInit_targets (Γ : TypeEnv) (init : Option Stmt) :
    Keeps IrGen.targets ((genStmtOpt Γ init).getD (return)) := by
  cases init with
  | none => exact .pure _
  | some s => exact genStmt_targets Γ s

mutual

/-- Every statement accounts for its labels. -/
theorem genStmt_settles (Γ : TypeEnv) : (s : Stmt) → s.Parsed →
    SettlesStmt (switchNodes s) (labelNames s) (gotoNames s) (genStmt Γ s)
  | .compound ss, h => .withScope (genStmts_settles Γ ss h)
  | .expr e, _ => .ofPiece (.genEffect Γ e)
  | .decl ds, _ => .plain fun _ => .genDecls Γ ds
  | .ifElse _ _ c t none, h => by
      have ht := SettlesStmt.genIf Γ c (genStmt_settles Γ t h.1) (genStmt_targets Γ t)
      change SettlesStmt (switchNodes t ++ []) (labelNames t ++ []) (gotoNames t ++ []) _
      rw [List.append_nil, List.append_nil, List.append_nil]
      exact ht
  | .ifElse _ _ c t (some e), h =>
      .genIfElse Γ c (genStmt_settles Γ t h.1) (genStmt_targets Γ t) (genStmt_settles Γ e h.2)
        (genStmt_targets Γ e)
  | .while _ _ c b, h => .genWhile Γ c (genStmt_settles Γ b h) (genStmt_targets Γ b)
  | .doWhile _ _ c b, h => .genDoWhile Γ c (genStmt_settles Γ b h) (genStmt_targets Γ b)
  | .for _ _ init c incr b, h =>
      .genFor Γ c incr (forInit_settles Γ init h.1) (forInit_targets Γ init)
        (genStmt_settles Γ b h.2) (genStmt_targets Γ b)
  | .ret _ _ e, _ => .genReturn Γ e
  | .break _ _, _ => .emitBreak
  | .continue _ _, _ => .emitContinue
  | .switch _ _ e b, h => .genSwitch Γ e h.1 (genStmt_settles Γ b h.2) (genStmt_targets Γ b)
  | .case node _ _ e s, h => .seq (.emitCaseLabel ⟨node, evalConstExpr e, false⟩)
      (emitCaseLabel_targets _ _) (genStmt_settles Γ s h)
  | .default node _ _ s, h => .seq (.emitCaseLabel ⟨node, 0, true⟩)
      (emitCaseLabel_targets _ _) (genStmt_settles Γ s h)
  | .goto _ _ name, _ => .emitGoto name
  | .label _ _ name s, h => .seq (.emitNamedLabel name) (emitNamedLabel_targets name)
      (genStmt_settles Γ s h)

theorem genStmts_settles (Γ : TypeEnv) : (ss : List Stmt) → Stmt.ParsedList ss →
    SettlesStmt (switchNodesList ss) (labelNamesList ss) (gotoNamesList ss) (genStmts Γ ss)
  | [], _ => .ofPiece (.pure _)
  | s :: ss, h =>
      .seq (genStmt_settles Γ s h.1) (genStmt_targets Γ s) (genStmts_settles Γ ss h.2)

end

end TinyC
