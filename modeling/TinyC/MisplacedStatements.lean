import TinyC.ParserContext
import TinyC.SemaRules

/-!
# Misplaced statements

`break`, `continue`, `case` and `default` belong in a loop or a switch. Sema counts the loops and
switches it is in and comes out of each of them, so that it reports just the statements that stand
elsewhere.
-/

namespace TinyC

/-! ### Where a statement stands -/

/-- What encloses a statement. -/
structure Enclosing where
  inLoop : Bool
  inSwitch : Bool

namespace RawStmt

mutual

/-- A statement and all those in it, each with what encloses it. -/
def placed (c : Enclosing) : RawStmt → List (Enclosing × RawStmt)
  | .compound ss => (c, .compound ss) :: placedIn c ss
  | .ifElse ln cl e t f => (c, .ifElse ln cl e t f) :: (placed c t ++ placedOpt c f)
  | .while ln cl e b => (c, .while ln cl e b) :: placed { c with inLoop := true } b
  | .doWhile ln cl e b => (c, .doWhile ln cl e b) :: placed { c with inLoop := true } b
  | .for ln cl init e incr b =>
      (c, .for ln cl init e incr b) :: (placedOpt c init ++ placed { c with inLoop := true } b)
  | .switch ln cl e b => (c, .switch ln cl e b) :: placed { c with inSwitch := true } b
  | .case n ln cl e b => (c, .case n ln cl e b) :: placed c b
  | .default n ln cl b => (c, .default n ln cl b) :: placed c b
  | .label ln cl l b => (c, .label ln cl l b) :: placed c b
  | s => [(c, s)]

def placedIn (c : Enclosing) : List RawStmt → List (Enclosing × RawStmt)
  | [] => []
  | s :: ss => placed c s ++ placedIn c ss

def placedOpt (c : Enclosing) : Option RawStmt → List (Enclosing × RawStmt)
  | none => []
  | some s => placed c s

end

/-- The constraints of C99 on where a statement stands. -/
def misuse (c : Enclosing) : RawStmt → Option Diag
  | .case _ ln cl _ _ =>
      if c.inSwitch then none else some ⟨true, ln, cl, "'case' outside switch"⟩
  | .default _ ln cl _ =>
      if c.inSwitch then none else some ⟨true, ln, cl, "'default' outside switch"⟩
  | .break ln cl =>
      if c.inLoop || c.inSwitch then none
      else some ⟨true, ln, cl, "'break' outside loop or switch"⟩
  | .continue ln cl => if c.inLoop then none else some ⟨true, ln, cl, "'continue' outside loop"⟩
  | _ => none

/-- The errors of the statements that are misplaced in a statement. -/
def misplaced (s : RawStmt) (c : Enclosing) : List Diag :=
  (s.placed c).filterMap fun p => p.2.misuse p.1

end RawStmt

/-- The error of a misplaced statement. -/
def Diag.isMisplaced (d : Diag) : Bool :=
  d.msg ∈ ["'case' outside switch", "'default' outside switch", "'break' outside loop or switch",
    "'continue' outside loop"]

/-! ### The context of sema -/

structure Sema.SameContext (s s' : Sema) : Prop where
  scope : SameChain s.scope s'.scope
  loopDepth : s'.loopDepth = s.loopDepth
  switchDepth : s'.switchDepth = s.switchDepth

def Sema.enclosing (s : Sema) : Enclosing := ⟨0 < s.loopDepth, 0 < s.switchDepth⟩

theorem Sema.SameContext.enclosing {s s' : Sema} (h : s.SameContext s') :
    s'.enclosing = s.enclosing := by
  rw [Sema.enclosing, Sema.enclosing, h.loopDepth, h.switchDepth]

/-- `m` leaves the context as it is and reports `ds`, by what encloses it. -/
def Faults {α : Type} (ds : Enclosing → List Diag) (m : SemaM α) : Prop :=
  ∀ (s : Sema) (a : α) (s' : Sema), m s = .ok (a, s') → s.SameContext s' ∧
    ∃ new, s'.diags = s.diags ++ new ∧ new.filter Diag.isMisplaced = ds s.enclosing

namespace Faults

variable {α β : Type} {ds ds' : Enclosing → List Diag} {m : SemaM α} {k : α → SemaM β}

/-- A step that keeps the context and reports nothing. -/
theorem quiet {f : Sema → α × Sema} (hf : ∀ s : Sema, s.SameContext (f s).2)
    (hdiags : ∀ s, (f s).2.diags = s.diags) : Faults (fun _ => []) (modifyGet f : SemaM α) := by
  intro s a s' h
  obtain rfl : (f s).2 = s' := congrArg Prod.snd (Except.ok.inj h)
  exact ⟨hf s, [], by rw [hdiags, List.append_nil], rfl⟩

theorem pure (a : α) : Faults (fun _ => []) (Pure.pure a : SemaM α) := by
  intro s b s' h
  cases h
  exact ⟨⟨.refl _, rfl, rfl⟩, [], (List.append_nil _).symm, rfl⟩

theorem throw (e : Stuck) : Faults ds (throw e : SemaM α) := by
  intro s b s' h
  cases h

theorem get_bind {k : Sema → SemaM β}
    (hk : ∀ s₀, Faults ds (k s₀)) : Faults ds (get >>= k) :=
  fun s => hk s s

theorem bind (hm : Faults ds m) (hk : ∀ a, Faults ds' (k a)) :
    Faults (fun c => ds c ++ ds' c) (m >>= k) := by
  intro s b s' h
  obtain ⟨a, s₁, hrun, hrest⟩ := SemaM.bind_ok h
  obtain ⟨hcontext, new, hnew, hreport⟩ := hm s a s₁ hrun
  obtain ⟨hcontext', new', hnew', hreport'⟩ := hk a s₁ b s' hrest
  rw [hcontext.enclosing] at hreport'
  refine ⟨⟨hcontext.scope.trans hcontext'.scope, hcontext'.loopDepth.trans hcontext.loopDepth,
    hcontext'.switchDepth.trans hcontext.switchDepth⟩, new ++ new', ?_, ?_⟩
  · rw [hnew', hnew, List.append_assoc]
  · rw [List.filter_append, hreport, hreport']

/-- What reports nothing may come first. -/
theorem seq (hm : Faults (fun _ => []) m) (hk : ∀ a, Faults ds (k a)) : Faults ds (m >>= k) :=
  bind hm hk

/-- And it may come last. -/
theorem andThen (hm : Faults ds m) (hk : ∀ a, Faults (fun _ => []) (k a)) :
    Faults ds (m >>= k) := by
  have h := bind hm hk
  simpa only [List.append_nil] using h

theorem error (line col : ℤ) (msg : String) :
    Faults (fun _ => [⟨true, line, col, msg⟩].filter Diag.isMisplaced)
      (SemaM.error line col msg) := by
  intro s a s' h
  cases h
  exact ⟨⟨.refl _, rfl, rfl⟩, _, rfl, rfl⟩

theorem define (name : String) (sym : SSymbol) : Faults (fun _ => []) (SemaM.define name sym) :=
  quiet (fun _ => ⟨.define _ _ _ _, rfl, rfl⟩) fun _ => rfl

theorem exprRules : ExprRules (fun {_} m => Faults (fun _ => []) m) where
  pure := pure
  bind := seq
  throw := throw
  get := by
    intro s a s' h
    cases h
    exact ⟨⟨.refl _, rfl, rfl⟩, [], (List.append_nil _).symm, rfl⟩
  refuse line col := error line col _
  pointer pointee q := quiet (fun _ => ⟨.refl _, rfl, rfl⟩) fun _ => rfl

/-! ### Scopes and depths -/

theorem inNewScope (hm : Faults ds m) : Faults ds (SemaM.inNewScope m) := by
  intro s a s' h
  obtain ⟨saved, s₀, hget, h⟩ := SemaM.bind_ok h
  cases hget
  obtain ⟨_, s₁, hpush, h⟩ := SemaM.bind_ok h
  cases hpush
  obtain ⟨b, s₂, hrun, h⟩ := SemaM.bind_ok h
  obtain ⟨hcontext, new, hnew, hreport⟩ := hm _ _ _ hrun
  obtain ⟨_, s₃, hpop, h⟩ := SemaM.bind_ok h
  cases hpop
  cases h
  exact ⟨⟨.refl _, hcontext.loopDepth, hcontext.switchDepth⟩, new, hnew, hreport⟩

/-- What is in a loop is enclosed by one. -/
theorem inLoop (hm : Faults ds m) :
    Faults (fun c => ds { c with inLoop := true }) (SemaM.inLoop m) := by
  intro s a s' h
  obtain ⟨_, s₁, henter, h⟩ := SemaM.bind_ok h
  cases henter
  obtain ⟨b, s₂, hrun, h⟩ := SemaM.bind_ok h
  obtain ⟨hcontext, new, hnew, hreport⟩ := hm _ _ _ hrun
  obtain ⟨_, s₃, hleave, h⟩ := SemaM.bind_ok h
  cases hleave
  cases h
  refine ⟨⟨hcontext.scope, congrArg (· - 1) hcontext.loopDepth, hcontext.switchDepth⟩, new,
    hnew, hreport.trans ?_⟩
  rw [Sema.enclosing, decide_eq_true (Nat.succ_pos s.loopDepth), Sema.enclosing]

theorem inSwitch (hm : Faults ds m) :
    Faults (fun c => ds { c with inSwitch := true }) (SemaM.inSwitch m) := by
  intro s a s' h
  obtain ⟨_, s₁, henter, h⟩ := SemaM.bind_ok h
  cases henter
  obtain ⟨b, s₂, hrun, h⟩ := SemaM.bind_ok h
  obtain ⟨hcontext, new, hnew, hreport⟩ := hm _ _ _ hrun
  obtain ⟨_, s₃, hleave, h⟩ := SemaM.bind_ok h
  cases hleave
  cases h
  refine ⟨⟨hcontext.scope, hcontext.loopDepth, congrArg (· - 1) hcontext.switchDepth⟩, new,
    hnew, hreport.trans ?_⟩
  rw [Sema.enclosing, decide_eq_true (Nat.succ_pos s.switchDepth), Sema.enclosing]

/-! ### Declarations and statements -/

theorem checkExpr (e : RawExpr) : Faults (fun _ => []) (checkExpr e) := exprRules.checkExpr e

theorem checkExpr? (e : Option RawExpr) : Faults (fun _ => []) (checkExpr? e) :=
  exprRules.checkExpr? e

theorem defineConsts (ty : TypeRef) : Faults (fun _ => []) (defineConsts ty) := by
  have hconsts : ∀ cs : List (String × ℤ), Faults (fun _ => [])
      (cs.forM fun c => SemaM.define c.1 ⟨.enumConst, some (scalarRef .int), c.2⟩) := by
    intro cs
    induction cs with
    | nil => exact pure _
    | cons c cs ih => exact seq (define _ _) fun _ => ih
  refine seq (exprRules.nodeOf _) fun n => ?_
  split
  · exact hconsts _
  · exact pure _

theorem checkDecl (d : RawDecl) : Faults (fun _ => []) (checkDecl d) := by
  cases d with
  | var v =>
    exact seq (seq (checkExpr? _) fun _ => seq (define _ _) fun _ => pure _) fun _ => pure _
  | typedef name aliased => exact seq (define _ _) fun _ => pure _
  | agg ty => exact pure _
  | enum ty => exact seq (defineConsts ty) fun _ => pure _

theorem checkDecls (ds : List RawDecl) : Faults (fun _ => []) (ds.mapM TinyC.checkDecl) := by
  induction ds with
  | nil => exact pure _
  | cons d ds ih =>
    rw [List.mapM_cons]
    exact seq (checkDecl d) fun _ => seq ih fun _ => pure _

/-- An error that stands first, if the state says so. -/
theorem refuse {p : Sema → Prop} [DecidablePred p] {q : Enclosing → Bool} {line col : ℤ}
    {msg : String} (hmsg : Diag.isMisplaced ⟨true, line, col, msg⟩ = true)
    (hp : ∀ s, p s ↔ q s.enclosing = false) {k : PUnit → SemaM β}
    (hk : Faults ds (k ⟨⟩)) :
    Faults (fun c => (if q c then none else some (Diag.mk true line col msg)).toList ++ ds c)
      (get >>= fun s => if p s then SemaM.error line col msg >>= k else k ⟨⟩) := by
  intro s b s' h
  change (if p s then SemaM.error line col msg >>= k else k ⟨⟩) s = _ at h
  by_cases hs : p s
  · rw [if_pos hs] at h
    have herror := (error line col msg).bind (fun _ => hk) s b s' h
    simpa [(hp s).mp hs, hmsg] using herror
  · rw [if_neg hs] at h
    have hq : q s.enclosing = true := by simpa [hp s] using hs
    simpa [hq] using hk s b s' h

end Faults

namespace RawStmt

/-- The errors in a list of statements, and in a statement that may be missing. -/
def misplacedIn (ss : List RawStmt) (c : Enclosing) : List Diag :=
  (placedIn c ss).filterMap fun p => p.2.misuse p.1

def misplacedOpt (s : Option RawStmt) (c : Enclosing) : List Diag :=
  (placedOpt c s).filterMap fun p => p.2.misuse p.1

theorem misplacedIn_cons (s : RawStmt) (ss : List RawStmt) :
    misplacedIn (s :: ss) = fun c => s.misplaced c ++ misplacedIn ss c := by
  funext c
  exact List.filterMap_append

theorem misplaced_ifElse (ln cl : ℤ) (e : RawExpr) (t : RawStmt) (f : Option RawStmt) :
    (ifElse ln cl e t f).misplaced = fun c => t.misplaced c ++ misplacedOpt f c := by
  funext c
  exact List.filterMap_append

theorem misplaced_for (ln cl : ℤ) (init : Option RawStmt) (e incr : Option RawExpr)
    (b : RawStmt) : (RawStmt.for ln cl init e incr b).misplaced =
      fun c => misplacedOpt init c ++ b.misplaced { c with inLoop := true } := by
  funext c
  exact List.filterMap_append

theorem misplaced_case (n : ℕ) (ln cl : ℤ) (e : RawExpr) (b : RawStmt) :
    (RawStmt.case n ln cl e b).misplaced =
      fun c => (misuse c (.case n ln cl e b)).toList ++ b.misplaced c := by
  funext c
  cases h : misuse c (.case n ln cl e b) <;> simp [misplaced, placed, h]

theorem misplaced_default (n : ℕ) (ln cl : ℤ) (b : RawStmt) :
    (RawStmt.default n ln cl b).misplaced =
      fun c => (misuse c (.default n ln cl b)).toList ++ b.misplaced c := by
  funext c
  cases h : misuse c (.default n ln cl b) <;> simp [misplaced, placed, h]

theorem misplaced_break (ln cl : ℤ) :
    (RawStmt.break ln cl).misplaced = fun c => (misuse c (.break ln cl)).toList ++ [] := by
  funext c
  cases h : misuse c (.break ln cl) <;> simp [misplaced, placed, h]

theorem misplaced_continue (ln cl : ℤ) :
    (RawStmt.continue ln cl).misplaced =
      fun c => (misuse c (.continue ln cl)).toList ++ [] := by
  funext c
  cases h : misuse c (.continue ln cl) <;> simp [misplaced, placed, h]

end RawStmt

mutual

/-- A statement is checked in the context it stands in, and leaves that context. -/
theorem checkStmt_faults (s : RawStmt) : Faults s.misplaced (checkStmt s) := by
  cases s with
  | compound ss => exact .inNewScope (.andThen (checkStmts_faults ss) fun _ => .pure _)
  | expr e => exact .seq (.checkExpr e) fun _ => .pure _
  | decl ds => exact .seq (.checkDecls ds) fun _ => .pure _
  | ifElse ln cl e t f =>
    rw [RawStmt.misplaced_ifElse]
    exact .seq (.checkExpr e) fun _ => .bind (checkStmt_faults t) fun _ =>
      .andThen (checkStmt?_faults f) fun _ => .pure _
  | «while» ln cl e b =>
    exact .seq (.checkExpr e) fun _ => .andThen (.inLoop (checkStmt_faults b)) fun _ => .pure _
  | doWhile ln cl e b =>
    exact .andThen (.inLoop (checkStmt_faults b)) fun _ => .seq (.checkExpr e) fun _ => .pure _
  | «for» ln cl init e incr b =>
    rw [RawStmt.misplaced_for]
    exact .bind (checkStmt?_faults init) fun _ => .seq (.checkExpr? e) fun _ =>
      .seq (.checkExpr? incr) fun _ => .andThen (.inLoop (checkStmt_faults b)) fun _ => .pure _
  | ret ln cl e =>
    cases e with
    | none => exact .pure _
    | some e =>
      exact .seq (.checkExpr e) fun _ => .seq (Faults.exprRules.convertReturn _) fun _ => .pure _
  | «switch» ln cl e b =>
    exact .seq (.checkExpr e) fun _ => .andThen (.inSwitch (checkStmt_faults b)) fun _ => .pure _
  | label ln cl l b => exact .andThen (checkStmt_faults b) fun _ => .pure _
  | «case» n ln cl e b =>
    rw [RawStmt.misplaced_case]
    exact Faults.refuse (q := Enclosing.inSwitch) rfl (by simp [Sema.enclosing])
      (.seq (.checkExpr e) fun _ => .andThen (checkStmt_faults b) fun _ => .pure _)
  | default n ln cl b =>
    rw [RawStmt.misplaced_default]
    exact Faults.refuse (q := Enclosing.inSwitch) rfl (by simp [Sema.enclosing])
      (.andThen (checkStmt_faults b) fun _ => .pure _)
  | «break» ln cl =>
    rw [RawStmt.misplaced_break]
    exact Faults.refuse (q := fun c => c.inLoop || c.inSwitch) rfl (by simp [Sema.enclosing])
      (.pure _)
  | «continue» ln cl =>
    rw [RawStmt.misplaced_continue]
    exact Faults.refuse (q := Enclosing.inLoop) rfl (by simp [Sema.enclosing]) (.pure _)
  | goto ln cl l =>
    refine .get_bind fun s => ?_
    split
    · exact .seq (.error ln cl _) fun _ => .pure _
    · exact .pure _

theorem checkStmts_faults (ss : List RawStmt) :
    Faults (RawStmt.misplacedIn ss) (checkStmts ss) := by
  cases ss with
  | nil => exact .pure _
  | cons s ss =>
    rw [RawStmt.misplacedIn_cons]
    exact .bind (checkStmt_faults s) fun _ => .andThen (checkStmts_faults ss) fun _ => .pure _

theorem checkStmt?_faults (s : Option RawStmt) :
    Faults (RawStmt.misplacedOpt s) (checkStmt? s) := by
  cases s with
  | none => exact .pure _
  | some s => exact .andThen (checkStmt_faults s) fun _ => .pure _

end

end TinyC
