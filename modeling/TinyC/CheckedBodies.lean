import TinyC.BodyMarks
import TinyC.FuncLabels
import TinyC.Readback
import TinyC.SemaRules

/-!
# Checked bodies

Sema leaves the labels, `goto`s and cases of a body where they are, and without an error it has
found the label of every `goto`. The tree that irgen reads has the same ones.
-/

namespace TinyC

def labelsIn (ms : List Mark) : List String := ms.filterMap Mark.label?

def gotosIn (ms : List Mark) : List String := ms.filterMap Mark.goto?

def casesIn (ms : List Mark) : List ℕ := ms.filterMap Mark.case?

theorem labelsIn_append (xs ys : List Mark) : labelsIn (xs ++ ys) = labelsIn xs ++ labelsIn ys :=
  List.filterMap_append

theorem gotosIn_append (xs ys : List Mark) : gotosIn (xs ++ ys) = gotosIn xs ++ gotosIn ys :=
  List.filterMap_append

/-! ### Sema -/

/-- What `m` reads meets `P`, and if `m` leaves no error the body of the function has the labels
`names`. -/
def Finds {α : Type} (names : List String) (P : α → Prop) (m : SemaM α) : Prop :=
  ∀ s a s', m s = .ok (a, s') → P a ∧ s'.curFuncBody = s.curFuncBody ∧ s.nErrors ≤ s'.nErrors ∧
    (s'.nErrors = 0 → ∀ name ∈ names, s.curFuncBody.any (RawStmt.labelExists name) = true)

namespace Finds

variable {α β : Type} {xs ys : List String} {P : α → Prop} {R : β → Prop} {m : SemaM α}
  {k : α → SemaM β}

/-- A step that keeps the body and takes back no error. -/
theorem step {f : Sema → α × Sema} (hbody : ∀ s, (f s).2.curFuncBody = s.curFuncBody)
    (herrors : ∀ s, s.nErrors ≤ (f s).2.nErrors) :
    Finds [] (fun _ => True) (modifyGet f : SemaM α) := by
  intro s a s' h
  obtain rfl : (f s).2 = s' := congrArg Prod.snd (Except.ok.inj h)
  exact ⟨trivial, hbody s, herrors s, fun _ _ hname => absurd hname List.not_mem_nil⟩

theorem pure {a : α} (ha : P a) : Finds [] P (Pure.pure a : SemaM α) := by
  intro s b s' h
  cases h
  exact ⟨ha, rfl, le_rfl, fun _ _ hname => absurd hname List.not_mem_nil⟩

theorem throw (e : Stuck) : Finds xs P (throw e : SemaM α) := by
  intro s b s' h
  cases h

theorem get_bind {k : Sema → SemaM β} (hk : ∀ s₀, Finds xs R (k s₀)) :
    Finds xs R (get >>= k) := fun s => hk s s

theorem bind (hm : Finds xs P m) (hk : ∀ a, P a → Finds ys R (k a)) :
    Finds (xs ++ ys) R (m >>= k) := by
  intro s b s' h
  obtain ⟨a, s₁, hrun, hrest⟩ := SemaM.bind_ok h
  obtain ⟨ha, hbody, herrors, hfound⟩ := hm s a s₁ hrun
  obtain ⟨hb, hbody', herrors', hfound'⟩ := hk a ha s₁ b s' hrest
  refine ⟨hb, hbody'.trans hbody, herrors.trans herrors', fun hno name hname => ?_⟩
  rcases List.mem_append.mp hname with hname | hname
  · exact hfound (by omega) name hname
  · exact hbody ▸ hfound' hno name hname

theorem seq (hm : Finds [] P m) (hk : ∀ a, P a → Finds ys R (k a)) : Finds ys R (m >>= k) :=
  bind hm hk

theorem andThen (hm : Finds xs P m) (hk : ∀ a, P a → Finds [] R (k a)) :
    Finds xs R (m >>= k) := by
  have h := bind hm hk
  rwa [List.append_nil] at h

theorem forget (hm : Finds xs P m) : Finds [] P m := by
  intro s a s' h
  obtain ⟨ha, hbody, herrors, -⟩ := hm s a s' h
  exact ⟨ha, hbody, herrors, fun _ _ hname => absurd hname List.not_mem_nil⟩

theorem error (line col : ℤ) (msg : String) :
    Finds [] (fun _ => True) (SemaM.error line col msg) :=
  step (fun _ => rfl) fun _ => Nat.le_succ _

theorem define (name : String) (sym : SSymbol) :
    Finds [] (fun _ => True) (SemaM.define name sym) := step (fun _ => rfl) fun _ => le_rfl

theorem exprRules : ExprRules (fun {_} m => Finds [] (fun _ => True) m) where
  pure _ := pure trivial
  bind hm hk := seq hm fun a _ => hk a
  throw := throw
  get := get_bind fun _ => pure trivial
  refuse line col := error line col _
  pointer _ _ := step (fun _ => rfl) fun _ => le_rfl

/-- What is done to neither the body nor the errors may stand around it. -/
theorem inside {enter leave : Sema → Sema}
    (henter : ∀ s, (enter s).curFuncBody = s.curFuncBody ∧ (enter s).nErrors = s.nErrors)
    (hleave : ∀ s, (leave s).curFuncBody = s.curFuncBody ∧ (leave s).nErrors = s.nErrors)
    (hm : Finds xs P m) :
    Finds xs P (modify enter >>= fun _ => m >>= fun a => modify leave >>= fun _ => Pure.pure a) :=
  seq (step (fun s => (henter s).1) fun s => (henter s).2.ge) fun _ _ => andThen hm fun _ ha =>
    seq (step (fun s => (hleave s).1) fun s => (hleave s).2.ge) fun _ _ => pure ha

theorem inNewScope (hm : Finds xs P m) : Finds xs P (SemaM.inNewScope m) :=
  get_bind fun _ => inside (fun _ => ⟨rfl, rfl⟩) (fun _ => ⟨rfl, rfl⟩) hm

theorem inLoop (hm : Finds xs P m) : Finds xs P (SemaM.inLoop m) :=
  inside (fun _ => ⟨rfl, rfl⟩) (fun _ => ⟨rfl, rfl⟩) hm

theorem inSwitch (hm : Finds xs P m) : Finds xs P (SemaM.inSwitch m) :=
  inside (fun _ => ⟨rfl, rfl⟩) (fun _ => ⟨rfl, rfl⟩) hm

theorem ite {c : Prop} [Decidable c] {m' : SemaM α} (hm : Finds xs P m) (hm' : Finds xs P m') :
    Finds xs P (if c then m else m') := by
  split
  · exact hm
  · exact hm'

/-! ### Declarations and statements -/

theorem checkDecl (d : RawDecl) : Finds [] (fun _ => True) (TinyC.checkDecl d) := by
  have hconsts : ∀ cs : List (String × ℤ), Finds [] (fun _ => True)
      (cs.forM fun c => SemaM.define c.1 ⟨.enumConst, some (scalarRef .int), c.2⟩) := by
    intro cs
    induction cs with
    | nil => exact pure trivial
    | cons c cs ih => exact seq (define _ _) fun _ _ => ih
  cases d with
  | var v =>
    exact seq (P := fun _ => True) (seq (exprRules.checkExpr? _) fun _ _ =>
      seq (define _ _) fun _ _ => pure trivial) fun _ _ => pure trivial
  | typedef name aliased => exact seq (define _ _) fun _ _ => pure trivial
  | agg ty => exact pure trivial
  | enum ty =>
    refine seq (P := fun _ => True) (seq (exprRules.nodeOf _) fun n _ => ?_) fun _ _ => pure trivial
    split
    · exact hconsts _
    · exact pure trivial

theorem checkDecls (ds : List RawDecl) :
    Finds [] (fun _ => True) (ds.mapM TinyC.checkDecl) := by
  induction ds with
  | nil => exact pure trivial
  | cons d ds ih =>
    rw [List.mapM_cons]
    exact seq (checkDecl d) fun _ _ => seq ih fun _ _ => pure trivial

end Finds

/-- The checked statement stands for the same marks. -/
def RawStmt.SameMarks (s s' : RawStmt) : Prop := s'.marks = s.marks ∧ s'.isClause = s.isClause

mutual

theorem checkStmt_finds (s : RawStmt) : Finds (gotosIn s.marks) s.SameMarks (checkStmt s) := by
  have hexpr := Finds.exprRules.checkExpr
  cases s with
  | compound ss =>
    exact .inNewScope (.andThen (checkStmts_finds ss) fun _ h => .pure ⟨h, rfl⟩)
  | expr e => exact .seq (hexpr e) fun _ _ => .pure ⟨rfl, rfl⟩
  | decl ds => exact .seq (.checkDecls ds) fun _ _ => .pure ⟨rfl, rfl⟩
  | ifElse ln cl e t f =>
    rw [RawStmt.marks, gotosIn_append]
    refine .seq (hexpr e) fun _ _ => .bind (checkStmt_finds t) fun t' ht =>
      .andThen (checkStmt?_finds f) fun f' hf => .pure ⟨?_, rfl⟩
    rw [RawStmt.marks, RawStmt.marks, ht.1, hf.1]
  | «while» ln cl e b =>
    exact .seq (hexpr e) fun _ _ => .andThen (.inLoop (checkStmt_finds b)) fun _ h =>
      .pure ⟨h.1, rfl⟩
  | doWhile ln cl e b =>
    exact .andThen (.inLoop (checkStmt_finds b)) fun _ h => .seq (hexpr e) fun _ _ =>
      .pure ⟨h.1, rfl⟩
  | «for» ln cl init e incr b =>
    have hnames : gotosIn (RawStmt.for ln cl init e incr b).marks = gotosIn b.marks := by
      rw [RawStmt.marks, gotosIn_append]
      split <;> rfl
    rw [hnames]
    refine .seq (checkStmt?_finds init).forget fun init' hinit =>
      .seq (Finds.exprRules.checkExpr? e) fun _ _ => .seq (Finds.exprRules.checkExpr? incr)
        fun _ _ => .andThen (.inLoop (checkStmt_finds b)) fun b' hb => .pure ⟨?_, rfl⟩
    rw [RawStmt.marks, RawStmt.marks, hinit.2, hb.1]
  | ret ln cl e =>
    cases e with
    | none => exact .pure ⟨rfl, rfl⟩
    | some e =>
      exact .seq (hexpr e) fun _ _ => .seq (Finds.exprRules.convertReturn _) fun _ _ =>
        .pure ⟨rfl, rfl⟩
  | «switch» ln cl e b =>
    exact .seq (hexpr e) fun _ _ => .andThen (.inSwitch (checkStmt_finds b)) fun _ h =>
      .pure ⟨h.1, rfl⟩
  | label ln cl l b =>
    exact .andThen (checkStmt_finds b) fun _ h => .pure ⟨congrArg (Mark.label l :: ·) h.1, rfl⟩
  | «case» n ln cl e b =>
    have hrest : Finds (gotosIn b.marks) (RawStmt.case n ln cl e b).SameMarks
        (checkExpr e >>= fun e => checkStmt b >>= fun b => pure (.case n ln cl e b)) :=
      .seq (hexpr e) fun _ _ => .andThen (checkStmt_finds b) fun _ h =>
        .pure ⟨congrArg (Mark.case n :: ·) h.1, rfl⟩
    exact .get_bind fun _ => .ite (.seq (.error _ _ _) fun _ _ => hrest) hrest
  | default n ln cl b =>
    have hrest : Finds (gotosIn b.marks) (RawStmt.default n ln cl b).SameMarks
        (checkStmt b >>= fun b => pure (.default n ln cl b)) :=
      .andThen (checkStmt_finds b) fun _ h => .pure ⟨congrArg (Mark.case n :: ·) h.1, rfl⟩
    exact .get_bind fun _ => .ite (.seq (.error _ _ _) fun _ _ => hrest) hrest
  | «break» ln cl =>
    exact .get_bind fun _ => .ite (.seq (.error _ _ _) fun _ _ => .pure ⟨rfl, rfl⟩)
      (.pure ⟨rfl, rfl⟩)
  | «continue» ln cl =>
    exact .get_bind fun _ => .ite (.seq (.error _ _ _) fun _ _ => .pure ⟨rfl, rfl⟩)
      (.pure ⟨rfl, rfl⟩)
  | goto ln cl l =>
    intro s a s' h
    change (if _ then _ else _ : SemaM RawStmt) s = _ at h
    split at h
    · cases h
      exact ⟨⟨rfl, rfl⟩, rfl, Nat.le_succ _, fun hno => absurd hno (Nat.succ_ne_zero _)⟩
    · rename_i hfound
      cases h
      refine ⟨⟨rfl, rfl⟩, rfl, le_rfl, fun _ name hname => ?_⟩
      obtain rfl := List.mem_singleton.mp hname
      simpa using hfound

theorem checkStmts_finds (ss : List RawStmt) : Finds (gotosIn (RawStmt.marksIn ss))
    (fun ss' => RawStmt.marksIn ss' = RawStmt.marksIn ss) (checkStmts ss) := by
  cases ss with
  | nil => exact .pure rfl
  | cons s ss =>
    rw [RawStmt.marksIn, gotosIn_append]
    refine .bind (checkStmt_finds s) fun s' hs => .andThen (checkStmts_finds ss) fun ss' hss =>
      .pure ?_
    rw [RawStmt.marksIn, hs.1, hss]

theorem checkStmt?_finds (s : Option RawStmt) : Finds (gotosIn (RawStmt.marksOpt s))
    (fun s' => RawStmt.marksOpt s' = RawStmt.marksOpt s ∧
      s'.all RawStmt.isClause = s.all RawStmt.isClause) (checkStmt? s) := by
  cases s with
  | none => exact .pure ⟨rfl, rfl⟩
  | some s => exact .andThen (checkStmt_finds s) fun _ h => .pure ⟨h.1, h.2⟩

end

mutual

/-- Sema looks for a label wherever one stands. -/
theorem RawStmt.labelExists_iff (label : String) : (s : RawStmt) →
    (labelExists label s = true ↔ label ∈ labelsIn s.marks)
  | .label _ _ name s => by
      rw [labelExists, Bool.or_eq_true, labelExists_iff label s, decide_eq_true_iff, eq_comm]
      exact List.mem_cons.symm
  | .compound ss => labelExistsIn_iff label ss
  | .ifElse _ _ _ t none => by
      rw [marks, marksOpt, List.append_nil]
      exact labelExists_iff label t
  | .ifElse _ _ _ t (some e) => by
      rw [labelExists, Bool.or_eq_true, labelExists_iff label t, labelExists_iff label e, marks,
        labelsIn_append, List.mem_append, marksOpt]
  | .for _ _ init _ _ b => by
      rw [labelExists, labelExists_iff label b, marks, labelsIn_append]
      split <;> rfl
  | .while _ _ _ b | .doWhile _ _ _ b | .switch _ _ _ b | .case _ _ _ _ b | .default _ _ _ b =>
      labelExists_iff label b
  | .expr _ | .decl _ | .ret _ _ _ | .break _ _ | .continue _ _ | .goto _ _ _ =>
      iff_of_false Bool.false_ne_true List.not_mem_nil

theorem RawStmt.labelExistsIn_iff (label : String) : (ss : List RawStmt) →
    (labelExistsIn label ss = true ↔ label ∈ labelsIn (marksIn ss))
  | [] => iff_of_false Bool.false_ne_true List.not_mem_nil
  | s :: ss => by
      rw [labelExistsIn, Bool.or_eq_true, labelExists_iff label s, labelExistsIn_iff label ss,
        marksIn, labelsIn_append, List.mem_append]

end

/-! ### Units -/

/-- What sema leaves of an external declaration as it is: a function's name and the marks of its
body. -/
def RawTop.outline : RawTop → Option (String × List Mark)
  | .func f => some (f.name, f.body.marks)
  | .decl _ => none

/-- The `goto`s of a function have their labels. -/
def RawTop.GotosFound : RawTop → Prop
  | .func f => ∀ name ∈ gotosIn f.body.marks, f.body.labelExists name = true
  | .decl _ => True

theorem funcRet_finds (ty saved : Option TypeRef) :
    Finds [] (fun _ => True) (funcRet ty saved) := by
  cases ty with
  | none => exact .pure trivial
  | some _ =>
    refine .seq (P := fun _ => True) (Finds.exprRules.nodeOf _) fun n _ => ?_
    split
    · exact .pure trivial
    · exact .pure trivial

theorem defineParams_finds (ps : List RawParam) :
    Finds [] (fun _ => True) (ps.forM defineParam) := by
  induction ps with
  | nil => exact .pure trivial
  | cons p ps ih =>
    refine .seq (P := fun _ => True) ?_ fun _ _ => ih
    unfold defineParam
    split
    · exact .define _ _
    · exact .pure trivial

theorem checkFunc_found {f f' : RawFunc} {s s' : Sema} (h : checkFunc f s = .ok (f', s')) :
    (RawTop.func f').outline = (RawTop.func f).outline ∧ s.nErrors ≤ s'.nErrors ∧
      (s'.nErrors = 0 → (RawTop.func f).GotosFound) := by
  obtain ⟨_, s₁, hdefine, h⟩ := SemaM.bind_ok h
  obtain ⟨saved, _, hget, h⟩ := SemaM.bind_ok h
  cases hget
  obtain ⟨ret, s₂, hret, h⟩ := SemaM.bind_ok h
  obtain ⟨_, _, henter, h⟩ := SemaM.bind_ok h
  cases henter
  obtain ⟨body, s₃, hbody, h⟩ := SemaM.bind_ok h
  cases h
  obtain ⟨-, -, herrors, -⟩ := Finds.define _ _ _ _ _ hdefine
  obtain ⟨-, -, herrors', -⟩ := funcRet_finds _ _ _ _ _ hret
  have hstmt : Finds (gotosIn f.body.marks) f.body.SameMarks
      (SemaM.inNewScope (f.params.forM defineParam >>= fun _ => checkStmt f.body)) :=
    .inNewScope (.seq (defineParams_finds _) fun _ _ => checkStmt_finds f.body)
  obtain ⟨hmarks, -, herrors'', hfound⟩ := hstmt _ _ _ hbody
  exact ⟨congrArg (fun ms => some (f.name, ms)) hmarks.1,
    (herrors.trans herrors').trans herrors'', fun hno name hname => hfound hno name hname⟩

theorem checkTop_found {d d' : RawTop} {s s' : Sema} (h : checkTop d s = .ok (d', s')) :
    d'.outline = d.outline ∧ s.nErrors ≤ s'.nErrors ∧ (s'.nErrors = 0 → d.GotosFound) := by
  cases d with
  | func f =>
    obtain ⟨f', _, hf, h⟩ := SemaM.bind_ok h
    cases h
    exact checkFunc_found hf
  | decl d =>
    obtain ⟨d', _, hd, h⟩ := SemaM.bind_ok h
    cases h
    obtain ⟨-, -, herrors, -⟩ := Finds.checkDecl d _ _ _ hd
    exact ⟨rfl, herrors, fun _ => trivial⟩

theorem checkTops_found {u u' : RawUnit} {s s' : Sema} (h : u.mapM checkTop s = .ok (u', s')) :
    u'.map RawTop.outline = u.map RawTop.outline ∧ s.nErrors ≤ s'.nErrors ∧
      (s'.nErrors = 0 → ∀ d ∈ u, d.GotosFound) := by
  induction u generalizing u' s s' with
  | nil =>
    cases h
    exact ⟨rfl, le_rfl, fun _ _ hd => absurd hd List.not_mem_nil⟩
  | cons d u ih =>
    rw [List.mapM_cons] at h
    obtain ⟨d', s₁, hd, h⟩ := SemaM.bind_ok h
    obtain ⟨u₁, s₂, hu, h⟩ := SemaM.bind_ok h
    cases h
    obtain ⟨hout, herrors, hfound⟩ := checkTop_found hd
    obtain ⟨houts, herrors', hfounds⟩ := ih hu
    refine ⟨by rw [List.map_cons, List.map_cons, hout, houts], herrors.trans herrors',
      fun hno => List.forall_mem_cons.mpr ⟨hfound ?_, hfounds hno⟩⟩
    omega

theorem checkTails_found {u u' : RawUnit} {s s' : Sema} : ∀ {n : ℕ},
    checkTails n u s = .ok (u', s') →
      u'.map RawTop.outline = u.map RawTop.outline ∧ s.nErrors ≤ s'.nErrors := by
  intro n
  induction n generalizing u u' s s' with
  | zero =>
    intro h
    cases h
    exact ⟨rfl, le_rfl⟩
  | succ n ih =>
    intro h
    obtain ⟨u₁, s₁, hfirst, h⟩ := SemaM.bind_ok h
    obtain ⟨hout, herrors, -⟩ := checkTops_found hfirst
    cases u₁ with
    | nil =>
      cases h
      exact ⟨hout, herrors⟩
    | cons d ds =>
      obtain ⟨ds', s₂, hrest, h⟩ := SemaM.bind_ok h
      cases h
      obtain ⟨houts, herrors'⟩ := ih hrest
      exact ⟨by rw [← hout, List.map_cons, List.map_cons, houts], herrors.trans herrors'⟩

/-- A unit that sema finds no error in has the labels of its `goto`s. -/
theorem semaCheck_found {u u' : RawUnit} {s s' : Sema} (h : semaCheck u s = .ok (u', s')) :
    u'.map RawTop.outline = u.map RawTop.outline ∧
      (s'.nErrors = 0 → ∀ d ∈ u, d.GotosFound) := by
  refine ⟨(checkTails_found h).1, fun hno => ?_⟩
  cases u with
  | nil => exact fun d hd => absurd hd List.not_mem_nil
  | cons d u =>
    obtain ⟨u₁, s₁, hfirst, h⟩ := SemaM.bind_ok h
    obtain ⟨-, -, hfound⟩ := checkTops_found hfirst
    refine hfound ?_
    cases u₁ with
    | nil =>
      cases h
      exact hno
    | cons d ds =>
      obtain ⟨ds', s₂, hrest, h⟩ := SemaM.bind_ok h
      cases h
      have herrors := (checkTails_found hrest).2
      omega

/-! ### The tree that irgen reads -/

/-- The labels, `goto`s and cases of a tree are the marks `ms`, and a `Parsed` tree is read if they
are in order. -/
structure ReadsAs (ms : List Mark) (labels gotos : List String) (cases : List CaseNode)
    (parsed : Prop) : Prop where
  labels : labels = labelsIn ms
  gotos : gotos = gotosIn ms
  cases : (cases.map CaseNode.node).Sublist (casesIn ms)
  parsed : (casesIn ms).Nodup → Mark.noClause ∉ ms → parsed

namespace ReadsAs

variable {ms ms' : List Mark} {ls ls' gs gs' : List String} {cs cs' : List CaseNode} {P P' : Prop}

theorem nil (hP : P) : ReadsAs [] [] [] [] P := ⟨rfl, rfl, .slnil, fun _ _ => hP⟩

theorem append (h : ReadsAs ms ls gs cs P) (h' : ReadsAs ms' ls' gs' cs' P') :
    ReadsAs (ms ++ ms') (ls ++ ls') (gs ++ gs') (cs ++ cs') (P ∧ P') := by
  have hcases : casesIn (ms ++ ms') = casesIn ms ++ casesIn ms' := List.filterMap_append
  refine ⟨?_, ?_, ?_, fun hnodup hclause => ?_⟩
  · rw [h.labels, h'.labels]
    exact List.filterMap_append.symm
  · rw [h.gotos, h'.gotos, gotosIn_append]
  · rw [List.map_append, hcases]
    exact h.cases.append h'.cases
  · rw [hcases, List.nodup_append] at hnodup
    rw [List.mem_append, not_or] at hclause
    exact ⟨h.parsed hnodup.1 hclause.1, h'.parsed hnodup.2.1 hclause.2⟩

theorem label (name : String) (h : ReadsAs ms ls gs cs P) :
    ReadsAs (.label name :: ms) (name :: ls) gs cs P :=
  ⟨congrArg (name :: ·) h.labels, h.gotos, h.cases, fun hnodup hclause =>
    h.parsed hnodup fun hmem => hclause (List.mem_cons_of_mem _ hmem)⟩

theorem case (c : CaseNode) (h : ReadsAs ms ls gs cs P) :
    ReadsAs (.case c.node :: ms) ls gs (c :: cs) P :=
  ⟨h.labels, h.gotos, h.cases.cons_cons _, fun hnodup hclause =>
    h.parsed (List.nodup_cons.mp hnodup).2 fun hmem => hclause (List.mem_cons_of_mem _ hmem)⟩

/-- The cases in a `switch` are its own. -/
theorem switch (h : ReadsAs ms ls gs cs P) :
    ReadsAs ms ls gs [] ((cs.map CaseNode.node).Nodup ∧ P) :=
  ⟨h.labels, h.gotos, List.nil_sublist _, fun hnodup hclause =>
    ⟨h.cases.nodup hnodup, h.parsed hnodup hclause⟩⟩

/-- A `for` whose first clause is in order just if the one that was parsed is. -/
theorem forBody {clause clause' : Bool} (hclause : clause' = clause) (h : ReadsAs ms ls gs cs P) :
    ReadsAs ((if clause then [] else [.noClause]) ++ ms) ls gs cs (clause' ∧ P) := by
  subst hclause
  cases clause' with
  | true => exact ⟨h.labels, h.gotos, h.cases, fun hn hc => ⟨rfl, h.parsed hn hc⟩⟩
  | false => exact ⟨h.labels, h.gotos, h.cases, fun _ hc => absurd List.mem_cons_self hc⟩

end ReadsAs

section

variable {t : TypeTable}

mutual

theorem readStmt_readsAs : (r : RawStmt) → ∀ s, t.readStmt r = .ok s →
    ReadsAs r.marks (labelNames s) (gotoNames s) (switchNodes s) s.Parsed ∧
      s.isClause = r.isClause := by
  intro r s h
  cases r with
  | compound ss =>
    obtain ⟨ss', hss, h⟩ := except_bind_ok h
    cases h
    exact ⟨readStmts_readsAs ss ss' hss, rfl⟩
  | expr e =>
    obtain ⟨e', -, h⟩ := except_bind_ok h
    cases h
    exact ⟨.nil trivial, rfl⟩
  | decl ds =>
    obtain ⟨ds', -, h⟩ := except_bind_ok h
    cases h
    exact ⟨.nil trivial, rfl⟩
  | ifElse ln cl c a b =>
    obtain ⟨c', -, h⟩ := except_bind_ok h
    obtain ⟨a', ha, h⟩ := except_bind_ok h
    obtain ⟨b', hb, h⟩ := except_bind_ok h
    cases h
    exact ⟨(readStmt_readsAs a a' ha).1.append (readStmt?_readsAs b b' hb).1, rfl⟩
  | «while» ln cl c b =>
    obtain ⟨c', -, h⟩ := except_bind_ok h
    obtain ⟨b', hb, h⟩ := except_bind_ok h
    cases h
    exact ⟨(readStmt_readsAs b b' hb).1, rfl⟩
  | doWhile ln cl c b =>
    obtain ⟨c', -, h⟩ := except_bind_ok h
    obtain ⟨b', hb, h⟩ := except_bind_ok h
    cases h
    exact ⟨(readStmt_readsAs b b' hb).1, rfl⟩
  | «for» ln cl init c incr b =>
    obtain ⟨init', hinit, h⟩ := except_bind_ok h
    obtain ⟨c', -, h⟩ := except_bind_ok h
    obtain ⟨incr', -, h⟩ := except_bind_ok h
    obtain ⟨b', hb, h⟩ := except_bind_ok h
    cases h
    exact ⟨(readStmt_readsAs b b' hb).1.forBody (readStmt?_readsAs init init' hinit).2, rfl⟩
  | ret ln cl e =>
    obtain ⟨e', -, h⟩ := except_bind_ok h
    cases h
    exact ⟨.nil trivial, rfl⟩
  | «break» ln cl =>
    cases h
    exact ⟨.nil trivial, rfl⟩
  | «continue» ln cl =>
    cases h
    exact ⟨.nil trivial, rfl⟩
  | goto ln cl l =>
    cases h
    exact ⟨⟨rfl, rfl, .slnil, fun _ _ => trivial⟩, rfl⟩
  | label ln cl l b =>
    obtain ⟨b', hb, h⟩ := except_bind_ok h
    cases h
    exact ⟨(readStmt_readsAs b b' hb).1.label l, rfl⟩
  | «switch» ln cl e b =>
    obtain ⟨e', -, h⟩ := except_bind_ok h
    obtain ⟨b', hb, h⟩ := except_bind_ok h
    cases h
    exact ⟨(readStmt_readsAs b b' hb).1.switch, rfl⟩
  | «case» n ln cl e b =>
    obtain ⟨e', -, h⟩ := except_bind_ok h
    obtain ⟨b', hb, h⟩ := except_bind_ok h
    cases h
    exact ⟨(readStmt_readsAs b b' hb).1.case ⟨n, evalConstExpr e', false⟩, rfl⟩
  | default n ln cl b =>
    obtain ⟨b', hb, h⟩ := except_bind_ok h
    cases h
    exact ⟨(readStmt_readsAs b b' hb).1.case ⟨n, 0, true⟩, rfl⟩

theorem readStmts_readsAs : (rs : List RawStmt) → ∀ ss, t.readStmts rs = .ok ss →
    ReadsAs (RawStmt.marksIn rs) (labelNamesList ss) (gotoNamesList ss) (switchNodesList ss)
      (Stmt.ParsedList ss) := by
  intro rs ss h
  cases rs with
  | nil =>
    cases h
    exact .nil trivial
  | cons r rs =>
    obtain ⟨s, hs, h⟩ := except_bind_ok h
    obtain ⟨ss', hss, h⟩ := except_bind_ok h
    cases h
    exact (readStmt_readsAs r s hs).1.append (readStmts_readsAs rs ss' hss)

theorem readStmt?_readsAs : (r : Option RawStmt) → ∀ s, t.readStmt? r = .ok s →
    ReadsAs (RawStmt.marksOpt r) (labelNamesOpt s) (gotoNamesOpt s) (switchNodesOpt s)
      (Stmt.ParsedOpt s) ∧ s.all Stmt.isClause = r.all RawStmt.isClause := by
  intro r s h
  cases r with
  | none =>
    cases h
    exact ⟨.nil trivial, rfl⟩
  | some r =>
    obtain ⟨s', hs, h⟩ := except_bind_ok h
    cases h
    exact readStmt_readsAs r s' hs

end

end

end TinyC
