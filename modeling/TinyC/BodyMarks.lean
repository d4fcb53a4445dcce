import TinyC.StmtLedger
import TinyC.TypeHistory

/-!
# What stands in a body

The labels, `goto`s and cases of a body, in the order in which they are read. The parser gives each
case a node of its own and begins a `for` with a clause.
-/

namespace TinyC

inductive Mark where
  | label (name : String)
  | goto (name : String)
  | case (node : ℕ)
  /-- A `for` that begins with a statement other than an expression or a declaration. -/
  | noClause

def Mark.label? : Mark → Option String
  | .label name => some name
  | _ => none

def Mark.goto? : Mark → Option String
  | .goto name => some name
  | _ => none

def Mark.case? : Mark → Option ℕ
  | .case node => some node
  | _ => none

namespace RawStmt

def isClause : RawStmt → Bool
  | .expr _ | .decl _ => true
  | _ => false

mutual

def marks : RawStmt → List Mark
  | .goto _ _ name => [.goto name]
  | .label _ _ name s => .label name :: marks s
  | .case node _ _ _ s | .default node _ _ s => .case node :: marks s
  | .compound ss => marksIn ss
  | .ifElse _ _ _ t e => marks t ++ marksOpt e
  | .while _ _ _ b | .doWhile _ _ _ b | .switch _ _ _ b => marks b
  | .for _ _ init _ _ b => (if init.all isClause then [] else [.noClause]) ++ marks b
  | .expr _ | .decl _ | .ret _ _ _ | .break _ _ | .continue _ _ => []

def marksIn : List RawStmt → List Mark
  | [] => []
  | s :: ss => marks s ++ marksIn ss

def marksOpt : Option RawStmt → List Mark
  | none => []
  | some s => marks s

end

theorem marksIn_append (xs ys : List RawStmt) : marksIn (xs ++ ys) = marksIn xs ++ marksIn ys := by
  induction xs with
  | nil => rfl
  | cons x xs ih => rw [List.cons_append, marksIn, ih, marksIn, List.append_assoc]

end RawStmt

/-! ### The parser -/

/-- Marks that are set while the nodes from `lo` up to `hi` are made. -/
structure Mark.SetBetween (lo hi : ℕ) (ms : List Mark) : Prop where
  le : lo ≤ hi
  nodup : (ms.filterMap Mark.case?).Nodup
  between : ∀ n ∈ ms.filterMap Mark.case?, lo ≤ n ∧ n < hi
  clauses : Mark.noClause ∉ ms

namespace Mark.SetBetween

variable {lo mid hi : ℕ} {xs ys : List Mark}

theorem nil (h : lo ≤ hi) : SetBetween lo hi [] :=
  ⟨h, List.nodup_nil, fun _ hn => absurd hn List.not_mem_nil, List.not_mem_nil⟩

theorem append (h : SetBetween lo mid xs) (h' : SetBetween mid hi ys) :
    SetBetween lo hi (xs ++ ys) := by
  refine ⟨h.le.trans h'.le, ?_, fun n hn => ?_, fun hn => ?_⟩
  · rw [List.filterMap_append, List.nodup_append]
    refine ⟨h.nodup, h'.nodup, fun m hm n hn heq => ?_⟩
    have hlt := (h.between m hm).2
    have hge := (h'.between n hn).1
    omega
  · rw [List.filterMap_append, List.mem_append] at hn
    have hle := h.le
    have hle' := h'.le
    rcases hn with hn | hn
    · have hb := h.between n hn
      omega
    · have hb := h'.between n hn
      omega
  · exact (List.mem_append.mp hn).elim h.clauses h'.clauses

end Mark.SetBetween

section

variable {L : Type} {α β : Type} {m : ParseM L α} {k : α → ParseM L β} {pre : List Mark}
  {f : α → List Mark} {h : β → List Mark}

/-- What `m` reads has the marks `pre` and those that are set meanwhile. -/
def Sets (pre : List Mark) (f : α → List Mark) (m : ParseM L α) : Prop :=
  ∀ p a p', m p = .ok (a, p') →
    ∃ new, f a = pre ++ new ∧ Mark.SetBetween p.nextNode p'.nextNode new

/-- Nodes are only added. -/
abbrev AddsNodes (m : ParseM L α) : Prop := Steps (fun p p' => p.nextNode ≤ p'.nextNode) m

namespace Sets

theorem pure {a : α} (ha : f a = pre) : Sets pre f (Pure.pure a : ParseM L α) := by
  intro p b p' hrun
  cases hrun
  exact ⟨[], by rw [ha, List.append_nil], .nil le_rfl⟩

theorem bind (hm : Sets [] f m) (hk : ∀ a, Sets (pre ++ f a) h (k a)) : Sets pre h (m >>= k) := by
  intro p b p' hrun
  obtain ⟨a, q, hrunm, hrunk⟩ := ParseM.bind_ok hrun
  obtain ⟨xs, hxs, hset⟩ := hm _ _ _ hrunm
  obtain ⟨ys, hys, hset'⟩ := hk a _ _ _ hrunk
  rw [List.nil_append] at hxs
  exact ⟨xs ++ ys, by rw [hys, hxs, List.append_assoc], hset.append hset'⟩

/-- No marks are set at first, and what is read there is known to be `P`. -/
theorem seq_of {P : α → Prop} (hm : AddsNodes m) (hP : ∀ p a p', m p = .ok (a, p') → P a)
    (hk : ∀ a, P a → Sets pre h (k a)) : Sets pre h (m >>= k) := by
  intro p b p' hrun
  obtain ⟨a, q, hrunm, hrunk⟩ := ParseM.bind_ok hrun
  obtain ⟨ys, hys, hset⟩ := hk a (hP _ _ _ hrunm) _ _ _ hrunk
  exact ⟨ys, hys, (Mark.SetBetween.nil (hm _ _ _ hrunm)).append hset⟩

theorem seq (hm : AddsNodes m) (hk : ∀ a, Sets pre h (k a)) : Sets pre h (m >>= k) :=
  seq_of hm (fun _ _ _ _ => trivial) fun a _ => hk a

/-- A mark that is not a case. -/
theorem put {a : Mark} (hcase : a.case? = none) (ha : a ≠ .noClause) (hm : Sets (pre ++ [a]) f m) :
    Sets pre f m := by
  intro p b p' hrun
  obtain ⟨new, hnew, hset⟩ := hm _ _ _ hrun
  rw [List.append_assoc] at hnew
  refine ⟨_, hnew, Mark.SetBetween.append ⟨le_rfl, ?_, ?_, ?_⟩ hset⟩
  · simp [hcase]
  · simp [hcase]
  · simpa using ha.symm

theorem newNode {k : ℕ → ParseM L β} (hk : ∀ n, Sets (pre ++ [.case n]) h (k n)) :
    Sets pre h (newNode >>= k) := by
  intro p b p' hrun
  obtain ⟨ys, hys, hset⟩ := hk p.nextNode _ _ _ hrun
  rw [List.append_assoc] at hys
  have hnode : Mark.SetBetween p.nextNode (p.nextNode + 1) [.case p.nextNode] := by
    refine ⟨Nat.le_succ _, List.nodup_singleton _, fun n hn => ?_, by simp⟩
    obtain rfl := List.mem_singleton.mp hn
    exact ⟨le_rfl, Nat.lt_succ_self _⟩
  exact ⟨_, hys, hnode.append hset⟩

theorem ite {c : Prop} [Decidable c] {m' : ParseM L α} (hm : Sets pre f m) (hm' : Sets pre f m') :
    Sets pre f (if c then m else m') := by
  split
  · exact hm
  · exact hm'

theorem throw (e : Stuck) : Sets pre f (throw e : ParseM L α) := by
  intro p a p' hrun
  cases hrun

/-- What changes no node numbers may stand around it. -/
theorem inside {enter leave : Parser L → Parser L} (henter : ∀ p, (enter p).nextNode = p.nextNode)
    (hleave : ∀ p, (leave p).nextNode = p.nextNode) (hm : Sets pre f m) :
    Sets pre f
      (modify enter >>= fun _ => m >>= fun a => modify leave >>= fun _ => Pure.pure a) := by
  intro p a p' hrun
  obtain ⟨_, _, hin, hrun⟩ := ParseM.bind_ok hrun
  cases hin
  obtain ⟨_, _, hrunm, hrun⟩ := ParseM.bind_ok hrun
  cases hrun
  obtain ⟨new, hnew, hset⟩ := hm _ _ _ hrunm
  rw [henter] at hset
  exact ⟨new, hnew, (hleave _).symm ▸ hset⟩

theorem inNewScope (hm : Sets pre f m) : Sets pre f (inNewScope m) :=
  seq (Steps.get fun _ => le_rfl) fun _ => inside (fun _ => rfl) (fun _ => rfl) hm

theorem inLoop (hm : Sets pre f m) : Sets pre f (inLoop m) :=
  inside (fun _ => rfl) (fun _ => rfl) hm

theorem inSwitch (hm : Sets pre f m) : Sets pre f (inSwitch m) :=
  inside (fun _ => rfl) (fun _ => rfl) hm

theorem some (hm : Sets pre f m) :
    Sets pre (fun o => o.elim [] f) (some <$> m : ParseM L (Option α)) := by
  rw [map_eq_pure_bind]
  intro p a p' hrun
  obtain ⟨b, q, hrunm, hrun⟩ := ParseM.bind_ok hrun
  cases hrun
  exact hm _ _ _ hrunm

end Sets

/-! ### Statements -/

variable [TokenSource L]

theorem addsNodes_stepRules :
    StepRules (fun p p' : Parser L => p.nextNode ≤ p'.nextNode) where
  refl _ := le_rfl
  trans := le_trans
  peek _ := le_rfl
  advance _ := le_rfl
  parseError _ _ _ _ := le_rfl
  typeCall _ _ _ := le_rfl
  scopes _ _ _ := le_rfl
  counters _ _ _ _ h := h

theorem addsNodes_parseRules : ParseRules (L := L) (fun {_} m _ => AddsNodes m) :=
  addsNodes_stepRules.parseRules (fun _ _ => le_rfl) fun _ _ => le_rfl

/-- A `for` begins with a clause. -/
theorem forInit_isClause {F : ParseFns L} {p p' : Parser L} {s : Option RawStmt}
    (h : forInit F p = .ok (s, p')) : s.all RawStmt.isClause = true := by
  obtain ⟨b, q, -, h⟩ := ParseM.bind_ok h
  cases b with
  | true =>
    obtain ⟨_, _, -, h⟩ := ParseM.bind_ok h
    cases h
    rfl
  | false =>
    obtain ⟨b, q, -, h⟩ := ParseM.bind_ok h
    cases b with
    | true =>
      obtain ⟨d, _, hd, h⟩ := ParseM.bind_ok h
      cases h
      obtain ⟨_, _, -, hd⟩ := ParseM.bind_ok hd
      obtain ⟨_, _, -, hd⟩ := ParseM.bind_ok hd
      cases hd
      rfl
    | false =>
      obtain ⟨_, _, -, h⟩ := ParseM.bind_ok h
      obtain ⟨_, _, -, h⟩ := ParseM.bind_ok h
      cases h
      rfl

/-- The statements that the functions of a record read. -/
structure SetsMarks (F : ParseFns L) : Prop where
  adds : F.Related (fun {_} m _ => AddsNodes m) F
  statement : Sets [] RawStmt.marks F.statement
  statements : ∀ ss, Sets (RawStmt.marksIn ss) RawStmt.marksIn (F.statements ss)

namespace SetsMarks

variable {F : ParseFns L} (hF : SetsMarks F)

include hF

theorem parseCompound : Sets [] RawStmt.marks (parseCompound F) := by
  have R := addsNodes_parseRules (L := L)
  refine .seq (R.expect _) fun _ => .inNewScope ?_
  refine .bind (hF.statements []) fun ss => .seq (R.expect _) fun _ => .pure ?_
  rfl

theorem caseBody : Sets [] RawStmt.marks (caseBody F) :=
  .seq addsNodes_parseRules.peek fun _ => .ite hF.statement (.pure rfl)

theorem parseFor (tk : Token) : Sets [] RawStmt.marks (parseFor F tk) := by
  have R := addsNodes_parseRules (L := L)
  refine .seq R.advance fun _ => .seq (R.expect _) fun _ =>
    .seq_of (R.forInit hF.adds) (fun _ _ _ h => forInit_isClause h) fun init hinit =>
    .seq (R.exprBefore hF.adds _) fun _ => .seq (R.expect _) fun _ =>
    .seq (R.exprBefore hF.adds _) fun _ => .seq (R.expect _) fun _ =>
    .bind hF.statement.inLoop fun b => .pure ?_
  rw [RawStmt.marks, if_pos hinit]

theorem identStmt (tk : Token) : Sets [] RawStmt.marks (identStmt F tk) := by
  have R := addsNodes_parseRules (L := L)
  refine .seq R.advance fun _ => .seq (R.tokIntern _) fun name => .seq (R.check _) fun _ => .ite
    (.seq R.advance fun _ => .put (a := .label name) rfl nofun
      (.bind hF.statement fun _ => .pure rfl))
    (.seq (hF.adds.infixes _ _) fun _ => .seq (R.expect _) fun _ => .pure rfl)

theorem plainStmt (tk : Token) : Sets [] RawStmt.marks (plainStmt F tk) := by
  have R := addsNodes_parseRules (L := L)
  have hparen := R.parenExpr hF.adds
  have hbreak : Sets [] RawStmt.marks (TinyC.expect .semicolon >>= fun _ =>
      Pure.pure (RawStmt.break tk.line tk.col) : ParseM L RawStmt) :=
    .seq (R.expect _) fun _ => .pure rfl
  have hcontinue : Sets [] RawStmt.marks (TinyC.expect .semicolon >>= fun _ =>
      Pure.pure (RawStmt.continue tk.line tk.col) : ParseM L RawStmt) :=
    .seq (R.expect _) fun _ => .pure rfl
  unfold TinyC.plainStmt
  split
  · exact hF.parseCompound
  · refine .seq R.advance fun _ => .seq hparen fun _ => .bind hF.statement fun t =>
      .seq (R.accept _) fun _ => .ite ?_ ?_
    · refine Sets.bind hF.statement.some fun e => .pure ?_
      cases e <;> rfl
    · exact Sets.bind (.pure (f := RawStmt.marksOpt) rfl) fun e => .pure rfl
  · exact .seq R.advance fun _ => .seq hparen fun _ => .bind hF.statement.inLoop fun _ => .pure rfl
  · exact .seq R.advance fun _ => .bind hF.statement.inLoop fun _ => .seq (R.expect _) fun _ =>
      .seq hparen fun _ => .seq (R.expect _) fun _ => .pure rfl
  · exact hF.parseFor tk
  · exact .seq R.advance fun _ => .seq (R.exprBefore hF.adds _) fun _ => .seq (R.expect _) fun _ =>
      .pure rfl
  · exact .seq R.advance fun _ => .seq R.get fun _ =>
      .ite (.seq (R.parseError _ _ _) fun _ => hbreak) hbreak
  · exact .seq R.advance fun _ => .seq R.get fun _ =>
      .ite (.seq (R.parseError _ _ _) fun _ => hcontinue) hcontinue
  · exact .seq R.advance fun _ => .seq (R.expect _) fun _ => .seq (R.expect _) fun _ =>
      .seq (R.tokIntern _) fun name => .put (a := .goto name) rfl nofun (.pure rfl)
  · exact .seq R.advance fun _ => .seq hparen fun _ => .bind hF.statement.inSwitch fun _ =>
      .pure rfl
  · exact .seq R.advance fun _ => .newNode fun _ => .seq (hF.adds.expr _) fun _ =>
      .seq (R.expect _) fun _ => .bind hF.caseBody fun _ => .pure rfl
  · exact .seq R.advance fun _ => .seq (R.expect _) fun _ => .newNode fun _ =>
      .bind hF.caseBody fun _ => .pure rfl
  · exact .seq R.advance fun _ => .pure rfl
  · exact hF.identStmt tk
  · exact .seq (hF.adds.expr _) fun _ => .seq (R.expect _) fun _ => .pure rfl

theorem parseStatement : Sets [] RawStmt.marks (parseStatement F) := by
  have R := addsNodes_parseRules (L := L)
  have hdecl : Sets [] RawStmt.marks (declStmt F) :=
    .seq (hF.adds.declSpec _ _) fun _ => .seq (R.parseDeclList hF.adds _ _) fun _ => .pure rfl
  exact .seq R.peek fun _ => .ite (.seq R.skipPragma fun _ => .pure rfl)
    (.seq R.isTypeStart fun _ => .ite hdecl (hF.plainStmt _))

theorem parseFunc (ds : DeclSpec) (dn : DeclName) (name : String) (type : Option TypeRef)
    (ps : List ParamNode) : Sets [] (fun f => f.body.marks) (parseFunc F ds dn name type ps) := by
  have R := addsNodes_parseRules (L := L)
  refine .seq R.newNode fun _ => .bind (f := fun r => r.2.marks) (.inNewScope ?_) fun _ =>
    .seq (R.scopeDefine _ _ _) fun _ => .pure rfl
  exact .seq (R.paramDecls _ _) fun _ => .bind hF.parseCompound fun _ => .pure rfl

theorem moreStatements (ss : List RawStmt) :
    Sets (RawStmt.marksIn ss) RawStmt.marksIn (TinyC.statements F ss) := by
  refine .seq addsNodes_parseRules.atListEnd fun _ => .ite (.pure rfl)
    (.bind hF.statement fun s => ?_)
  have hrest := hF.statements (ss ++ [s])
  rwa [RawStmt.marksIn_append, RawStmt.marksIn, RawStmt.marksIn, List.append_nil] at hrest

end SetsMarks

/-- The marks of a body that is read are set while it is read. -/
theorem parsers_setsMarks (n : ℕ) : SetsMarks (parsers n : ParseFns L) := by
  induction n with
  | zero => exact ⟨addsNodes_parseRules.stuck, .throw _, fun _ => .throw _⟩
  | succ n ih =>
    exact ⟨addsNodes_parseRules.deeper ih.adds, ih.parseStatement, ih.moreStatements⟩

end

end TinyC
