import TinyC.Structured

/-!
# Refinement of structured runs

Two meanings of the primitives, over a world that may be lost. If the one does with each primitive
what the other does while its world lasts, then so it does with every structured statement.
-/

namespace TinyC

namespace PrimSem

variable {σ V V' Env : Type} {α β γ δ : Type}

/-- Under `P`, `d` does what `c` does while the world of `c` lasts, up to `r` on the results. -/
structure Follows (P : Prop) (r : α → β → Prop) (d : Run (Option σ) α) (c : Run (Option σ) β) :
    Prop where
  lost : ∀ o, o.world = none → (c o).2.world = none
  same : P → ∀ o, (c o).2.world ≠ none → (d o).2 = (c o).2 ∧ r (d o).1 (c o).1

namespace Follows

variable {P P' : Prop} {r : α → β → Prop} {q : γ → δ → Prop} {d : Run (Option σ) α}
  {c : Run (Option σ) β}

theorem mono (h : Follows P r d c) (hP : P' → P) : Follows P' r d c :=
  ⟨h.lost, fun hp => h.same (hP hp)⟩

theorem pure {a : α} {b : β} (h : P → r a b) :
    Follows P r (Pure.pure a : Run (Option σ) α) (Pure.pure b : Run (Option σ) β) :=
  ⟨fun _ ho => ho, fun hp _ _ => ⟨rfl, h hp⟩⟩

theorem bind {k : α → Run (Option σ) γ} {l : β → Run (Option σ) δ} (h : Follows P r d c)
    (hk : ∀ a b, Follows (P ∧ r a b) q (k a) (l b)) : Follows P q (d >>= k) (c >>= l) where
  lost o ho := (hk (d o).1 (c o).1).lost _ (h.lost o ho)
  same hp o ho := by
    have hk' := hk (d o).1 (c o).1
    have hmid : (c o).2.world ≠ none := fun hnone => ho (hk'.lost _ hnone)
    obtain ⟨hstate, hr⟩ := h.same hp o hmid
    change (k (d o).1 (d o).2).2 = (l (c o).1 (c o).2).2 ∧
      q (k (d o).1 (d o).2).1 (l (c o).1 (c o).2).1
    rw [hstate]
    exact hk'.same ⟨hp, hr⟩ _ ho

theorem ite {p p' : Prop} [Decidable p] [Decidable p'] {d' : Run (Option σ) α}
    {c' : Run (Option σ) β} (hp : P → (p ↔ p')) (h : Follows P r d c) (h' : Follows P r d' c') :
    Follows P r (if p then d else d') (if p' then c else c') := by
  constructor
  · intro o ho
    split
    · exact h.lost o ho
    · exact h'.lost o ho
  · intro hP o ho
    by_cases hc : p'
    · rw [if_pos hc] at ho ⊢
      rw [if_pos ((hp hP).mpr hc)]
      exact h.same hP o ho
    · rw [if_neg hc] at ho ⊢
      rw [if_neg (mt (hp hP).mp hc)]
      exact h'.same hP o ho

end Follows

/-- The same outcome, a returned value up to `r`. -/
inductive OutcomeRel (r : V → V' → Prop) : Outcome V → Outcome V' → Prop where
  | normal : OutcomeRel r .normal .normal
  | brk : OutcomeRel r .brk .brk
  | cnt : OutcomeRel r .cnt .cnt
  | ret {v : Option V} {v' : Option V'} (h : Option.Rel r v v') : OutcomeRel r (.ret v) (.ret v')
  | timeout : OutcomeRel r .timeout .timeout

/-- `D` does with the primitives in `S` what `C` does with them. -/
structure Refined (S : Prim → Prop) (r : V → V' → Prop) (D : PrimSem (Option σ) V Env)
    (C : PrimSem (Option σ) V' Env) : Prop where
  lost : ∀ p ρ, (C.eval p ρ none).2 = none
  prim : ∀ {p ρ m}, S p → (C.eval p ρ (some m)).2 ≠ none →
    (D.eval p ρ (some m)).2 = (C.eval p ρ (some m)).2 ∧
      r (D.eval p ρ (some m)).1 (C.eval p ρ (some m)).1
  isTrue : ∀ {x v}, r x v → D.isTrue x = C.isTrue v
  ofBool : ∀ b, r (D.ofBool b) (C.ofBool b)
  declare : D.declare = C.declare

namespace Refined

variable {S : Prim → Prop} {r : V → V' → Prop} {D : PrimSem (Option σ) V Env}
  {C : PrimSem (Option σ) V' Env} (h : Refined S r D C)

include h

theorem evalPrim {p : Prim} (hp : S p) (ρ : Env) :
    Follows True r (D.evalPrim p ρ) (C.evalPrim p ρ) := by
  constructor
  · intro o ho
    change (C.eval p ρ o.world).2 = none
    rw [ho, h.lost]
  · intro _ o ho
    change (C.eval p ρ o.world).2 ≠ none at ho
    cases hw : o.world with
    | none =>
      rw [hw, h.lost] at ho
      exact absurd rfl ho
    | some m =>
      rw [hw] at ho
      obtain ⟨hworld, hr⟩ := h.prim hp ho
      change (⟨(D.eval p ρ o.world).2, _⟩ : Observed (Option σ)) = ⟨(C.eval p ρ o.world).2, _⟩ ∧
        r (D.eval p ρ o.world).1 (C.eval p ρ o.world).1
      rw [hw, hworld]
      exact ⟨rfl, hr⟩

theorem evalExpr {e : Expr} (he : ComposedOf S e) (ρ : Env) :
    Follows True r (D.evalExpr e ρ) (C.evalExpr e ρ) := by
  have htruth : ∀ {a b}, r a b → (D.isTrue a = true ↔ C.isTrue b = true) := by
    intro a b hr
    rw [h.isTrue hr]
  have hbool : ∀ {a b}, r a b → r (D.ofBool (D.isTrue a)) (C.ofBool (C.isTrue b)) := by
    intro a b hr
    rw [h.isTrue hr]
    exact h.ofBool _
  induction he with
  | @prim e hp hS =>
    have hplain : ∀ {W V : Type} (D : PrimSem W V Env), D.evalExpr e ρ = D.evalPrim (.value e) ρ := by
      intro W V D
      cases e with
      | binop i op l r =>
        simp only [isComposite, Bool.or_eq_false_iff, decide_eq_false_iff_not] at hp
        rw [PrimSem.evalExpr, if_neg hp.1, if_neg hp.2]
      | ternary => simp [isComposite] at hp
      | _ => rfl
    rw [hplain D, hplain C]
    exact h.evalPrim hS ρ
  | @logical i op l r hop _ _ ihl ihr =>
    unfold PrimSem.evalExpr
    rcases hop with rfl | rfl
    · simp only [if_true]
      exact ihl.bind fun a b => .ite (fun hr => htruth hr.2)
        ((ihr.mono fun _ => trivial).bind fun x y => .pure fun hr => hbool hr.2)
        (.pure fun _ => h.ofBool false)
    · simp only [reduceCtorEq, if_false, if_true]
      exact ihl.bind fun a b => .ite (fun hr => htruth hr.2) (.pure fun _ => h.ofBool true)
        ((ihr.mono fun _ => trivial).bind fun x y => .pure fun hr => hbool hr.2)
  | @ternary i c t e _ _ _ ihc iht ihe =>
    unfold PrimSem.evalExpr
    exact ihc.bind fun a b => .ite (fun hr => htruth hr.2) (iht.mono fun _ => trivial)
      (ihe.mono fun _ => trivial)

omit h in
theorem follows_afterStmt {P : Prop} {rest : Run (Option σ) (Outcome V)}
    {rest' : Run (Option σ) (Outcome V')} (hrest : Follows P (OutcomeRel r) rest rest')
    (out : Outcome V) (out' : Outcome V') :
    Follows (P ∧ OutcomeRel r out out') (OutcomeRel r) (afterStmt rest out)
      (afterStmt rest' out') := by
  constructor
  · intro o ho
    cases out' with
    | normal => exact hrest.lost o ho
    | _ => exact ho
  · rintro ⟨hp, hr⟩ o ho
    cases hr with
    | normal => exact hrest.same hp o ho
    | brk => exact ⟨rfl, .brk⟩
    | cnt => exact ⟨rfl, .cnt⟩
    | ret hv => exact ⟨rfl, .ret hv⟩
    | timeout => exact ⟨rfl, .timeout⟩

omit h in
theorem follows_afterBody {P : Prop} {rest : Run (Option σ) (Outcome V)}
    {rest' : Run (Option σ) (Outcome V')} (hrest : Follows P (OutcomeRel r) rest rest')
    (out : Outcome V) (out' : Outcome V') :
    Follows (P ∧ OutcomeRel r out out') (OutcomeRel r) (afterBody rest out)
      (afterBody rest' out') := by
  constructor
  · intro o ho
    cases out' with
    | normal => exact hrest.lost o ho
    | cnt => exact hrest.lost o ho
    | _ => exact ho
  · rintro ⟨hp, hr⟩ o ho
    cases hr with
    | normal => exact hrest.same hp o ho
    | cnt => exact hrest.same hp o ho
    | brk => exact ⟨rfl, .normal⟩
    | ret hv => exact ⟨rfl, .ret hv⟩
    | timeout => exact ⟨rfl, .timeout⟩

section Loops

variable {test test' : Run (Option σ) Bool} {body : ℕ → Run (Option σ) (Outcome V)}
  {body' : ℕ → Run (Option σ) (Outcome V')} {incr incr' : Run (Option σ) Unit}
  (htest : Follows True Eq test test') (hbody : ∀ n, Follows True (OutcomeRel r) (body n) (body' n))

omit h in
include htest hbody in
theorem follows_execLoop (hincr : Follows True Eq incr incr') (n : ℕ) :
    Follows True (OutcomeRel r) (execLoop test body incr n) (execLoop test' body' incr' n) := by
  induction n with
  | zero => exact .pure fun _ => .timeout
  | succ n ih =>
    refine htest.bind fun a b => .ite (fun hab => by rw [hab.2]) ?_ (.pure fun _ => .normal)
    refine ((hbody n).mono fun _ => trivial).bind fun out out' => ?_
    refine (follows_afterBody (hincr.bind fun _ _ => ih.mono fun _ => trivial) out out').mono ?_
    exact fun hout => ⟨trivial, hout.2⟩

omit h in
include htest hbody in
theorem follows_execDoLoop (n : ℕ) :
    Follows True (OutcomeRel r) (execDoLoop test body n) (execDoLoop test' body' n) := by
  induction n with
  | zero => exact .pure fun _ => .timeout
  | succ n ih =>
    refine (hbody n).bind fun out out' => ?_
    refine (follows_afterBody (P := True) (htest.bind fun a b => .ite (fun hab => by rw [hab.2])
      (ih.mono fun _ => trivial) (.pure fun _ => .normal)) out out').mono ?_
    exact fun hout => ⟨trivial, hout.2⟩

end Loops

theorem evalTest {c : Option Expr} (hc : ∀ x ∈ c, ComposedOf S x) (ρ : Env) :
    Follows True Eq (D.evalTest c ρ) (C.evalTest c ρ) := by
  cases c with
  | none => exact .pure fun _ => rfl
  | some c => exact (h.evalExpr (hc c rfl) ρ).bind fun a b => .pure fun hr => h.isTrue hr.2

theorem evalEffect {e : Option Expr} (he : ∀ x ∈ e, ComposedOf S x) (ρ : Env) :
    Follows True Eq (D.evalEffect e ρ) (C.evalEffect e ρ) := by
  cases e with
  | none => exact .pure fun _ => rfl
  | some e => exact (h.evalExpr (he e rfl) ρ).bind fun _ _ => .pure fun _ => rfl

theorem evalReturned {agg : Expr → Bool} {e : Expr} (he : ReturnedOf S agg e) (ρ : Env) :
    Follows True r (D.evalReturned agg e ρ) (C.evalReturned agg e ρ) := by
  unfold ReturnedOf at he
  unfold PrimSem.evalReturned
  by_cases hagg : (agg e && !isComposite e) = true
  · rw [if_pos hagg] at he
    simp only [hagg, if_true]
    exact h.evalPrim he ρ
  · rw [if_neg hagg] at he
    simp only [hagg]
    exact h.evalExpr he ρ

theorem envAfter (s : Stmt) (ρ : Env) : D.envAfter s ρ = C.envAfter s ρ := by
  cases s <;> first | rfl | exact congrFun (congrFun h.declare _) ρ

theorem execs {agg : Expr → Bool} {ss : List Stmt}
    (hs : ∀ s ∈ ss, ∀ ρ n, Follows True (OutcomeRel r) (D.exec agg s ρ n) (C.exec agg s ρ n))
    (ρ : Env) (n : ℕ) : Follows True (OutcomeRel r) (D.execs agg ss ρ n) (C.execs agg ss ρ n) := by
  induction ss generalizing ρ with
  | nil => exact .pure fun _ => .normal
  | cons s ss ih =>
    refine (hs s List.mem_cons_self ρ n).bind fun out out' => ?_
    rw [h.envAfter s ρ]
    exact follows_afterStmt (ih (fun s' hs' => hs s' (List.mem_cons_of_mem s hs')) _) out out'

/-- The run of a statement follows the run that is refined. -/
theorem exec {agg : Expr → Bool} {l item : Bool} {s : Stmt} (hs : Structured S agg l item s)
    (ρ : Env) (n : ℕ) : Follows True (OutcomeRel r) (D.exec agg s ρ n) (C.exec agg s ρ n) := by
  induction hs generalizing ρ n with
  | compound _ ih => exact h.execs ih ρ n
  | expr he => exact (h.evalEffect he ρ).bind fun _ _ => .pure fun _ => .normal
  | decl hds => exact (h.evalPrim hds ρ).bind fun _ _ => .pure fun _ => .normal
  | @ifElse l i ln cl c t e hc _ _ iht ihe =>
    refine (h.evalExpr hc ρ).bind fun a b => .ite (fun hr => ?_) ((iht ρ n).mono fun _ => trivial) ?_
    · rw [h.isTrue hr.2]
    · cases e with
      | none => exact .pure fun _ => .normal
      | some s => exact (ihe s rfl ρ n).mono fun _ => trivial
  | @«while» l i ln cl c b hc _ ihb =>
    exact follows_execLoop (h.evalTest (by simpa using hc) ρ) (fun n => ihb ρ n) (.pure fun _ => rfl) n
  | @doWhile l i ln cl c b hc _ ihb =>
    exact follows_execDoLoop (h.evalTest (by simpa using hc) ρ) (fun n => ihb ρ n) n
  | @«for» l i ln cl init c incr b _ hc hn _ ihi ihb =>
    have hinit : Follows True (OutcomeRel r) (D.execOpt agg init ρ n) (C.execOpt agg init ρ n) := by
      cases init with
      | none => exact .pure fun _ => .normal
      | some s => exact ihi s rfl ρ n
    have henv : D.envAfterOpt init ρ = C.envAfterOpt init ρ := by
      cases init with
      | none => rfl
      | some s => exact h.envAfter s ρ
    refine hinit.bind fun out out' => ?_
    rw [henv]
    exact follows_afterStmt (follows_execLoop (h.evalTest hc _) (fun n => ihb _ n)
      (h.evalEffect hn _) n) out out'
  | @ret l i ln cl e he =>
    cases e with
    | none => exact .pure fun _ => .ret .none
    | some e => exact (h.evalReturned (he e rfl) ρ).bind fun a b => .pure fun hr => .ret (.some hr.2)
  | «break» => exact .pure fun _ => .brk
  | «continue» => exact .pure fun _ => .cnt

end Refined

end PrimSem

end TinyC
