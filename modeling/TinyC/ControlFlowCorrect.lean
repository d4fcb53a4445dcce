import TinyC.FuncStart
import TinyC.JumpTargets

/-!
# Function bodies keep their control flow

From the first instruction of its body, the code of a function runs as the body does.
-/

namespace TinyC

/-! ### Outcomes of whole bodies -/

namespace PrimSem

variable {W V Env : Type} {D : PrimSem W V Env}

/-- An outcome no enclosing loop has to take. -/
def Complete (out : Outcome V) : Prop := out ≠ .brk ∧ out ≠ .cnt

theorem complete_normal : Complete (.normal : Outcome V) := by simp [Complete]

theorem complete_timeout : Complete (.timeout : Outcome V) := by simp [Complete]

theorem complete_ret (v : Option V) : Complete (.ret v) := by simp [Complete]

theorem complete_afterStmt {out : Outcome V} {rest : Run W (Outcome V)} {o : Observed W}
    (h : Complete out) (hrest : Complete (rest o).1) : Complete (afterStmt rest out o).1 := by
  cases out with
  | normal => exact hrest
  | _ => exact h

theorem complete_execLoop (test : Run W Bool) (body : ℕ → Run W (Outcome V)) (incr : Run W Unit)
    (n : ℕ) (o : Observed W) : Complete (execLoop test body incr n o).1 := by
  induction n generalizing o with
  | zero => exact complete_timeout
  | succ n ih =>
    change Complete ((if (test o).1 then (do
      let out ← body n
      afterBody (do incr; execLoop test body incr n) out)
      else return .normal : Run W (Outcome V)) (test o).2).1
    split
    · change Complete (afterBody (do incr; execLoop test body incr n) (body n (test o).2).1
        (body n (test o).2).2).1
      cases (body n (test o).2).1 with
      | normal => exact ih _
      | cnt => exact ih _
      | brk => exact complete_normal
      | ret v => exact complete_ret v
      | timeout => exact complete_timeout
    · exact complete_normal

theorem complete_execDoLoop (test : Run W Bool) (body : ℕ → Run W (Outcome V)) (n : ℕ)
    (o : Observed W) : Complete (execDoLoop test body n o).1 := by
  induction n generalizing o with
  | zero => exact complete_timeout
  | succ n ih =>
    have hround : ∀ o, Complete ((do if ← test then execDoLoop test body n else return .normal :
        Run W (Outcome V)) o).1 := by
      intro o
      change Complete ((if (test o).1 then execDoLoop test body n else return .normal :
        Run W (Outcome V)) (test o).2).1
      split
      · exact ih _
      · exact complete_normal
    change Complete (afterBody (do if ← test then execDoLoop test body n else return .normal)
      (body n o).1 (body n o).2).1
    cases (body n o).1 with
    | normal => exact hround _
    | cnt => exact hround _
    | brk => exact complete_normal
    | ret v => exact complete_ret v
    | timeout => exact complete_timeout

theorem complete_execs {agg : Expr → Bool} {ss : List Stmt}
    (h : ∀ s ∈ ss, ∀ ρ n o, Complete (D.exec agg s ρ n o).1) (ρ : Env) (n : ℕ) (o : Observed W) :
    Complete (D.execs agg ss ρ n o).1 := by
  induction ss generalizing ρ o with
  | nil => exact complete_normal
  | cons s ss ih =>
    exact complete_afterStmt (h s List.mem_cons_self ρ n o)
      (ih (fun s' hs' => h s' (List.mem_cons_of_mem s hs')) _ _)

/-- Outside of loops there is no `break` and no `continue` to be taken. -/
theorem complete_exec {S : Prim → Prop} {agg : Expr → Bool} {l item : Bool} {s : Stmt}
    (h : Structured S agg l item s) (hl : l = false) (ρ : Env) (n : ℕ) (o : Observed W) :
    Complete (D.exec agg s ρ n o).1 := by
  induction h generalizing ρ n o with
  | compound _ ih => exact complete_execs (fun s hs ρ n o => ih s hs hl ρ n o) ρ n o
  | expr _ => exact complete_normal
  | decl _ => exact complete_normal
  | @ifElse l i ln cl c t e _ _ _ iht ihe =>
    change Complete ((if D.isTrue (D.evalExpr c ρ o).1 then D.exec agg t ρ n
      else D.execOpt agg e ρ n) (D.evalExpr c ρ o).2).1
    split
    · exact iht hl ρ n _
    · cases e with
      | none => exact complete_normal
      | some s => exact ihe s rfl hl ρ n _
  | «while» _ _ _ => exact complete_execLoop _ _ _ _ _
  | doWhile _ _ _ => exact complete_execDoLoop _ _ _ _
  | @«for» l i ln cl init c incr b _ _ _ _ ihi _ =>
    have hinit : Complete (D.execOpt agg init ρ n o).1 := by
      cases init with
      | none => exact complete_normal
      | some s => exact ihi s rfl rfl ρ n o
    exact complete_afterStmt hinit (complete_execLoop _ _ _ _ _)
  | @ret l i ln cl e _ => cases e <;> exact ⟨nofun, nofun⟩
  | «break» => simp at hl
  | «continue» => simp at hl

end PrimSem

/-! ### The labels of a body -/

namespace Appends

variable {own : List ℕ}

theorem andThen {α β : Type} {m : Gen α} {k : α → Gen β} (hm : Appends own m)
    (hk : ∀ a, Appends [] (k a)) : Appends own (m >>= k) := (bind hm hk).mono (by simp)

theorem withScope {m : Gen Unit} (h : Appends own m) : Appends own (withScope m) :=
  get_bind fun _ => seq (update fun _ => rfl) fun _ => andThen h fun _ => update fun _ => rfl

theorem keepTargets {m : Gen Unit} (h : Appends own m) : Appends own (keepTargets m) :=
  get_bind fun _ => andThen h fun _ => update fun _ => rfl

theorem setTargets (b c : ℕ) : Appends [] (setTargets b c) := update fun _ => rfl

theorem genExpr (Γ : TypeEnv) (e : Expr) : Appends [] (genExpr Γ e) :=
  (genNode_emits Γ e).expr.appends

theorem emit {ins : IRInstr} (h : ins.op ≠ .label) : Appends [] (emit ins) := (Emits.emit h).appends

theorem emitJmp (l : ℕ) : Appends [] (emitJmp l) := (Emits.emitJmp l).appends

theorem emitJz (v : IRValue) (l : ℕ) : Appends [] (emitJz v l) := (Emits.emitJz v l).appends

theorem emitJnz (v : IRValue) (l : ℕ) : Appends [] (emitJnz v l) := (Emits.emitJnz v l).appends

theorem genDecls (Γ : TypeEnv) (ds : List Decl) : Appends [] (genDecls Γ ds) := by
  induction ds with
  | nil => exact pure _
  | cons d ds ih =>
    cases d with
    | var v =>
      refine seq (seq (Emits.genAlloca Γ _).appends fun _ => seq (update fun _ => rfl) fun _ => ?_)
        fun _ => ih
      cases v.init with
      | none => exact pure _
      | some e => exact ((genNode_emits Γ e).init _ _).appends
    | _ => exact ih

theorem genIf (Γ : TypeEnv) (c : Expr) {t : Gen Unit} {e : Option (Gen Unit)}
    (ht : Appends [] t) (he : ∀ m ∈ e, Appends [] m) :
    Appends [] (genIf (TinyC.genExpr Γ c) t e) := by
  simp only [TinyC.genIf, ifHead, bind_assoc, pure_bind]
  refine newLabel_bind fun el => newLabel_bind fun d => ?_
  have hhead : ∀ {own : List ℕ} {k : Gen Unit}, Appends own k →
      Appends own (TinyC.genExpr Γ c >>= fun v => TinyC.emitJz v el >>= fun _ => t >>= fun _ => k) :=
    fun hk => seq (genExpr Γ c) fun _ => seq (emit (by simp)) fun _ => seq ht fun _ => hk
  refine hhead ?_
  cases e with
  | none => exact (emitLabel el).mono fun _ => by simp [List.count_cons]
  | some m =>
    have hswap : [el, d].Perm [d, el] := .swap _ _ _
    exact (bind (seq (emit (by simp)) fun _ => emitLabel el) fun _ =>
      seq (he m rfl) fun _ => emitLabel d : Appends [el, d] _).perm hswap

theorem genWhile (Γ : TypeEnv) (c : Expr) {b : Gen Unit} (hb : Appends [] b) :
    Appends [] (genWhile (TinyC.genExpr Γ c) b) := by
  simp only [TinyC.genWhile, whileHead, bind_assoc, pure_bind]
  refine keepTargets <| newLabel_bind fun t => newLabel_bind fun bl => newLabel_bind fun e => ?_
  have h := seq (setTargets e t) fun _ => bind (emitLabel t) fun _ => seq (genExpr Γ c) fun v =>
    seq (emitJz v e) fun _ => bind (emitLabel bl) fun _ => seq hb fun _ => seq (emitJmp t) fun _ =>
      emitLabel e
  exact h.perm (List.reverse_perm [e, bl, t])

theorem genDoWhile (Γ : TypeEnv) (c : Expr) {b : Gen Unit} (hb : Appends [] b) :
    Appends [] (genDoWhile (TinyC.genExpr Γ c) b) := by
  simp only [TinyC.genDoWhile, doHead, bind_assoc, pure_bind]
  refine keepTargets <| newLabel_bind fun bl => newLabel_bind fun t => newLabel_bind fun e => ?_
  have h := seq (setTargets e t) fun _ => bind (emitLabel bl) fun _ => seq hb fun _ =>
    bind (emitLabel t) fun _ => seq (genExpr Γ c) fun v => seq (emitJnz v bl) fun _ => emitLabel e
  exact h.perm (List.reverse_perm [e, t, bl])

theorem genFor (Γ : TypeEnv) {init b : Gen Unit} (c incr : Option Expr) (hi : Appends [] init)
    (hb : Appends [] b) :
    Appends [] (genFor init (c.map (TinyC.genExpr Γ)) (incr.map (TinyC.genExpr Γ)) b) := by
  simp only [TinyC.genFor, forHead, bind_assoc, pure_bind]
  refine keepTargets <| newLabel_bind fun t => newLabel_bind fun bl => newLabel_bind fun i =>
    newLabel_bind fun e => ?_
  have h := seq (setTargets e i) fun _ => withScope <| seq hi fun _ => bind
    (bind (emitLabel t) fun _ => seq (Emits.genLoopTest Γ c e).appends fun _ => emitLabel bl)
      fun _ => seq hb fun _ => bind (emitLabel i) fun _ =>
        seq (Emits.genEffect Γ incr).appends fun _ => seq (emitJmp t) fun _ => emitLabel e
  exact h.perm (List.reverse_perm [e, i, bl, t])

theorem genStmts (Γ : TypeEnv) {ss : List Stmt} (h : ∀ s ∈ ss, Appends [] (genStmt Γ s)) :
    Appends [] (genStmts Γ ss) := by
  induction ss with
  | nil => exact pure _
  | cons s ss ih =>
    exact seq (h s List.mem_cons_self) fun _ => ih fun s' hs' => h s' (List.mem_cons_of_mem s hs')

end Appends

/-- A structured statement places each of its labels once. -/
theorem appends_genStmt (Γ : TypeEnv) {S : Prim → Prop} {agg : Expr → Bool} {l item : Bool}
    {s : Stmt} (h : Structured S agg l item s) : Appends [] (genStmt Γ s) := by
  induction h with
  | compound _ ih => exact .withScope (.genStmts Γ ih)
  | expr _ => exact (Emits.genEffect Γ _).appends
  | decl _ => exact .genDecls Γ _
  | @ifElse l i ln cl c t e _ _ _ iht ihe =>
    refine .genIf Γ c iht fun m hm => ?_
    cases e with
    | none => simp [genStmtOpt] at hm
    | some s =>
      obtain rfl : genStmt Γ s = m := by simpa [genStmtOpt] using hm
      exact ihe s rfl
  | «while» _ _ ihb => exact .genWhile Γ _ ihb
  | doWhile _ _ ihb => exact .genDoWhile Γ _ ihb
  | @«for» l i ln cl init c incr b _ _ _ _ ihi ihb =>
    refine .genFor Γ c incr ?_ ihb
    cases init with
    | none => exact .pure _
    | some s => exact ihi s rfl
  | @ret l i ln cl e _ =>
    cases e with
    | none => exact .emit (by simp)
    | some e =>
      have he := genNode_emits Γ e
      exact .get_bind fun g => .seq (Emits.ite he.aggAddr he.expr).appends fun _ =>
        .emit (by simp)
  | «break» =>
    refine .get_bind fun g => ?_
    split
    · exact .pure _
    · exact .emit (by simp)
  | «continue» =>
    refine .get_bind fun g => ?_
    split
    · exact .pure _
    · exact .emit (by simp)

/-! ### Runs of the source and of the code -/

/-- The finished code runs as the statement does: it comes to the same exits in the same
observed states, to no others, and runs on forever with the statement. -/
structure SameBehaviour {W V Env : Type} (Γ : TypeEnv) (F : IrGen) (M : IrMachine W V)
    (D : PrimSem W V Env) (agg : Expr → Bool) (s : Stmt) (ρ : Env) (c : Config W V) : Prop where
  halts : ∀ x o', D.Halts agg s ρ c.obs x o' →
    ∃ n c', Traced Γ F M n c c' ∧ c'.obs = o' ∧ M.exit F.func.instrs c'.state = some x
  exits : ∀ n s' x, M.Steps F.func.instrs n c.state s' → M.exit F.func.instrs s' = some x →
    ∃ o', D.Halts agg s ρ c.obs x o' ∧ o'.world = s'.world
  diverges : D.Diverges agg s ρ c.obs ↔ M.Diverges F.func.instrs c.state

section

variable {W V Env : Type} {Γ : TypeEnv} {M : IrMachine W V} {D : PrimSem W V Env}
  {S : Prim → Prop} {item : Bool} {s : Stmt} {g : IrGen}

/-- What a run of the source with fuel `n` says about the code: the code too runs for `n` steps,
or it comes to the same exit. -/
theorem timeout_or_exit (hg : BodyStart g) (L : Implements Γ (genStmt Γ s g).2 M D S)
    (hs : Structured S (returnsAggregate g.func.funcType) false item s) {ρ : Env} {o : Observed W}
    {τ : ℕ → V} (hst : L.stands ρ g τ) (n : ℕ) :
    ((D.exec (returnsAggregate g.func.funcType) s ρ n o).1 = .timeout ∧
      ∃ k c', n ≤ k ∧ Traced Γ (genStmt Γ s g).2 M k ⟨g.pos, o, τ⟩ c') ∨
    ∃ x k c', PrimSem.exitOf (D.exec (returnsAggregate g.func.funcType) s ρ n o).1 = some x ∧
      Traced Γ (genStmt Γ s g).2 M k ⟨g.pos, o, τ⟩ c' ∧
      c'.obs = (D.exec (returnsAggregate g.func.funcType) s ρ n o).2 ∧
      M.exit (genStmt Γ s g).2.func.instrs c'.state = some x := by
  have hnodup : (labelsOf (genStmt Γ s g).2.func.instrs).Nodup :=
    (appends_genStmt Γ hs g).nodup (by simp [hg.code]) (by simp [hg.code])
  have hready : Implements.Ready (genStmt Γ s g).2 g.func.funcType false g 0 0 :=
    ⟨hg.labels, rfl, fun h => by simp at h⟩
  have hrun := Implements.performs_genStmt hnodup hs ρ g o τ n 0 0 hst hready
    ⟨List.prefix_rfl, List.suffix_rfl⟩
  have hcomplete := PrimSem.complete_exec (D := D) hs rfl ρ n o
  generalize D.exec (returnsAggregate g.func.funcType) s ρ n o = r at hrun hcomplete ⊢
  obtain ⟨out, o'⟩ := r
  cases out with
  | normal =>
    obtain ⟨k, τ', run, -, -⟩ := hrun
    exact .inr ⟨.fallThrough, k, _, rfl, run, rfl, by simp [IrMachine.exit, Config.state, IrGen.pos]⟩
  | brk => exact absurd rfl hcomplete.1
  | cnt => exact absurd rfl hcomplete.2
  | ret v =>
    obtain ⟨k, pc, τ', run, hexit⟩ := hrun
    exact .inr ⟨_, k, _, rfl, run, rfl, hexit⟩
  | timeout =>
    obtain ⟨k, c', hle, run⟩ := hrun
    exact .inl ⟨rfl, k, c', hle, run⟩

theorem sameBehaviour (hg : BodyStart g) (L : Implements Γ (genStmt Γ s g).2 M D S)
    (hs : Structured S (returnsAggregate g.func.funcType) false item s) {ρ : Env} {o : Observed W}
    {τ : ℕ → V} (hst : L.stands ρ g τ) :
    SameBehaviour Γ (genStmt Γ s g).2 M D (returnsAggregate g.func.funcType) s ρ
      ⟨g.pos, o, τ⟩ where
  halts := by
    rintro x o' ⟨n, out, hexec, hout⟩
    rcases timeout_or_exit hg L hs hst n with ⟨htime, -⟩ | ⟨x', k, c', hx', run, hobs, hexit⟩
    · rw [hexec] at htime
      obtain rfl : out = .timeout := htime
      simp [PrimSem.exitOf] at hout
    · rw [hexec] at hx' hobs
      obtain rfl : x = x' := Option.some.inj (hout.symm.trans hx')
      exact ⟨k, c', run, hobs, hexit⟩
  exits := by
    intro n s' x hsteps hexit'
    have hfinal' := IrMachine.step_eq_none_of_exit hexit'
    rcases timeout_or_exit hg L hs hst (n + 1) with
      ⟨-, k, c', hle, run⟩ | ⟨x', k, c', hx', run, hobs, hexit⟩
    · have := hsteps.le_of_final hfinal' run.steps
      omega
    · have hfinal := IrMachine.step_eq_none_of_exit hexit
      obtain rfl := run.steps.final_unique hfinal hsteps hfinal'
      obtain rfl : x' = x := Option.some.inj (hexit.symm.trans hexit')
      exact ⟨c'.obs, ⟨n + 1, _, Prod.ext rfl hobs.symm, hx'⟩, rfl⟩
  diverges := by
    constructor
    · intro hdiv n
      rcases timeout_or_exit hg L hs hst n with ⟨-, k, c', hle, run⟩ | ⟨x', k, c', hx', -, -, -⟩
      · exact run.steps.take hle
      · rw [hdiv n] at hx'
        simp [PrimSem.exitOf] at hx'
    · intro hdiv n
      rcases timeout_or_exit hg L hs hst n with ⟨htime, -⟩ | ⟨x', k, c', -, run, -, hexit⟩
      · exact htime
      · obtain ⟨s', hsteps⟩ := hdiv (k + 1)
        have := run.steps.le_of_final (IrMachine.step_eq_none_of_exit hexit) hsteps
        omega

end

/-- Where the jumps of `break` and of `continue` inside `s` lead, at any depth. -/
structure JumpsRight (Γ : TypeEnv) (s : Stmt) (g : IrGen) : Prop where
  breaks : ∀ {t b : Stmt} {gt gb g' : IrGen} {k : Nesting} {ln cl : ℤ},
    Nested Γ (fun _ => True) s g t gt → Inside Γ k t gt b gb → k = .loop ∨ k = .switch →
    Nested Γ (· = .plain) b gb (.break ln cl) g' →
    ∃ l pc : ℕ, (genStmt Γ s g).2.func.instrs[g'.pos]? = some { op := .jmp, labelId := l } ∧
      labelIndex (genStmt Γ s g).2.func.instrs l = some pc ∧ (genStmt Γ t gt).2.pos = pc + 1
  continues : ∀ {t b : Stmt} {gt gb g' : IrGen} {ln cl : ℤ},
    Nested Γ (fun _ => True) s g t gt → Inside Γ .loop t gt b gb →
    Nested Γ (fun k => k = .plain ∨ k = .switch) b gb (.continue ln cl) g' →
    ∃ l : ℕ, (genStmt Γ s g).2.func.instrs[g'.pos]? = some { op := .jmp, labelId := l } ∧
      labelIndex (genStmt Γ s g).2.func.instrs l = some (continuePoint Γ t gt b gb)

theorem jumpsRight {Γ : TypeEnv} {s : Stmt} {g : IrGen} (hg : BodyStart g) :
    JumpsRight Γ s g where
  breaks ht hb hk hn := break_jumps hb hk (ht.tidy hg.tidy) (hg.labels.trans_le ht.labels_le)
    ⟨ht.grows.code, ht.grows.strConsts⟩ hn
  continues ht hb hn := continue_jumps hb (ht.tidy hg.tidy) (hg.labels.trans_le ht.labels_le)
    ⟨ht.grows.code, ht.grows.strConsts⟩ hn

/-- The lowering of the body of a function keeps its control flow: over any meaning of the
primitives that their code implements, a structured body and its code behave the same, and
`break` and `continue` lead where they should in every body. -/
theorem control_flow_lowered (Γ : TypeEnv) (module : IRModule) (scope : ScopeChain VarEntry)
    (d : FuncDef) :
    let g := funcStart Γ module scope d
    (∀ {W V Env : Type} (M : IrMachine W V) (D : PrimSem W V Env) (S : Prim → Prop)
        (L : Implements Γ (genStmt Γ d.body g).2 M D S) (ρ : Env) (o : Observed W) (τ : ℕ → V),
      Structured S (returnsAggregate d.funcType) false false d.body → L.stands ρ g τ →
      SameBehaviour Γ (genStmt Γ d.body g).2 M D (returnsAggregate d.funcType) d.body ρ
        ⟨g.pos, o, τ⟩) ∧
    JumpsRight Γ d.body g := by
  intro g
  obtain ⟨hstart, hft⟩ := funcStart_scanning Γ module scope d
  refine ⟨fun M D S L ρ o τ hs hst => ?_, jumpsRight hstart⟩
  rw [← hft] at hs ⊢
  exact sameBehaviour hstart L hs hst

/-! ### A loop over calls

The primitives are calls of one function, whose results are the numbers in the world. -/

def callF : Expr := .call { type := some typeInt } (.ident {} "f") []

def queueMachine : IrMachine (List ℕ) ℕ where
  literal v := match v.kind with
    | .constInt c => c.toNat
    | _ => 0
  isTrue n := n ≠ 0
  effect i w τ := (w.tail, IrMachine.writeTemp τ i.dst (w.headD 0))

def queueSem : PrimSem (List ℕ) ℕ Unit where
  eval _ _ w := (w.headD 0, w.tail)
  declare _ ρ := ρ
  isTrue n := n ≠ 0
  ofBool b := if b then 1 else 0

theorem genPrim_callF {g : IrGen} (h : g.scope.lookup vtabBuckets "f" = none) :
    genPrim .empty (.value callF) g = (irvTemp g.func.nextTemp typeInt,
      (emit (irCall .empty (irvTemp g.func.nextTemp typeInt) (irvGlobal "f" typeInt) [] typeInt)
        (newTemp g).2).2) := by
  have hident : genIdent "f" none g = (irvGlobal "f" typeInt, g) := by
    simp only [genIdent, Gen.run_vscopeLookup_bind, h, Gen.run_pure, Option.getD_none]
  have hcall : genPrim .empty (.value callF) g = (genCallDst .empty typeInt >>= fun dst =>
      emit (irCall .empty dst (genIdent "f" none g).1 [] typeInt) >>= fun _ => return dst)
      (genIdent "f" none g).2 := rfl
  rw [hcall, hident]
  rfl

def queueImplements (F : IrGen) :
    Implements .empty F queueMachine queueSem (· = .value callF) where
  stands _ g _ := g.scope.lookup vtabBuckets "f" = none
  stands_mono h hlookup _ _ := (hlookup _).trans h
  isTrue := rfl
  ofBool b := by cases b <;> rfl
  run := by
    rintro p ρ g τ w rfl hst hF
    rw [genPrim_callF hst] at hF ⊢
    have hi : F.func.instrs[g.pos]? = some (irCall .empty (irvTemp g.func.nextTemp typeInt)
      (irvGlobal "f" typeInt) [] typeInt) := hF.emitted
    refine ⟨1, Function.update τ g.func.nextTemp (w.headD 0), .head ?_ (.refl _),
      AgreeBelow.refl.update le_rfl _, irvTemp_kind_ne_none _ _, Function.update_self ..⟩
    have hpos : (emit (irCall .empty (irvTemp g.func.nextTemp typeInt)
      (irvGlobal "f" typeInt) [] typeInt) (newTemp g).2).2.pos = g.pos + 1 := List.length_append
    rw [hpos]
    simp only [IrMachine.step, hi]
    rfl

/-- `while (f()) { if (f() && f()) break; f(); }` -/
def queueLoop : FuncDef where
  name := "main"
  funcType := none
  params := []
  body := .while 0 0 callF <| .compound
    [.ifElse 0 0 (.binop { type := some typeInt } .and callF callF) (.break 0 0) none,
      .expr (some callF)]

theorem control_flow_lowered_queueLoop :
    ∃ n c', Traced .empty (genStmt .empty queueLoop.body (funcStart .empty {} [] queueLoop)).2
        queueMachine n ⟨0, ⟨[1, 1, 1], []⟩, fun _ => 0⟩ c' ∧
      c'.obs = ⟨[], [.value callF, .value callF, .value callF]⟩ ∧
      queueMachine.exit
        (genStmt .empty queueLoop.body (funcStart .empty {} [] queueLoop)).2.func.instrs
        c'.state = some .fallThrough := by
  have hcall : ComposedOf (· = .value callF) callF := .prim rfl rfl
  have hbody : Structured (· = .value callF) (returnsAggregate none) false false queueLoop.body := by
    refine .while hcall (.compound fun s hs => ?_)
    rcases List.mem_pair.mp hs with rfl | rfl
    · exact .ifElse (.logical (.inl rfl) hcall hcall) .break (by simp)
    · exact .expr (by simpa using hcall)
  exact ((control_flow_lowered .empty {} [] queueLoop).1 queueMachine queueSem _
    (queueImplements _) () ⟨[1, 1, 1], []⟩ (fun _ => 0) hbody rfl).halts _ _
      ⟨2, .normal, rfl, rfl⟩

end TinyC
