import TinyC.PrattParsing

/-!
# Initializers against arguments

An argument of a call and an initializer are assignment expressions in C. `parse_initializer`
enters the loop one level higher: of an assignment it reads the left side alone.
-/

namespace TinyC

section

variable {L : Type} [TokenSource L] [LawfulTokenSource L] {p q d : Parser L} {e l : RawExpr}

theorem startsExpr_ne_designator {k : TokenKind} (h : startsExpr k = true) :
    k ≠ .dot ∧ k ≠ .lbracket := by
  constructor <;> (rintro rfl; cases h)

theorem tokLbp_le_comma {k : TokenKind} (h : continuesExpr k = true → k = .comma) :
    tokLbp k ≤ 10 := by
  cases hk : continuesExpr k with
  | true => rw [h hk]; decide
  | false => rw [tokLbp_eq_zero hk]; decide

/-! ### An initializer in its three places -/

theorem run_initializer_look (n : ℕ) (p : Parser L) :
    (parsers n).initializer p.look = (parsers n).initializer p := by
  cases n with
  | zero => rfl
  | succ n =>
    change parseInitializer (parsers n) p.look = parseInitializer (parsers n) p
    unfold parseInitializer
    rw [run_bind (run_check _ _), run_bind (run_check _ _), Parser.look_look, Parser.kind_look]

theorem initializer_look :
    Ends (fun F => F.initializer) p.look e q ↔ Ends (fun F => F.initializer) p e q := by
  simp only [Ends, run_initializer_look]

omit [LawfulTokenSource L] in
theorem initializer_iff :
    Ends (fun F => F.initializer) p e q ↔ Ends (fun F => parseInitializer F) p e q :=
  Ends.call_iff fun _ => rfl

/-- Without a brace it is an expression. -/
theorem initializer_of_expr (hp : startsExpr p.kind = true)
    (h : Ends (fun F => F.expr 20) p e q) : Ends (fun F => F.initializer) p e q := by
  rw [initializer_iff]
  refine Ends.step (run_check .lbrace p) ?_
  simp only [startsExpr_ne_lbrace hp, decide_false, Bool.false_eq_true, if_false]
  exact expr_look.mpr h

theorem initItem_plain (hp : startsExpr p.kind = true)
    (h : Ends (fun F => F.initializer) p e q) : Ends (fun F => initItem F) p e q := by
  obtain ⟨hdot, hbracket⟩ := startsExpr_ne_designator hp
  have hdot' : ¬p.token.kind = .dot := hdot
  have hbracket' : ¬p.token.kind = .lbracket := hbracket
  refine Ends.step (run_peek p) ?_
  simp only [hdot', hbracket', if_false]
  exact initializer_look.mpr h

/-- `.name =` stands in `d` before `p`. -/
structure FieldBefore (d p : Parser L) : Prop where
  dot : d.kind = .dot
  ident : d.skip.kind = .ident
  assign : d.skip.skip.kind = .assign
  value : d.skip.skip.skip = p

/-- `[index] =` stands in `d` before `p`. -/
structure IndexBefore (d : Parser L) (index : RawExpr) (p : Parser L) : Prop where
  lbracket : d.kind = .lbracket
  index : ∃ r, Ends (fun F => F.expr 0) d.skip index r ∧ r.kind = .rbracket ∧
    r.skip.kind = .assign ∧ r.skip.skip = p

/-- `=` stands in `d` before `p`, which counts one node more. -/
structure AssignBefore (d p : Parser L) : Prop where
  assign : d.kind = .assign
  value : { d.skip with nextNode := d.nextNode + 1 } = p

theorem initItem_field (hd : FieldBefore d p) (h : Ends (fun F => F.initializer) p e q) :
    Ends (fun F => initItem F) d
      (.fieldDesig d.token.info (d.skip.skip.textOf d.skip.token) e) q := by
  obtain ⟨hdot, hident, hassign, rfl⟩ := hd
  have hdot' : d.token.kind = .dot := hdot
  refine Ends.step (run_peek d) ?_
  simp only [hdot', if_true]
  refine Ends.step (run_advance _) ?_
  rw [Parser.skip_look]
  exact Ends.step (run_expect hident) (Ends.step (run_tokIntern _ _)
    (Ends.step (run_expect hassign) (h.map _)))

theorem initItem_index {index : RawExpr} (hd : IndexBefore d index p)
    (h : Ends (fun F => F.initializer) p e q) :
    Ends (fun F => initItem F) d (.indexDesig d.token.info index e) q := by
  obtain ⟨hbracket, r, hindex, hclose, hassign, rfl⟩ := hd
  have hbracket' : d.token.kind = .lbracket := hbracket
  refine Ends.step (run_peek d) ?_
  simp only [hbracket', reduceCtorEq, if_false, if_true]
  refine Ends.step (run_advance _) ?_
  rw [Parser.skip_look]
  exact hindex.bind (Ends.step (run_expect hclose) (Ends.step (run_expect hassign) (h.map _)))

/-- The declaration of a variable, and the state after its name is in scope. -/
def declaredVar (d : Parser L) (ds : DeclSpec) (dn : DeclName) (name : String)
    (type : Option TypeRef) (init : RawExpr) : RawDecl :=
  .var { node := d.nextNode, line := dn.line, col := dn.col, name := name, declType := type,
         init := some init, storage := ds.storage }

def inScope (q : Parser L) (name : String) (type : Option TypeRef) : Parser L :=
  { q with scope := q.scope.define scopeBuckets name ⟨.var, type⟩ }

theorem varDecl_initialized {ds : DeclSpec} {dn : DeclName} {name : String}
    {type : Option TypeRef} (hd : AssignBefore d p)
    (h : Ends (fun F => F.initializer) p e q) :
    Ends (fun F => varDecl F ds dn name type) d (declaredVar d ds dn name type e)
      (inScope q name type) := by
  obtain ⟨hassign, rfl⟩ := hd
  have hsome : Ends (fun F => some <$> parseInitializer F)
      { d.skip with nextNode := d.nextNode + 1 } (some e) q :=
    ((initializer_iff.mp h).map some).of_eq fun F => by rw [map_eq_pure_bind]
  have hkind : Parser.kind { d with nextNode := d.nextNode + 1 } = .assign := hassign
  refine Ends.step (m := newNode) rfl (Ends.step (run_accept .assign _) ?_)
  simp only [hkind, decide_true, if_true]
  exact hsome.bind (Ends.step (m := scopeDefine name .var type) rfl (Ends.of_run rfl))

/-! ### Assignments are not read whole -/

/-- Of an assignment, the loop of an initializer reads the left side. -/
theorem initializer_assign {k : TokenKind} {i : RawInfo} {r : RawExpr} {m : Parser L}
    {asRead : Prop} (hl : Derives asRead .unaryExpr p l m) (hm : isAssignOp m.kind = true) :
    Ends (fun F => F.initializer) p l m.look ∧ l ≠ .assign i k l r := by
  have hlbp := tokLbp_assign hm
  refine ⟨initializer_of_expr hl.starts (hl.reads (by decide) (le_of_eq hlbp) ?_), ?_⟩
  · rw [hlbp]
    decide
  · intro h
    have hsize := congrArg sizeOf h
    simp only [RawExpr.assign.sizeOf_spec] at hsize
    omega

omit [LawfulTokenSource L] in
/-- An assignment expression without an assignment on top. -/
theorem Derives.conditional_or_assign {asRead : Prop} (h : Derives asRead .assignment p e q) :
    Derives asRead .conditional p e q ∨ ∃ i k l r m, e = .assign i k l r ∧
      isAssignOp (Parser.kind m) = true ∧ Derives asRead .unaryExpr p l m := by
  cases h with
  | up h => exact Or.inl h
  | assign hl hm hr => exact Or.inr ⟨_, _, _, _, _, rfl, hm, hl⟩
  | binop hl hm hr => exact absurd (ExprCat.tokLbp_binary hm).2.1 (by decide)

/-- Whatever is made of an initializer, it is made of the whole expression only when no assignment
is on top. -/
theorem initialized_iff {α : Type} {m : ParseFns L → ParseM L α} {f : RawExpr → α}
    {g : Parser L → Parser L} (hinj : ∀ a b, f a = f b → a = b)
    (hmade : ∀ {e' q'}, Ends (fun F => F.initializer) p e' q' → Ends m d (f e') (g q'))
    (h : Derives True .assignment p e q) (hq : continuesExpr q.kind = true → q.kind = .comma) :
    Ends m d (f e) (g q.look) ↔ Derives True .conditional p e q := by
  have hlbp := tokLbp_le_comma hq
  constructor
  · intro hends
    rcases h.conditional_or_assign with hc | ⟨i, k, l, r, n, rfl, hn, hl⟩
    · exact hc
    · obtain ⟨hleft, hne⟩ := initializer_assign (i := i) (k := k) (r := r) hl hn
      exact absurd (hinj _ _ (hends.unique (hmade hleft)).1).symm hne
  · intro hc
    exact hmade (initializer_of_expr hc.starts
      (hc.reads (by decide) (hlbp.trans (by decide)) (hlbp.trans (by decide))))

/-- Every assignment expression is read whole as an argument. As an item of a list, as the value
of a designator and as the initializer of a declarator it is read so exactly when it is a
conditional expression. -/
theorem initializer_reads_iff (h : Derives True .assignment p e q)
    (hq : continuesExpr q.kind = true → q.kind = .comma) :
    Ends (fun F => F.expr (tokLbp .comma)) p e q.look ∧
    (Ends (fun F => initItem F) p e q.look ↔ Derives True .conditional p e q) ∧
    (∀ d, FieldBefore d p → (Ends (fun F => initItem F) d
        (.fieldDesig d.token.info (d.skip.skip.textOf d.skip.token) e) q.look ↔
      Derives True .conditional p e q)) ∧
    (∀ d index, IndexBefore d index p → (Ends (fun F => initItem F) d
        (.indexDesig d.token.info index e) q.look ↔ Derives True .conditional p e q)) ∧
    ∀ d ds dn name type, AssignBefore d p → (Ends (fun F => varDecl F ds dn name type) d
        (declaredVar d ds dn name type e) (inScope q.look name type) ↔
      Derives True .conditional p e q) := by
  have hlbp := tokLbp_le_comma hq
  refine ⟨h.reads (by decide) hlbp (hlbp.trans (by decide)), ?_, ?_, ?_, ?_⟩
  · exact initialized_iff (f := id) (g := id) (fun _ _ hab => hab)
      (fun he => initItem_plain h.starts he) h hq
  · intro d hd
    exact initialized_iff (g := id) (fun _ _ hab => (RawExpr.fieldDesig.inj hab).2.2)
      (fun he => initItem_field hd he) h hq
  · intro d index hd
    exact initialized_iff (g := id) (fun _ _ hab => (RawExpr.indexDesig.inj hab).2.2)
      (fun he => initItem_index hd he) h hq
  · intro d ds dn name type hd
    refine initialized_iff (f := declaredVar d ds dn name type)
      (g := fun q => inScope q name type) (fun _ _ hab => ?_)
      (fun he => varDecl_initialized hd he) h hq
    simpa [declaredVar] using hab

end

/-- What stands after `int x =`. -/
def chainText : Parser SourceText := textParser "a = b;"

theorem chainText_derives {asRead : Prop} : ∃ e, Derives asRead .assignment chainText e
    chainText.skip.skip.skip :=
  ⟨_, .assign (.ups 2 (.ident (by decide +kernel))) (by decide +kernel)
    (.ups 15 (.ident (by decide +kernel)))⟩

theorem chained_initializer_cut :
    ¬∀ (p q : Parser SourceText) (e : RawExpr), Derives False .assignment p e q →
      (continuesExpr q.kind = true → q.kind = .comma) →
      Ends (fun F => F.initializer) p e q.look := by
  intro hall
  obtain ⟨e, h⟩ := chainText_derives
  have hread := hall _ _ _ h (by decide +kernel)
  have hleft : Derives False .unaryExpr chainText _ chainText.skip :=
    .ups 2 (.ident (by decide +kernel))
  have hcut := (initializer_assign (k := .assign) (i := {}) (r := e) hleft (by decide +kernel)).1
  have hkind := congrArg Parser.kind (hread.unique hcut).2
  rw [Parser.kind_look, Parser.kind_look] at hkind
  exact absurd hkind (by decide +kernel)

def choiceText : Parser SourceText := textParser "a ? b : c, d;"

theorem initializer_reads_choice : ∃ e,
    Ends (fun F => initItem F) choiceText e choiceText.skip.skip.skip.skip.skip.look := by
  have h : Derives True .conditional choiceText _ choiceText.skip.skip.skip.skip.skip :=
    .ternary (.ups 13 (.ident (by decide +kernel))) (by decide +kernel)
      (.ups 16 (.ident (by decide +kernel))) (by decide +kernel)
      (.ups 14 (.ident (by decide +kernel)))
  exact ⟨_, (initializer_reads_iff (.up h) (by decide +kernel)).2.1.mpr h⟩

end TinyC
