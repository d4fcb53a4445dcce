import TinyC.CodegenUnit
import TinyC.LexerSpans
import TinyC.ParserBound
import TinyC.Readback
import TinyC.Sema
import TinyC.TypeHistory

/-!
# The pipeline

`compile` takes a source text through the stages and writes the assembly. Three counters keep
track of errors: that of the diagnostics, of the parser and of sema.
-/

namespace TinyC

/-! ### The stages -/

/-- `parser_error_count`, an `int`. -/
def parserErrorCount {L : Type} (p : Parser L) : ℤ := toInt32 p.nErrors

/-- `diag_error_count`, an `int`. -/
def diagErrorCount (diags : List Diag) : ℤ := toInt32 (diags.countP Diag.isError)

/-- What a run of `compile` leaves behind. -/
structure CompileResult where
  status : ℕ
  /-- What is written to the output. -/
  output : List AsmLine
  diags : List Diag

/-- What `compile` does once the parser has found no error. `irgenOf` stands for `irgen`, which reads
the types that sema leaves and emits no diagnostics; the output file can be opened. -/
def compileParsed (irgenOf : TypeTable → RawUnit → Except Stuck (TypeEnv × IRModule))
    (unit : RawUnit) (p : Parser SourceText) : Except Stuck CompileResult := do
  let (unit, s) ← semaCheck unit (semaInit p.types)
  let (Γ, m) ← irgenOf s.types unit
  let diags := p.lexer.lexer.diags ++ s.diags
  return { status := if diagErrorCount diags > 0 then 1 else 0, output := codegen Γ m
           diags := diags }

/-- The pipeline. -/
def compileWith (irgenOf : TypeTable → RawUnit → Except Stuck (TypeEnv × IRModule)) (lib : LibC)
    (addr : TypeRef → BitVec 64) (n : ℕ) (src : List Byte) : Except Stuck CompileResult := do
  let (unit, p) ← parserParse n (parserInit (sourceText lib src) (typeTableInit addr))
  if parserErrorCount p > 0 then
    return { status := 1, output := [], diags := p.lexer.lexer.diags }
  else compileParsed irgenOf unit p

/-- `irgen` on types that can be followed to their ends. -/
def irgenTyped (t : TypeTable) (unit : RawUnit) : Except Stuck (TypeEnv × IRModule) := do
  let Γ ← t.env
  let tu ← t.readUnit unit
  return (Γ, irgen Γ tu)

def compile := compileWith irgenTyped

/-! ### Errors of the parser -/

def NoErrors (diags : List Diag) : Prop := ∀ d ∈ diags, d.isError = false

instance (diags : List Diag) : Decidable (NoErrors diags) :=
  inferInstanceAs (Decidable (∀ d ∈ diags, d.isError = false))

theorem NoErrors.append {ds es : List Diag} : NoErrors (ds ++ es) ↔ NoErrors ds ∧ NoErrors es :=
  List.forall_mem_append

theorem diagErrorCount_of_noErrors {diags : List Diag} (h : NoErrors diags) :
    diagErrorCount diags = 0 := by
  have hcount : diags.countP Diag.isError = 0 :=
    List.countP_eq_zero.mpr fun d hd => by simp [h d hd]
  rw [diagErrorCount, hcount]
  rfl

theorem NoErrors.of_prefix {ds es : List Diag} (h : NoErrors es) (hle : ds <+: es) : NoErrors ds :=
  fun d hd => h d (hle.subset hd)

theorem lexerPeek_diags (strtod : List Byte → BitVec 64) (l : Lexer) :
    l.diags <+: (lexerPeek strtod l).2.diags := by
  unfold lexerPeek
  split
  · exact List.prefix_rfl
  · exact (later_scanToken strtod l).diags

theorem lexerNext_diags (strtod : List Byte → BitVec 64) (l : Lexer) :
    l.diags <+: (lexerNext strtod l).2.diags := by
  unfold lexerNext
  split
  · exact List.prefix_rfl
  · exact (later_scanToken strtod l).diags

/-- Messages are only added, and where the parser counts an error one is among them. -/
structure Reports (p p' : Parser SourceText) : Prop where
  diags : p.lexer.lexer.diags <+: p'.lexer.lexer.diags
  errors : p.nErrors ≠ p'.nErrors → ¬NoErrors p'.lexer.lexer.diags

/-- A step that counts no error. -/
theorem Reports.of_diags {p p' : Parser SourceText}
    (hdiags : p.lexer.lexer.diags <+: p'.lexer.lexer.diags) (herrors : p'.nErrors = p.nErrors) :
    Reports p p' := ⟨hdiags, fun h => absurd herrors.symm h⟩

theorem reports_stepRules : StepRules Reports where
  refl p := .of_diags List.prefix_rfl rfl
  trans := by
    intro p q r h h'
    refine ⟨h.diags.trans h'.diags, fun hne => ?_⟩
    by_cases hpq : p.nErrors = q.nErrors
    · exact h'.errors (hpq ▸ hne)
    · exact fun hno => h.errors hpq (hno.of_prefix h'.diags)
  peek p := .of_diags (lexerPeek_diags _ _) rfl
  advance p := .of_diags (lexerNext_diags _ _) rfl
  parseError p line col msg := by
    refine ⟨List.prefix_append _ _, fun _ hno => ?_⟩
    have hlast := hno ⟨true, line, col, msg⟩ (List.mem_append_right _ (List.mem_singleton_self _))
    cases hlast
  typeCall p c _ := .of_diags List.prefix_rfl rfl
  scopes p scope tagScope := .of_diags List.prefix_rfl rfl
  counters p loops switches nodes _ := .of_diags List.prefix_rfl rfl

theorem reports_parseRules : ParseRules (fun {_} m _ => Steps Reports m) :=
  reports_stepRules.parseRules (fun _ _ => .of_diags List.prefix_rfl rfl) fun _ _ =>
    .of_diags List.prefix_rfl rfl

/-! ### Runs -/

section Runs

variable (irgenOf : TypeTable → RawUnit → Except Stuck (TypeEnv × IRModule)) (lib : LibC)
  (addr : TypeRef → BitVec 64) (src : List Byte)

/-- The parser comes to an end. -/
def Parses (unit : RawUnit) (p : Parser SourceText) : Prop :=
  ∃ n, parserParse n (parserInit (sourceText lib src) (typeTableInit addr)) = .ok (unit, p)

/-- `compile` comes to an end. -/
def Compiles (r : CompileResult) : Prop := ∃ n, compileWith irgenOf lib addr n src = .ok r

variable {irgenOf lib addr src}

/-- What the parser counts has been reported. -/
theorem Parses.reported {unit : RawUnit} {p : Parser SourceText} (h : Parses lib addr src unit p)
    (hcount : 0 < parserErrorCount p) : ¬NoErrors p.lexer.lexer.diags := by
  obtain ⟨n, hn⟩ := h
  apply (reports_parseRules.parserParse n _ _ _ hn).errors
  intro hzero
  have hcount' : 0 < toInt32 (0 : ℕ) := by
    rw [parserErrorCount, ← hzero] at hcount
    exact hcount
  exact absurd hcount' (by decide)

theorem compileParsed_ok {unit : RawUnit} {p : Parser SourceText} {r : CompileResult}
    (h : compileParsed irgenOf unit p = .ok r) :
    ∃ checked s Γ m, semaCheck unit (semaInit p.types) = .ok (checked, s) ∧
      irgenOf s.types checked = .ok (Γ, m) ∧ r.output = codegen Γ m ∧
      r.diags = p.lexer.lexer.diags ++ s.diags ∧
      r.status = if diagErrorCount r.diags > 0 then 1 else 0 := by
  obtain ⟨⟨checked, s⟩, hsema, h⟩ := except_bind_ok h
  obtain ⟨⟨Γ, m⟩, hirgen, h⟩ := except_bind_ok h
  have hr := Except.ok.inj h
  exact ⟨checked, s, Γ, m, hsema, hirgen, by rw [← hr], by rw [← hr], by rw [← hr]⟩

/-- The two ways in which `compile` comes to an end. -/
theorem compiles_iff {r : CompileResult} : Compiles irgenOf lib addr src r ↔
    ∃ unit p, Parses lib addr src unit p ∧
      (parserErrorCount p > 0 ∧ r = ⟨1, [], p.lexer.lexer.diags⟩ ∨
        ¬parserErrorCount p > 0 ∧ compileParsed irgenOf unit p = .ok r) := by
  have hsplit : ∀ unit p, ((if parserErrorCount p > 0 then .ok ⟨1, [], p.lexer.lexer.diags⟩
      else compileParsed irgenOf unit p) = Except.ok r) ↔
      (parserErrorCount p > 0 ∧ r = ⟨1, [], p.lexer.lexer.diags⟩ ∨
        ¬parserErrorCount p > 0 ∧ compileParsed irgenOf unit p = .ok r) := by
    intro unit p
    by_cases hcount : parserErrorCount p > 0
    · simp only [hcount, if_true, true_and, not_true, false_and, or_false, Except.ok.injEq, eq_comm]
    · simp only [hcount, if_false, false_and, not_false_iff, true_and, false_or]
  constructor
  · rintro ⟨n, h⟩
    obtain ⟨⟨unit, p⟩, hparse, h⟩ := except_bind_ok h
    exact ⟨unit, p, ⟨n, hparse⟩, (hsplit unit p).mp h⟩
  · rintro ⟨unit, p, ⟨n, hparse⟩, h⟩
    have hrun : compileWith irgenOf lib addr n src = if parserErrorCount p > 0 then
        .ok ⟨1, [], p.lexer.lexer.diags⟩ else compileParsed irgenOf unit p := by
      simp only [compileWith, hparse, bind, Except.bind, pure, Except.pure]
    exact ⟨n, hrun.trans ((hsplit unit p).mpr h)⟩

theorem Parses.unique {unit unit' : RawUnit} {p p' : Parser SourceText}
    (h : Parses lib addr src unit p) (h' : Parses lib addr src unit' p') :
    unit = unit' ∧ p = p' := by
  obtain ⟨n, hn⟩ := h
  obtain ⟨n', hn'⟩ := h'
  exact Prod.mk.inj (parserParse_unique hn hn')

/-- A run that comes to an end does so in one way. -/
theorem Compiles.unique {r r' : CompileResult} (h : Compiles irgenOf lib addr src r)
    (h' : Compiles irgenOf lib addr src r') : r = r' := by
  obtain ⟨n, hn⟩ := h
  obtain ⟨n', hn'⟩ := h'
  obtain ⟨r, hr, hk⟩ := except_bind_ok hn
  obtain ⟨r', hr', hk'⟩ := except_bind_ok hn'
  rw [← parserParse_unique hr hr'] at hk'
  exact Except.ok.inj (hk.symm.trans hk')

/-! ### Output and errors -/

/-- Status and output go by the diagnostics. -/
structure CompileResult.Honest (r : CompileResult) : Prop where
  status : r.status = 0 ↔ NoErrors r.diags
  silent : ¬NoErrors r.diags → r.status ≠ 0 ∧ r.output = []

/-- After an error of the parser nothing is written. -/
theorem honest_of_parserError {unit : RawUnit} {p : Parser SourceText} (h : Parses lib addr src unit p)
    (hcount : parserErrorCount p > 0) :
    CompileResult.Honest ⟨1, [], p.lexer.lexer.diags⟩ :=
  ⟨iff_of_false one_ne_zero (h.reported hcount), fun _ => ⟨one_ne_zero, rfl⟩⟩

/-- Otherwise the output is written whatever has been reported. -/
theorem honest_of_output {r : CompileResult} (hout : r.output ≠ [])
    (hstatus : r.status = if diagErrorCount r.diags > 0 then 1 else 0) :
    r.Honest ↔ NoErrors r.diags := by
  constructor
  · intro h
    by_contra hno
    exact hout (h.silent hno).2
  · intro hno
    have hzero : r.status = 0 := by
      rw [hstatus, diagErrorCount_of_noErrors hno]
      rfl
    exact ⟨iff_of_true hzero hno, fun h => absurd hno h⟩

variable (irgenOf lib addr src) in
/-- The stages come to an end, and either the parser counts an error or no stage reports one. -/
def OnlyParserErrs : Prop :=
  ∃ unit p, Parses lib addr src unit p ∧ (parserErrorCount p > 0 ∨
    NoErrors p.lexer.lexer.diags ∧ ∃ checked s,
      semaCheck unit (semaInit p.types) = .ok (checked, s) ∧ NoErrors s.diags ∧
        ∃ r, irgenOf s.types checked = .ok r)

/-- Output is withheld after errors of the parser, and after no others. -/
theorem compile_honest_iff (irgenOf : TypeTable → RawUnit → Except Stuck (TypeEnv × IRModule))
    (lib : LibC) (addr : TypeRef → BitVec 64) (src : List Byte) :
    (∃ r, Compiles irgenOf lib addr src r ∧ r.Honest) ↔ OnlyParserErrs irgenOf lib addr src := by
  constructor
  · rintro ⟨r, hr, hhonest⟩
    obtain ⟨unit, p, hparse, ⟨hcount, rfl⟩ | ⟨hcount, hr⟩⟩ := compiles_iff.mp hr
    · exact ⟨unit, p, hparse, .inl hcount⟩
    · obtain ⟨checked, s, Γ, m, hsema, hirgen, hout, hdiags, hstatus⟩ := compileParsed_ok hr
      have hno := (honest_of_output (by rw [hout]; exact List.cons_ne_nil _ _) hstatus).mp hhonest
      rw [hdiags, NoErrors.append] at hno
      exact ⟨unit, p, hparse, .inr ⟨hno.1, checked, s, hsema, hno.2, _, hirgen⟩⟩
  · rintro ⟨unit, p, hparse, hcount | ⟨hlexer, checked, s, hsema, hno, ⟨Γ, m⟩, hirgen⟩⟩
    · exact ⟨_, compiles_iff.mpr ⟨unit, p, hparse, .inl ⟨hcount, rfl⟩⟩,
        honest_of_parserError hparse hcount⟩
    · by_cases hcount : parserErrorCount p > 0
      · exact ⟨_, compiles_iff.mpr ⟨unit, p, hparse, .inl ⟨hcount, rfl⟩⟩,
          honest_of_parserError hparse hcount⟩
      · have hrun : ∃ r, compileParsed irgenOf unit p = .ok r := by
          unfold compileParsed
          rw [hsema]
          change ∃ r, (irgenOf s.types checked >>= _) = Except.ok r
          rw [hirgen]
          exact ⟨_, rfl⟩
        obtain ⟨r, hr⟩ := hrun
        obtain ⟨checked', s', Γ', m', hsema', hirgen', hout, hdiags, hstatus⟩ := compileParsed_ok hr
        obtain ⟨rfl, rfl⟩ := Prod.mk.inj (Except.ok.inj (hsema.symm.trans hsema'))
        refine ⟨r, compiles_iff.mpr ⟨unit, p, hparse, .inr ⟨hcount, hr⟩⟩, ?_⟩
        apply (honest_of_output (by rw [hout]; exact List.cons_ne_nil _ _) hstatus).mpr
        rw [hdiags, NoErrors.append]
        exact ⟨hlexer, hno⟩

end Runs

/-- Is something written although an error has been reported? -/
def CompileResult.writesAfterError (r : CompileResult) : Bool :=
  !r.output.isEmpty && !decide (NoErrors r.diags)

/-- A comment that is not closed after the last declaration is noticed too late. -/
theorem output_after_lexical_error :
    ¬∀ src, ∃ r, Compiles irgenTyped ⟨fun _ => 0, fun _ => ""⟩ arenaAddr src r ∧ r.Honest := by
  intro h
  obtain ⟨r, hr, hhonest⟩ := h ("int x; /*".toList.map ch)
  have hlate : ((compile ⟨fun _ => 0, fun _ => ""⟩ arenaAddr 40
      ("int x; /*".toList.map ch)).toOption.any CompileResult.writesAfterError) = true := by
    decide +kernel
  cases hrun : compile ⟨fun _ => 0, fun _ => ""⟩ arenaAddr 40 ("int x; /*".toList.map ch) with
  | error e =>
    rw [hrun] at hlate
    cases hlate
  | ok r' =>
    rw [hrun] at hlate
    have heq : r = r' := hr.unique ⟨40, hrun⟩
    obtain ⟨hout, herror⟩ := Bool.and_eq_true_iff.mp (show (!r'.output.isEmpty &&
      !decide (NoErrors r'.diags)) = true from hlate)
    have hno : ¬NoErrors r.diags := by simpa [heq] using herror
    simp [← heq, (hhonest.silent hno).2] at hout

end TinyC
