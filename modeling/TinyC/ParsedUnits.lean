import TinyC.BodyMarks
import TinyC.IdentifierNames
import TinyC.ParserRuns

/-!
# Parsed functions

The functions of a unit that is parsed are named by identifiers, and the marks of their bodies are
those that were set when they were read.
-/

namespace TinyC

theorem peekNamed_stepRules : StepRules fun p p' : Parser SourceText =>
    p.lexer.lexer.PeekNamed → p'.lexer.lexer.PeekNamed where
  refl _ := id
  trans h h' := h' ∘ h
  peek p := lexerPeek_peekNamed p.lexer.lib.strtod
  advance p _ := lexerNext_peekNamed p.lexer.lib.strtod p.lexer.lexer
  parseError _ _ _ _ h := h
  typeCall _ _ _ h := h
  scopes _ _ _ h := h
  counters _ _ _ _ _ h := h

theorem peekNamed_parseRules : ParseRules (L := SourceText) fun {_} m _ =>
    Steps (fun p p' => p.lexer.lexer.PeekNamed → p'.lexer.lexer.PeekNamed) m :=
  peekNamed_stepRules.parseRules (fun _ _ h => h) fun _ _ h => h

/-- While the tokens are named, `m` gives what meets `P`. -/
def Gives {α : Type} (P : α → Prop) (m : ParseM SourceText α) : Prop :=
  ∀ p a p', m p = .ok (a, p') → p.lexer.lexer.PeekNamed → p'.lexer.lexer.PeekNamed ∧ P a

section

variable {α β : Type} {P : α → Prop} {R : β → Prop} {m : ParseM SourceText α}
  {k : α → ParseM SourceText β}

namespace Gives

theorem pure {a : α} (ha : P a) : Gives P (Pure.pure a) := by
  intro p b p' hrun hp
  cases hrun
  exact ⟨hp, ha⟩

theorem bind (hm : Gives P m) (hk : ∀ a, P a → Gives R (k a)) : Gives R (m >>= k) := by
  intro p b p' hrun hp
  obtain ⟨a, q, hrunm, hrunk⟩ := ParseM.bind_ok hrun
  obtain ⟨hq, ha⟩ := hm p a q hrunm hp
  exact hk a ha q b p' hrunk hq

theorem throw (e : Stuck) : Gives P (throw e : ParseM SourceText α) := by
  intro p a p' hrun
  cases hrun

theorem ite {c : Prop} [Decidable c] {m' : ParseM SourceText α} (hm : Gives P m)
    (hm' : Gives P m') : Gives P (if c then m else m') := by
  split
  · exact hm
  · exact hm'

/-- Nothing is known of what is read first. -/
theorem seq (hm : Steps (fun p p' => p.lexer.lexer.PeekNamed → p'.lexer.lexer.PeekNamed) m)
    (hk : ∀ a, Gives R (k a)) : Gives R (m >>= k) :=
  bind (P := fun _ => True) (fun p a p' hrun hp => ⟨hm p a p' hrun hp, trivial⟩) fun a _ => hk a

end Gives

/-- A declarator whose name, if it has one, is an identifier. -/
def DeclNamed (r : DeclName × Option TypeRef) : Prop := ∀ name ∈ r.1.name, IsName name

/-- A function as it is read. -/
structure RawFunc.Read (f : RawFunc) : Prop where
  name : IsName f.name
  marks : ∃ lo hi, Mark.SetBetween lo hi f.body.marks

def RawTop.Read : RawTop → Prop
  | .func f => f.Read
  | .decl _ => True

/-- What the functions of a record give. -/
structure GivesNames (F : ParseFns SourceText) : Prop where
  steps : F.Related (fun {_} m _ =>
    Steps (fun p p' => p.lexer.lexer.PeekNamed → p'.lexer.lexer.PeekNamed) m) F
  sets : SetsMarks F
  declarator : ∀ base, Gives DeclNamed (F.declarator base)
  declarators : ∀ ds topLevel base decls,
    Gives (fun r => ∀ f ∈ r.2, f.Read) (F.declarators ds topLevel base decls)
  topDecls : ∀ unit, (∀ d ∈ unit, d.Read) → Gives (fun u => ∀ d ∈ u, d.Read) (F.topDecls unit)

namespace GivesNames

variable {F : ParseFns SourceText} (h : GivesNames F)

include h

theorem plainDeclarator (starred : Option TypeRef) :
    Gives DeclNamed (plainDeclarator F starred) := by
  intro p r p' hrun hp
  refine ⟨peekNamed_parseRules.plainDeclarator h.steps starred p r p' hrun hp, ?_⟩
  obtain ⟨b, q, hcheck, hrun⟩ := ParseM.bind_ok hrun
  cases hcheck
  split at hrun
  · rename_i hident
    obtain ⟨t, q', hnext, hrun⟩ := ParseM.bind_ok hrun
    cases hnext
    obtain ⟨name, _, hname, hrun⟩ := ParseM.bind_ok hrun
    cases hname
    obtain ⟨ty, _, -, hrun⟩ := ParseM.bind_ok hrun
    cases hrun
    have hnamed := lexerNext_named p.lexer.lib.strtod (lexerPeek_peekNamed p.lexer.lib.strtod hp)
    intro name hname
    obtain rfl := Option.some.inj hname
    refine hnamed ?_
    have hpeek : (lexerPeek p.lexer.lib.strtod p.lexer.lexer).1 =
        (lexerNext p.lexer.lib.strtod p.lexer.lexer).1 := LawfulTokenSource.peek_token p.lexer
    rw [lexerNext_peek, ← hpeek]
    exact of_decide_eq_true hident
  · obtain ⟨ty, _, -, hrun⟩ := ParseM.bind_ok hrun
    cases hrun
    exact nofun

theorem groupDeclarator (starred : Option TypeRef) :
    Gives DeclNamed (groupDeclarator F starred) := by
  have R := peekNamed_parseRules
  refine .seq R.advance fun _ => .bind (h.declarator none) fun r hr => .seq (R.expect _) fun _ =>
    .seq (h.steps.suffix _) fun _ => ?_
  split
  · exact .pure hr
  · exact .seq (R.nodeOf _) fun _ => .seq (R.typeCall rfl) fun _ => .pure hr

theorem parseDeclarator (base : Option TypeRef) : Gives DeclNamed (parseDeclarator F base) := by
  have R := peekNamed_parseRules
  have hend : ∀ r, DeclNamed r → Gives DeclNamed (F.skipAttributes >>= fun _ => Pure.pure r) :=
    fun r hr => .seq h.steps.skipAttributes fun _ => .pure hr
  exact .seq h.steps.skipAttributes fun _ => .seq (h.steps.stars _) fun _ =>
    .seq h.steps.skipAttributes fun _ => .seq (R.wrapStars _ _) fun _ => .seq (R.check _) fun _ =>
    .seq R.isTypeStart fun _ => .ite (.bind (h.groupDeclarator _) hend)
      (.bind (h.plainDeclarator _) hend)

theorem parseFunc (ds : DeclSpec) (dn : DeclName) {name : String} (hname : IsName name)
    (type : Option TypeRef) (ps : List ParamNode) :
    Gives RawFunc.Read (parseFunc F ds dn name type ps) := by
  intro p f p' hrun hp
  obtain ⟨new, hnew, hset⟩ := h.sets.parseFunc ds dn name type ps p f p' hrun
  refine ⟨peekNamed_parseRules.parseFunc h.steps ds dn name type ps p f p' hrun hp, ?_, ?_⟩
  · obtain ⟨node, _, -, hrun⟩ := ParseM.bind_ok hrun
    obtain ⟨r, _, -, hrun⟩ := ParseM.bind_ok hrun
    obtain ⟨_, _, -, hrun⟩ := ParseM.bind_ok hrun
    cases hrun
    exact hname
  · have hmarks : f.body.marks = new := hnew
    exact ⟨_, _, hmarks ▸ hset⟩

theorem nextDeclarator (ds : DeclSpec) (topLevel : Bool) (base : TypeRef) (decls : List RawDecl) :
    Gives (fun r => ∀ f ∈ r.2, f.Read) (nextDeclarator F ds topLevel base decls) := by
  have R := peekNamed_parseRules
  exact .seq (R.accept _) fun _ => .ite (h.declarators _ _ _ _)
    (.seq (R.expect _) fun _ => .pure nofun)

theorem moreDeclarators (ds : DeclSpec) (topLevel : Bool) (base : TypeRef)
    (decls : List RawDecl) :
    Gives (fun r => ∀ f ∈ r.2, f.Read) (TinyC.declarators F ds topLevel base decls) := by
  have R := peekNamed_parseRules
  refine .bind (h.declarator _) fun r hr => ?_
  obtain ⟨dn, type⟩ := r
  dsimp only
  split
  · exact .seq (R.accept _) fun _ => .ite (h.nextDeclarator _ _ _ _)
      (.seq (R.expect _) fun _ => .pure nofun)
  · rename_i name hname
    refine .ite (.seq (R.scopeDefine _ _ _) fun _ => h.nextDeclarator _ _ _ _)
      (.ite (.seq (R.funcParams _) fun ps => ?_) (.seq (R.pure _) fun ps => ?_))
    all_goals
      refine .seq (R.check _) fun opens => ?_
      split
      · refine .bind (h.parseFunc ds dn (hr name hname) type _) fun f hf => .pure ?_
        rintro _ ⟨⟩
        exact hf
      · exact .seq (R.varDecl h.steps _ _ _ _) fun _ => h.nextDeclarator _ _ _ _

theorem parseDeclList (ds : DeclSpec) (topLevel : Bool) :
    Gives (fun r => ∀ f ∈ r.2, f.Read) (parseDeclList F ds topLevel) := by
  have R := peekNamed_parseRules
  exact .seq R.peek fun _ => .seq (R.resolveTypeSpec _ _) fun _ => .seq (R.qualifySpec _ _) fun _ =>
    .seq (R.check _) fun _ => .ite
      (.seq R.advance fun _ => .seq (R.typeDecl _) fun _ => .pure nofun)
      (.seq (R.enumDecl _) fun _ => h.declarators _ _ _ _)

theorem moreTopDecls {unit : RawUnit} (hunit : ∀ d ∈ unit, d.Read) :
    Gives (fun u => ∀ d ∈ u, d.Read) (TinyC.topDecls F unit) := by
  have R := peekNamed_parseRules
  refine .seq R.peek fun _ => .ite (.pure hunit) (.ite (.seq R.skipPragma fun _ =>
    h.topDecls _ hunit) (.seq R.isTypeStart fun _ => .ite ?_ ?_))
  · refine .seq (h.steps.declSpec _ _) fun _ => .bind (h.parseDeclList _ _) fun r hr =>
      h.topDecls _ fun d hd => ?_
    rw [List.mem_append, List.mem_append, List.mem_map, List.mem_map] at hd
    rcases hd with (hd | ⟨decl, -, rfl⟩) | ⟨f, hf, rfl⟩
    · exact hunit d hd
    · trivial
    · exact hr f (Option.mem_toList.mp hf)
  · exact .seq (R.describe _) fun _ => .seq (R.parseError _ _ _) fun _ => .seq R.advance fun _ =>
      h.topDecls _ hunit

end GivesNames

theorem parsers_givesNames (n : ℕ) : GivesNames (parsers n) := by
  induction n with
  | zero =>
    exact ⟨peekNamed_parseRules.stuck, parsers_setsMarks 0, fun _ => .throw _,
      fun _ _ _ _ => .throw _, fun _ _ => .throw _⟩
  | succ n ih =>
    exact ⟨peekNamed_parseRules.deeper ih.steps, parsers_setsMarks (n + 1), ih.parseDeclarator,
      ih.moreDeclarators, fun _ => ih.moreTopDecls⟩

/-- The functions of a unit that is parsed. -/
theorem parserParse_read {n : ℕ} {lib : LibC} {src : List Byte} {t : TypeTable} {unit : RawUnit}
    {p : Parser SourceText}
    (h : parserParse n (parserInit (sourceText lib src) t) = .ok (unit, p)) : ∀ d ∈ unit, d.Read :=
  ((parsers_givesNames n).topDecls [] (fun _ hd => absurd hd List.not_mem_nil) _ _ _ h
    (lexerInit_peekNamed src [])).2

end

end TinyC
