import TinyC.Parser
import TinyC.TypeHistory

/-!
# Typedef names among specifiers

The loop of `parse_decl_spec` takes an identifier for a typedef name by the scopes and by a flag
that not every type specifier sets.
-/

namespace TinyC

section

variable {L : Type} [TokenSource L]

/-! ### Turns of the loop -/

/-- The functions of the parser at a depth, the loop of `parse_decl_spec` going on with `G`. -/
def parsersWith (n : ℕ) (G : DeclSpec → Bool → ParseM L DeclSpec) : ParseFns L :=
  { parsers n with declSpec := G }

/-- Where the loop is: the specifiers so far, the flag `seen_type`, and the parser. -/
structure SpecState (L : Type) where
  ds : DeclSpec
  seenType : Bool
  parser : Parser L

namespace SpecState

/-- The token that the loop looks at. -/
def token (x : SpecState L) : Token := (TokenSource.peek x.parser.lexer).1

/-- What an identifier there is interned as. -/
def name (x : SpecState L) : String :=
  internedText (TokenSource.strings (TokenSource.peek x.parser.lexer).2) x.token.strIdx

/-- A turn of the loop, whatever comes after it. -/
def Turn (x y : SpecState L) : Prop :=
  ∃ n, ∀ G, parseDeclSpec (parsersWith n G) x.ds x.seenType x.parser = G y.ds y.seenType y.parser

/-- The loop comes to its end in `p`. -/
def Stops (x : SpecState L) (p : Parser L) : Prop :=
  ∃ n, ∀ G, parseDeclSpec (parsersWith n G) x.ds x.seenType x.parser = .ok (x.ds, p)

end SpecState

/-- The turns that the loop makes from its start in `p`, and the kinds of the tokens they begin
with. -/
inductive SpecRun (p : Parser L) : List TokenKind → SpecState L → Prop where
  | start : SpecRun p [] ⟨{}, false, p⟩
  | turn {ks : List TokenKind} {x y : SpecState L} :
      SpecRun p ks x → x.Turn y → SpecRun p (ks ++ [x.token.kind]) y

/-- The type specifiers; an identifier that has been taken is a typedef name. -/
def isTypeSpec : TokenKind → Bool
  | .void | .bool | .char | .short | .int | .long | .float | .double | .complex | .imaginary
  | .signed | .unsigned | .struct | .union | .enum | .builtinVaList | .typeof | .ident => true
  | _ => false

/-- Those that set `seen_type`. -/
def marksType : TokenKind → Bool
  | .void | .bool | .float | .struct | .union | .enum | .builtinVaList | .typeof | .ident => true
  | _ => false

/-- The innermost scope that declares the name declares it as a typedef. -/
def ResolvesToTypedef (sc : ScopeChain Symbol) (name : String) : Prop :=
  ∃ inner fr outer type, sc = inner ++ fr :: outer ∧
    (∀ fr' ∈ inner, ScopeChain.lookupFrame scopeBuckets fr' name = none) ∧
      ScopeChain.lookupFrame scopeBuckets fr name = some ⟨.typedef, type⟩

/-! ### What a turn can be -/

/-- The three ways in which a turn goes on: it fails, it ends the loop, or the loop goes on. -/
inductive TurnResult (x : SpecState L) :
    ((DeclSpec → Bool → ParseM L DeclSpec) → Except Stuck (DeclSpec × Parser L)) → Prop where
  | fails {r : (DeclSpec → Bool → ParseM L DeclSpec) → Except Stuck (DeclSpec × Parser L)}
      (e : Stuck) : (∀ G, r G = .error e) → TurnResult x r
  | stops {r : (DeclSpec → Bool → ParseM L DeclSpec) → Except Stuck (DeclSpec × Parser L)}
      (p : Parser L) : (∀ G, r G = .ok (x.ds, p)) → TurnResult x r
  | goes {r : (DeclSpec → Bool → ParseM L DeclSpec) → Except Stuck (DeclSpec × Parser L)}
      (y : SpecState L) : y.seenType = (x.seenType || marksType x.token.kind) →
      (∀ G, r G = G y.ds y.seenType y.parser) → TurnResult x r

namespace TurnResult

variable {x : SpecState L} {p : Parser L}

/-- Something is read, and the loop goes on with what has been found. -/
theorem of_bind {α : Type} (pre : ParseM L α) (f : α → DeclSpec) {b : Bool}
    (hb : b = (x.seenType || marksType x.token.kind)) :
    TurnResult x fun G => (pre >>= fun a => G (f a) b) p := by
  cases hpre : pre p with
  | error e =>
    refine .fails e fun G => ?_
    change (pre p >>= fun r => G (f r.1) b r.2) = _
    rw [hpre]
    rfl
  | ok r =>
    refine .goes ⟨f r.1, b, r.2⟩ hb fun G => ?_
    change (pre p >>= fun r => G (f r.1) b r.2) = _
    rw [hpre]
    rfl

theorem done : TurnResult x fun _ => (pure x.ds : ParseM L DeclSpec) p := .stops p fun _ => rfl

variable {n : ℕ} {ds : DeclSpec} {seen : Bool} {t : Token}

theorem takeSpec (hb : seen = (x.seenType || marksType x.token.kind)) :
    TurnResult x fun G => takeSpec (parsersWith n G) ds seen p :=
  of_bind advance (fun _ => ds) hb

theorem refuseSpec (msg : String) (hb : seen = (x.seenType || marksType x.token.kind)) :
    TurnResult x fun G => refuseSpec (parsersWith n G) t msg ds seen p :=
  of_bind (parseError t.line t.col msg >>= fun _ => advance) (fun _ => ds) hb

theorem takeStorage (sc : StorageClass) (hk : marksType x.token.kind = false) :
    TurnResult x fun G => takeStorage (parsersWith n G) t sc x.ds x.seenType p := by
  have hb : x.seenType = (x.seenType || marksType x.token.kind) := by rw [hk, Bool.or_false]
  unfold TinyC.takeStorage
  split
  · exact refuseSpec _ hb
  · exact takeSpec hb

theorem takeFlag (busy f : SpecFlags) (hk : marksType x.token.kind = false) :
    TurnResult x fun G => takeFlag (parsersWith n G) t busy f x.ds x.seenType p := by
  have hb : x.seenType = (x.seenType || marksType x.token.kind) := by rw [hk, Bool.or_false]
  unfold TinyC.takeFlag
  split
  · exact refuseSpec _ hb
  · exact takeSpec hb

theorem takeLone (f : SpecFlags) (hk : marksType x.token.kind = true) :
    TurnResult x fun G => takeLone (parsersWith n G) t f x.ds x.seenType p := by
  unfold TinyC.takeLone
  split
  · rename_i hseen
    exact refuseSpec _ (by rw [hseen, Bool.true_or])
  · exact takeSpec (by rw [hk, Bool.or_true])

/-- The type is made by functions that do not come back to this loop. -/
theorem takeBase (m : ParseM L TypeRef) (hk : marksType x.token.kind = true) :
    TurnResult x fun G => takeBase (parsersWith n G) t x.ds x.seenType m p := by
  unfold TinyC.takeBase
  split
  · rename_i hseen
    exact refuseSpec _ (by rw [hseen, Bool.true_or])
  · exact of_bind m (fun base => { x.ds with base := some base }) (by rw [hk, Bool.or_true])

end TurnResult

/-- The parser once the loop has looked at the token. -/
def SpecState.peeked (x : SpecState L) : Parser L :=
  { x.parser with lexer := (TokenSource.peek x.parser.lexer).2 }

theorem SpecState.run_peek (x : SpecState L) {α : Type} (k : Token → ParseM L α) :
    (peek >>= k) x.parser = k x.token x.peeked := rfl

/-- What the loop finds under the name of an identifier. -/
def SpecState.found (x : SpecState L) : Option Symbol :=
  x.parser.scope.lookup scopeBuckets x.name

theorem SpecState.run_lookup (x : SpecState L) {α : Type} (k : Option Symbol → ParseM L α) :
    (tokIntern x.token >>= fun name => scopeLookup name >>= k) x.peeked = k x.found x.peeked := rfl

/-- A visible typedef name is taken while the flag is not set. -/
theorem turn_typedef (n : ℕ) {x : SpecState L} (hk : x.token.kind = .ident)
    (hseen : x.seenType = false) {type : Option TypeRef} (hfound : x.found = some ⟨.typedef, type⟩)
    (G : DeclSpec → Bool → ParseM L DeclSpec) :
    parseDeclSpec (parsersWith n G) x.ds x.seenType x.parser =
      G { x.ds with base := type } true
        { x.peeked with lexer := (TokenSource.next x.peeked.lexer).2 } := by
  unfold parseDeclSpec
  simp only [SpecState.run_peek, hk, hseen, Bool.false_eq_true, if_false, SpecState.run_lookup,
    hfound]
  rfl

/-- Every other identifier is left to the declarator. -/
theorem turn_other (n : ℕ) {x : SpecState L} (hk : x.token.kind = .ident)
    (h : x.seenType = true ∨ ∀ type, x.found ≠ some ⟨.typedef, type⟩)
    (G : DeclSpec → Bool → ParseM L DeclSpec) :
    parseDeclSpec (parsersWith n G) x.ds x.seenType x.parser = .ok (x.ds, x.peeked) := by
  unfold parseDeclSpec
  simp only [SpecState.run_peek, hk]
  cases hseen : x.seenType with
  | true => rfl
  | false =>
    simp only [Bool.false_eq_true, if_false, SpecState.run_lookup]
    cases hfound : x.found with
    | none => rfl
    | some sym =>
      obtain ⟨kind, type⟩ := sym
      cases kind with
      | typedef =>
        rcases h with h | h
        · rw [hseen] at h
          cases h
        · exact absurd hfound (h type)
      | _ => rfl

theorem turn_result (n : ℕ) (x : SpecState L) :
    TurnResult x fun G => parseDeclSpec (parsersWith n G) x.ds x.seenType x.parser := by
  by_cases hident : x.token.kind = .ident
  · by_cases htaken : x.seenType = false ∧ ∃ type, x.found = some ⟨.typedef, type⟩
    · obtain ⟨hseen, type, hfound⟩ := htaken
      refine .goes ⟨{ x.ds with base := type }, true, _⟩ ?_ fun G =>
        turn_typedef n hident hseen hfound G
      rw [hident]
      exact (Bool.or_true _).symm
    · refine .stops x.peeked fun G => turn_other n hident ?_ G
      cases hseen : x.seenType with
      | true => exact .inl rfl
      | false => exact .inr fun type hfound => htaken ⟨hseen, type, hfound⟩
  · -- the functions that make a type do not come back to this loop
    have haggregate : ∀ (G : DeclSpec → Bool → ParseM L DeclSpec) isUnion,
        parseStructUnion (parsersWith n G) isUnion = parseStructUnion (parsers n) isUnion :=
      fun _ _ => rfl
    have henum : ∀ G : DeclSpec → Bool → ParseM L DeclSpec,
        parseEnum (parsersWith n G) = parseEnum (parsers n) := fun _ => rfl
    have htypeof : ∀ G : DeclSpec → Bool → ParseM L DeclSpec,
        typeofSpec (parsersWith n G) = typeofSpec (parsers n) := fun _ => rfl
    have hskip : ∀ G : DeclSpec → Bool → ParseM L DeclSpec, ((parsersWith n G).skipAttributes >>= fun _ =>
        (parsersWith n G).declSpec x.ds x.seenType) =
          ((parsers n).skipAttributes >>= fun _ => G x.ds x.seenType) := fun _ => rfl
    have hskipped : ∀ kind, startsAttribute kind = true → x.token.kind = kind →
        TurnResult x fun G => ((parsers n).skipAttributes >>= fun _ => G x.ds x.seenType) x.peeked := by
      intro kind hkind hk
      refine .of_bind _ (fun _ => x.ds) ?_
      rw [hk]
      cases kind <;> first | exact (Bool.or_false _).symm | cases hkind
    unfold parseDeclSpec
    simp only [SpecState.run_peek, haggregate, henum, htypeof, hskip]
    cases hk : x.token.kind <;> first
      | with_reducible exact .done
      | with_reducible exact .takeStorage _ (by simp [hk, marksType])
      | with_reducible exact .takeFlag _ _ (by simp [hk, marksType])
      | with_reducible exact .takeLone _ (by simp [hk, marksType])
      | with_reducible exact .takeSpec (by simp [hk, marksType])
      | with_reducible exact .takeBase _ (by simp [hk, marksType])
      | with_reducible exact hskipped _ (by decide) hk
      | exact absurd hk hident

/-! ### Runs of the loop -/

/-- One step of a run: the flag goes by the specifiers that set it. -/
theorem SpecState.Turn.seenType {x y : SpecState L} (h : x.Turn y) :
    y.seenType = (x.seenType || marksType x.token.kind) := by
  obtain ⟨n, hturn⟩ := h
  have hstop : ∀ r : Except Stuck (DeclSpec × Parser L),
      (∀ G : DeclSpec → Bool → ParseM L DeclSpec, r = G y.ds y.seenType y.parser) → False := by
    intro r hr
    have hfuel := hr fun _ _ _ => .error .fuel
    have hnull := hr fun _ _ _ => .error .null
    rw [hfuel] at hnull
    cases hnull
  cases turn_result n x with
  | fails e he => exact (hstop (.error e) fun G => (he G).symm.trans (hturn G)).elim
  | stops p hp => exact (hstop (.ok (x.ds, p)) fun G => (hp G).symm.trans (hturn G)).elim
  | goes y' hy' hgoes =>
    rw [← hy']
    -- a continuation that tells the flags apart
    have hsame := (hgoes fun _ b _ => .error (if b then .fuel else .null)).symm.trans (hturn _)
    revert hsame
    cases y'.seenType <;> cases y.seenType <;> simp

theorem SpecRun.seenType {p : Parser L} {ks : List TokenKind} {x : SpecState L}
    (h : SpecRun p ks x) : x.seenType = ks.any marksType := by
  induction h with
  | start => rfl
  | turn _ hturn ih => rw [hturn.seenType, ih, List.any_append, List.any_cons, List.any_nil,
      Bool.or_false]

/-- A run of the parser's loop that ends is made of turns. -/
theorem SpecRun.of_run {p : Parser L} {ks : List TokenKind} {x : SpecState L} (h : SpecRun p ks x)
    {n : ℕ} {ds : DeclSpec} {p' : Parser L}
    (hrun : (parsers n).declSpec x.ds x.seenType x.parser = .ok (ds, p')) :
    ∃ ks' y, SpecRun p (ks ++ ks') y ∧ y.Stops p' ∧ ds = y.ds := by
  induction n generalizing ks x with
  | zero => cases hrun
  | succ n ih =>
    change parseDeclSpec (parsersWith n (parsers n).declSpec) x.ds x.seenType x.parser = _ at hrun
    cases turn_result n x with
    | fails e he =>
      rw [he] at hrun
      cases hrun
    | stops q hq =>
      rw [hq] at hrun
      obtain ⟨rfl, rfl⟩ := Prod.mk.inj (Except.ok.inj hrun)
      exact ⟨[], x, by rwa [List.append_nil], ⟨n, hq⟩, rfl⟩
    | goes y _ hgoes =>
      rw [hgoes] at hrun
      obtain ⟨ks', z, hz, hend⟩ := ih (h.turn ⟨n, hgoes⟩) hrun
      rw [List.append_assoc] at hz
      exact ⟨_, z, hz, hend⟩

/-- The loop takes the identifier for a typedef name. -/
def SpecState.Consumes (x : SpecState L) : Prop :=
  ∃ type, x.Turn ⟨{ x.ds with base := type }, true,
    { x.peeked with lexer := (TokenSource.next x.peeked.lexer).2 }⟩

theorem SpecState.found_iff (x : SpecState L) :
    (∃ type, x.found = some ⟨.typedef, type⟩) ↔ ResolvesToTypedef x.parser.scope x.name := by
  constructor
  · rintro ⟨type, h⟩
    obtain ⟨inner, fr, outer, hsc, hinner, hfr⟩ := ScopeChain.lookup_eq_some_iff.mp h
    exact ⟨inner, fr, outer, type, hsc, hinner, hfr⟩
  · rintro ⟨inner, fr, outer, type, hsc, hinner, hfr⟩
    exact ⟨type, ScopeChain.lookup_eq_some_iff.mpr ⟨inner, fr, outer, hsc, hinner, hfr⟩⟩

theorem SpecState.consumes_iff {x : SpecState L} (hk : x.token.kind = .ident) :
    x.Consumes ↔ ResolvesToTypedef x.parser.scope x.name ∧ x.seenType = false := by
  rw [← x.found_iff]
  constructor
  · rintro ⟨type, n, hturn⟩
    by_contra hno
    have hother : x.seenType = true ∨ ∀ type, x.found ≠ some ⟨.typedef, type⟩ := by
      cases hseen : x.seenType with
      | true => exact .inl rfl
      | false => exact .inr fun type hfound => hno ⟨⟨type, hfound⟩, hseen⟩
    have hend := turn_other n hk hother fun _ _ _ => .error .fuel
    rw [hturn] at hend
    cases hend
  · rintro ⟨⟨type, hfound⟩, hseen⟩
    exact ⟨type, 0, turn_typedef 0 hk hseen hfound⟩

theorem SpecState.stops_of_not_consumes {x : SpecState L} (hk : x.token.kind = .ident)
    (h : ¬x.Consumes) : x.Stops x.peeked := by
  refine ⟨0, fun G => turn_other 0 hk ?_ G⟩
  by_contra hno
  push Not at hno
  obtain ⟨hseen, type, hfound⟩ := hno
  exact h ⟨type, 0, turn_typedef 0 hk (Bool.eq_false_iff.mpr hseen) hfound⟩

/-- Wherever the loop gets to an identifier, it takes it for a typedef name as C99 does, unless the
type specifiers before it are all of those that do not set the flag. An identifier that is not taken
is left to the declarator. -/
theorem typedef_consumed_iff {p : Parser L} {ks : List TokenKind} {x : SpecState L}
    (h : SpecRun p ks x) (hk : x.token.kind = .ident) :
    ((x.Consumes ↔ ResolvesToTypedef x.parser.scope x.name ∧ ks.any isTypeSpec = false) ↔
      ¬(ResolvesToTypedef x.parser.scope x.name ∧ ks.any isTypeSpec = true ∧
        ks.any marksType = false)) ∧
    (¬x.Consumes → x.Stops x.peeked) := by
  refine ⟨?_, x.stops_of_not_consumes hk⟩
  have hmarks : ks.any marksType = true → ks.any isTypeSpec = true := by
    intro hany
    obtain ⟨k, hmem, hmark⟩ := List.any_eq_true.mp hany
    have hspec : isTypeSpec k = true := by
      revert hmark
      cases k <;> simp [marksType, isTypeSpec]
    exact List.any_eq_true.mpr ⟨k, hmem, hspec⟩
  rw [SpecState.consumes_iff hk, h.seenType]
  cases hspec : ks.any isTypeSpec <;> cases hmark : ks.any marksType
  · simp
  · rw [hmarks hmark] at hspec
    cases hspec
  · simp
  · simp

end

/-! A block inside the scope of `typedef int T;`. -/

def typedefParser (text : String) : Parser SourceText :=
  { textParser text with
    scope := ScopeChain.push
      (ScopeChain.define scopeBuckets [fun _ => []] "T" ⟨.typedef, some (scalarRef .int)⟩) }

theorem typedefParser_resolves (text : String) :
    ResolvesToTypedef (typedefParser text).scope "T" := by
  refine ⟨[fun _ => []], _, [], some (scalarRef .int), rfl, ?_, ?_⟩
  · simp [ScopeChain.lookupFrame]
  · decide +kernel

/-- The loop before `const T x;`. -/
def beforeConst : SpecState SourceText := ⟨{}, false, typedefParser "const T x;"⟩

/-- The loop before `T x;`. -/
def afterConst : SpecState SourceText where
  ds := { beforeConst.ds with qual := beforeConst.ds.qual.merge { isConst := true } }
  seenType := false
  parser := { beforeConst.peeked with lexer := (TokenSource.next beforeConst.peeked.lexer).2 }

/-- After `const` the name is taken. -/
theorem typedef_consumed_after_const :
    SpecRun (typedefParser "const T x;") [.const] afterConst ∧ afterConst.name = "T" ∧
      ResolvesToTypedef afterConst.parser.scope "T" ∧ afterConst.Consumes := by
  have hkind : beforeConst.token.kind = .const := by decide +kernel
  have hturn : beforeConst.Turn afterConst := by
    refine ⟨0, fun G => ?_⟩
    unfold parseDeclSpec
    simp only [SpecState.run_peek, hkind]
    rfl
  have hrun : SpecRun (typedefParser "const T x;") ([] ++ [beforeConst.token.kind]) afterConst :=
    SpecRun.start.turn hturn
  rw [hkind] at hrun
  have hname : afterConst.name = "T" := by decide +kernel
  have hresolves : ResolvesToTypedef afterConst.parser.scope "T" :=
    typedefParser_resolves "const T x;"
  have hiff := (typedef_consumed_iff hrun (by decide +kernel)).1.mpr fun h =>
    Bool.false_ne_true h.2.1
  exact ⟨hrun, hname, hresolves, hiff.mpr ⟨hname ▸ hresolves, rfl⟩⟩

/-- The loop before `int T;`. -/
def beforeInt : SpecState SourceText := ⟨{}, false, typedefParser "int T;"⟩

/-- The loop before `T;`. -/
def afterInt : SpecState SourceText where
  ds := { beforeInt.ds with flags := beforeInt.ds.flags ||| SpecFlags.int }
  seenType := false
  parser := { beforeInt.peeked with lexer := (TokenSource.next beforeInt.peeked.lexer).2 }

theorem beforeInt_turn : beforeInt.token.kind = .int ∧ beforeInt.Turn afterInt := by
  have hkind : beforeInt.token.kind = .int := by decide +kernel
  have hfree : beforeInt.ds.flags.has SpecFlags.int = false := by decide
  refine ⟨hkind, 0, fun G => ?_⟩
  unfold parseDeclSpec
  simp only [SpecState.run_peek, hkind, takeFlag, hfree, Bool.false_eq_true, if_false]
  rfl

/-- After `int` the name is taken as well. -/
theorem typedef_consumed_after_int :
    ¬∀ (p : Parser SourceText) (ks : List TokenKind) (x : SpecState SourceText), SpecRun p ks x →
      x.token.kind = .ident →
      (x.Consumes ↔ ResolvesToTypedef x.parser.scope x.name ∧ ks.any isTypeSpec = false) := by
  intro h
  obtain ⟨hkind, hturn⟩ := beforeInt_turn
  have hident : afterInt.token.kind = .ident := by decide +kernel
  have hname : afterInt.name = "T" := by decide +kernel
  have hresolves : ResolvesToTypedef afterInt.parser.scope afterInt.name := by
    rw [hname]
    exact typedefParser_resolves "int T;"
  have hconsumes := (SpecState.consumes_iff hident).mpr ⟨hresolves, rfl⟩
  have hrun : SpecRun (typedefParser "int T;") ([] ++ [beforeInt.token.kind]) afterInt :=
    SpecRun.start.turn hturn
  rw [hkind] at hrun
  cases ((h _ _ _ hrun hident).mp hconsumes).2

end TinyC
