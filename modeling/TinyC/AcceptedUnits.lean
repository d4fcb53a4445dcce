import TinyC.CheckedBodies
import TinyC.Compile
import TinyC.ParsedUnits

/-!
# Accepted units

A text is accepted if parser and sema end without an error. What irgen may take for granted of a
unit that is accepted is shown here.
-/

namespace TinyC

section

variable (lib : LibC) (addr : TypeRef → BitVec 64) (src : List Byte)

/-- Parser and sema find nothing wrong with a text; `checked` is the tree that sema leaves, with
the types `t`. -/
def Checked (checked : RawUnit) (t : TypeTable) : Prop :=
  ∃ unit p s, Parses lib addr src unit p ∧ p.nErrors = 0 ∧
    semaCheck unit (semaInit p.types) = .ok (checked, s) ∧ s.nErrors = 0 ∧ s.types = t

/-- A text is accepted, and irgen sees it as `tu`. -/
def Accepted (Γ : TypeEnv) (tu : TranslationUnit) : Prop :=
  ∃ checked t, Checked lib addr src checked t ∧ t.env = .ok Γ ∧ t.readUnit checked = .ok tu

end

/-- The same, computed with `n` steps for the parser. -/
def acceptedUnit (lib : LibC) (addr : TypeRef → BitVec 64) (n : ℕ) (src : List Byte) :
    Except Stuck (Option (TypeEnv × TranslationUnit)) := do
  let (unit, p) ← parserParse n (parserInit (sourceText lib src) (typeTableInit addr))
  let (checked, s) ← semaCheck unit (semaInit p.types)
  let Γ ← s.types.env
  let tu ← s.types.readUnit checked
  return if p.nErrors = 0 ∧ s.nErrors = 0 then some (Γ, tu) else none

section

variable {lib : LibC} {addr : TypeRef → BitVec 64} {src : List Byte} {Γ : TypeEnv}
  {tu : TranslationUnit} {checked : RawUnit} {t : TypeTable}

theorem acceptedUnit_accepted {n : ℕ} (h : acceptedUnit lib addr n src = .ok (some (Γ, tu))) :
    Accepted lib addr src Γ tu := by
  obtain ⟨⟨unit, p⟩, hparse, h⟩ := except_bind_ok h
  obtain ⟨⟨checked, s⟩, hsema, h⟩ := except_bind_ok h
  obtain ⟨Γ', henv, h⟩ := except_bind_ok h
  obtain ⟨tu', hread, h⟩ := except_bind_ok h
  have hif : (if p.nErrors = 0 ∧ s.nErrors = 0 then some (Γ', tu') else none) = some (Γ, tu) :=
    Except.ok.inj h
  split at hif
  · rename_i hno
    obtain ⟨rfl, rfl⟩ := Prod.mk.inj (Option.some.inj hif)
    exact ⟨checked, s.types, ⟨unit, p, s, ⟨n, hparse⟩, hno.1, hsema, hno.2, rfl⟩, henv, hread⟩
  · cases hif

/-- A text that is accepted as a unit of which `q` holds. -/
theorem exists_accepted {n : ℕ} {q : TypeEnv → TranslationUnit → Bool}
    (h : ((acceptedUnit lib addr n src).toOption.any fun r => r.any fun r => q r.1 r.2) = true) :
    ∃ Γ tu, Accepted lib addr src Γ tu ∧ q Γ tu = true := by
  cases hrun : acceptedUnit lib addr n src with
  | error e =>
    rw [hrun] at h
    cases h
  | ok r =>
    rw [hrun] at h
    cases r with
    | none => cases h
    | some r => exact ⟨r.1, r.2, acceptedUnit_accepted hrun, h⟩

/-! ### The functions of a unit -/

/-- What irgen takes for granted of a unit: its functions are named by identifiers, their bodies
have been parsed, and there is a label for each `goto`. -/
def UnitChecked (tu : TranslationUnit) : Prop :=
  ∀ d, TopDecl.func d ∈ tu → IsName d.name ∧ d.body.Parsed ∧ GotosChecked d

theorem exists_readFunc (htu : t.readUnit checked = .ok tu) {d : FuncDef}
    (hd : TopDecl.func d ∈ tu) :
    ∃ f, RawTop.func f ∈ checked ∧ t.readTop (.func f) = .ok (.func d) := by
  obtain ⟨i, hi⟩ := List.mem_iff_getElem?.mp hd
  obtain ⟨r, hr, hread⟩ := forall₂_getElem? (mapM_ok_forall₂ htu).flip hi
  cases r with
  | func f => exact ⟨f, List.mem_of_getElem? hr, hread⟩
  | decl d' =>
    obtain ⟨d'', -, hread⟩ := except_bind_ok hread
    cases hread

theorem readTop_readsAs {f : RawFunc} {d : FuncDef} (h : t.readTop (.func f) = .ok (.func d)) :
    d.name = f.name ∧ ReadsAs f.body.marks (labelNames d.body) (gotoNames d.body)
      (switchNodes d.body) d.body.Parsed := by
  obtain ⟨type, -, h⟩ := except_bind_ok h
  obtain ⟨params, -, h⟩ := except_bind_ok h
  obtain ⟨body, hbody, h⟩ := except_bind_ok h
  cases h
  exact ⟨rfl, (readStmt_readsAs f.body body hbody).1⟩

/-- Parser and sema see to what irgen takes for granted. -/
theorem Checked.unitChecked (h : Checked lib addr src checked t)
    (htu : t.readUnit checked = .ok tu) : UnitChecked tu := by
  intro d hd
  obtain ⟨unit, p, s, ⟨n, hparse⟩, -, hsema, hno, -⟩ := h
  obtain ⟨f, hf, hread⟩ := exists_readFunc htu hd
  obtain ⟨hname, hbody⟩ := readTop_readsAs hread
  obtain ⟨houtline, hgotos⟩ := semaCheck_found hsema
  have hmem : (RawTop.func f).outline ∈ unit.map RawTop.outline :=
    houtline ▸ List.mem_map_of_mem hf
  obtain ⟨r, hr, heq⟩ := List.mem_map.mp hmem
  cases r with
  | decl d' => cases heq
  | func f' =>
    obtain ⟨hname', hmarks⟩ := Prod.mk.inj (Option.some.inj heq)
    obtain ⟨hisName, lo, hi, hset⟩ := parserParse_read hparse _ hr
    refine ⟨?_, ?_, fun name hgoto => ?_⟩
    · rwa [hname, ← hname']
    · rw [hmarks] at hset
      exact hbody.parsed hset.nodup hset.clauses
    · rw [hbody.gotos, ← hmarks] at hgoto
      rw [hbody.labels, ← hmarks]
      exact (RawStmt.labelExists_iff name f'.body).mp (hgotos hno _ hr name hgoto)

end

end TinyC
