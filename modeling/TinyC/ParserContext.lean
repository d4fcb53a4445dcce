import TinyC.TypeHistory

/-!
# The context of the parser

What the parser opens for a block, a function, a loop or a switch it closes again, whatever the
tokens are. A declaration adds to the innermost scopes only.
-/

namespace TinyC

/-! ### Scopes that have grown inside -/

/-- The same scopes, entries being added to the innermost one. -/
inductive SameChain {α : Type} : ScopeChain α → ScopeChain α → Prop where
  | none : SameChain [] []
  | some {fr fr' : Frame α} (rest : ScopeChain α) :
      (∀ b, fr b <:+ fr' b) → SameChain (fr :: rest) (fr' :: rest)

namespace SameChain

variable {α : Type} {sc sc' sc'' : ScopeChain α}

theorem refl (sc : ScopeChain α) : SameChain sc sc := by
  cases sc with
  | nil => exact .none
  | cons fr rest => exact .some rest fun b => List.suffix_rfl

theorem trans (h : SameChain sc sc') (h' : SameChain sc' sc'') : SameChain sc sc'' := by
  cases h with
  | none => exact h'
  | some rest hfr =>
    cases h' with
    | some _ hfr' => exact .some rest fun b => (hfr b).trans (hfr' b)

theorem define (n : ℕ) (sc : ScopeChain α) (name : String) (a : α) :
    SameChain sc (sc.define n name a) := by
  cases sc with
  | nil => exact .none
  | cons fr rest =>
    refine .some rest fun b => ?_
    by_cases hb : b = ScopeChain.bucket n name
    · subst hb
      rw [Function.update_self]
      exact List.suffix_cons _ _
    · rw [Function.update_of_ne hb]

end SameChain

/-! ### The parser -/

/-- The scopes and the depths are those from before. -/
structure Parser.SameContext {L : Type} (p p' : Parser L) : Prop where
  scope : SameChain p.scope p'.scope
  tagScope : SameChain p.tagScope p'.tagScope
  loopDepth : p'.loopDepth = p.loopDepth
  switchDepth : p'.switchDepth = p.switchDepth

namespace Parser.SameContext

variable {L : Type} {p q r : Parser L}

theorem refl (p : Parser L) : SameContext p p := ⟨.refl _, .refl _, rfl, rfl⟩

theorem trans (h : SameContext p q) (h' : SameContext q r) : SameContext p r :=
  ⟨h.scope.trans h'.scope, h.tagScope.trans h'.tagScope, h'.loopDepth.trans h.loopDepth,
    h'.switchDepth.trans h.switchDepth⟩

end Parser.SameContext

section

variable {L α : Type} [TokenSource L] {m : ParseM L α}

omit [TokenSource L] in
theorem inNewScope_sameContext (hm : Steps Parser.SameContext m) :
    Steps Parser.SameContext (inNewScope m) := by
  intro p a p' h
  obtain ⟨saved, q, hget, h⟩ := ParseM.bind_ok h
  cases hget
  obtain ⟨_, q₁, hpush, h⟩ := ParseM.bind_ok h
  cases hpush
  obtain ⟨b, q₂, hrun, h⟩ := ParseM.bind_ok h
  have hq := hm _ _ _ hrun
  obtain ⟨_, q₃, hpop, h⟩ := ParseM.bind_ok h
  cases hpop
  cases h
  exact ⟨.refl _, .refl _, hq.loopDepth, hq.switchDepth⟩

omit [TokenSource L] in
theorem inLoop_sameContext (hm : Steps Parser.SameContext m) :
    Steps Parser.SameContext (inLoop m) := by
  intro p a p' h
  obtain ⟨_, q₁, henter, h⟩ := ParseM.bind_ok h
  cases henter
  obtain ⟨b, q₂, hrun, h⟩ := ParseM.bind_ok h
  have hq := hm _ _ _ hrun
  obtain ⟨_, q₃, hleave, h⟩ := ParseM.bind_ok h
  cases hleave
  cases h
  exact ⟨hq.scope, hq.tagScope, congrArg (· - 1) hq.loopDepth, hq.switchDepth⟩

omit [TokenSource L] in
theorem inSwitch_sameContext (hm : Steps Parser.SameContext m) :
    Steps Parser.SameContext (inSwitch m) := by
  intro p a p' h
  obtain ⟨_, q₁, henter, h⟩ := ParseM.bind_ok h
  cases henter
  obtain ⟨b, q₂, hrun, h⟩ := ParseM.bind_ok h
  have hq := hm _ _ _ hrun
  obtain ⟨_, q₃, hleave, h⟩ := ParseM.bind_ok h
  cases hleave
  cases h
  exact ⟨hq.scope, hq.tagScope, hq.loopDepth, congrArg (· - 1) hq.switchDepth⟩

theorem sameContext_stateRules :
    StateRules (L := L) (fun {_} m _ => Steps Parser.SameContext m) where
  pure a := Steps.pure Parser.SameContext.refl a
  bind hm hk := Steps.bind (fun _ _ _ h h' => h.trans h') hm hk
  throw e := by
    intro p a p' h
    cases h
  get := Steps.get Parser.SameContext.refl
  peek := Steps.one fun p => ⟨.refl _, .refl _, rfl, rfl⟩
  advance := Steps.one fun p => ⟨.refl _, .refl _, rfl, rfl⟩
  parseError line col msg := Steps.one fun p => ⟨.refl _, .refl _, rfl, rfl⟩
  typeCall _ := Steps.one fun p => ⟨.refl _, .refl _, rfl, rfl⟩
  scopeDefine name kind type := Steps.one fun p => ⟨.define _ _ _ _, .refl _, rfl, rfl⟩
  tagDefine name kind type := Steps.one fun p => ⟨.refl _, .define _ _ _ _, rfl, rfl⟩
  inNewScope := inNewScope_sameContext
  inLoop := inLoop_sameContext
  inSwitch := inSwitch_sameContext
  newNode := Steps.one fun p => ⟨.refl _, .refl _, rfl, rfl⟩

theorem sameContext_parseRules :
    ParseRules (L := L) (fun {_} m _ => Steps Parser.SameContext m) := by
  have hcall : ∀ c : TypeCall, Steps Parser.SameContext (typeCall c : ParseM L TypeRef) :=
    fun c => Steps.one fun p => ⟨.refl _, .refl _, rfl, rfl⟩
  have hnote : ∀ d : TagDefinition, Steps Parser.SameContext (noteDefinition d : ParseM L Unit) :=
    fun d => Steps.one fun p => ⟨.refl _, .refl _, rfl, rfl⟩
  exact ⟨sameContext_stateRules, fun h => sameContext_stateRules.structUnion hcall hnote h,
    fun h => sameContext_stateRules.enum hcall hnote h⟩

end

end TinyC
