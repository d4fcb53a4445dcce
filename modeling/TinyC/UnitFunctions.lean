import TinyC.FuncStart
import TinyC.IrGenModule

/-!
# The functions of a translation unit

Lowering a function leaves what the unit has defined before as it is and adds the function
under its own name.
-/

namespace TinyC

/-- The state in which a function is left. -/
def funcEnd (Γ : TypeEnv) (module : IRModule) (scope : ScopeChain VarEntry) (d : FuncDef) : IrGen :=
  ((genStmt Γ d.body).run (funcStart Γ module scope d)).2

theorem funcEnd_definitions (Γ : TypeEnv) (module : IRModule) (scope : ScopeChain VarEntry)
    (d : FuncDef) :
    (funcEnd Γ module scope d).definitions =
      (module.funcs, module.globalVars, d.name, decide (d.storage = .static)) :=
  ((genStmt_places Γ d.body).grows _).definitions.trans
    (Keeps.genFuncHead headFrame_definitions Γ d (funcInit module scope d))

theorem genFunc_funcs (Γ : TypeEnv) (module : IRModule) (scope : ScopeChain VarEntry)
    (d : FuncDef) :
    (genFunc Γ module scope d).funcs = module.funcs ++ [(funcEnd Γ module scope d).func] := by
  have h := congrArg Prod.fst (funcEnd_definitions Γ module scope d)
  exact congrArg (· ++ [(funcEnd Γ module scope d).func]) h

theorem genFunc_globalVars (Γ : TypeEnv) (module : IRModule) (scope : ScopeChain VarEntry)
    (d : FuncDef) : (genFunc Γ module scope d).globalVars = module.globalVars :=
  congrArg (fun p => p.2.1) (funcEnd_definitions Γ module scope d)

theorem irgenVar_funcs (Γ : TypeEnv) (v : VarDecl) (s : UnitState) :
    (irgenVar Γ v s).module.funcs = s.module.funcs := by
  unfold irgenVar
  dsimp only
  split <;> rfl

/-- What the unit has come to is the lowering of the declarations so far. -/
theorem irgenDecls_append (Γ : TypeEnv) (before after : List TopDecl) :
    irgenDecls Γ (before ++ after) = after.foldl (irgenDecl Γ) (irgenDecls Γ before) :=
  List.foldl_append

/-- Every function of the module is that of a definition, lowered in the state of the unit
there. -/
theorem irgen_funcs (Γ : TypeEnv) (tu : TranslationUnit) :
    ∀ f ∈ (irgen Γ tu).funcs, ∃ before d, (before ++ [.func d]) <+: tu ∧
      f = (funcEnd Γ (irgenDecls Γ before).module (irgenDecls Γ before).scope d).func := by
  unfold irgen
  induction tu using List.reverseRecOn with
  | nil => simp [irgenDecls]
  | append_singleton before d ih =>
    rw [irgenDecls_append]
    have hbefore : ∀ f ∈ (irgenDecls Γ before).module.funcs, ∃ before' d',
        (before' ++ [.func d']) <+: before ++ [d] ∧
        f = (funcEnd Γ (irgenDecls Γ before').module (irgenDecls Γ before').scope d').func := by
      intro f hf
      obtain ⟨before', d', hprefix, heq⟩ := ih f hf
      exact ⟨before', d', hprefix.trans (List.prefix_append before [d]), heq⟩
    intro f hf
    cases d with
    | func d =>
      change f ∈ (genFunc Γ (irgenDecls Γ before).module (irgenDecls Γ before).scope d).funcs at hf
      rw [genFunc_funcs] at hf
      rcases List.mem_append.mp hf with hf | hf
      · exact hbefore f hf
      · exact ⟨before, d, List.prefix_rfl, List.mem_singleton.mp hf⟩
    | decl d =>
      cases d with
      | var v =>
        change f ∈ (irgenVar Γ v (irgenDecls Γ before)).module.funcs at hf
        rw [irgenVar_funcs] at hf
        exact hbefore f hf
      | _ => exact hbefore f hf

end TinyC
