import TinyC.Designation

/-!
# Declarations bind names

Each declaration that irgen lowers gives its name the storage that irgen reserves for it, and a
declaration at file scope gives it its symbol. So the scope of the generator has the names that C
has.
-/

namespace TinyC

section

variable {Γ : TypeEnv} {N : Bindings} {g : IrGen} {x : String} {b : Binding} {addr : IRValue}

theorem IrGen.Ready.define (h : g.Ready) (haddr : addr.HasSlot g.func.nextTemp) (x : String)
    (isGlobal : Bool) : (vscopeDefine x addr isGlobal g).2.Ready where
  temps := h.temps
  scope fr hfr bucket p hp := by
    rcases ScopeChain.mem_define hfr hp with hnew | ⟨fr', hfr', hp'⟩
    · exact hnew ▸ haddr
    · exact h.scope fr' hfr' bucket p hp'

/-- A name is bound to its storage, or to its symbol. -/
theorem Binds.define (h : Binds N g) (hscope : g.scope ≠ [])
    (haddr : addr.kind = b.slot.elim (.global x) .temp) (isGlobal : Bool) :
    Binds (Function.update N x b) (vscopeDefine x addr isGlobal g).2 := by
  intro y
  change BoundAs (g.scope.define vtabBuckets x ⟨addr, isGlobal⟩) y (Function.update N x b y)
  by_cases hyx : y = x
  · subst hyx
    rw [Function.update_self]
    cases hslot : b.slot with
    | none =>
      refine (boundAs_of_no_slot hslot).mpr fun e he => ?_
      rw [ScopeChain.lookup_define_self hscope] at he
      obtain rfl := Option.some.inj he
      rw [haddr, hslot]
      rfl
    | some t =>
      refine (boundAs_of_slot hslot).mpr ⟨_, ScopeChain.lookup_define_self hscope, ?_⟩
      rw [haddr, hslot]
      rfl
  · rw [Function.update_of_ne hyx]
    unfold BoundAs
    rw [ScopeChain.lookup_define_of_ne _ hyx]
    exact h y

/-- A declaration in a block gives its name the storage that it reserves, whatever its storage
class. Its initializer has the name already. -/
theorem Binds.genVarDecl (h : Binds N g) (hready : g.Ready) (hscope : g.scope ≠ [])
    (v : VarDecl) :
    Binds (Function.update N v.name (.block g.func.nextTemp v.lifetime)) (genVarDecl Γ v g).2 ∧
      (TinyC.genVarDecl Γ v g).2.Ready ∧ (TinyC.genVarDecl Γ v g).2.scope ≠ [] := by
  let ty := v.declType.getD typeInt
  let r := genAlloca Γ ty g
  let g₁ := (vscopeDefine v.name r.1 false r.2).2
  have hstorage : Extends g r.2 := Emits.genAlloca Γ ty g
  have hbinds : Binds (Function.update N v.name (.block g.func.nextTemp v.lifetime)) g₁ :=
    (h.of_scope_eq hstorage.scope).define (hstorage.scope ▸ hscope) rfl false
  have hslot : r.1.HasSlot r.2.func.nextTemp := .temp _ hready.temps (Nat.lt_succ_self _)
  have hready₁ : g₁.Ready := (hready.extends hstorage).define hslot _ _
  have hne : g₁.scope ≠ [] := ScopeChain.define_ne_nil (hstorage.scope ▸ hscope)
  have hinit : Extends g₁ (TinyC.genVarDecl Γ v g).2 := by
    change Extends g₁ (genInitializer Γ r.1 ty v.init g₁).2
    cases v.init with
    | none => exact .refl g₁
    | some e => exact (genNode_emits Γ e).init r.1 ty g₁
  exact ⟨hbinds.of_scope_eq hinit.scope, hready₁.extends hinit, hinit.scope ▸ hne⟩

/-- What a parameter's name stands for, whose storage is that of the temp `t`. -/
def ParamDecl.binding (p : ParamDecl) (t : ℕ) : Binding :=
  if (p.paramType.getD typeInt).decays then .passed t else .block t .automatic

theorem ParamDecl.binding_slot (p : ParamDecl) (t : ℕ) : (p.binding t).slot = some t := by
  unfold binding
  split <;> rfl

theorem genParamCapture_extends (idx : ℕ) (ty : CType) (t : ℕ) (g : IrGen) :
    Extends g (genParamCapture idx ty t g).2 := by
  unfold genParamCapture
  split
  · exact Emits.emit (paramCopy_ne_label _ _ _ _) g
  · exact (Emits.newTemp g).trans (Emits.emit (paramCopy_ne_label _ _ _ _) _)

/-- The parameters are bound one after the other. -/
theorem Binds.genParams (ps : List ParamDecl) (idx : ℕ) (h : Binds N g) (hready : g.Ready)
    (hscope : g.scope ≠ []) :
    ∃ N', Binds N' (genParams Γ ps idx g).2 ∧ (TinyC.genParams Γ ps idx g).2.Ready ∧
      (TinyC.genParams Γ ps idx g).2.scope ≠ [] ∧
      ∀ y, N' y = N y ∨ ∃ p ∈ ps, p.name = some y ∧ ∃ t, N' y = p.binding t := by
  induction ps generalizing N g idx with
  | nil => exact ⟨N, h, hready, hscope, fun _ => .inl rfl⟩
  | cons p ps ih =>
    rw [TinyC.genParams]
    cases hname : p.name with
    | none =>
      obtain ⟨N', hbinds, hready', hne, hnames⟩ := ih (idx + 1) h hready hscope
      refine ⟨N', hbinds, hready', hne, fun y => (hnames y).imp_right ?_⟩
      rintro ⟨q, hq, hbinding⟩
      exact ⟨q, List.mem_cons_of_mem p hq, hbinding⟩
    | some name =>
      let ty := p.paramType.getD typeInt
      let r := genAlloca Γ ty g
      let g₁ := (genParamCapture idx ty g.func.nextTemp r.2).2
      have hcapture : Extends g g₁ :=
        (Emits.genAlloca Γ ty g).trans (genParamCapture_extends idx ty _ _)
      have hslot : r.1.HasSlot g₁.func.nextTemp :=
        (IRValue.HasSlot.temp _ hready.temps (Nat.lt_succ_self _)).mono
          (genParamCapture_extends idx ty _ r.2).temps
      have hbinds : Binds (Function.update N name (p.binding g.func.nextTemp))
          (vscopeDefine name r.1 false g₁).2 :=
        (h.of_scope_eq hcapture.scope).define (hcapture.scope ▸ hscope)
          (by rw [p.binding_slot]; rfl) false
      obtain ⟨N', hbinds', hready', hne, hnames⟩ := ih (idx + 1) hbinds
        ((hready.extends hcapture).define hslot name false)
        (ScopeChain.define_ne_nil (hcapture.scope ▸ hscope))
      refine ⟨N', hbinds', hready', hne, fun y => ?_⟩
      rcases hnames y with hy | ⟨q, hq, hbinding⟩
      · by_cases hyx : y = name
        · subst hyx
          rw [Function.update_self] at hy
          exact .inr ⟨p, List.mem_cons_self, hname, _, hy⟩
        · rw [Function.update_of_ne hyx] at hy
          exact .inl hy
      · exact .inr ⟨q, List.mem_cons_of_mem p hq, hbinding⟩

end

end TinyC
