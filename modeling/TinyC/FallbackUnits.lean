import TinyC.AcceptedUnits
import TinyC.FallbackRules
import TinyC.UnitFunctions

/-!
# Units without fallbacks

A fallback is never taken exactly if whatever is done in it goes unnoticed. For the one direction
two runs are compared, for the other the fallbacks leave marks among the globals.
-/

namespace TinyC

variable {ft : Option CType} {Γ : TypeEnv}

/-! ### Fallbacks that are not taken -/

/-- Nothing is done where a name that has a declaration is not found. -/
def PassesDeclared (fb : Fallback → Gen Unit) : Prop := ∀ c, c.isDeclared = true → fb c = return

/-- The two do the same where `ok` or the grade holds. -/
structure Unnoticed (ok : Prop) (ft : Option CType) (b : Bool) {α : Type} (m m' : Gen α) : Prop where
  funcType : ∀ g : IrGen, g.func.funcType = ft → (m g).2.func.funcType = ft
  same : ok ∨ b = true → ∀ g : IrGen, g.func.funcType = ft → m' g = m g

namespace Unnoticed

variable {fb : Fallback → Gen Unit} {ok : Prop} {α β : Type} {b c : Bool}

theorem refl {m : Gen α} (hm : ∀ g : IrGen, g.func.funcType = ft → (m g).2.func.funcType = ft) :
    Unnoticed ok ft true m m := ⟨hm, fun _ _ _ => rfl⟩

theorem quiet {m : Gen α} (hm : Keeps IrGen.fixed m) : Unnoticed ok ft true m m :=
  .refl fun g hg => (congrArg Prod.fst (hm g)).trans hg

theorem bind {m m' : Gen α} {k k' : α → Gen β} (hm : Unnoticed ok ft b m m')
    (hk : ∀ a, Unnoticed ok ft c (k a) (k' a)) :
    Unnoticed ok ft (b && c) (m >>= k) (m' >>= k') := by
  refine ⟨fun g hg => (hk _).funcType _ (hm.funcType g hg), fun hbc g hg => ?_⟩
  rw [Bool.and_eq_true] at hbc
  have hsame : m' g = m g := hm.same (hbc.imp_right And.left) g hg
  change k' (m' g).1 (m' g).2 = k (m g).1 (m g).2
  rw [hsame]
  exact (hk _).same (hbc.imp_right And.right) _ (hm.funcType g hg)

theorem getBind {k k' : IrGen → Gen β}
    (hk : ∀ g, g.func.funcType = ft → Unnoticed ok ft b (k g) (k' g)) :
    Unnoticed ok ft b (get >>= k) (get >>= k') :=
  ⟨fun g hg => (hk g hg).funcType g hg, fun hb g hg => (hk g hg).same hb g hg⟩

theorem withScope {m m' : Gen Unit} (hm : Unnoticed ok ft b m m') :
    Unnoticed ok ft b (withScope m) (withScope m') := by
  refine getBind fun g₀ _ => ⟨fun g hg => hm.funcType (TinyC.pushScope g).2 hg, fun hb g hg => ?_⟩
  have hsame : m' (TinyC.pushScope g).2 = m (TinyC.pushScope g).2 := hm.same hb _ hg
  exact congrArg (fun r : Unit × IrGen => ((), { r.2 with scope := g₀.scope })) hsame

theorem lookingUp (hfb : PassesDeclared fb) (hok : ok → fb = fun _ => return)
    (declared : List String) (name : String) {m : Gen α} (hm : Keeps IrGen.fixed m) :
    Unnoticed ok ft (name ∈ declared) m (TinyC.lookingUp fb declared name m) := by
  have hquiet : Unnoticed ok ft True m m := quiet hm
  refine ⟨hquiet.funcType, fun hname g _ => ?_⟩
  have hpass : fb (.unknown name (name ∈ declared)) = return := by
    rcases hname with h | hname
    · rw [hok h]
    · exact hfb _ hname
  rw [TinyC.lookingUp, Gen.run_vscopeLookup_bind, orFallback, hpass]
  split <;> rfl

end Unnoticed

theorem unnoticed_rules {fb : Fallback → Gen Unit} {ok : Prop} (hfb : PassesDeclared fb)
    (hok : ok → fb = fun _ => return) :
    FallbackStmtRules fb ft (fun _ _ b {_} m m' => Unnoticed ok ft b m m') where
  node declared :=
    { quiet := .quiet
      bind := .bind
      fallback := by
        intro α c b m m' _ hm
        refine ⟨hm.funcType, fun hb g hg => ?_⟩
        have h : ok := hb.resolve_right Bool.false_ne_true
        rw [hok h]
        exact hm.same (.inl h) g hg
      lookingUp := fun name _ hm => .lookingUp hfb hok declared name hm }
  bind := .bind
  more hm _ _ := hm
  define _ _ _ _ := .refl fun _ hg => hg
  withScope := .withScope
  getBind := .getBind

theorem funcStart_funcType (module : IRModule) (scope : ScopeChain VarEntry) (d : FuncDef) :
    (funcStart Γ module scope d).func.funcType = d.funcType :=
  (funcStart_scanning Γ module scope d).2

theorem genFuncWith_eq {fb : Fallback → Gen Unit} {ok : Prop} (hfb : PassesDeclared fb)
    (hok : ok → fb = fun _ => return) {declared : List String} {d : FuncDef}
    (hd : ok ∨ topSound Γ declared (.func d) = true) (module : IRModule)
    (scope : ScopeChain VarEntry) :
    genFuncWith fb Γ declared module scope d = genFunc Γ module scope d := by
  have hbody := ((unnoticed_rules hfb hok).stmt (d.names ++ declared) d.body).same hd
    (funcStart Γ module scope d) (funcStart_funcType module scope d)
  have hrun : (genStmtWith fb Γ (d.names ++ declared) d.body).run (funcStart Γ module scope d) =
      (genStmt Γ d.body).run (funcStart Γ module scope d) := hbody
  rw [genFuncWith, hrun]
  rfl

theorem irgenDeclsWith_eq {fb : Fallback → Gen Unit} {ok : Prop} (hfb : PassesDeclared fb)
    (hok : ok → fb = fun _ => return) {declared : List String} {ds : List TopDecl}
    (hds : ok ∨ unitSoundFrom Γ declared ds = true) (s : UnitState) :
    irgenDeclsWith fb Γ declared s ds = ds.foldl (irgenDecl Γ) s := by
  induction ds generalizing declared s with
  | nil => rfl
  | cons d ds ih =>
    rw [unitSoundFrom, Bool.and_eq_true] at hds
    have hd : irgenDeclWith fb Γ declared s d = irgenDecl Γ s d := by
      cases d with
      | func d =>
        have hfunc := genFuncWith_eq hfb hok (hds.imp_right And.left) s.module s.scope
        exact congrArg (fun m => (⟨m, s.scope⟩ : UnitState)) hfunc
      | decl d => cases d <;> rfl
    rw [irgenDeclsWith, hd, List.foldl_cons]
    exact ih (hds.imp_right And.right) _

/-- With nothing done in its fallbacks it is irgen. -/
theorem irgenWith_return (tu : TranslationUnit) :
    irgenWith (fun _ => return) Γ tu = irgen Γ tu :=
  congrArg UnitState.module
    (irgenDeclsWith_eq (fun _ _ => rfl) (fun _ => rfl) (.inl trivial) {})

/-! ### Marks -/

/-- A global that stands for a fallback. -/
def fallbackMark : IRGlobalVar where
  name := ""
  type := typeInt
  initVal := 0
  hasInit := false
  initData := none
  isStatic := true

def markFallback (c : Fallback) : Gen Unit :=
  if c.isDeclared then return
  else modify fun g => { g with
    module := { g.module with globalVars := fallbackMark :: g.module.globalVars } }

theorem markFallback_passes : PassesDeclared markFallback := fun _ hc => if_pos hc

def IRModule.globalCount (m : IRModule) : ℕ := m.globalVars.length

/-- What is found in the scope is declared. -/
structure ScopeDeclared (ft : Option CType) (declared : List String) (g : IrGen) : Prop where
  funcType : g.func.funcType = ft
  found : ∀ name, (g.scope.lookup vtabBuckets name).isSome = true → name ∈ declared

theorem ScopeDeclared.of_fixed {declared : List String} {g g' : IrGen} (h : ScopeDeclared ft declared g)
    (hfixed : g'.fixed = g.fixed) : ScopeDeclared ft declared g' where
  funcType := (congrArg Prod.fst hfixed).trans h.funcType
  found := (congrArg (fun p => p.2.2) hfixed : g'.scope = g.scope) ▸ h.found

theorem isSome_lookup_define {sc : ScopeChain VarEntry} {n : ℕ} {name name' : String} {e : VarEntry}
    (h : ((sc.define n name e).lookup n name').isSome = true) :
    name' = name ∨ (sc.lookup n name').isSome = true := by
  cases sc with
  | nil => exact .inr h
  | cons fr rest =>
    rw [ScopeChain.lookup_define] at h
    by_cases hname : name' = name
    · exact .inl hname
    · exact .inr (by rwa [if_neg hname] at h)

theorem ScopeDeclared.define {declared : List String} {g : IrGen} (h : ScopeDeclared ft declared g)
    (name : String) (addr : IRValue) (isGlobal : Bool) :
    ScopeDeclared ft (name :: declared) (vscopeDefine name addr isGlobal g).2 where
  funcType := h.funcType
  found name' hname := (isSome_lookup_define hname).elim (fun heq => heq ▸ List.mem_cons_self)
    fun hname => List.mem_cons_of_mem _ (h.found name' hname)

/-- Globals are added unless the grade holds. -/
structure Marks (ft : Option CType) (before after : List String) (b : Bool) {α : Type} (m : Gen α) :
    Prop where
  scopeDeclared : ∀ g, ScopeDeclared ft before g → ScopeDeclared ft after (m g).2
  le : ∀ g, ScopeDeclared ft before g → g.module.globalCount ≤ (m g).2.module.globalCount
  lt : b = false → ∀ g, ScopeDeclared ft before g → g.module.globalCount < (m g).2.module.globalCount

namespace Marks

variable {α β : Type} {before between after declared : List String} {b c : Bool}

theorem quiet {m : Gen α} (hm : Keeps IrGen.fixed m) : Marks ft declared declared true m :=
  ⟨fun g hg => hg.of_fixed (hm g), fun g _ => (congrArg (fun p => p.2.1.length) (hm g)).ge,
    fun h => absurd h (by simp)⟩

theorem bind {m : Gen α} {k : α → Gen β} (hm : Marks ft before between b m)
    (hk : ∀ a, Marks ft between after c (k a)) : Marks ft before after (b && c) (m >>= k) := by
  refine ⟨fun g hg => (hk _).scopeDeclared _ (hm.scopeDeclared g hg),
    fun g hg => (hm.le g hg).trans ((hk _).le _ (hm.scopeDeclared g hg)), fun hbc g hg => ?_⟩
  cases b with
  | false => exact (hm.lt rfl g hg).trans_le ((hk _).le _ (hm.scopeDeclared g hg))
  | true => exact (hm.le g hg).trans_lt ((hk _).lt hbc _ (hm.scopeDeclared g hg))

theorem fallback {c : Fallback} (hc : c.isDeclared = false) {m : Gen α}
    (hm : Marks ft before after b m) :
    Marks ft before after false (markFallback c >>= fun _ => m) := by
  let marked (g : IrGen) : IrGen :=
    { g with module := { g.module with globalVars := fallbackMark :: g.module.globalVars } }
  have hrun : ∀ g, (markFallback c >>= fun _ => m) g = m (marked g) := fun g => by
    rw [markFallback, hc]
    rfl
  have hmarked : ∀ g, ScopeDeclared ft before g → ScopeDeclared ft before (marked g) :=
    fun g hg => ⟨hg.funcType, hg.found⟩
  have hlt : ∀ g, ScopeDeclared ft before g →
      g.module.globalCount < ((markFallback c >>= fun _ => m) g).2.module.globalCount :=
    fun g hg => hrun g ▸ (Nat.lt_succ_self _).trans_le (hm.le (marked g) (hmarked g hg))
  exact ⟨fun g hg => hrun g ▸ hm.scopeDeclared (marked g) (hmarked g hg), fun g hg => (hlt g hg).le,
    fun _ => hlt⟩

theorem getBind {k : IrGen → Gen β} (hk : ∀ g, g.func.funcType = ft → Marks ft before after b (k g)) :
    Marks ft before after b (get >>= k) :=
  ⟨fun g hg => (hk g hg.funcType).scopeDeclared g hg, fun g hg => (hk g hg.funcType).le g hg,
    fun hb g hg => (hk g hg.funcType).lt hb g hg⟩

theorem withScope {m : Gen Unit} (hm : Marks ft before after b m) :
    Marks ft before before b (withScope m) := by
  have hpush : ∀ g, ScopeDeclared ft before g → ScopeDeclared ft before (pushScope g).2 :=
    fun g hg => ⟨hg.funcType, hg.found⟩
  exact ⟨fun g hg => ⟨(hm.scopeDeclared _ (hpush g hg)).funcType, hg.found⟩,
    fun g hg => hm.le _ (hpush g hg), fun hb g hg => hm.lt hb _ (hpush g hg)⟩

/-- A name that is not declared is not found. -/
theorem lookingUp (name : String) {m : Gen α} (hm : Keeps IrGen.fixed m) :
    Marks ft declared declared (name ∈ declared) (TinyC.lookingUp markFallback declared name m) := by
  have hquiet : Marks ft declared declared true m := quiet hm
  have hrun : ∀ g : IrGen, TinyC.lookingUp markFallback declared name m g =
      if (g.scope.lookup vtabBuckets name).isSome = true then m g
      else (markFallback (.unknown name (name ∈ declared)) >>= fun _ => m) g := fun g => by
    rw [TinyC.lookingUp, Gen.run_vscopeLookup_bind, orFallback]
    split <;> rfl
  by_cases hname : name ∈ declared
  · have hpass := markFallback_passes (.unknown name (name ∈ declared)) (decide_eq_true hname)
    have hsame : TinyC.lookingUp markFallback declared name m = m := funext fun g => by
      rw [hrun, hpass]
      split <;> rfl
    rwa [hsame, decide_eq_true hname]
  · have hmark := hquiet.fallback (c := .unknown name (name ∈ declared)) (decide_eq_false hname)
    have hmiss : ∀ g, ScopeDeclared ft declared g → TinyC.lookingUp markFallback declared name m g =
        (markFallback (.unknown name (name ∈ declared)) >>= fun _ => m) g := fun g hg => by
      rw [hrun, if_neg fun h => hname (hg.found name h)]
    rw [decide_eq_false hname]
    exact ⟨fun g hg => hmiss g hg ▸ hmark.scopeDeclared g hg, fun g hg => hmiss g hg ▸ hmark.le g hg,
      fun h g hg => hmiss g hg ▸ hmark.lt h g hg⟩

end Marks

theorem marks_rules : FallbackStmtRules markFallback ft
    (fun before after b {_} _ m => Marks ft before after b m) where
  node _ :=
    { quiet := .quiet
      bind := .bind
      fallback := fun _ _ _ _ hc hm => hm.fallback hc
      lookingUp := fun name _ hm => .lookingUp name hm }
  bind := .bind
  more hm hbefore hafter :=
    have hweak : ∀ g, ScopeDeclared ft _ g → ScopeDeclared ft _ g :=
      fun _ hg => ⟨hg.funcType, fun name h => hbefore (hg.found name h)⟩
    ⟨fun g hg => ⟨(hm.scopeDeclared g (hweak g hg)).funcType,
        fun name h => hafter ((hm.scopeDeclared g (hweak g hg)).found name h)⟩,
      fun g hg => hm.le g (hweak g hg), fun hb g hg => hm.lt hb g (hweak g hg)⟩
  define _ name addr isGlobal :=
    ⟨fun _ hg => hg.define name addr isGlobal, fun _ _ => le_rfl, fun h => absurd h (by simp)⟩
  withScope := .withScope
  getBind := .getBind

/-- The parameters are declared, and nothing else is new in the scope of a function. -/
theorem genParams_marks (ps : List ParamDecl) (declared : List String) (idx : ℕ) :
    Marks ft declared ((ps.filterMap ParamDecl.name).reverse ++ declared) true
      (genParams Γ ps idx) := by
  induction ps generalizing declared idx with
  | nil => exact .quiet (.pure _)
  | cons p ps ih =>
    unfold genParams
    cases hname : p.name with
    | none =>
      rw [List.filterMap_cons_none hname]
      exact ih declared (idx + 1)
    | some name =>
      rw [List.filterMap_cons_some hname, List.reverse_cons, List.append_assoc]
      exact (Marks.quiet (.ofEmits stable_fixed (Emits.genAlloca Γ _))).bind fun addr =>
        (Marks.quiet (Keeps.genParamCapture stable_fixed idx _ _)).bind fun _ =>
          (marks_rules.define declared name addr false).bind fun _ =>
            (ih (name :: declared) (idx + 1)).bind fun _ => Marks.quiet (.pure _)

theorem genFuncHead_marks (declared : List String) (d : FuncDef) :
    Marks ft declared ((d.params.filterMap ParamDecl.name).reverse ++ declared) true
      (genFuncHead Γ d) :=
  .getBind fun _ _ =>
    (Marks.quiet (Keeps.genSretParam stable_fixed (fun _ _ => rfl) Γ _)).bind fun _ =>
      (genParams_marks d.params declared 0).bind fun vals =>
        (Marks.quiet (Keeps.storeParams stable_fixed vals)).bind fun _ =>
          (Marks.quiet (fun _ => rfl)).bind fun _ =>
            Marks.quiet (Keeps.collectLabels stable_fixed (fun _ _ => rfl) d.body)

theorem funcStart_scopeDeclared {declared : List String} {scope : ScopeChain VarEntry}
    (hscope : ∀ name, (scope.lookup vtabBuckets name).isSome = true → name ∈ declared)
    (module : IRModule) (d : FuncDef) :
    ScopeDeclared d.funcType (d.names ++ declared) (funcStart Γ module scope d) := by
  have hinit : ScopeDeclared d.funcType declared (funcInit module scope d) := ⟨rfl, hscope⟩
  have hstart := (genFuncHead_marks (Γ := Γ) declared d).scopeDeclared _ hinit
  refine ⟨hstart.funcType, fun name hname => ?_⟩
  have hmem := hstart.found name hname
  simp only [FuncDef.names, List.mem_append, List.mem_reverse] at hmem ⊢
  tauto

theorem funcStart_globalCount (module : IRModule) (scope : ScopeChain VarEntry) (d : FuncDef) :
    (funcStart Γ module scope d).module.globalCount = module.globalCount := by
  have h := congrArg (fun ds => ds.2.1.length)
    (Keeps.genFuncHead headFrame_definitions Γ d (funcInit module scope d))
  exact h

/-- A function that is not sound leaves a mark. -/
theorem genFuncWith_marks {declared : List String} {scope : ScopeChain VarEntry}
    (hscope : ∀ name, (scope.lookup vtabBuckets name).isSome = true → name ∈ declared)
    (module : IRModule) (d : FuncDef) :
    module.globalCount ≤ (genFuncWith markFallback Γ declared module scope d).globalCount ∧
      (topSound Γ declared (.func d) = false →
        module.globalCount < (genFuncWith markFallback Γ declared module scope d).globalCount) := by
  have hbody : Marks d.funcType (d.names ++ declared)
      (d.body.names Γ ++ (d.names ++ declared)) (topSound Γ declared (.func d))
      (genStmtWith markFallback Γ (d.names ++ declared) d.body) :=
    marks_rules.stmt (d.names ++ declared) d.body
  have hstart := funcStart_scopeDeclared (Γ := Γ) hscope module d
  rw [← funcStart_globalCount (Γ := Γ) module scope d]
  exact ⟨hbody.le _ hstart, fun h => hbody.lt h _ hstart⟩

/-- `ds` goes from fewer globals to fewer, and a mark makes the difference. -/
theorem irgenDeclsWith_marks (declared : List String) (ds : List TopDecl) (s s' : UnitState)
    (hscope : ∀ name, (s'.scope.lookup vtabBuckets name).isSome = true → name ∈ declared)
    (hle : s.module.globalCount ≤ s'.module.globalCount)
    (hlt : unitSoundFrom Γ declared ds = false ∨ s.module.globalCount < s'.module.globalCount) :
    (ds.foldl (irgenDecl Γ) s).module.globalCount <
      (irgenDeclsWith markFallback Γ declared s' ds).module.globalCount := by
  induction ds generalizing declared s s' with
  | nil => exact hlt.resolve_left (by simp [unitSoundFrom])
  | cons d ds ih =>
    rw [unitSoundFrom, Bool.and_eq_false_iff] at hlt
    cases d with
    | func d =>
      obtain ⟨hmarks, hmark⟩ := genFuncWith_marks (Γ := Γ) hscope s'.module d
      have hsame : (genFunc Γ s.module s.scope d).globalCount = s.module.globalCount :=
        congrArg List.length (genFunc_globalVars Γ s.module s.scope d)
      refine ih _ _ _ (fun name h => List.mem_append_right _ (hscope name h))
        (by rw [irgenDecl, hsame]; exact hle.trans hmarks) ?_
      rw [irgenDecl, hsame]
      rcases hlt with (hd | hds) | hlt
      · exact .inr (hle.trans_lt (hmark hd))
      · exact .inl hds
      · exact .inr (hlt.trans_le hmarks)
    | decl d =>
      have hrest : unitSoundFrom Γ (d.names Γ ++ declared) ds = false ∨
          s.module.globalCount < s'.module.globalCount := by
        rcases hlt with (hd | hds) | hlt
        · exact absurd hd (by simp [topSound])
        · exact .inl hds
        · exact .inr hlt
      cases d with
      | var v =>
        have hcount : ∀ s : UnitState, (irgenVar Γ v s).module.globalCount = s.module.globalCount +
            if v.storage ≠ .externScope ∧ ¬(v.declType.getD typeInt).isFunc then 1 else 0 := by
          intro s
          unfold irgenVar
          dsimp only
          split <;> rfl
        have hfound : ∀ name, ((irgenVar Γ v s').scope.lookup vtabBuckets name).isSome = true →
            name ∈ v.name :: declared := by
          intro name h
          have hdef : (irgenVar Γ v s').scope = s'.scope.define vtabBuckets v.name
              ⟨irvGlobal v.name (typePointer (v.declType.getD typeInt) .none), true⟩ := by
            unfold irgenVar
            dsimp only
            split <;> rfl
          rw [hdef] at h
          rcases isSome_lookup_define h with rfl | h
          · exact List.mem_cons_self
          · exact List.mem_cons_of_mem _ (hscope name h)
        refine ih _ _ _ hfound ?_ ?_
        · simp only [irgenDecl, irgenDeclWith, hcount]
          exact Nat.add_le_add_right hle _
        · simp only [irgenDecl, irgenDeclWith, hcount]
          exact hrest.imp_right fun h => Nat.add_lt_add_right h _
      | _ => exact ih _ _ _ (fun name h => List.mem_append_right _ (hscope name h)) hle hrest

theorem unitSound_of_no_fallback {tu : TranslationUnit}
    (h : ∀ fb, PassesDeclared fb → irgenWith fb Γ tu = irgen Γ tu) : unitSound Γ tu = true := by
  by_contra hsound
  have hmarks := irgenDeclsWith_marks (Γ := Γ) [] tu {} {}
    (fun name h => absurd h (by simp [ScopeChain.lookup, ScopeChain.lookupFrame])) le_rfl
    (.inl (Bool.eq_false_iff.mpr hsound))
  have heq : (irgenWith markFallback Γ tu).globalCount = (irgen Γ tu).globalCount :=
    congrArg IRModule.globalCount (h markFallback markFallback_passes)
  exact hmarks.ne' heq

/-- irgen stays out of its fallbacks on the units that are sound. -/
theorem no_fallback_iff (Γ : TypeEnv) (tu : TranslationUnit) :
    (∀ fb, PassesDeclared fb → irgenWith fb Γ tu = irgen Γ tu) ↔ unitSound Γ tu = true := by
  constructor
  · exact unitSound_of_no_fallback
  · intro h fb hfb
    exact congrArg UnitState.module (irgenDeclsWith_eq hfb False.elim (.inr h) {})

/-- A member that the struct does not have is accepted. -/
theorem accepted_with_fallback :
    ¬∀ lib addr src Γ tu, Accepted lib addr src Γ tu →
      ∀ fb, PassesDeclared fb → irgenWith fb Γ tu = irgen Γ tu := by
  intro h
  have hunit : ((acceptedUnit ⟨fun _ => 0, fun _ => ""⟩ arenaAddr 60
      ("struct S { int a; } s; int f(void) { return s.b; }".toList.map ch)).toOption.any
        fun r => r.any fun r => !unitSound r.1 r.2) = true := by
    decide +kernel
  obtain ⟨Γ, tu, haccepted, hnot⟩ := exists_accepted (q := fun Γ tu => !unitSound Γ tu) hunit
  rw [unitSound_of_no_fallback (h _ _ _ _ _ haccepted)] at hnot
  cases hnot

end TinyC
