import TinyC.AcceptedUnits
import TinyC.StmtRules
import TinyC.Symbols

/-!
# The labels of a unit

A label of a function is printed with the function's name before its number, so it is told apart
from those of other functions and from the labels of strings.
-/

namespace TinyC

/-! ### Names -/

/-- `.L%s_%d`. -/
def localLabel (func : String) (l : ℤ) : String := ".L" ++ func ++ "_" ++ toString l

/-- The labels that are defined for a function: its own and those in its code. -/
def funcLabels (f : IRFunc) : List String := f.name :: (labelsOf f.instrs).map (localLabel f.name)

/-- The labels of the functions and the strings of a module, as `codegen` writes them. -/
def unitLabels (m : IRModule) : List String :=
  (m.funcs.filter fun f => f.instrs.length ≠ 0).flatMap funcLabels ++
    m.strConsts.map IRStrConst.label

section

variable {f f' : String} {k l : ℤ}

theorem underscore_notMem_digits (n : ℕ) : '_' ∉ Nat.toDigits 10 n := by
  intro h
  have hdigit := Nat.isDigit_of_mem_toDigits (by decide) (by decide) h
  exact absurd hdigit (by decide)

theorem toList_toString_ofNat (n : ℕ) : (toString (n : ℤ)).toList = Nat.toDigits 10 n :=
  String.toList_ofList

theorem toList_localLabel (f : String) (n : ℕ) :
    (localLabel f n).toList = '.' :: 'L' :: (f.toList ++ '_' :: Nat.toDigits 10 n) := by
  rw [localLabel, String.toList_append, String.toList_append, String.toList_append,
    toList_toString_ofNat]
  simp

/-- The last underscore tells where the number begins. -/
theorem append_underscore_inj {xs ys : List Char} {m n : ℕ}
    (h : xs ++ '_' :: Nat.toDigits 10 m = ys ++ '_' :: Nat.toDigits 10 n) :
    xs = ys ∧ Nat.toDigits 10 m = Nat.toDigits 10 n := by
  rcases List.append_eq_append_iff.mp h with ⟨zs, hys, hzs⟩ | ⟨zs, hxs, hzs⟩
  · cases zs with
    | nil =>
      rw [List.nil_append, List.cons.injEq] at hzs
      exact ⟨by rw [hys, List.append_nil], hzs.2⟩
    | cons z zs =>
      rw [List.cons_append, List.cons.injEq] at hzs
      refine absurd ?_ (underscore_notMem_digits m)
      rw [hzs.2]
      exact List.mem_append_right _ List.mem_cons_self
  · cases zs with
    | nil =>
      rw [List.nil_append, List.cons.injEq] at hzs
      exact ⟨by rw [hxs, List.append_nil], hzs.2.symm⟩
    | cons z zs =>
      rw [List.cons_append, List.cons.injEq] at hzs
      refine absurd ?_ (underscore_notMem_digits n)
      rw [hzs.2]
      exact List.mem_append_right _ List.mem_cons_self

theorem localLabel_inj (hk : 0 ≤ k) (hl : 0 ≤ l) (h : localLabel f k = localLabel f' l) :
    f = f' ∧ k = l := by
  obtain ⟨m, rfl⟩ := Int.eq_ofNat_of_zero_le hk
  obtain ⟨n, rfl⟩ := Int.eq_ofNat_of_zero_le hl
  have hlist := congrArg String.toList h
  rw [toList_localLabel, toList_localLabel, List.cons.injEq, List.cons.injEq] at hlist
  obtain ⟨hname, hdigits⟩ := append_underscore_inj hlist.2.2
  refine ⟨String.toList_injective hname, ?_⟩
  rw [← Nat.ofDigitChars_ten_toDigits (n := m), hdigits, Nat.ofDigitChars_ten_toDigits]

theorem localLabel_ne_strLabel (hl : 0 ≤ l) (n : ℕ) : localLabel f l ≠ ".Lstr" ++ toString n := by
  obtain ⟨m, rfl⟩ := Int.eq_ofNat_of_zero_le hl
  intro h
  have hlist := congrArg String.toList h
  have hstr : (".Lstr" ++ toString n).toList =
      '.' :: 'L' :: 's' :: 't' :: 'r' :: Nat.toDigits 10 n := by
    rw [String.toList_append]
    exact congrArg (".Lstr".toList ++ ·) String.toList_ofList
  have hmem : '_' ∈ (localLabel f m).toList := by
    rw [toList_localLabel]
    simp
  rw [hlist, hstr] at hmem
  simp only [List.mem_cons, underscore_notMem_digits, or_false] at hmem
  revert hmem
  decide

theorem name_ne_localLabel (h : IsName f) (hl : 0 ≤ l) : f ≠ localLabel f' l := by
  obtain ⟨n, rfl⟩ := Int.eq_ofNat_of_zero_le hl
  rintro rfl
  rw [IsName, toList_localLabel] at h
  exact h rfl

theorem name_ne_strLabel (h : IsName f) (n : ℕ) : f ≠ ".Lstr" ++ toString n := by
  rintro rfl
  rw [IsName, String.toList_append] at h
  exact h rfl

end

/-! ### A module whose labels are all different -/

/-- What is known of a module: its strings have labels of their own, its functions are named by
identifiers and their labels are numbers. -/
structure Labelled (m : IRModule) : Prop where
  pool : PoolOk m
  names : ∀ f ∈ m.funcs, IsName f.name
  nonneg : ∀ f ∈ m.funcs, ∀ l ∈ labelsOf f.instrs, 0 ≤ l

section

variable {m : IRModule}

theorem nodup_funcLabels {f : IRFunc} (hname : IsName f.name)
    (hnonneg : ∀ l ∈ labelsOf f.instrs, 0 ≤ l) :
    (funcLabels f).Nodup ↔ (labelsOf f.instrs).Nodup := by
  rw [funcLabels, List.nodup_cons]
  constructor
  · exact fun h => h.2.of_map _
  · refine fun h => ⟨fun hmem => ?_, h.map_on fun k hk l hl hkl => ?_⟩
    · obtain ⟨l, hl, heq⟩ := List.mem_map.mp hmem
      exact name_ne_localLabel hname (hnonneg l hl) heq.symm
    · exact (localLabel_inj (hnonneg k hk) (hnonneg l hl) hkl).2

/-- Labels of functions of different names are different. -/
theorem disjoint_funcLabels {f f' : IRFunc} (hname : IsName f.name) (hname' : IsName f'.name)
    (hnonneg : ∀ l ∈ labelsOf f.instrs, 0 ≤ l) (hnonneg' : ∀ l ∈ labelsOf f'.instrs, 0 ≤ l)
    (hne : f.name ≠ f'.name) : (funcLabels f).Disjoint (funcLabels f') := by
  intro s hs hs'
  rcases List.mem_cons.mp hs with rfl | hs <;> rcases List.mem_cons.mp hs' with hs' | hs'
  · exact hne hs'
  · obtain ⟨l, hl, heq⟩ := List.mem_map.mp hs'
    exact name_ne_localLabel hname (hnonneg' l hl) heq.symm
  · obtain ⟨l, hl, heq⟩ := List.mem_map.mp hs
    exact name_ne_localLabel hname' (hnonneg l hl) (heq.trans hs').symm
  · obtain ⟨l, hl, rfl⟩ := List.mem_map.mp hs
    obtain ⟨l', hl', heq⟩ := List.mem_map.mp hs'
    exact hne (localLabel_inj (hnonneg' l' hl') (hnonneg l hl) heq).1.symm

theorem nodup_unitLabels (hm : Labelled m) :
    (unitLabels m).Nodup ↔
      (∀ f ∈ m.funcs, (labelsOf f.instrs).Nodup) ∧
        ((m.funcs.filter fun f => f.instrs.length ≠ 0).map IRFunc.name).Nodup := by
  have hempty : ∀ f : IRFunc, ¬f.instrs.length ≠ 0 → (labelsOf f.instrs).Nodup := by
    intro f hf
    rw [List.length_eq_zero_iff.mp (not_not.mp hf)]
    exact List.nodup_nil
  have hstr : ∀ f ∈ m.funcs, ∀ s ∈ funcLabels f, s ∉ m.strConsts.map IRStrConst.label := by
    intro f hf s hs hmem
    obtain ⟨c, hc, rfl⟩ := List.mem_map.mp hmem
    obtain ⟨k, -, hk⟩ := hm.pool.label c hc
    rcases List.mem_cons.mp hs with hs | hs
    · exact name_ne_strLabel (hm.names f hf) k (hs.symm.trans hk)
    · obtain ⟨l, hl, heq⟩ := List.mem_map.mp hs
      exact localLabel_ne_strLabel (hm.nonneg f hf l hl) k (heq.trans hk)
  rw [unitLabels, List.nodup_append, List.nodup_flatMap]
  constructor
  · rintro ⟨⟨hone, hpair⟩, -⟩
    refine ⟨fun f hf => ?_, ?_⟩
    · by_cases hlen : f.instrs.length ≠ 0
      · exact (nodup_funcLabels (hm.names f hf) (hm.nonneg f hf)).mp
          (hone f (List.mem_filter.mpr ⟨hf, decide_eq_true hlen⟩))
      · exact hempty f hlen
    · refine List.pairwise_map.mpr (hpair.imp fun hdisj heq => ?_)
      exact hdisj List.mem_cons_self (heq ▸ List.mem_cons_self)
  · rintro ⟨hone, hnames⟩
    refine ⟨⟨fun f hf => ?_, ?_⟩, hm.pool.nodup, fun s hs t ht hst => ?_⟩
    · have hf := (List.mem_filter.mp hf).1
      exact (nodup_funcLabels (hm.names f hf) (hm.nonneg f hf)).mpr (hone f hf)
    · refine (List.pairwise_map.mp hnames).imp_of_mem fun {f f'} hf hf' hne => ?_
      have hf := (List.mem_filter.mp hf).1
      have hf' := (List.mem_filter.mp hf').1
      exact disjoint_funcLabels (hm.names f hf) (hm.names f' hf') (hm.nonneg f hf)
        (hm.nonneg f' hf') hne
    · obtain ⟨f, hf, hmem⟩ := List.mem_flatMap.mp hs
      exact hstr f (List.mem_filter.mp hf).1 s hmem (hst ▸ ht)

end

/-! ### Units -/

/-- The labels and jumps of a unit are in order; sema sees it as `checked`, with the types `t`. -/
structure JumpsWellFormed (Γ : TypeEnv) (t : TypeTable) (checked : RawUnit)
    (tu : TranslationUnit) : Prop where
  labels : ∀ f ∈ (irgen Γ tu).funcs, LabelsOnce f.instrs
  gotos : ∀ p ∈ funcDefs [] tu, GotosReach Γ p.2
    (funcStart Γ (irgenDecls Γ p.1).module (irgenDecls Γ p.1).scope p.2)
    (funcEnd Γ (irgenDecls Γ p.1).module (irgenDecls Γ p.1).scope p.2)
  registered : ∀ p ∈ funcDefs [] tu, ∃ f, RawTop.func f ∈ checked ∧
    t.readTop (.func f) = .ok (.func p.2) ∧ ∀ name, (∃ l, (name, l) ∈
      (funcStart Γ (irgenDecls Γ p.1).module (irgenDecls Γ p.1).scope p.2).gotoLabels) ↔
        f.body.labelExists name = true
  distinct : (unitLabels (irgen Γ tu)).Nodup

/-- No statement of a function has a name that another one has, and no two functions with code
have the same name. -/
structure NamesOnce (Γ : TypeEnv) (tu : TranslationUnit) : Prop where
  labels : ∀ d, TopDecl.func d ∈ tu → (labelNames d.body).Nodup
  funcs : ((emittedFuncs Γ tu).map FuncDef.name).Nodup

def TopDecl.labelNames : TopDecl → List String
  | .func d => TinyC.labelNames d.body
  | .decl _ => []

theorem forall_labelNames {tu : TranslationUnit} : (∀ d ∈ tu, d.labelNames.Nodup) ↔
    ∀ d, TopDecl.func d ∈ tu → (labelNames d.body).Nodup := by
  refine ⟨fun h d hd => h (.func d) hd, fun h d hd => ?_⟩
  cases d with
  | func d => exact h d hd
  | decl d => exact List.nodup_nil

instance (Γ : TypeEnv) (tu : TranslationUnit) : Decidable (NamesOnce Γ tu) :=
  decidable_of_iff ((∀ d ∈ tu, d.labelNames.Nodup) ∧
      ((emittedFuncs Γ tu).map FuncDef.name).Nodup)
    ⟨fun h => ⟨forall_labelNames.mp h.1, h.2⟩, fun h => ⟨forall_labelNames.mpr h.labels, h.funcs⟩⟩

/-- The pool stays in order. -/
theorem poolRules : StmtRules fun {α} (m : Gen α) => ∀ g, PoolOk g.module → PoolOk (m g).2.module where
  pure _ _ h := h
  bind hm hk g h := hk _ _ (hm g h)
  get_bind hk g h := hk g g h
  newTemp _ h := h
  newLabel _ h := h
  emit _ _ h := h
  addStringConst data _ h := (addStringConst_pool h data).1
  update hf _ g h := (hf g).symm ▸ h

section

variable {Γ : TypeEnv} {tu : TranslationUnit}

theorem irgen_pool (Γ : TypeEnv) (tu : TranslationUnit) : PoolOk (irgen Γ tu) := by
  unfold irgen
  induction tu using List.reverseRecOn with
  | nil => exact ⟨by simp [irgenDecls], by simp [irgenDecls]⟩
  | append_singleton before d ih =>
    rw [irgenDecls_append]
    cases d with
    | func d =>
      have hend := poolRules.stmt Γ d.body _ (poolRules.genFuncHead Γ d
        (funcInit (irgenDecls Γ before).module (irgenDecls Γ before).scope d) ih)
      exact ⟨hend.label, hend.nodup⟩
    | decl d =>
      cases d with
      | var v =>
        change PoolOk (irgenVar Γ v (irgenDecls Γ before)).module
        unfold irgenVar
        dsimp only
        split
        · exact ⟨ih.label, ih.nodup⟩
        · exact ih
      | _ => exact ih

theorem mem_funcDefs {p : List TopDecl × FuncDef} : ∀ {before : List TopDecl},
    p ∈ funcDefs before tu → TopDecl.func p.2 ∈ tu := by
  induction tu with
  | nil => exact fun hp => absurd hp List.not_mem_nil
  | cons d tu ih =>
    intro before hp
    cases d with
    | func d =>
      rcases List.mem_cons.mp hp with rfl | hp
      · exact List.mem_cons_self
      · exact List.mem_cons_of_mem _ (ih hp)
    | decl d => exact List.mem_cons_of_mem _ (ih hp)

theorem exists_funcDefs {d : FuncDef} (hd : TopDecl.func d ∈ tu) : ∀ before : List TopDecl,
    ∃ p ∈ funcDefs before tu, p.2 = d := by
  induction tu with
  | nil => cases hd
  | cons t tu ih =>
    intro before
    cases t with
    | func d' =>
      rcases List.mem_cons.mp hd with hd | hd
      · cases hd
        exact ⟨_, List.mem_cons_self, rfl⟩
      · obtain ⟨p, hp, heq⟩ := ih hd (before ++ [.func d'])
        exact ⟨p, List.mem_cons_of_mem _ hp, heq⟩
    | decl d' =>
      rcases List.mem_cons.mp hd with hd | hd
      · cases hd
      · exact ih hd (before ++ [.decl d'])

/-- The functions of a checked unit are those of its definitions, as far as labels go. -/
theorem irgen_labelled (h : UnitChecked tu) : Labelled (irgen Γ tu) := by
  refine ⟨irgen_pool Γ tu, fun f hf => ?_, fun f hf => ?_⟩
  all_goals
    rw [irgen_funcs_eq] at hf
    obtain ⟨p, hp, rfl⟩ := List.mem_map.mp hf
    obtain ⟨hname, hparsed, -⟩ := h p.2 (mem_funcDefs hp)
  · have hdefs := funcEnd_definitions Γ (irgenDecls Γ p.1).module (irgenDecls Γ p.1).scope p.2
    have hfname : (funcEnd Γ (irgenDecls Γ p.1).module (irgenDecls Γ p.1).scope p.2).func.name =
        p.2.name := congrArg (fun defs => defs.2.2.1) hdefs
    rw [hfname]
    exact hname
  · obtain ⟨-, -, -, hnonneg, -⟩ :=
      @funcEnd_labels Γ (irgenDecls Γ p.1).module (irgenDecls Γ p.1).scope p.2 hparsed
    exact hnonneg

/-- The labels of the functions are in order exactly if their names are. -/
theorem labelsOnce_iff_names (h : UnitChecked tu) :
    (∀ f ∈ (irgen Γ tu).funcs, LabelsOnce f.instrs) ↔
      ∀ d, TopDecl.func d ∈ tu → (labelNames d.body).Nodup := by
  rw [irgen_funcs_eq]
  constructor
  · intro hlabels d hd
    obtain ⟨p, hp, rfl⟩ := exists_funcDefs hd []
    exact (labelsOnce_iff (h _ hd).2.1).mp (hlabels _ (List.mem_map_of_mem hp))
  · intro hnames f hf
    obtain ⟨p, hp, rfl⟩ := List.mem_map.mp hf
    exact (labelsOnce_iff (h _ (mem_funcDefs hp)).2.1).mpr (hnames _ (mem_funcDefs hp))

theorem nodup_unitLabels_iff (h : UnitChecked tu) :
    (unitLabels (irgen Γ tu)).Nodup ↔
      (∀ f ∈ (irgen Γ tu).funcs, (labelsOf f.instrs).Nodup) ∧
        ((emittedFuncs Γ tu).map FuncDef.name).Nodup := by
  have hfuncs : ((irgen Γ tu).funcs.filter fun f => f.instrs.length ≠ 0).map IRFunc.name =
      (emittedFuncs Γ tu).map FuncDef.name := by
    have hnames := congrArg (List.map Prod.fst) (emittedFuncs_eq Γ tu)
    rw [List.map_map, List.map_map] at hnames
    exact hnames
  rw [nodup_unitLabels (irgen_labelled h), hfuncs]

variable {lib : LibC} {addr : TypeRef → BitVec 64} {src : List Byte} {checked : RawUnit}
  {t : TypeTable}

/-- irgen registers the names that sema finds. -/
theorem registered_names {p : List TopDecl × FuncDef} (htu : t.readUnit checked = .ok tu)
    (hp : p ∈ funcDefs [] tu) {m : IRModule} {scope : ScopeChain VarEntry} :
    ∃ f, RawTop.func f ∈ checked ∧ t.readTop (.func f) = .ok (.func p.2) ∧
      ∀ name, (∃ l, (name, l) ∈ (funcStart Γ m scope p.2).gotoLabels) ↔
        f.body.labelExists name = true := by
  obtain ⟨f, hf, hread⟩ := exists_readFunc htu (mem_funcDefs hp)
  refine ⟨f, hf, hread, fun name => ?_⟩
  rw [registered_iff, (readTop_readsAs hread).2.labels, RawStmt.labelExists_iff]

/-- The jumps of a unit that is accepted are well formed exactly if its functions, and the labels
in each, are named once. -/
theorem jump_targets (h : Checked lib addr src checked t) (htu : t.readUnit checked = .ok tu)
    (Γ : TypeEnv) : JumpsWellFormed Γ t checked tu ↔ NamesOnce Γ tu := by
  have hunit := h.unitChecked htu
  have honce := labelsOnce_iff_names (Γ := Γ) hunit
  have hdistinct := nodup_unitLabels_iff (Γ := Γ) hunit
  constructor
  · intro hjumps
    exact ⟨honce.mp hjumps.labels, (hdistinct.mp hjumps.distinct).2⟩
  · intro hnames
    have hlabels := honce.mpr hnames.labels
    refine ⟨hlabels, fun p hp => ?_, fun p hp => registered_names htu hp,
      hdistinct.mpr ⟨fun f hf => (hlabels f hf).nodup, hnames.funcs⟩⟩
    obtain ⟨-, hparsed, hgotos⟩ := hunit p.2 (mem_funcDefs hp)
    exact gotosReach hparsed hgotos

theorem jump_targets_again : ∃ checked t Γ tu,
    Checked ⟨fun _ => 0, fun _ => ""⟩ arenaAddr
      ("void f(void) { again: goto again; }".toList.map ch) checked t ∧
    t.env = .ok Γ ∧ t.readUnit checked = .ok tu ∧ tu.map TopDecl.labelNames = [["again"]] ∧
    JumpsWellFormed Γ t checked tu := by
  have hunit : ((acceptedUnit ⟨fun _ => 0, fun _ => ""⟩ arenaAddr 60
      ("void f(void) { again: goto again; }".toList.map ch)).toOption.any fun r => r.any fun r =>
        r.2.map TopDecl.labelNames = [["again"]] ∧ NamesOnce r.1 r.2) = true := by
    decide +kernel
  obtain ⟨Γ, tu, ⟨checked, t, h, henv, htu⟩, hnames⟩ := exists_accepted
    (q := fun Γ tu => tu.map TopDecl.labelNames = [["again"]] ∧ NamesOnce Γ tu) hunit
  have hnames := of_decide_eq_true hnames
  exact ⟨checked, t, Γ, tu, h, henv, htu, hnames.1, (jump_targets h htu Γ).mpr hnames.2⟩

/-- Both statements place the label that the name had last. -/
theorem label_named_twice : ∃ checked t Γ tu,
    Checked ⟨fun _ => 0, fun _ => ""⟩ arenaAddr
      ("void f(void) { again: ; again: ; }".toList.map ch) checked t ∧
    t.env = .ok Γ ∧ t.readUnit checked = .ok tu ∧ ¬JumpsWellFormed Γ t checked tu := by
  have hunit : ((acceptedUnit ⟨fun _ => 0, fun _ => ""⟩ arenaAddr 60
      ("void f(void) { again: ; again: ; }".toList.map ch)).toOption.any fun r => r.any fun r =>
        ¬∀ d ∈ r.2, d.labelNames.Nodup) = true := by
    decide +kernel
  obtain ⟨Γ, tu, ⟨checked, t, h, henv, htu⟩, htwice⟩ := exists_accepted
    (q := fun _ tu => ¬∀ d ∈ tu, d.labelNames.Nodup) hunit
  refine ⟨checked, t, Γ, tu, h, henv, htu, fun hjumps => of_decide_eq_true htwice ?_⟩
  exact forall_labelNames.mpr ((labelsOnce_iff_names (h.unitChecked htu)).mp hjumps.labels)

end

end TinyC
