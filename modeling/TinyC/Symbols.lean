import TinyC.SilentCode
import TinyC.CodegenUnit

/-!
# The symbols of a translation unit

Which symbols the assembly of a unit has can be read off its declarations: a function that has
code and every declaration of an object without `extern` makes one.
-/

namespace TinyC

/-! ### The bytes of an initializer -/

theorem length_writeIntLe (buf : Bytes) (off : ℤ) (sz : ℕ) (val : BitVec 64) :
    (writeIntLe buf off sz val).length = buf.length := by
  have hfold : ∀ (is : List ℕ) (buf : Bytes), (is.foldl (fun b (i : ℕ) =>
      if off + i < 0 then b else b.set (off + i).toNat (val.extractLsb' (8 * i) 8)) buf).length =
      buf.length := by
    intro is
    induction is with
    | nil => exact fun buf => rfl
    | cons i is ih =>
      intro buf
      rw [List.foldl_cons, ih]
      split
      · rfl
      · exact List.length_set
  exact hfold (List.range sz) buf

theorem length_fillGlobalScalar (Γ : TypeEnv) (ty : CType) (val : BitVec 64) (buf : Bytes)
    (off : ℤ) : (fillGlobalScalar Γ ty val buf off).length = buf.length := by
  unfold fillGlobalScalar
  split
  · rfl
  · exact length_writeIntLe _ _ _ _

/-- Filling leaves the buffer as long as it is. -/
structure FillNode.KeepsLength (n : FillNode) : Prop where
  body : ∀ ty buf off, (n.body ty buf off).length = buf.length
  fill : ∀ ty buf off, (n.fill ty buf off).length = buf.length

section Fill

variable {Γ : TypeEnv} {items : List FillItem}

theorem length_fillGlobalArray (elem : CType) (count : Option ℤ) (off : ℤ)
    (h : ∀ it ∈ items, it.value.KeepsLength) (next : ℤ) (buf : Bytes) :
    (fillGlobalArray Γ elem count off items next buf).length = buf.length := by
  induction items generalizing next buf with
  | nil => rfl
  | cons it rest ih =>
    have hrest := ih fun it' hit => h it' (List.mem_cons_of_mem it hit)
    have hit := h it List.mem_cons_self
    have hstep : ∀ index : ℤ, (if count.any fun n => index < 0 || index ≥ n then
        fillGlobalArray Γ elem count off rest (index + 1) buf
      else fillGlobalArray Γ elem count off rest (index + 1)
        (it.value.fill elem buf (off + toInt32 (index * elemSize Γ elem)))).length =
          buf.length := by
      intro index
      split
      · exact hrest _ _
      · exact (hrest _ _).trans (hit.fill _ _ _)
    unfold fillGlobalArray
    split
    · exact hrest _ _
    · exact hstep _

theorem length_fillGlobalAggregate (ty : CType) (off : ℤ)
    (h : ∀ it ∈ items, it.value.KeepsLength) (next : List StructField) (buf : Bytes) :
    (fillGlobalAggregate Γ ty off items next buf).length = buf.length := by
  induction items generalizing next buf with
  | nil => rfl
  | cons it rest ih =>
    have hrest := ih fun it' hit => h it' (List.mem_cons_of_mem it hit)
    have hit := h it List.mem_cons_self
    unfold fillGlobalAggregate
    split
    · exact hrest _ _
    · dsimp only
      split
      · rfl
      · exact (hrest _ _).trans (hit.fill _ _ _)

theorem length_fillGlobalList (h : ∀ it ∈ items, it.value.KeepsLength) (ty : CType) (buf : Bytes)
    (off : ℤ) : (fillGlobalList Γ items ty buf off).length = buf.length := by
  unfold fillGlobalList
  split
  · exact length_fillGlobalArray _ _ _ h _ _
  · exact length_fillGlobalArray _ _ _ h _ _
  · exact length_fillGlobalAggregate _ _ h _ _
  · exact length_fillGlobalScalar _ _ _ _ _

end Fill

mutual

theorem fillNode_keepsLength (Γ : TypeEnv) : (e : Expr) → (fillNode Γ e).KeepsLength
  | .initList _ items =>
      have h := fillItems_keepsLength Γ items
      ⟨length_fillGlobalList h, length_fillGlobalList h⟩
  | .compoundLit _ _ init =>
      ⟨fun _ _ _ => length_fillGlobalScalar _ _ _ _ _, (fillNode_keepsLength Γ init).body⟩
  | .intLit _ _ _ | .floatLit _ _ _ | .charLit _ _ | .strLit _ _ | .ident _ _ | .unop _ _ _
  | .postop _ _ _ | .binop _ _ _ _ | .assign _ _ _ _ | .ternary _ _ _ _ | .call _ _ _
  | .subscript _ _ _ | .member _ _ _ | .memberPtr _ _ _ | .cast _ _ _ | .sizeofExpr _ _
  | .sizeofType _ _ | .comma _ _ _ | .fieldDesig _ _ _ | .indexDesig _ _ _ =>
      ⟨fun _ _ _ => length_fillGlobalScalar _ _ _ _ _, fun _ _ _ => length_fillGlobalScalar _ _ _ _ _⟩

theorem fillItems_keepsLength (Γ : TypeEnv) : (es : List Expr) →
    ∀ it ∈ fillItems Γ es, it.value.KeepsLength
  | [] => by simp [fillItems]
  | e :: rest => by
      have hrest := fillItems_keepsLength Γ rest
      have hself := fillNode_keepsLength Γ e
      intro it hit
      cases e with
      | fieldDesig i f v =>
        rcases List.mem_cons.mp hit with rfl | hit
        · exact fillNode_keepsLength Γ v
        · exact hrest it hit
      | indexDesig i x v =>
        rcases List.mem_cons.mp hit with rfl | hit
        · exact fillNode_keepsLength Γ v
        · exact hrest it hit
      | _ =>
        rcases List.mem_cons.mp hit with rfl | hit
        · exact hself
        · exact hrest it hit

end

/-! ### Declarations -/

def VarDecl.type (v : VarDecl) : CType := v.declType.getD typeInt

/-- The bytes that a definition of an object gets: a constant other than zero is written in at
most eight. -/
def reservedSize (Γ : TypeEnv) (v : VarDecl) : ℤ :=
  if (v.init.any fun init => !init.isInitList && evalConstExpr init ≠ 0) ∧
      globalSize Γ v.type ∉ [1, 2, 4] then 8
  else globalSize Γ v.type

theorem dataSize_globalVar (Γ : TypeEnv) (v : VarDecl) :
    (emitInitData Γ (globalVar Γ v)).dataSize = reservedSize Γ v := by
  have hplain : ∀ name isStatic hasInit,
      (emitInitData Γ ⟨name, v.type, 0, hasInit, none, isStatic⟩).dataSize = globalSize Γ v.type := by
    intro name isStatic hasInit
    simp [emitInitData, AsmLine.dataSize]
  cases hinit : v.init with
  | none =>
    have hgv : globalVar Γ v = ⟨v.name, v.type, 0, false, none, decide (v.storage = .static)⟩ := by
      rw [globalVar, hinit]
      rfl
    rw [hgv, hplain, reservedSize, hinit]
    simp
  | some init =>
    by_cases hlist : init.isInitList
    · have hsize : reservedSize Γ v = globalSize Γ v.type := by
        simp [reservedSize, hinit, hlist]
      rw [hsize]
      by_cases hpos : typeSizeof Γ v.type > 0
      · obtain ⟨data, hdata, hlen⟩ : ∃ data, globalVar Γ v =
            ⟨v.name, v.type, 0, true, some data, decide (v.storage = .static)⟩ ∧
            (data.length : ℤ) = typeSizeof Γ v.type := by
          refine ⟨fillGlobalInitializer Γ v.type init
            (List.replicate (typeSizeof Γ v.type).toNat 0) 0, ?_, ?_⟩
          · rw [globalVar, hinit]
            dsimp only
            rw [if_pos hlist]
            exact if_pos hpos
          · rw [fillGlobalInitializer, (fillNode_keepsLength Γ init).fill, List.length_replicate]
            exact Int.toNat_of_nonneg hpos.le
        have hfilter : (some data).filter (fun d => decide (d.length > 0)) = some data := by
          rw [Option.filter_some, if_pos]
          have hlt : 0 < data.length := by omega
          exact decide_eq_true hlt
        rw [hdata, emitInitData]
        dsimp only
        rw [hfilter, globalSize, if_pos hpos]
        exact hlen
      · have hgv : globalVar Γ v =
            ⟨v.name, v.type, 0, false, none, decide (v.storage = .static)⟩ := by
          rw [globalVar, hinit]
          dsimp only
          rw [if_pos hlist]
          exact if_neg hpos
        rw [hgv, hplain]
    · have hgv : globalVar Γ v =
          ⟨v.name, v.type, evalConstExpr init, true, none, decide (v.storage = .static)⟩ := by
        rw [globalVar, hinit]
        dsimp only
        rw [if_neg hlist]
        rfl
      rw [hgv]
      by_cases hzero : evalConstExpr init = 0
      · rw [hzero, hplain, reservedSize, hinit]
        simp [hzero]
      · have hcond : (v.init.any fun init => !init.isInitList && evalConstExpr init ≠ 0) = true := by
          rw [hinit, Option.any_some, Bool.and_eq_true]
          exact ⟨by simpa using hlist, decide_eq_true hzero⟩
        rw [reservedSize, emitInitData]
        simp only [hcond, Option.filter_none, Bool.true_and, hzero, ne_eq, not_false_eq_true,
          decide_true, if_true, true_and]
        by_cases h1 : globalSize Γ v.type = 1
        · simp [h1, AsmLine.dataSize, Width.bytes]
        by_cases h2 : globalSize Γ v.type = 2
        · simp [h2, AsmLine.dataSize, Width.bytes]
        by_cases h4 : globalSize Γ v.type = 4
        · simp [h4, AsmLine.dataSize, Width.bytes]
        simp [h1, h2, h4, AsmLine.dataSize, Width.bytes]

/-! ### What a unit declares -/

def TopDecl.object? : TopDecl → Option VarDecl
  | .decl (.var v) => if v.type.isFunc then none else some v
  | _ => none

/-- The declarations of objects in a unit. -/
def objects (tu : TranslationUnit) : List VarDecl := tu.filterMap TopDecl.object?

/-- The definitions and tentative definitions of objects. -/
def objectDefs (tu : TranslationUnit) : List VarDecl :=
  (objects tu).filter fun v => v.storage ≠ .externScope || v.init.isSome

/-- The function definitions of `tu`, each with the declarations before it. -/
def funcDefs : List TopDecl → TranslationUnit → List (List TopDecl × FuncDef)
  | _, [] => []
  | before, .func d :: tu => (before, d) :: funcDefs (before ++ [.func d]) tu
  | before, d :: tu => funcDefs (before ++ [d]) tu

/-- The type a name was last declared with, other than by a function definition. -/
def declaredType (before : List TopDecl) (name : String) : Option CType :=
  before.reverse.findSome? fun
    | .decl (.var v) => if name = v.name then some v.type else none
    | _ => none

structure UnitSymbol where
  name : String
  isStatic : Bool
  size : ℤ
  deriving DecidableEq, Repr

def funcSymbol (d : FuncDef) : UnitSymbol := ⟨d.name, d.storage = .static, 0⟩

def objectSymbol (Γ : TypeEnv) (v : VarDecl) : UnitSymbol :=
  ⟨v.name, v.storage = .static, reservedSize Γ v⟩

/-- The functions that have code. -/
def emittedFuncs (Γ : TypeEnv) (tu : TranslationUnit) : List FuncDef :=
  ((funcDefs [] tu).filter fun p => ¬SilentFunc Γ (declaredType p.1) p.2).map Prod.snd

/-- The objects that are declared without `extern`. -/
def emittedObjects (tu : TranslationUnit) : List VarDecl :=
  (objects tu).filter fun v => v.storage ≠ .externScope

/-- What the compiler makes a symbol of. -/
def unitSymbols (Γ : TypeEnv) (tu : TranslationUnit) : List UnitSymbol :=
  (emittedFuncs Γ tu).map funcSymbol ++ (emittedObjects tu).map (objectSymbol Γ)

/-! ### What the compiler makes of it -/

theorem funcDefs_append (before tu tu' : List TopDecl) :
    funcDefs before (tu ++ tu') = funcDefs before tu ++ funcDefs (before ++ tu) tu' := by
  induction tu generalizing before with
  | nil => simp [funcDefs]
  | cons d tu ih =>
    have hassoc : before ++ [d] ++ tu = before ++ d :: tu := by simp
    cases d with
    | func d => rw [List.cons_append, funcDefs, funcDefs, ih, hassoc, List.cons_append]
    | decl d => rw [List.cons_append, funcDefs, funcDefs, ih, hassoc] <;> simp

/-- The file scope knows the names by the types they were declared with. -/
theorem irgenDecls_scope (Γ : TypeEnv) (tu : TranslationUnit) :
    (∃ fr, (irgenDecls Γ tu).scope = [fr]) ∧
      ∀ name, (irgenDecls Γ tu).scope.lookup vtabBuckets name =
        (declaredType tu name).map fun ty => ⟨irvGlobal name (typePointer ty .none), true⟩ := by
  induction tu using List.reverseRecOn with
  | nil => exact ⟨⟨_, rfl⟩, fun name => rfl⟩
  | append_singleton before d ih =>
    obtain ⟨⟨fr, hfr⟩, hlookup⟩ := ih
    have hsame : (irgenDecls Γ (before ++ [d])).scope = (irgenDecls Γ before).scope →
        (∀ name, declaredType (before ++ [d]) name = declaredType before name) →
        (∃ fr, (irgenDecls Γ (before ++ [d])).scope = [fr]) ∧
        ∀ name, (irgenDecls Γ (before ++ [d])).scope.lookup vtabBuckets name =
          (declaredType (before ++ [d]) name).map fun ty =>
            ⟨irvGlobal name (typePointer ty .none), true⟩ := by
      intro hscope hdecl
      exact ⟨⟨fr, hscope.trans hfr⟩, fun name => by rw [hscope, hdecl, hlookup]⟩
    cases d with
    | func d => exact hsame (by rw [irgenDecls_append]; rfl) fun name => by simp [declaredType]
    | decl d =>
      cases d with
      | typedef n t => exact hsame (by rw [irgenDecls_append]; rfl) fun name => by simp [declaredType]
      | agg t => exact hsame (by rw [irgenDecls_append]; rfl) fun name => by simp [declaredType]
      | enum t => exact hsame (by rw [irgenDecls_append]; rfl) fun name => by simp [declaredType]
      | var v =>
        have hscope : (irgenDecls Γ (before ++ [.decl (.var v)])).scope =
            (irgenDecls Γ before).scope.define vtabBuckets v.name
              ⟨irvGlobal v.name (typePointer v.type .none), true⟩ := by
          rw [irgenDecls_append]
          change (irgenVar Γ v (irgenDecls Γ before)).scope = _
          unfold irgenVar
          dsimp only
          split <;> rfl
        rw [hscope, hfr]
        refine ⟨⟨_, rfl⟩, fun name => ?_⟩
        rw [ScopeChain.lookup_define, ← hfr, hlookup]
        by_cases hname : name = v.name
        · subst hname
          simp [declaredType]
        · simp [declaredType, hname]

/-- The functions of the module, each lowered after the declarations before it. -/
theorem irgen_funcs_eq (Γ : TypeEnv) (tu : TranslationUnit) :
    (irgen Γ tu).funcs = (funcDefs [] tu).map fun p =>
      (funcEnd Γ (irgenDecls Γ p.1).module (irgenDecls Γ p.1).scope p.2).func := by
  unfold irgen
  induction tu using List.reverseRecOn with
  | nil => rfl
  | append_singleton before d ih =>
    rw [irgenDecls_append, funcDefs_append, List.map_append, ← ih, List.nil_append]
    cases d with
    | func d => exact genFunc_funcs _ _ _ _
    | decl d =>
      have hnil : funcDefs before [.decl d] = [] := rfl
      rw [hnil, List.map_nil, List.append_nil]
      cases d with
      | var v => exact irgenVar_funcs Γ v _
      | _ => rfl

theorem irgen_globalVars (Γ : TypeEnv) (tu : TranslationUnit) :
    (irgen Γ tu).globalVars = ((emittedObjects tu).map (globalVar Γ)).reverse := by
  unfold irgen
  induction tu using List.reverseRecOn with
  | nil => rfl
  | append_singleton before d ih =>
    have hobjects : emittedObjects (before ++ [d]) = emittedObjects before ++ emittedObjects [d] := by
      rw [emittedObjects, objects, List.filterMap_append, List.filter_append]
      rfl
    rw [irgenDecls_append, hobjects, List.map_append, List.reverse_append, ← ih]
    cases d with
    | func d => exact genFunc_globalVars _ _ _ _
    | decl d =>
      cases d with
      | var v =>
        change (irgenVar Γ v (irgenDecls Γ before)).module.globalVars = _
        unfold irgenVar
        dsimp only
        by_cases hfunc : v.type.isFunc
        · have hnil : emittedObjects [.decl (.var v)] = [] := by
            simp [emittedObjects, objects, TopDecl.object?, hfunc]
          rw [if_neg fun h => h.2 hfunc, hnil]
          rfl
        · by_cases hext : v.storage = .externScope
          · have hnil : emittedObjects [.decl (.var v)] = [] := by
              simp [emittedObjects, objects, TopDecl.object?, hfunc, hext]
            rw [if_neg fun h => h.1 hext, hnil]
            rfl
          · have hone : emittedObjects [.decl (.var v)] = [v] := by
              simp [emittedObjects, objects, TopDecl.object?, hfunc, hext]
            rw [if_pos ⟨hext, hfunc⟩, hone]
            rfl
      | _ => rfl

section Emitted

variable (Γ : TypeEnv) (tu : TranslationUnit)

/-- The functions that the text section keeps. -/
theorem emittedFuncs_eq :
    ((irgen Γ tu).funcs.filter fun f => f.instrs.length ≠ 0).map
        (fun f => (f.name, f.isStatic)) =
      (emittedFuncs Γ tu).map fun d => (d.name, decide (d.storage = .static)) := by
  rw [irgen_funcs_eq, emittedFuncs, List.filter_map, List.map_map, List.map_map]
  have hfilter : ∀ p : List TopDecl × FuncDef,
      decide ((funcEnd Γ (irgenDecls Γ p.1).module (irgenDecls Γ p.1).scope p.2).func.instrs.length
        ≠ 0) = decide (¬SilentFunc Γ (declaredType p.1) p.2) := by
    intro p
    have hiff : (funcEnd Γ (irgenDecls Γ p.1).module (irgenDecls Γ p.1).scope p.2).func.instrs = [] ↔
        SilentFunc Γ (declaredType p.1) p.2 := funcEnd_instrs_iff (irgenDecls_scope Γ p.1).2
    rw [decide_eq_decide, not_iff_not, ← hiff, List.length_eq_zero_iff]
  have hname : ∀ p : List TopDecl × FuncDef,
      ((funcEnd Γ (irgenDecls Γ p.1).module (irgenDecls Γ p.1).scope p.2).func.name,
        (funcEnd Γ (irgenDecls Γ p.1).module (irgenDecls Γ p.1).scope p.2).func.isStatic) =
      (p.2.name, decide (p.2.storage = .static)) := fun p =>
    congrArg (fun defs => defs.2.2)
      (funcEnd_definitions Γ (irgenDecls Γ p.1).module (irgenDecls Γ p.1).scope p.2)
  simp only [Function.comp_def]
  rw [List.filter_congr fun p _ => hfilter p]
  exact List.map_congr_left fun p _ => hname p

/-- The labels of one name, as far as the order. -/
theorem symbolTable_perm (name : String) :
    ((symbolTable (codegen Γ (irgen Γ tu))).filter fun e => e.1 = .symbol name).Perm
      (((unitSymbols Γ tu).filter fun s => s.name = name).map fun s =>
        (.symbol s.name, s.size)) := by
  have hfuncs : ((irgen Γ tu).funcs.filter fun f => f.instrs.length ≠ 0).map
      (fun f => ((.symbol f.name, 0) : AsmLabel × ℤ)) =
      ((emittedFuncs Γ tu).map funcSymbol).map fun s => (.symbol s.name, s.size) := by
    have h := congrArg (List.map fun p : String × Bool => ((.symbol p.1, 0) : AsmLabel × ℤ))
      (emittedFuncs_eq Γ tu)
    simpa only [List.map_map, Function.comp_def, funcSymbol] using h
  have hglobals : ((irgen Γ tu).globalVars.map (globalVarEntry Γ)).Perm
      (((emittedObjects tu).map (objectSymbol Γ)).map fun s => (.symbol s.name, s.size)) := by
    rw [irgen_globalVars, List.map_reverse, List.map_map, List.map_map]
    refine (List.reverse_perm _).trans (List.Perm.of_eq ?_)
    refine List.map_congr_left fun v _ => ?_
    have hname : (globalVar Γ v).name = v.name := by
      unfold globalVar
      dsimp only
      repeat' split
      all_goals rfl
    simp only [Function.comp_apply, globalVarEntry, objectSymbol, dataSize_globalVar, hname]
  have hstrs : ((irgen Γ tu).strConsts.map strConstEntry).filter
      (fun e => decide (e.1 = .symbol name)) = [] := by
    rw [List.filter_eq_nil_iff]
    intro e he
    obtain ⟨s, -, rfl⟩ := List.mem_map.mp he
    simp [strConstEntry]
  have hall : (((irgen Γ tu).funcs.filter fun f => f.instrs.length ≠ 0).map
      (fun f => ((.symbol f.name, 0) : AsmLabel × ℤ)) ++
        (irgen Γ tu).globalVars.map (globalVarEntry Γ)).Perm
      ((unitSymbols Γ tu).map fun s => (.symbol s.name, s.size)) := by
    rw [hfuncs, unitSymbols, List.map_append]
    exact hglobals.append_left _
  have hentry : ∀ s : UnitSymbol,
      decide ((.symbol s.name : AsmLabel) = .symbol name) = decide (s.name = name) := by simp
  have hfilter := hall.filter fun e => decide (e.1 = .symbol name)
  rw [List.filter_map] at hfilter
  simp only [Function.comp_def, hentry] at hfilter
  rw [symbolTable_codegen, List.filter_append, List.filter_append, hstrs, List.append_nil,
    ← List.filter_append]
  exact hfilter

theorem mem_symbolTable (name : String) (n : ℤ) :
    (.symbol name, n) ∈ symbolTable (codegen Γ (irgen Γ tu)) ↔
      ∃ s ∈ unitSymbols Γ tu, s.name = name ∧ s.size = n := by
  have hmem := (symbolTable_perm Γ tu name).mem_iff (a := (.symbol name, n))
  simpa [and_assoc] using hmem

theorem mem_globlNames (name : String) :
    name ∈ globlNames (codegen Γ (irgen Γ tu)) ↔
      ∃ s ∈ unitSymbols Γ tu, s.name = name ∧ s.isStatic = false := by
  have hfuncs : (((irgen Γ tu).funcs.filter fun f => f.instrs.length ≠ 0).filter
      fun f => !f.isStatic).map IRFunc.name =
      (((emittedFuncs Γ tu).map funcSymbol).filter fun s => !s.isStatic).map UnitSymbol.name := by
    have h := congrArg (fun ps : List (String × Bool) => (ps.filter fun p => !p.2).map Prod.fst)
      (emittedFuncs_eq Γ tu)
    simpa only [List.filter_map, List.map_map, Function.comp_def, funcSymbol] using h
  have hglobals : ((irgen Γ tu).globalVars.filter fun gv => !gv.isStatic).map IRGlobalVar.name =
      ((((emittedObjects tu).map (objectSymbol Γ)).filter fun s => !s.isStatic).map
        UnitSymbol.name).reverse := by
    have hvar : ∀ v : VarDecl, (globalVar Γ v).name = v.name ∧
        (globalVar Γ v).isStatic = decide (v.storage = .static) := by
      intro v
      unfold globalVar
      dsimp only
      repeat' split
      all_goals exact ⟨rfl, rfl⟩
    rw [irgen_globalVars, ← List.map_reverse, ← List.map_reverse, List.filter_map, List.map_map,
      ← List.filter_reverse, ← List.map_reverse, List.filter_map, List.map_map]
    simp only [Function.comp_def, hvar, objectSymbol]
  rw [globlNames_codegen, hfuncs, hglobals, List.mem_append, List.mem_reverse, ← List.mem_append,
    ← List.map_append, ← List.filter_append, ← unitSymbols]
  simp [and_assoc, and_comm, and_left_comm]

end Emitted

/-! ### One symbol for every definition -/

def DefinesFunction (tu : TranslationUnit) (name : String) : Prop :=
  ∃ d, TopDecl.func d ∈ tu ∧ d.name = name

/-- There is a definition of the name, tentative ones counted. -/
def Defined (tu : TranslationUnit) (name : String) : Prop :=
  DefinesFunction tu name ∨ ∃ v ∈ objectDefs tu, v.name = name

/-- How the declarations of a name in the file are specified. -/
def storagesOf (tu : TranslationUnit) (name : String) : List StorageClass :=
  tu.filterMap fun
    | .func d => if d.name = name then some d.storage else none
    | .decl (.var v) => if v.name = name then some v.storage else none
    | _ => none

/-- The first declaration of a name says which linkage it has. -/
def External (tu : TranslationUnit) (name : String) : Prop :=
  (storagesOf tu name).head? ≠ some .static

/-- The size of a defined object; `bound v` elements complete an array without a bound. -/
def objectSize (Γ : TypeEnv) (bound : VarDecl → ℕ) (v : VarDecl) : ℤ :=
  match v.type with
  | .arrayUnsized elem _ => typeSizeof Γ elem * bound v
  | ty => typeSizeof Γ ty

/-- The assembly has one symbol for every definition, of the size of the object, and exports
those with external linkage. -/
structure OneSymbol (Γ : TypeEnv) (bound : VarDecl → ℕ) (tu : TranslationUnit)
    (lines : List AsmLine) : Prop where
  defined : ∀ name, Defined tu name →
    ∃ n, (symbolTable lines).filter (fun e => e.1 = .symbol name) = [(.symbol name, n)]
  sizes : ∀ v ∈ objectDefs tu, (.symbol v.name, objectSize Γ bound v) ∈ symbolTable lines
  undefined : ∀ name n, (.symbol name, n) ∈ symbolTable lines → Defined tu name
  exported : ∀ name, name ∈ globlNames lines ↔ Defined tu name ∧ External tu name

/-- Among the function definitions with code and the objects declared without `extern` there is
one of every defined name, with its linkage and, for an object, its size. -/
structure EmittedOnce (Γ : TypeEnv) (bound : VarDecl → ℕ) (tu : TranslationUnit) : Prop where
  once : ∀ name, Defined tu name → ∃ s,
    (unitSymbols Γ tu).filter (fun s => s.name = name) = [s] ∧
      (s.isStatic = false ↔ External tu name)
  sizes : ∀ v ∈ objectDefs tu, ∃ s ∈ unitSymbols Γ tu, s.name = v.name ∧
    s.size = objectSize Γ bound v

theorem defined_of_mem_unitSymbols {Γ : TypeEnv} {tu : TranslationUnit} {s : UnitSymbol}
    (hs : s ∈ unitSymbols Γ tu) : Defined tu s.name := by
  have hfuncDefs : ∀ (tu before : List TopDecl) (p : List TopDecl × FuncDef),
      p ∈ funcDefs before tu → .func p.2 ∈ tu := by
    intro tu
    induction tu with
    | nil => exact fun before p hp => absurd hp List.not_mem_nil
    | cons d tu ih =>
      intro before p hp
      cases d with
      | func d =>
        rcases List.mem_cons.mp hp with rfl | hp
        · exact List.mem_cons_self
        · exact List.mem_cons_of_mem _ (ih _ p hp)
      | decl d => exact List.mem_cons_of_mem _ (ih _ p hp)
  rcases List.mem_append.mp hs with hs | hs
  · obtain ⟨d, hd, rfl⟩ := List.mem_map.mp hs
    obtain ⟨p, hp, rfl⟩ := List.mem_map.mp hd
    exact .inl ⟨p.2, hfuncDefs tu [] p (List.mem_of_mem_filter hp), rfl⟩
  · obtain ⟨v, hv, rfl⟩ := List.mem_map.mp hs
    rw [emittedObjects, List.mem_filter] at hv
    refine .inr ⟨v, List.mem_filter.mpr ⟨hv.1, ?_⟩, rfl⟩
    rw [Bool.or_eq_true]
    exact .inl hv.2

/-- Every definition of a unit has one symbol exactly if it is emitted once. -/
theorem definition_yields_one_symbol (Γ : TypeEnv) (bound : VarDecl → ℕ) (tu : TranslationUnit) :
    OneSymbol Γ bound tu (codegen Γ (irgen Γ tu)) ↔ EmittedOnce Γ bound tu := by
  have hexported : ∀ {name s}, (unitSymbols Γ tu).filter (fun s => s.name = name) = [s] →
      (name ∈ globlNames (codegen Γ (irgen Γ tu)) ↔ s.isStatic = false) := by
    intro name s hs
    rw [mem_globlNames]
    constructor
    · rintro ⟨s', hs', hname, hstatic⟩
      have hmem : s' ∈ (unitSymbols Γ tu).filter (fun s => s.name = name) :=
        List.mem_filter.mpr ⟨hs', by simpa using hname⟩
      rw [hs, List.mem_singleton] at hmem
      rw [← hmem]
      exact hstatic
    · intro hstatic
      have hmem : s ∈ (unitSymbols Γ tu).filter (fun s => s.name = name) := by
        rw [hs]
        exact List.mem_cons_self
      obtain ⟨hmem, hname⟩ := List.mem_filter.mp hmem
      exact ⟨s, hmem, by simpa using hname, hstatic⟩
  constructor
  · intro h
    refine ⟨fun name hdef => ?_, fun v hv => (mem_symbolTable Γ tu v.name _).mp (h.sizes v hv)⟩
    obtain ⟨n, hn⟩ := h.defined name hdef
    have hperm := symbolTable_perm Γ tu name
    rw [hn] at hperm
    obtain ⟨s, hs, -⟩ := List.map_eq_singleton_iff.mp (List.perm_singleton.mp hperm.symm)
    refine ⟨s, hs, ?_⟩
    rw [← hexported hs, h.exported]
    exact and_iff_right hdef
  · intro h
    refine ⟨fun name hdef => ?_, fun v hv => (mem_symbolTable Γ tu v.name _).mpr (h.sizes v hv),
      fun name n hmem => ?_, fun name => ?_⟩
    · obtain ⟨s, hs, -⟩ := h.once name hdef
      have hperm := symbolTable_perm Γ tu name
      rw [hs, List.map_singleton, List.perm_singleton] at hperm
      have hname : s.name = name := by
        have hmem : s ∈ (unitSymbols Γ tu).filter (fun s => s.name = name) := by
          rw [hs]
          exact List.mem_cons_self
        simpa using (List.mem_filter.mp hmem).2
      exact ⟨s.size, by rw [hperm, hname]⟩
    · obtain ⟨s, hs, rfl, -⟩ := (mem_symbolTable Γ tu name n).mp hmem
      exact defined_of_mem_unitSymbols hs
    · constructor
      · intro hmem
        obtain ⟨s, hs, rfl, -⟩ := (mem_globlNames Γ tu name).mp hmem
        have hdef := defined_of_mem_unitSymbols hs
        obtain ⟨s', hs', hiff⟩ := h.once _ hdef
        exact ⟨hdef, hiff.mp ((hexported hs').mp hmem)⟩
      · rintro ⟨hdef, hext⟩
        obtain ⟨s, hs, hiff⟩ := h.once name hdef
        exact (hexported hs).mpr (hiff.mpr hext)

/-- `int x; int x;` -/
def twiceTentative : TranslationUnit :=
  [.decl (.var { name := "x", declType := some typeInt }),
    .decl (.var { name := "x", declType := some typeInt })]

/-- A tentative definition that is repeated makes a second symbol. -/
theorem tentative_definition_twice :
    ¬OneSymbol .empty (fun _ => 1) twiceTentative
      (codegen .empty (irgen .empty twiceTentative)) := by
  intro h
  have hdef : Defined twiceTentative "x" := .inr ⟨_, List.mem_cons_self, rfl⟩
  obtain ⟨n, hn⟩ := h.defined "x" hdef
  have hlen := (symbolTable_perm .empty twiceTentative "x").length_eq
  rw [hn, List.length_map] at hlen
  exact absurd hlen (by simp [unitSymbols, emittedFuncs, funcDefs, emittedObjects, objects,
    twiceTentative, TopDecl.object?, VarDecl.type, typeInt, CType.isFunc, objectSymbol])

end TinyC
