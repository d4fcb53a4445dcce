import TinyC.IrGenStmt

/-!
# Lowering of file-scope declarations

The bytes of a global with a brace-enclosed initializer are computed here; other globals keep
the value of their initializer. `irgen` goes over the declarations in order.
-/

namespace TinyC

/-! ### Initializers of globals -/

abbrev Bytes := List (BitVec 8)

/-- `write_int_le`. -/
def writeIntLe (buf : Bytes) (off : ℤ) (sz : ℕ) (val : BitVec 64) : Bytes :=
  (List.range sz).foldl (fun b (i : ℕ) =>
    if off + i < 0 then b else b.set (off + i).toNat (val.extractLsb' (8 * i) 8)) buf

/-- `fill_global_scalar`, `val` being the value of the initializer. -/
def fillGlobalScalar (Γ : TypeEnv) (ty : CType) (val : BitVec 64) (buf : Bytes) (off : ℤ) : Bytes :=
  if typeSizeof Γ ty ≤ 0 then buf else writeIntLe buf off (min (typeSizeof Γ ty) 8).toNat val

/-- What `fill_global_initializer` does with an initializer: `body` once it has looked into
a compound literal. -/
structure FillNode where
  body : CType → Bytes → ℤ → Bytes
  fill : CType → Bytes → ℤ → Bytes

structure FillItem where
  kind : ItemKind
  /-- The value of the item as a constant. -/
  const : BitVec 64
  value : FillNode

/-- `fill_global_array`; `count` is missing for an array without a bound. -/
def fillGlobalArray (Γ : TypeEnv) (elem : CType) (count : Option ℤ) (off : ℤ) :
    List FillItem → ℤ → Bytes → Bytes
  | [], _, buf => buf
  | it :: rest, nextIndex, buf =>
      match it.kind with
      | .field _ => fillGlobalArray Γ elem count off rest nextIndex buf
      | kind =>
          let index := match kind with
            | .index v => v.toInt
            | _ => nextIndex
          if count.any fun n => index < 0 || index ≥ n then
            fillGlobalArray Γ elem count off rest (index + 1) buf
          else
            fillGlobalArray Γ elem count off rest (index + 1)
              (it.value.fill elem buf (off + toInt32 (index * elemSize Γ elem)))

/-- `fill_global_aggregate`; `nextField` is the list that starts at `next_field`. -/
def fillGlobalAggregate (Γ : TypeEnv) (ty : CType) (off : ℤ) :
    List FillItem → List StructField → Bytes → Bytes
  | [], _, buf => buf
  | it :: rest, nextField, buf =>
      match it.kind with
      | .index _ => fillGlobalAggregate Γ ty off rest nextField buf
      | kind =>
          let fields := match kind with
            | .field name => findField Γ (some ty) name
            | _ => nextField
          match fields with
          | [] => buf
          | field :: after =>
              fillGlobalAggregate Γ ty off rest after
                (it.value.fill field.type buf (off + field.offset))

/-- `fill_global_initializer` of a brace-enclosed list. -/
def fillGlobalList (Γ : TypeEnv) (items : List FillItem) (ty : CType) (buf : Bytes) (off : ℤ) :
    Bytes :=
  match ty with
  | .array elem count _ => fillGlobalArray Γ elem (some count) off items 0 buf
  | .arrayUnsized elem _ => fillGlobalArray Γ elem none off items 0 buf
  | .agg _ id _ => fillGlobalAggregate Γ ty off items (Γ.agg id).fields buf
  | _ => fillGlobalScalar Γ ty ((items.head?.map FillItem.const).getD 0) buf off

mutual

def fillNode (Γ : TypeEnv) : Expr → FillNode
  | .initList _ items =>
      let body := fillGlobalList Γ (fillItems Γ items)
      ⟨body, body⟩
  | .compoundLit _ _ init =>
      ⟨fun ty => fillGlobalScalar Γ ty 0, (fillNode Γ init).body⟩
  | e =>
      let body := fun ty => fillGlobalScalar Γ ty (constIntValue e)
      ⟨body, body⟩

def fillItems (Γ : TypeEnv) : List Expr → List FillItem
  | [] => []
  | .fieldDesig _ field value :: rest =>
      ⟨.field field, constIntValue value, fillNode Γ value⟩ :: fillItems Γ rest
  | .indexDesig _ index value :: rest =>
      ⟨.index (constIntValue index), constIntValue value, fillNode Γ value⟩ :: fillItems Γ rest
  | it :: rest => ⟨.plain, constIntValue it, fillNode Γ it⟩ :: fillItems Γ rest

end

def fillGlobalInitializer (Γ : TypeEnv) (ty : CType) (init : Expr) (buf : Bytes) (off : ℤ) :
    Bytes := (fillNode Γ init).fill ty buf off

/-! ### The module -/

/-- The definition of a global. -/
def globalVar (Γ : TypeEnv) (v : VarDecl) : IRGlobalVar :=
  let ty := v.declType.getD typeInt
  let isStatic := v.storage = .static
  let noInit : IRGlobalVar :=
    { name := v.name, type := ty, initVal := 0, hasInit := false, initData := none
      isStatic := isStatic }
  match v.init with
  | none => noInit
  | some init =>
      if init.isInitList then
        if typeSizeof Γ ty > 0 then
          let zeros := List.replicate (typeSizeof Γ ty).toNat 0
          { noInit with hasInit := true, initData := some (fillGlobalInitializer Γ ty init zeros 0) }
        else noInit
      else { noInit with hasInit := true, initVal := evalConstExpr init }

/-- What the loop of `irgen` keeps from one declaration to the next. -/
structure UnitState where
  module : IRModule := {}
  scope : ScopeChain VarEntry := [fun _ => []]

def irgenVar (Γ : TypeEnv) (v : VarDecl) (s : UnitState) : UnitState :=
  let ty := v.declType.getD typeInt
  let entry : VarEntry := ⟨irvGlobal v.name (typePointer ty .none), true⟩
  let scope := s.scope.define vtabBuckets v.name entry
  if v.storage ≠ .externScope ∧ ¬ty.isFunc then
    ⟨{ s.module with globalVars := globalVar Γ v :: s.module.globalVars }, scope⟩
  else ⟨s.module, scope⟩

def irgenDecl (Γ : TypeEnv) (s : UnitState) : TopDecl → UnitState
  | .func d => ⟨genFunc Γ s.module s.scope d, s.scope⟩
  | .decl (.var v) => irgenVar Γ v s
  | .decl _ => s

/-- The loop of `irgen`. -/
def irgenDecls (Γ : TypeEnv) (decls : List TopDecl) : UnitState :=
  decls.foldl (irgenDecl Γ) {}

def irgen (Γ : TypeEnv) (tu : TranslationUnit) : IRModule := (irgenDecls Γ tu).module

/-- A scope in which no address is a temp, as that of the file is. -/
def FileScope (sc : ScopeChain VarEntry) : Prop :=
  ∀ fr ∈ sc, ∀ b, ∀ p ∈ fr b, ∃ name ty, p.2.addr = irvGlobal name ty

theorem FileScope.irgenDecl {Γ : TypeEnv} {s : UnitState} (h : FileScope s.scope) (d : TopDecl) :
    FileScope (irgenDecl Γ s d).scope := by
  have hvar : ∀ v, FileScope (irgenVar Γ v s).scope := by
    intro v fr hfr b p hp
    have hsc : (irgenVar Γ v s).scope = s.scope.define vtabBuckets v.name
        ⟨irvGlobal v.name (typePointer (v.declType.getD typeInt) .none), true⟩ := by
      unfold irgenVar
      dsimp only
      split <;> rfl
    rw [hsc] at hfr
    rcases ScopeChain.mem_define hfr hp with he | ⟨fr', hfr', hp'⟩
    · rw [he]
      exact ⟨_, _, rfl⟩
    · exact h fr' hfr' b p hp'
  cases d with
  | func d => exact h
  | decl d =>
    cases d with
    | var v => exact hvar v
    | _ => exact h

/-- Every function is lowered in a file scope. -/
theorem fileScope_irgenDecls (Γ : TypeEnv) (decls : List TopDecl) :
    FileScope (irgenDecls Γ decls).scope := by
  have h : ∀ s : UnitState, FileScope s.scope →
      FileScope (decls.foldl (irgenDecl Γ) s).scope := by
    induction decls with
    | nil => exact fun s hs => hs
    | cons d ds ih => exact fun s hs => ih _ (hs.irgenDecl d)
  exact h {} (by simp [FileScope])

end TinyC
