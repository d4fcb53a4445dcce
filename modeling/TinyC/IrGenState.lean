import TinyC.Ast
import TinyC.Scope
import TinyC.CallLowering

/-!
# The state of irgen

The generator threads its state through every function. The helpers below emit into the
current function.
-/

namespace TinyC

structure VarEntry where
  addr : IRValue
  isGlobal : Bool
  deriving DecidableEq, Repr

/-- `node` stands for the address of the `AST_CASE` or `AST_DEFAULT` node. -/
structure CaseEntry where
  node : ℕ
  val : BitVec 64
  isDefault : Bool
  labelId : ℕ
  deriving DecidableEq, Repr

def vtabBuckets : ℕ := 64

/-- Label 0 stands for no label. -/
structure IrGen where
  module : IRModule := {}
  func : IRFunc
  scope : ScopeChain VarEntry := []
  breakLabel : ℕ := 0
  contLabel : ℕ := 0
  caseEntries : List CaseEntry := []
  swDefaultLbl : ℕ := 0
  gotoLabels : List (String × ℕ) := []

abbrev Gen := StateM IrGen

namespace Gen

variable {α : Type} {g : IrGen}

theorem run_pure (a : α) : (pure a : Gen α) g = (a, g) := rfl

theorem run_get_bind (k : IrGen → Gen α) : (get >>= k : Gen α) g = k g g := rfl

end Gen

/-- `ir_emit` into the current function. -/
def emit (ins : IRInstr) : Gen Unit := modify fun g => { g with func := irEmit g.func ins }

def newTemp : Gen ℕ := modifyGet fun g =>
  (g.func.nextTemp, { g with func := { g.func with nextTemp := g.func.nextTemp + 1 } })

def newLabel : Gen ℕ := modifyGet fun g =>
  (g.func.nextLabel, { g with func := { g.func with nextLabel := g.func.nextLabel + 1 } })

def emitLabel (l : ℕ) : Gen Unit := emit { op := .label, labelId := l }

def emitJmp (l : ℕ) : Gen Unit := emit { op := .jmp, labelId := l }

def emitJz (cond : IRValue) (l : ℕ) : Gen Unit := emit { op := .jz, src1 := cond, labelId := l }

def emitJnz (cond : IRValue) (l : ℕ) : Gen Unit := emit { op := .jnz, src1 := cond, labelId := l }

/-- A new temp of type `ty` that receives the result of an instruction. -/
def emitTo (ty : CType) (op : IROp) (src1 : IRValue) (src2 : IRValue := irvNone) : Gen IRValue := do
  let t ← newTemp
  emit { op := op, dst := irvTemp t ty, src1 := src1, src2 := src2 }
  return irvTemp t ty

def vscopeDefine (name : String) (addr : IRValue) (isGlobal : Bool) : Gen Unit :=
  modify fun g => { g with scope := g.scope.define vtabBuckets name ⟨addr, isGlobal⟩ }

def vscopeLookup (name : String) : Gen (Option VarEntry) := do
  return (← get).scope.lookup vtabBuckets name

theorem Gen.run_vscopeLookup_bind {α : Type} {g : IrGen} (name : String)
    (k : Option VarEntry → Gen α) :
    (vscopeLookup name >>= k) g = k (g.scope.lookup vtabBuckets name) g := rfl

/-- `ir_add_string_const`: equal strings share a label. -/
def addStringConst (data : String) : Gen String := do
  let m := (← get).module
  match m.strConsts.find? fun s => s.data == data with
  | some s => return s.label
  | none =>
      let label := ".Lstr" ++ toString m.nextStrId
      modify fun g => { g with module := { g.module with
        nextStrId := g.module.nextStrId + 1
        strConsts := ⟨label, data⟩ :: g.module.strConsts } }
      return label

def genLoad (addr : IRValue) (ty : CType) : Gen IRValue := emitTo ty .load addr

def genStore (addr val : IRValue) : Gen Unit := emit { op := .store, dst := addr, src1 := val }

/-- `gen_alloca_value`. -/
def genAlloca (Γ : TypeEnv) (ty : CType) : Gen IRValue := do
  let t ← newTemp
  let addr := irvTemp t (typePointer ty .none)
  let (sz, al) := allocaExtent Γ ty
  emit { op := .alloca, dst := addr, allocaSize := sz, allocaAlign := al }
  return addr

/-- Types are compared as types: for two nodes of one type `gen_addr_offset` adds 0. -/
def pointsTo (v : IRValue) (pointee : CType) : Bool :=
  match v.type with
  | some (.pointer p _) => p = pointee
  | _ => false

def genAddrOffset (base : IRValue) (offset : ℤ) (pointee : CType) : Gen IRValue :=
  if offset = 0 && pointsTo base pointee then return base
  else emitTo (typePointer pointee .none) .add base (irvInt (BitVec.ofInt 64 offset) typeLong)

def genMemcpy (Γ : TypeEnv) (addr src : IRValue) (ty : CType) : Gen Unit :=
  emit { op := .memcpy, dst := addr, src1 := src
         src2 := irvInt (BitVec.ofInt 64 (max (typeSizeof Γ ty) 0)) typeUlong }

end TinyC
