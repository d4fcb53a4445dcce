import TinyC.Types

/-!
# The three-address intermediate representation
-/

namespace TinyC

/-- `IRValueKind` with the payload of the union. -/
inductive IRVKind where
  | temp (id : ℕ)
  | constInt (val : BitVec 64)
  /-- The bits of the `double`. -/
  | constFloat (val : BitVec 64)
  | global (name : String)
  | none
  deriving DecidableEq, Repr

structure IRValue where
  kind : IRVKind
  type : Option CType
  deriving DecidableEq, Repr

def irvNone : IRValue := ⟨.none, none⟩
def irvTemp (id : ℕ) (ty : CType) : IRValue := ⟨.temp id, some ty⟩
def irvInt (c : BitVec 64) (ty : CType) : IRValue := ⟨.constInt c, some ty⟩
def irvFloat (c : BitVec 64) (ty : CType) : IRValue := ⟨.constFloat c, some ty⟩
def irvGlobal (name : String) (ty : CType) : IRValue := ⟨.global name, some ty⟩

inductive IROp where
  | nop
  | copy | load | store | addr | loadImm
  | add | sub | mul | div | mod
  | and | or | xor
  | shl | shr
  | neg | not
  | eq | ne | lt | le | gt | ge
  | sext | zext | trunc | itof | ftoi
  | label | jmp | jz | jnz | call | ret
  | alloca
  | memcpy
  | globalDef
  deriving DecidableEq, Repr

structure IRInstr where
  op : IROp
  dst : IRValue := irvNone
  src1 : IRValue := irvNone
  src2 : IRValue := irvNone
  /-- For labels and jumps. A parameter `copy` keeps the parameter's position here, and
  `-1` for the hidden pointer of a struct return. -/
  labelId : ℤ := 0
  allocaSize : ℤ := 0
  allocaAlign : ℤ := 0
  callArgs : List IRValue := []
  callSret : Bool := false
  callRetTy : Option CType := none
  deriving DecidableEq, Repr

structure IRFunc where
  name : String
  funcType : Option CType
  instrs : List IRInstr := []
  nextTemp : ℕ := 1
  nextLabel : ℕ := 1
  isStatic : Bool := false
  /-- The hidden aggregate-return pointer, `0` if there is none. -/
  sretTemp : ℕ := 0
  deriving DecidableEq, Repr

structure IRGlobalVar where
  name : String
  type : CType
  initVal : BitVec 64
  hasInit : Bool
  initData : Option (List (BitVec 8))
  isStatic : Bool
  deriving DecidableEq, Repr

structure IRStrConst where
  label : String
  data : String
  deriving DecidableEq, Repr

structure IRModule where
  funcs : List IRFunc := []
  strConsts : List IRStrConst := []
  nextStrId : ℕ := 0
  globalVars : List IRGlobalVar := []
  deriving DecidableEq, Repr

namespace IRFunc

/-- The return type a function's code is generated for. -/
def retType (f : IRFunc) : CType :=
  match f.funcType with
  | some (.func ret _ _ _) => ret
  | _ => typeInt

def params (f : IRFunc) : List (Option String × CType) :=
  match f.funcType with
  | some (.func _ ps _ _) => ps.toList
  | _ => []

end IRFunc

/-- `ir_emit`, the extra fields of the instruction being given with it. -/
def irEmit (f : IRFunc) (ins : IRInstr) : IRFunc := { f with instrs := f.instrs ++ [ins] }

end TinyC
