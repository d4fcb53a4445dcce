import Mathlib.Data.Int.Bitwise

/-!
# C types and their layout

A `CType` is what a `Type *` of the compiler points to. Pointer, array and function
nodes are interned, so structural equality stands for pointer equality. A struct,
union or enum node is its own identity: it is a number, and the `TypeEnv` holds what
the node contains.
-/

namespace TinyC

/-- The bits `QUAL_CONST`, `QUAL_VOLATILE` and `QUAL_RESTRICT`. -/
structure TypeQual where
  isConst : Bool := false
  isVolatile : Bool := false
  isRestrict : Bool := false
  deriving DecidableEq, Repr

namespace TypeQual

def none : TypeQual := {}

def merge (a b : TypeQual) : TypeQual :=
  ⟨a.isConst || b.isConst, a.isVolatile || b.isVolatile, a.isRestrict || b.isRestrict⟩

end TypeQual

/-- The scalar members of `TypeKind`. -/
inductive ScalarKind where
  | void | bool | char | schar | uchar | short | ushort | int | uint
  | long | ulong | llong | ullong | float | double | ldouble
  deriving DecidableEq, Repr

mutual

inductive CType where
  | scalar (kind : ScalarKind) (qual : TypeQual)
  | pointer (pointee : CType) (qual : TypeQual)
  | array (elem : CType) (count : ℤ) (qual : TypeQual)
  | arrayUnsized (elem : CType) (qual : TypeQual)
  | func (ret : CType) (params : FuncParams) (variadic : Bool) (qual : TypeQual)
  /-- `TY_STRUCT` and `TY_UNION`. -/
  | agg (isUnion : Bool) (id : ℕ) (qual : TypeQual)
  | enum (id : ℕ) (qual : TypeQual)

/-- The linked list of `FuncParam` nodes. -/
inductive FuncParams where
  | nil
  | cons (name : Option String) (type : CType) (next : FuncParams)

end

deriving instance DecidableEq for CType, FuncParams
deriving instance Repr for CType, FuncParams

structure StructField where
  /-- `none` for an anonymous member. -/
  name : Option String
  type : CType
  offset : ℤ := 0
  /-- `-1` for an ordinary field. -/
  bitWidth : ℤ := -1
  bitOffset : ℤ := 0
  deriving DecidableEq, Repr

structure AggDef where
  tag : Option String := none
  fields : List StructField := []
  /-- `-1` while the type is incomplete. -/
  size : ℤ := -1
  align : ℤ := 1
  deriving DecidableEq, Repr

structure EnumDef where
  tag : Option String := none
  consts : List (String × ℤ) := []
  complete : Bool := false
  deriving DecidableEq, Repr

namespace CType

/-- How deep a type contains others by value, the nodes' own depths being given. -/
def depth (rank : ℕ → ℕ) : CType → ℕ
  | .array elem _ _ => depth rank elem + 1
  | .agg _ id _ => rank id
  | _ => 0

end CType

/-- What the aggregate and enum nodes contain. A member held by value is less deep
than the aggregate that holds it, so walking members by value ends. -/
structure TypeEnv where
  agg : ℕ → AggDef
  enm : ℕ → EnumDef
  rank : ℕ → ℕ
  contained : ∀ id, ∀ f ∈ (agg id).fields, f.type.depth rank < rank id

/-- The environment of a program without aggregates. -/
def TypeEnv.empty : TypeEnv where
  agg _ := {}
  enm _ := {}
  rank _ := 0
  contained := by simp

def typeVoid : CType := .scalar .void .none
def typeChar : CType := .scalar .char .none
def typeUchar : CType := .scalar .uchar .none
def typeInt : CType := .scalar .int .none
def typeUint : CType := .scalar .uint .none
def typeLong : CType := .scalar .long .none
def typeUlong : CType := .scalar .ulong .none
def typeFloat : CType := .scalar .float .none
def typeDouble : CType := .scalar .double .none
def typePointer (pointee : CType) (qual : TypeQual) : CType := .pointer pointee qual

namespace CType

def qual : CType → TypeQual
  | .scalar _ q | .pointer _ q | .array _ _ q | .arrayUnsized _ q | .func _ _ _ q
  | .agg _ _ q | .enum _ q => q

/-- The same node with other qualifiers. -/
def withQual (q : TypeQual) : CType → CType
  | .scalar k _ => .scalar k q
  | .pointer p _ => .pointer p q
  | .array e n _ => .array e n q
  | .arrayUnsized e _ => .arrayUnsized e q
  | .func r ps v _ => .func r ps v q
  | .agg u id _ => .agg u id q
  | .enum id _ => .enum id q

def isPointer : CType → Bool
  | .pointer _ _ => true
  | _ => false

def isFunc : CType → Bool
  | .func _ _ _ _ => true
  | _ => false

/-- `TY_ARRAY` or `TY_ARRAY_UNSIZED`. -/
def isArray : CType → Bool
  | .array _ _ _ | .arrayUnsized _ _ => true
  | _ => false

end CType

namespace FuncParams

def toList : FuncParams → List (Option String × CType)
  | .nil => []
  | .cons n t ps => (n, t) :: ps.toList

end FuncParams

/-! ### Sizes and alignments of x86-64 LP64 -/

/-- A value brought into the range of a 32-bit `int`. -/
def toInt32 (x : ℤ) : ℤ := x.bmod (2 ^ 32)

/-- `(x + a - 1) & ~(a - 1)`. -/
def alignUp (x a : ℤ) : ℤ := Int.land (x + a - 1) (Int.lnot (a - 1))

def ScalarKind.size : ScalarKind → ℤ
  | .void => -1
  | .bool | .char | .schar | .uchar => 1
  | .short | .ushort => 2
  | .int | .uint | .float => 4
  | .long | .ulong | .llong | .ullong | .double => 8
  | .ldouble => 16

def ScalarKind.align : ScalarKind → ℤ
  | .void => 1
  | k => k.size

/-- The size in bytes, `-1` for an incomplete type. -/
def typeSizeof (Γ : TypeEnv) : CType → ℤ
  | .scalar k _ => k.size
  | .pointer _ _ => 8
  | .array elem count _ =>
      if count ≤ 0 then -1 else toInt32 (typeSizeof Γ elem * toInt32 count)
  | .arrayUnsized _ _ => -1
  | .func _ _ _ _ => -1
  | .agg _ id _ => (Γ.agg id).size
  | .enum _ _ => 4

def typeAlignof (Γ : TypeEnv) : CType → ℤ
  | .scalar k _ => k.align
  | .pointer _ _ => 8
  | .array elem _ _ | .arrayUnsized elem _ => typeAlignof Γ elem
  | .func _ _ _ _ => 1
  | .agg _ id _ => if (Γ.agg id).align > 0 then (Γ.agg id).align else 1
  | .enum _ _ => 4

/-! ### Predicates -/

def ScalarKind.isInteger : ScalarKind → Bool
  | .void | .float | .double | .ldouble => false
  | _ => true

def typeIsInteger : CType → Bool
  | .scalar k _ => k.isInteger
  | .enum _ _ => true
  | _ => false

def typeIsArithmetic (ty : CType) : Bool :=
  typeIsInteger ty || match ty with
    | .scalar .float _ | .scalar .double _ | .scalar .ldouble _ => true
    | _ => false

/-- Plain `char` is signed; an `enum` is not in the list. -/
def typeIsSigned : CType → Bool
  | .scalar .char _ | .scalar .schar _ | .scalar .short _ | .scalar .int _
  | .scalar .long _ | .scalar .llong _ => true
  | _ => false

def typeIsUnsignedInteger : CType → Bool
  | .scalar .bool _ | .scalar .uchar _ | .scalar .ushort _ | .scalar .uint _
  | .scalar .ulong _ | .scalar .ullong _ => true
  | _ => false

def isFpType : Option CType → Bool
  | some (.scalar .float _) | some (.scalar .double _) => true
  | _ => false

def isDoubleType : Option CType → Bool
  | some (.scalar .double _) => true
  | _ => false

def isAggregateType : Option CType → Bool
  | some (.agg _ _ _) => true
  | _ => false

/-- `type_sizeof(ty) > 0 ? type_sizeof(ty) : 8`, also for a missing type. -/
def sizeOrEight (Γ : TypeEnv) : Option CType → ℤ
  | some ty => if typeSizeof Γ ty > 0 then typeSizeof Γ ty else 8
  | none => 8

end TinyC
