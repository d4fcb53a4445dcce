import TinyC.MemoryWrites
import TinyC.StaticTypes
import TinyC.OperatorValue

/-!
# How wide the store of an assignment is

The store goes by the static type of the address, not by the type of the lvalue. The two agree
where the form of the lvalue makes the address a pointer to the lvalue's type.
-/

namespace TinyC

open ByteMemory

/-- The arithmetic types and pointers. -/
def CType.isScalar (ty : CType) : Bool := typeIsArithmetic ty || ty.isPointer

/-- The lvalue that an expression assigns to. -/
def assignedLvalue : Expr → Option Expr
  | .assign _ _ l _ | .postop _ _ l => some l
  | .unop _ op l => if op = .plusplus ∨ op = .minusminus then some l else none
  | _ => none

/-- The static type of the value that an assignment stores. -/
def storedType (Γ : TypeEnv) (sc : ScopeChain VarEntry) : Expr → Option CType
  | .assign i op _ r =>
      if op = .assign then (staticTypes Γ sc r).value else some (i.type.getD typeInt)
  | e => some e.typeOrInt

/-- The pointee of the address, or the type of the value where the address is no pointer. -/
def pointeeOrStored (place stored : Option CType) : Option CType :=
  match place with
  | some (.pointer pointee _) => some pointee
  | _ => stored

/-- The type that the store of the assignment `n` to `l` goes by. -/
def assignmentStoreType (Γ : TypeEnv) (sc : ScopeChain VarEntry) (n l : Expr) : Option CType :=
  pointeeOrStored (staticTypes Γ sc l).place (storedType Γ sc n)

section

variable {Γ : TypeEnv} {g : IrGen} {n l : Expr} {T : CType} {st : IRInstr} {size : ℤ}

/-- A scalar is stored in as many bytes as it has, `long double` apart. -/
theorem storeBytes_scalar (hT : T.isScalar = true) (hld : ∀ q, T ≠ .scalar .ldouble q) :
    (storeBytes Γ (some T) : ℤ) = typeSizeof Γ T := by
  cases T with
  | scalar k q =>
    cases k with
    | void => cases hT
    | ldouble => exact absurd rfl (hld q)
    | _ => rfl
  | pointer p q => rfl
  | enum id q => rfl
  | _ => cases hT

variable {sc : ScopeChain VarEntry}

/-- A name goes by the type of its declaration. -/
theorem ident_storeType {e : VarEntry} {i : Info} {name : String} {q : TypeQual}
    (he : sc.lookup vtabBuckets name = some e) (haddr : e.addr.type = some (.pointer T q)) :
    assignmentStoreType Γ sc n (.ident i name) = some T := by
  rw [assignmentStoreType, staticTypes, he]
  change pointeeOrStored e.addr.type _ = some T
  rw [haddr]
  rfl

theorem subscript_storeType {i : Info} {b x : Expr} :
    assignmentStoreType Γ sc n (.subscript i b x) = some (i.type.getD typeInt) := rfl

theorem compoundLit_storeType {i : Info} {init : Expr} :
    assignmentStoreType Γ sc n (.compoundLit i T init) = some T := rfl

/-- A member that is found goes by its own type. -/
theorem memberPlace_points {aggTy : Option CType} (base : Option CType) {field : String}
    {f : StructField} {fs : List StructField} {offset : ℤ}
    (hf : (aggTy.bind fun t => findFieldWithOffset Γ t field) = some (f :: fs, offset)) :
    ∃ q, memberPlace Γ aggTy field base = some (.pointer f.type q) := by
  rw [memberPlace, hf]
  dsimp only
  split
  · rename_i hkeep
    rw [Bool.and_eq_true, pointsTo] at hkeep
    split at hkeep
    · rename_i p q hbase
      have hp : p = f.type := of_decide_eq_true hkeep.2
      exact ⟨q, hp ▸ hbase⟩
    · cases hkeep.2
  · exact ⟨.none, rfl⟩

theorem member_storeType {i : Info} {b : Expr} {field : String} {f : StructField}
    {fs : List StructField} {offset : ℤ}
    (hf : (b.type.bind fun t => findFieldWithOffset Γ t field) = some (f :: fs, offset)) :
    assignmentStoreType Γ sc n (.member i b field) = some f.type := by
  obtain ⟨q, hq⟩ := memberPlace_points (staticTypes Γ sc b).place hf
  rw [assignmentStoreType, staticTypes, hq]
  rfl

end

end TinyC
