import TinyC.CastValue
import TinyC.Lib.PartialRuns
import TinyC.StaticTypes

/-!
# What expressions mean

The value of an expression of integer or pointer type, as a number, and the place of an lvalue, over
a memory of bytes. Nothing is said where C99 leaves the behaviour undefined, nor in these cases where
it does not: an `unsigned int` that has to be reduced, 64-bit unsigned numbers from `2 ^ 63` on that
are divided or shifted right, an operator on operands that are not of one promoted type (`-c` for a
`char`, `p != 0` for a pointer), casts that are not conversions, and a step or a compound assignment
whose value is none of its object's type. In most of them the code goes wrong.
-/

namespace TinyC

open ByteMemory TwosComplement PartialRuns

abbrev Meaning := Partial Mem

instance (Γ : TypeEnv) (ty : CType) (v : ℤ) : Decidable (ty.Holds Γ v) := by
  unfold CType.Holds
  infer_instance

/-- The objects of a program: the addresses of its variables, and the bytes that belong to it. -/
structure Objects where
  place : String → Addr
  valid : Addr → ℕ → Bool

/-! ### Numbers -/

/-- The values of the type; what is not a number is known by its address. -/
def CType.Fits (Γ : TypeEnv) (ty : CType) (v : ℤ) : Prop :=
  if ty.isWord then ty.Holds Γ v else 0 ≤ v ∧ v < 2 ^ 64

instance (Γ : TypeEnv) (ty : CType) (v : ℤ) : Decidable (ty.Fits Γ v) := by
  unfold CType.Fits
  infer_instance

/-- `v`, if it is a value of the type. -/
def fitting (Γ : TypeEnv) (ty : CType) (v : ℤ) : Option ℤ := if ty.Fits Γ v then some v else none

/-- Where the result `r` of the C99 operator is the one of the instructions. -/
def Unreduced (k : ScalarKind) (tk : TokenKind) (a b r : ℤ) : Prop :=
  match tk with
  | .plus => k = .uint → r = a + b
  | .minus => k = .uint → r = a - b
  | .star => k = .uint → r = a * b
  | .lshift => k = .uint → r = a * 2 ^ b.toNat
  | .slash | .percent | .rshift => a < 2 ^ 63 ∧ b < 2 ^ 63
  | _ => True

instance (k : ScalarKind) (tk : TokenKind) (a b r : ℤ) : Decidable (Unreduced k tk a b r) := by
  unfold Unreduced
  split <;> infer_instance

/-- An operator on two numbers of a promoted type. -/
def exactBinop (k : ScalarKind) (tk : TokenKind) (a b : ℤ) : Option ℤ :=
  (c99Binop k.signed k.bits tk a b).filter fun r => Unreduced k tk a b r

/-- An operator on operands of one promoted type. -/
def arithMeaning (tk : TokenKind) (lt rt : CType) (a b : ℤ) : Option ℤ :=
  match lt, rt with
  | .scalar k _, .scalar k' _ => if k ∈ promotedKinds ∧ k' = k then exactBinop k tk a b else none
  | _, _ => none

/-- The complement of a number of a promoted type. -/
def complement (ty : CType) (a : ℤ) : Option ℤ :=
  match ty with
  | .scalar k _ =>
      if k ∈ promotedKinds ∧ k ≠ .uint then some (wrap k.signed k.bits (Int.lnot a)) else none
  | _ => none

/-- A binary operator other than `&&` and `||` on operands of the types `lt` and `rt`. -/
def binopMeaning (Γ : TypeEnv) (tk : TokenKind) (lt rt : CType) (a b : ℤ) : Option ℤ :=
  if tk = .plus ∧ lt.isPointer ∧ ¬rt.isPointer then
    some (a + b * pointerPointeeSize Γ (some lt))
  else if tk = .plus ∧ rt.isPointer ∧ ¬lt.isPointer then
    some (b + a * pointerPointeeSize Γ (some rt))
  else if tk = .minus ∧ lt.isPointer ∧ rt.isPointer then
    let size := pointerPointeeSize Γ (some lt)
    if -2 ^ 63 ≤ a - b ∧ a - b < 2 ^ 63 ∧ size < 2 ^ 63 then some ((a - b).tdiv size) else none
  else if tk = .minus ∧ lt.isPointer then
    some (a - b * pointerPointeeSize Γ (some lt))
  else if lt.isPointer ∧ rt.isPointer then
    match tk with
    | .eq => some (truth (a = b))
    | .neq => some (truth (a ≠ b))
    | _ => none
  else arithMeaning tk lt rt a b

/-- A conversion, where the code of the cast is one. -/
def castMeaning (Γ : TypeEnv) (src dst : CType) (v : ℤ) : Option ℤ :=
  if CastAgrees Γ src src dst v then some (c99Convert Γ dst v) else none

/-! ### Objects -/

namespace Objects

variable (Γ : TypeEnv) (ω : Objects)

/-- The value of the object of type `ty` at `a`. -/
def read (ty : CType) (a : Addr) : Meaning ℤ := Partial.asks fun m =>
  let n := (typeSizeof Γ ty).toNat
  let v := value (typeIsSigned ty) (ty.bits Γ) (load m a n)
  if ω.valid a n ∧ ty.Holds Γ v then some v else none

def write (ty : CType) (a : Addr) (v : ℤ) : Meaning Unit := Partial.modifies fun m =>
  let n := (typeSizeof Γ ty).toNat
  if ω.valid a n then some (store m a n (BitVec.ofInt 64 v)) else none

end Objects

/-! ### Expressions -/

def addrOf (v : ℤ) : Addr := BitVec.ofInt 64 v

/-- An object as a value: an array is used by its address. -/
def objectValue (Γ : TypeEnv) (ω : Objects) (ty : CType) (place : Meaning Addr) : Meaning ℤ := do
  let a ← place
  if ty.isArray then return a.toNat else ω.read Γ ty a

/-- The place and the value of a node. -/
structure NodeMeaning where
  place : Meaning Addr
  value : Meaning ℤ

namespace NodeMeaning

/-- The value of a node is one of its type. -/
def checked (Γ : TypeEnv) (ty : CType) (v : Meaning ℤ) : Meaning ℤ := do
  Partial.ofOption (fitting Γ ty (← v))

def ofValue (Γ : TypeEnv) (ty : CType) (v : Meaning ℤ) : NodeMeaning :=
  ⟨Partial.undefined, checked Γ ty v⟩

def ofPlace (Γ : TypeEnv) (ω : Objects) (ty : CType) (place : Meaning Addr) : NodeMeaning :=
  ⟨place, checked Γ ty (objectValue Γ ω ty place)⟩

end NodeMeaning

/-- `++` and `--`; returned are the old and the new value. -/
def stepMeaning (Γ : TypeEnv) (ω : Objects) (op : TokenKind) (ty : CType) (place : Meaning Addr) :
    Meaning (ℤ × ℤ) := do
  let a ← place
  let old ← ω.read Γ ty a
  let one := pointerPointeeSize Γ (some ty)
  let new ← Partial.ofOption (fitting Γ ty (if op = .plusplus then old + one else old - one))
  ω.write Γ ty a new
  return (old, new)

def unopMeaning (Γ : TypeEnv) (ω : Objects) (op : TokenKind) (ty opTy : CType)
    (e : NodeMeaning) : Meaning ℤ :=
  match op with
  | .amp => do return (← e.place).toNat
  | .star => objectValue Γ ω ty do return addrOf (← e.value)
  | .plusplus | .minusminus => do return (← stepMeaning Γ ω op ty e.place).2
  | .minus => do Partial.ofOption (arithMeaning .minus opTy opTy 0 (← e.value))
  | .tilde => do Partial.ofOption (complement opTy (← e.value))
  | .bang => do return truth ((← e.value) = 0)
  | .plus => e.value
  | _ => Partial.undefined

/-- An assignment to an object of type `ty`; `rt` is the type of the right side. -/
def assignMeaning (Γ : TypeEnv) (ω : Objects) (op : TokenKind) (ty rt : CType)
    (place : Meaning Addr) (right : Meaning ℤ) : Meaning ℤ := do
  let a ← place
  if op = .assign then
    let v ← right
    ω.write Γ ty a v
    return v
  else
    let old ← ω.read Γ ty a
    let v ← right
    let new ← Partial.ofOption ((binopMeaning Γ (compoundBase op) ty rt old v).bind (fitting Γ ty))
    ω.write Γ ty a new
    return new

/-- The offset of a member that is no bit-field. -/
def memberOffset (Γ : TypeEnv) (aggTy : Option CType) (field : String) : Option ℤ :=
  match aggTy.bind fun t => findFieldWithOffset Γ t field with
  | some (f :: _, offset) => if f.bitWidth > 0 then none else some offset
  | _ => none

def memberMeaning (Γ : TypeEnv) (aggTy : Option CType) (field : String) (base : Meaning Addr) :
    Meaning Addr := do
  let a ← base
  let offset ← Partial.ofOption (memberOffset Γ aggTy field)
  return a + BitVec.ofInt 64 offset

/-- `&&` and `||`. -/
def logicalMeaning (isAnd : Bool) (left right : Meaning ℤ) : Meaning ℤ := do
  let a ← left
  if decide (a ≠ 0) = isAnd then return truth ((← right) ≠ 0) else return truth (a ≠ 0)

/-- The meaning of a node that sema has seen. -/
def meaning (Γ : TypeEnv) (ω : Objects) : Expr → NodeMeaning
  | .intLit i v _ | .charLit i v =>
      let ty := i.type.getD typeInt
      .ofValue Γ ty (pure (if typeIsSigned ty then v.toInt else v.toNat))
  | .ident i name => .ofPlace Γ ω (i.type.getD typeInt) (pure (ω.place name))
  | .unop i op e =>
      let ty := i.type.getD typeInt
      ⟨if op = .star then do return addrOf (← (meaning Γ ω e).value) else Partial.undefined,
        NodeMeaning.checked Γ ty (unopMeaning Γ ω op ty e.typeOrInt (meaning Γ ω e))⟩
  | .postop i op e =>
      let ty := i.type.getD typeInt
      .ofValue Γ ty do return (← stepMeaning Γ ω op ty (meaning Γ ω e).place).1
  | .binop i op l r => .ofValue Γ (i.type.getD typeInt)
      (if op = .and ∨ op = .or then
        logicalMeaning (op = .and) (meaning Γ ω l).value (meaning Γ ω r).value
      else do
        let a ← (meaning Γ ω l).value
        let b ← (meaning Γ ω r).value
        Partial.ofOption (binopMeaning Γ op l.typeOrInt r.typeOrInt a b))
  | .assign i op l r =>
      let ty := i.type.getD typeInt
      .ofValue Γ ty (assignMeaning Γ ω op ty r.typeOrInt (meaning Γ ω l).place (meaning Γ ω r).value)
  | .ternary i c t e => .ofValue Γ (i.type.getD typeInt) do
      if (← (meaning Γ ω c).value) ≠ 0 then (meaning Γ ω t).value else (meaning Γ ω e).value
  | .subscript i b x =>
      let ty := i.type.getD typeInt
      .ofPlace Γ ω ty do
        let p ← (meaning Γ ω b).value
        let n ← (meaning Γ ω x).value
        return addrOf (p + n * elemSize Γ ty)
  | .member i b field => .ofPlace Γ ω (i.type.getD typeInt)
      (memberMeaning Γ b.type field (meaning Γ ω b).place)
  | .memberPtr i b field => .ofPlace Γ ω (i.type.getD typeInt)
      (memberMeaning Γ (pointeeOrSelf b.type) field do return addrOf (← (meaning Γ ω b).value))
  | .cast i ty e => .ofValue Γ (i.type.getD typeInt) do
      Partial.ofOption (castMeaning Γ e.typeOrInt ty (← (meaning Γ ω e).value))
  | .sizeofExpr i e =>
      .ofValue Γ (i.type.getD typeInt) (pure (max (typeSizeof Γ e.typeOrInt) 0))
  | .sizeofType i ty => .ofValue Γ (i.type.getD typeInt) (pure (max (typeSizeof Γ ty) 0))
  | .comma i l r => .ofValue Γ (i.type.getD typeInt) do
      let _ ← (meaning Γ ω l).value
      (meaning Γ ω r).value
  | _ => ⟨Partial.undefined, Partial.undefined⟩

end TinyC
