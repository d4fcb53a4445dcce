import TinyC.CaseTests
import TinyC.IrMachine
import TinyC.WordMachine

/-!
# Integer code as a machine on words

The meaning of the instructions that work on integers and pointers: a temp holds a word, and the
world is the memory, or nothing once something undefined has been done. The code of each of these
instructions does on the stack slots what the machine does on the temps. So a `zext` of four bytes
copies the whole word, and division, remainder and right shift are those of signed words whatever
the types of the operands.
-/

namespace TinyC

open ByteMemory

/-- Where the objects are. `valid` says which ranges of bytes may be accessed. -/
structure ObjectLayout where
  sym : String → Addr
  /-- The storage of the `alloca` with that temp. -/
  place : ℕ → Addr
  valid : Addr → ℕ → Bool

/-- The word an instruction makes of the words of its operands, unless it faults. -/
def irWord (Γ : TypeEnv) (ins : IRInstr) (x y : BitVec 64) : Option (BitVec 64) :=
  match ins.op with
  | .neg => some (-x)
  | .not => some (~~~x)
  | .sext => some (extendWord (sizeOrEight Γ ins.src1.type) true x)
  | .zext =>
      some (if sizeOrEight Γ ins.src1.type = 4 then x
        else extendWord (sizeOrEight Γ ins.src1.type) false x)
  | .trunc =>
      some (match ins.dst.type with
        | some ty => extendWord (typeSizeof Γ ty) (typeIsSigned ty) x
        | none => x)
  | .add | .sub | .mul | .div | .mod | .and | .or | .xor | .shl | .shr
  | .eq | .ne | .lt | .le | .gt | .ge =>
      machineBinop ins.op (isUnsigned ins.src1.type || isUnsigned ins.src2.type) x y
  | _ => none

namespace ObjectLayout

variable (Γ : TypeEnv) (K : ObjectLayout)

/-- The word of an operand. -/
def operand (τ : ℕ → BitVec 64) (v : IRValue) : BitVec 64 :=
  match v.kind with
  | .temp t => τ t
  | .constInt c => c
  | .global name => K.sym name
  | _ => 0

/-- The word an instruction leaves in its temp. -/
def irValue (ins : IRInstr) (m : Mem) (τ : ℕ → BitVec 64) : Option (BitVec 64) :=
  let x := K.operand τ ins.src1
  match ins.op, ins.dst.kind with
  | .alloca, .temp t => some (K.place t)
  | .load, _ =>
      if K.valid x (accessBytes Γ ins.dst.type) then some (readWord Γ ins.dst.type m x) else none
  | _, _ => irWord Γ ins x (K.operand τ ins.src2)

def irStore (ins : IRInstr) (m : Mem) (τ : ℕ → BitVec 64) : Option Mem :=
  let a := K.operand τ ins.dst
  let n := accessBytes Γ (storeType ins)
  if K.valid a n then some (store m a n (K.operand τ ins.src1)) else none

/-- What is undefined leaves no memory and the word zero. -/
def machine : IrMachine (Option Mem) (BitVec 64) where
  literal v := K.operand (fun _ => 0) v
  isTrue w := w ≠ 0
  effect ins w τ :=
    if ins.op = .store then (w.bind fun m => K.irStore Γ ins m τ, τ)
    else
      match w.bind fun m => K.irValue Γ ins m τ with
      | some v => (w, IrMachine.writeTemp τ ins.dst v)
      | none => (none, IrMachine.writeTemp τ ins.dst 0)

variable {Γ K} {ins : IRInstr} {m m' : Mem} {τ τ' : ℕ → BitVec 64} {v : BitVec 64}

theorem machine_operand (τ : ℕ → BitVec 64) (v : IRValue) :
    (K.machine Γ).operand τ v = K.operand τ v := by
  obtain ⟨kind, ty⟩ := v
  cases kind <;> rfl

theorem effect_store (hop : ins.op = .store) (w : Option Mem) :
    (K.machine Γ).effect ins w τ = (w.bind fun m => K.irStore Γ ins m τ, τ) := if_pos hop

theorem effect_value (hop : ins.op ≠ .store) (h : K.irValue Γ ins m τ = some v) :
    (K.machine Γ).effect ins (some m) τ = (some m, IrMachine.writeTemp τ ins.dst v) := by
  refine (if_neg hop).trans ?_
  rw [Option.bind_some, h]

theorem effect_fault (hop : ins.op ≠ .store) {w : Option Mem}
    (h : (w.bind fun m => K.irValue Γ ins m τ) = none) :
    (K.machine Γ).effect ins w τ = (none, IrMachine.writeTemp τ ins.dst 0) := by
  refine (if_neg hop).trans ?_
  rw [h]

/-- What an instruction did if something is left of the memory. -/
theorem effect_cases {w : Option Mem} (h : (K.machine Γ).effect ins w τ = (some m', τ')) :
    ∃ m, w = some m ∧
      ((ins.op = .store ∧ K.irStore Γ ins m τ = some m' ∧ τ' = τ) ∨
        (ins.op ≠ .store ∧ m' = m ∧ ∃ v, K.irValue Γ ins m τ = some v ∧
          τ' = IrMachine.writeTemp τ ins.dst v)) := by
  by_cases hop : ins.op = .store
  · rw [effect_store hop, Prod.mk.injEq] at h
    obtain ⟨m, rfl, hm⟩ := Option.bind_eq_some_iff.mp h.1
    exact ⟨m, rfl, .inl ⟨hop, hm, h.2.symm⟩⟩
  · cases hv : w.bind fun m => K.irValue Γ ins m τ with
    | none =>
      rw [effect_fault hop hv, Prod.mk.injEq] at h
      cases h.1
    | some v =>
      obtain ⟨m, rfl, hv⟩ := Option.bind_eq_some_iff.mp hv
      rw [effect_value hop hv, Prod.mk.injEq] at h
      exact ⟨m, rfl, .inr ⟨hop, (Option.some.inj h.1).symm, v, hv, h.2.symm⟩⟩

end ObjectLayout

/-- The instructions the machine knows: those of labels, jumps, copies and returns, and those it
gives a meaning to. The capture of a parameter may be there, but has none. -/
def IRInstr.isWordCode (i : IRInstr) : Bool :=
  let from1 := i.src1.kind ≠ .none
  let toTemp := match i.dst.kind with | .temp _ => true | _ => false
  match i.op with
  | .label | .jmp | .ret => true
  | .jz | .jnz => from1
  | .alloca => toTemp
  | .load => from1 && toTemp && !isFpType i.dst.type
  | .store => from1 && i.dst.kind ≠ .none && !isFpType (storeType i)
  | .copy => toTemp && (!from1 || !isFpType i.dst.type && !isFpType i.src1.type)
  | .neg | .not | .sext | .zext | .trunc => from1 && toTemp
  | .add | .sub | .mul | .div | .mod | .and | .or | .xor | .shl | .shr =>
      from1 && i.src2.kind ≠ .none && toTemp && !isFpType i.dst.type
  | .eq | .ne | .lt | .le | .gt | .ge =>
      from1 && i.src2.kind ≠ .none && toTemp && !isFpType i.src1.type && !isFpType i.src2.type
  | _ => false

end TinyC
