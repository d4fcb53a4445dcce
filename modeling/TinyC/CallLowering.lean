import TinyC.Ir
import TinyC.AbiClassify

/-!
# Storage, calls and parameters in the intermediate representation

The instructions irgen emits for an object's storage, for a call once its arguments are
evaluated, and for the capture of an incoming parameter.
-/

namespace TinyC

/-- The size and alignment `gen_alloca_value` reserves. -/
def allocaExtent (Γ : TypeEnv) (ty : CType) : ℤ × ℤ :=
  let sz := typeSizeof Γ ty
  let sz := match ty with
    | .array _ count _ => if sz ≤ 0 ∧ count ≤ 0 then 4096 else sz
    | _ => sz
  let al := typeAlignof Γ ty
  (if sz ≤ 0 then 8 else sz, if al ≤ 0 then 8 else al)

/-- The `IR_CALL` of a call whose result type is `retTy`. -/
def irCall (Γ : TypeEnv) (dst callee : IRValue) (args : List IRValue) (retTy : CType) : IRInstr :=
  { op := .call, dst := dst, src1 := callee, callArgs := args
    callSret := abiInMemory (abiClassify Γ retTy), callRetTy := some retTy }

/-- The `IR_COPY` that captures parameter `idx` of type `pty`: into the object `addr` points
at if it is an aggregate, into the temp `t` if not. -/
def paramCopy (idx : ℕ) (pty : CType) (addr t : ℕ) : IRInstr :=
  if isAggregateType (some pty) then
    { op := .copy, dst := irvTemp addr (typePointer pty .none), labelId := idx
      src2 := ⟨.none, some pty⟩ }
  else { op := .copy, dst := irvTemp t pty, labelId := idx }

theorem paramCopy_ne_label (idx : ℕ) (pty : CType) (addr t : ℕ) :
    (paramCopy idx pty addr t).op ≠ .label := by
  unfold paramCopy
  split <;> simp

end TinyC
