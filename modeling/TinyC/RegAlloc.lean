import TinyC.Ir

/-!
# Stack-slot allocation

Every temp gets an 8-byte slot below `%rbp`. The storage of the `alloca` instructions
is packed below the slots.
-/

namespace TinyC

/-- Offsets are relative to `%rbp`. -/
structure RegAlloc where
  slot : ℕ → ℤ
  allocaOff : ℕ → ℤ
  nTemps : ℕ
  frameSize : ℤ

/-- The walk over the instructions: the storage used so far and the offsets given. -/
def allocaStep (st : ℤ × (ℕ → ℤ)) (ins : IRInstr) : ℤ × (ℕ → ℤ) :=
  match ins.op, ins.dst.kind with
  | .alloca, .temp tid =>
      let sz := if ins.allocaSize > 0 then ins.allocaSize else 8
      let al := if ins.allocaAlign > 0 then ins.allocaAlign else 8
      let cur := alignUp st.1 al + sz
      (cur, Function.update st.2 tid (-cur))
  | _, _ => st

/-- Temps are numbered from 1; the entry of temp 0 stays zero. -/
def slotOffset (n t : ℕ) : ℤ := if 1 ≤ t ∧ t < n then -8 * t else 0

def regallocRun (f : IRFunc) : RegAlloc :=
  let n := f.nextTemp
  let r := f.instrs.foldl allocaStep (8 * (n : ℤ), fun _ => 0)
  let frameSize := Int.land (r.1 + 15) (Int.lnot 15)
  { slot := slotOffset n
    allocaOff := r.2
    nTemps := n
    frameSize := if frameSize = 0 then 16 else frameSize }

end TinyC
