import TinyC.CodegenUnit
import TinyC.GenRules
import TinyC.Lib.FrameStack
import TinyC.WordIr

/-!
# Runs of a program

The activations of functions share the memory; each has its own temps, and its own storage for what
`alloca` reserves.
-/

namespace TinyC

open ByteMemory Relation

/-- A call of a function that has not returned. -/
structure Activation where
  code : List IRInstr
  layout : ObjectLayout
  pc : ℕ
  temps : ℕ → BitVec 64

namespace Activation

def state (a : Activation) (mem : Mem) : IrState (Option Mem) (BitVec 64) :=
  ⟨a.pc, some mem, a.temps⟩

def word (a : Activation) (v : IRValue) : BitVec 64 := a.layout.operand a.temps v

end Activation

/-- Only the temp is written that the instruction writes. -/
def IRInstr.KeepsOthers (ins : IRInstr) (τ τ' : ℕ → BitVec 64) : Prop :=
  ∀ own, ins.WritesIn own → ∀ t ∉ own, τ' t = τ t

section

variable (Γ : TypeEnv) (m : IRModule) (sym : String → Addr)

/-- A function returns. Its caller goes on after the call. -/
inductive Returns : Activation → Activation → Mem → Activation → Mem → Prop where
  | ret {a b : Activation} {mem mem' : Mem} {x : IrExit (BitVec 64)} {ins : IRInstr}
      {τ' : ℕ → BitVec 64} (hexit : (a.layout.machine Γ).exit a.code (a.state mem) = some x)
      (hi : b.code[b.pc]? = some ins) (hop : ins.op = .call) (htemps : ins.KeepsOthers b.temps τ')
      (hword : ∀ t v, ins.dst.kind = .temp t → ins.usesDst = false → x.word = some v → τ' t = v)
      (hmem : ins.usesDst = false → mem' = mem) :
      Returns a b mem { b with pc := b.pc + 1, temps := τ' } mem'

end

variable {Γ : TypeEnv} {m : IRModule} {sym : String → Addr}

/-- What an activation does whose instruction is known. -/
def Activation.work (Γ : TypeEnv) (a : Activation) (mem : Mem) : Option (Activation × Mem) := do
  let s ← (a.layout.machine Γ).step a.code (a.state mem)
  let mem' ← s.world
  return ({ a with pc := s.pc, temps := s.temps }, mem')

end TinyC
