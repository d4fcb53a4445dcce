import TinyC.Designation
import TinyC.FreshWrites
import TinyC.IrGenModule
import TinyC.ProgramRuns

/-!
# Objects declared in blocks

In whatever way a program runs, each time a declaration in a block is passed its name stands for
storage of the activation.
-/

namespace TinyC

open ByteMemory FrameStack

section

variable (Γ : TypeEnv) (m : IRModule) (sym : String → Addr) (v : VarDecl) (g : IrGen)

end

section

variable {Γ : TypeEnv} {m : IRModule} {sym : String → Addr} {v : VarDecl} {g : IrGen}
  {below : List Activation} {mem mem' : Mem} {a a' b b' : Activation}

theorem returns_keeps {ins : IRInstr} {t : ℕ} (hi : b.code[b.pc]? = some ins)
    (hwrites : ins.WritesIn (Set.Ici (t + 1))) (h : Returns Γ a b mem b' mem') :
    b'.temps t = b.temps t := by
  cases h with
  | ret _ hi' _ htemps _ _ =>
    obtain rfl := Option.some.inj (hi.symm.trans hi')
    exact htemps _ hwrites t (Nat.lt_succ_self t).not_ge

/-- In a function, the code of a declaration is an `alloca`, and then instructions that leave its
temp alone. -/
structure DeclarationAt (F : List IRInstr) (lo hi t : ℕ) : Prop where
  lt : lo < hi
  first : ∃ ins, F[lo]? = some ins ∧ ins.op = .alloca ∧ ins.dst.kind = .temp t
  later : ∀ pc, lo < pc → pc < hi → ∃ ins, F[pc]? = some ins ∧ ins.WritesIn (Set.Ici (t + 1))

/-- The activation has come to the declaration, or its temp has the place of the storage. -/
def Reserving (a : Activation) (lo t : ℕ) (b : Activation) : Prop :=
  b.code = a.code ∧ b.layout = a.layout ∧ (b.pc = lo ∨ b.temps t = a.layout.place t)

/-- A function returns to the initializer that has called it. -/
theorem Reserving.returns {lo hi t : ℕ} {c : Activation} (hdecl : DeclarationAt a.code lo hi t)
    (hb : Reserving a lo t b) (hlo : lo ≤ b.pc) (hhi : b.pc < hi)
    (h : Returns Γ c b mem b' mem') : Reserving a lo t b' := by
  obtain ⟨hcode, hlayout, htemp⟩ := hb
  have hsame : b'.code = b.code ∧ b'.layout = b.layout := by cases h; exact ⟨rfl, rfl⟩
  refine ⟨hsame.1.trans hcode, hsame.2.trans hlayout, .inr ?_⟩
  by_cases hpc : b.pc = lo
  · obtain ⟨ins, hi, hop, hdst⟩ := hdecl.first
    rw [← hcode, ← hpc] at hi
    cases h with
    | ret _ hi' hcall _ _ _ =>
      obtain rfl := Option.some.inj (hi.symm.trans hi')
      exact absurd (hop.symm.trans hcall) (by decide)
  · obtain ⟨ins, hi, hwrites⟩ := hdecl.later b.pc (by omega) hhi
    rw [← hcode] at hi
    exact (returns_keeps hi hwrites h).trans (htemp.resolve_left hpc)

end

end TinyC
