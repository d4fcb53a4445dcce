import TinyC.ControlFlowCorrect
import TinyC.ExprLowering
import TinyC.RunRefinement

/-!
# The lowering of bodies

The statements of a function over covered expressions: where they come to an end without having done
anything undefined, the code comes to the same end with the same memory and the word of the value
that is returned.
-/

namespace TinyC

open ByteMemory PartialRuns PrimSem

/-- What statements over integers and pointers do. -/
def bodySem (Γ : TypeEnv) (ω : Objects) : PrimSem (Option Mem) ℤ Unit where
  eval p _ w :=
    match p with
    | .value e =>
        let r := w.bind (meaning Γ ω e).value
        ((r.map Prod.fst).getD 0, r.map Prod.snd)
    | _ => (0, none)
  declare _ ρ := ρ
  isTrue v := v ≠ 0
  ofBool b := truth b

/-- The primitives of such statements. -/
def bodyPrims (Γ : TypeEnv) (sc : ScopeChain VarEntry) : Prim → Prop
  | .value e => (covered Γ sc e).value = true
  | _ => False

/-- The word of a number that is known by it. -/
def WordOf (x : BitVec 64) (v : ℤ) : Prop := x = wordOf v ∧ -2 ^ 63 ≤ v ∧ v < 2 ^ 64

theorem WordOf.isTrue {x : BitVec 64} {v : ℤ} (h : WordOf x v) :
    decide (x ≠ 0) = decide (v ≠ 0) := by
  obtain ⟨rfl, hlow, hhigh⟩ := h
  refine decide_eq_decide.mpr (not_congr ⟨fun hzero => ?_, fun hzero => hzero ▸ rfl⟩)
  have hmod := (TwosComplement.ofInt_eq_ofInt_iff (w := 64) (a := v) (b := 0)).mp (hzero.trans rfl)
  omega

theorem wordOf_truth (b : Bool) : WordOf (if b then 1 else 0) (truth b) := by
  cases b
  · exact ⟨rfl, by decide⟩
  · exact ⟨rfl, by decide⟩

theorem CType.Fits.range {Γ : TypeEnv} {ty : CType} {v : ℤ} (h : ty.Fits Γ v) :
    -2 ^ 63 ≤ v ∧ v < 2 ^ 64 := by
  unfold CType.Fits at h
  split at h
  · rename_i hty
    exact inRange_low h.inRange (word_bits_le hty).2
  · omega

namespace Lowering

variable {B : Lowering} {Γ : TypeEnv} {ω : Objects}

variable (B Γ ω) in
open Classical in
/-- What the code of the primitives does. -/
noncomputable def codeSem : PrimSem (Option Mem) (BitVec 64) Unit where
  eval p _ :=
    match p with
    | .value e =>
        if h : B.Yields Γ (genExpr Γ e) (Word Γ e.typeOrInt) (meaning Γ ω e).value then h.choose
        else (pure 0 : WordSem (BitVec 64))
    | _ => (pure 0 : WordSem (BitVec 64))
  declare _ ρ := ρ
  isTrue x := x ≠ 0
  ofBool b := if b then 1 else 0

theorem codeSem_isTrue : (B.objects.machine Γ).isTrue = (codeSem B Γ ω).isTrue := rfl

section

variable (hM : B.Matches ω) (hnodup : (labelsOf B.code.func.instrs).Nodup)

include hM hnodup

/-- The code of a primitive. -/
theorem codeSem_spec {p : Prim} (hp : bodyPrims Γ B.scope p) :
    ∃ e ev, p = .value e ∧ (codeSem B Γ ω).eval p () = ev ∧ B.Realises Γ [] (genExpr Γ e) ev one ∧
      Refines (Word Γ e.typeOrInt) ev (meaning Γ ω e).value := by
  cases p with
  | value e =>
    have h := (lowered hM hnodup e).value hp
    exact ⟨e, h.choose, rfl, dif_pos h, h.choose_spec⟩
  | aggregate e => exact hp.elim
  | decls ds => exact hp.elim

theorem refined : Refined (bodyPrims Γ B.scope) WordOf (codeSem B Γ ω) (bodySem Γ ω) where
  lost p ρ := by cases p <;> rfl
  prim := by
    intro p ρ m hp hworld
    obtain ⟨e, ev, rfl, hev, -, href⟩ := codeSem_spec hM hnodup hp
    have heval : (codeSem B Γ ω).eval (.value e) ρ (some m) = ev (some m) := congrFun hev _
    rw [heval]
    change ((meaning Γ ω e).value m).map Prod.snd ≠ none at hworld
    change (ev (some m)).2 = ((meaning Γ ω e).value m).map Prod.snd ∧
      WordOf (ev (some m)).1 ((((meaning Γ ω e).value m).map Prod.fst).getD 0)
    cases hc : (meaning Γ ω e).value m with
    | none =>
      rw [hc] at hworld
      exact absurd rfl hworld
    | some r =>
      obtain ⟨x, hx, hword, hfits⟩ := href (show _ = some (r.1, r.2) from hc)
      rw [hx]
      exact ⟨rfl, hword, hfits.range⟩
  isTrue h := h.isTrue
  ofBool b := wordOf_truth b
  declare := rfl

def bodyImplements : Implements Γ B.code (B.objects.machine Γ) (codeSem B Γ ω)
    (bodyPrims Γ B.scope) where
  stands := (B.implements Γ).stands
  stands_mono := (B.implements Γ).stands_mono
  isTrue := codeSem_isTrue
  ofBool b := by cases b <;> rfl
  run := by
    intro p ρ g τ w hp hst hF
    obtain ⟨e, ev, rfl, hev, hrun, -⟩ := codeSem_spec hM hnodup hp
    obtain ⟨k, τ', hsteps, hagree, hone⟩ :=
      hrun.runs g τ w hst (fun _ hp => absurd hp List.not_mem_nil) hF
    obtain ⟨hsome, -, hword⟩ := hone _ List.mem_cons_self
    have heval : (codeSem B Γ ω).eval (.value e) ρ w = ev w := congrFun hev _
    rw [heval]
    refine ⟨k, τ', hsteps, hagree, hsome, ?_⟩
    rw [ObjectLayout.machine_operand]
    exact hword

/-- The statements `ss` at the end of a function, lowered in the state `g`. -/
theorem body_runs {ft : Option CType} {g : IrGen} {τ : ℕ → BitVec 64} {ss : List Stmt}
    (hst : B.Stands g τ) (hready : Implements.Ready B.code ft false g 0 0)
    (hF : Within (genStmts Γ ss g).2 B.code) (hend : B.code.pos = (genStmts Γ ss g).2.pos)
    (hss : ∀ s ∈ ss, Structured (bodyPrims Γ B.scope) (returnsAggregate ft) false true s)
    {n : ℕ} {m m' : Mem} {tr : List Prim} {out : Outcome ℤ} {x : IrExit ℤ}
    (hexec : (bodySem Γ ω).execs (returnsAggregate ft) ss () n ⟨some m, []⟩ =
      (out, ⟨some m', tr⟩)) (hout : exitOf out = some x) :
    ∃ k s' e, (B.objects.machine Γ).Steps B.code.func.instrs k ⟨g.pos, some m, τ⟩ s' ∧
      (B.objects.machine Γ).exit B.code.func.instrs s' = some e ∧ s'.world = some m' ∧
      Option.Rel WordOf e.word x.word := by
  have hrefined := refined (Γ := Γ) hM hnodup
  have hsame := (hrefined.execs (fun s hs ρ n => hrefined.exec (hss s hs) ρ n) () n).same trivial
    ⟨some m, []⟩
  rw [hexec] at hsame
  obtain ⟨hstate, hr⟩ := hsame (by simp)
  obtain ⟨after, hperforms⟩ := Implements.performs_genStmts (L := bodyImplements hM hnodup)
    fun s hs => Implements.performs_genStmt hnodup (hss s hs)
  have hrun := hperforms () g ⟨some m, []⟩ τ n 0 0 hst hready hF
  generalize (codeSem B Γ ω).execs (returnsAggregate ft) ss () n ⟨some m, []⟩ = r
    at hrun hstate hr
  obtain ⟨out', o'⟩ := r
  obtain rfl : o' = ⟨some m', tr⟩ := hstate
  cases hr with
  | normal =>
    obtain rfl := Option.some.inj hout
    obtain ⟨k, τ', run, -, -⟩ := hrun
    refine ⟨k, _, .fallThrough, run.steps, ?_, rfl, .none⟩
    have hnone : B.code.func.instrs[B.code.pos]? = none := List.getElem?_eq_none le_rfl
    simp only [IrMachine.exit, Config.state, ← hend, hnone]
  | ret hv =>
    obtain rfl := Option.some.inj hout
    obtain ⟨k, pc, τ', run, hexit⟩ := hrun
    exact ⟨k, _, _, run.steps, hexit, rfl, hv⟩
  | brk => cases hout
  | cnt => cases hout
  | timeout => cases hout

end

end Lowering

end TinyC
