import TinyC.GenRules

/-!
# The temps that an expression writes

The code of an expression or an initializer writes only temps that it takes itself.
-/

namespace TinyC

/-- The code that `m` emits in `g` writes only temps of `own` and those not yet taken in `g`. -/
structure WritesFreshIn (own : Set ℕ) (g g' : IrGen) : Prop where
  temps : g.func.nextTemp ≤ g'.func.nextTemp
  code : ∃ code, g'.func.instrs = g.func.instrs ++ code ∧
    ∀ ins ∈ code, ins.WritesIn (own ∪ Set.Ici g.func.nextTemp)

def WritesFresh (own : Set ℕ) {α : Type} (m : Gen α) : Prop := ∀ g, WritesFreshIn own g (m g).2

theorem IRInstr.WritesIn.mono {ins : IRInstr} {own own' : Set ℕ} (h : ins.WritesIn own)
    (hsub : own ⊆ own') : ins.WritesIn own' := h.imp_right fun h t ht => hsub (h t ht)

namespace WritesFresh

variable {own : Set ℕ} {α β : Type} {m : Gen α}

/-- Nothing is emitted. -/
theorem silent {m : Gen α} (hcode : ∀ g, (m g).2.func.instrs = g.func.instrs)
    (htemps : ∀ g, g.func.nextTemp ≤ (m g).2.func.nextTemp) : WritesFresh own m := fun g =>
  ⟨htemps g, [], by rw [hcode, List.append_nil], fun _ h => absurd h List.not_mem_nil⟩

theorem pure (a : α) : WritesFresh own (Pure.pure a : Gen α) :=
  silent (fun _ => rfl) fun _ => le_rfl

theorem bind {k : α → Gen β} (hm : WritesFresh own m) (hk : ∀ a, WritesFresh own (k a)) :
    WritesFresh own (m >>= k) := by
  intro g
  obtain ⟨htemps, code, hcode, hwrites⟩ := hm g
  obtain ⟨htemps', code', hcode', hwrites'⟩ := hk (m g).1 (m g).2
  refine ⟨htemps.trans htemps', code ++ code', ?_, fun ins hins => ?_⟩
  · exact hcode'.trans (by rw [hcode, List.append_assoc])
  · rcases List.mem_append.mp hins with hins | hins
    · exact hwrites ins hins
    · have hsub := Set.union_subset_union_right own (Set.Ici_subset_Ici.mpr htemps)
      exact (hwrites' ins hins).mono hsub

theorem emit {ins : IRInstr} (h : ins.WritesIn own) : WritesFresh own (emit ins) := fun _ =>
  ⟨le_rfl, [ins], rfl, fun ins' hins => by
    rw [List.mem_singleton.mp hins]
    exact h.mono Set.subset_union_left⟩

/-- An instruction without a destination. -/
theorem emit_silent {ins : IRInstr} (h : ins.dst.kind = .none) :
    WritesFresh own (TinyC.emit ins) := emit (.inr fun t ht => by
  rw [h] at ht
  cases ht)

theorem newLabel_bind {k : ℕ → Gen β} (hk : ∀ l, WritesFresh own (k l)) :
    WritesFresh own (newLabel >>= k) :=
  bind (silent (fun _ => rfl) fun _ => le_rfl) hk

theorem newTemp_bind {k : ℕ → Gen β} (hk : ∀ t, WritesFresh (insert t own) (k t)) :
    WritesFresh own (newTemp >>= k) := by
  intro g
  obtain ⟨htemps, code, hcode, hwrites⟩ := hk g.func.nextTemp (newTemp g).2
  refine ⟨(Nat.le_succ _).trans htemps, code, hcode, fun ins hins => (hwrites ins hins).mono ?_⟩
  rintro t ((rfl | ht) | ht)
  · exact .inr Set.self_mem_Ici
  · exact .inl ht
  · exact .inr (Set.mem_Ici.mpr ((Nat.le_succ _).trans ht))

theorem writesIn_result {ins : IRInstr} {t : ℕ} {ty : CType} (h : ins.dst = irvTemp t ty) :
    WritesFresh (insert t own) (TinyC.emit ins) := emit (writesIn_temp h own)

theorem rules : GenRules WritesFresh where
  pure := pure
  bind := bind
  newTemp_bind := newTemp_bind
  emit _ hwrites := emit hwrites
  vscopeLookup _ := silent (fun _ => rfl) fun _ => le_rfl
  addStringConst data := silent (fun g => congrArg IRFunc.instrs (addStringConst_func data g))
    fun g => (congrArg IRFunc.nextTemp (addStringConst_func data g)).ge
  genShortCircuit isAnd left right hl hr := by
    have htest : ∀ own lv f l, WritesFresh own (genShortCircuitTest isAnd lv right f l) := by
      intro own lv f l
      unfold genShortCircuitTest
      split
      · exact bind (emit_silent rfl) fun _ => bind (hr own) fun _ => bind (emit_silent rfl) fun _ =>
          bind (emit_silent rfl) fun _ => emit_silent rfl
      · exact bind (emit_silent rfl) fun _ => bind (hr own) fun _ => emit_silent rfl
    exact newTemp_bind fun _ => newLabel_bind fun _ => newLabel_bind fun _ => newLabel_bind fun _ =>
      bind (hl _) fun _ => bind (htest _ _ _ _) fun _ => bind (writesIn_result rfl) fun _ =>
        bind (emit_silent rfl) fun _ => bind (emit_silent rfl) fun _ =>
          bind (writesIn_result rfl) fun _ => bind (emit_silent rfl) fun _ => pure _
  genTernary ty cond thenExpr elseExpr hc ht he :=
    newLabel_bind fun _ => newLabel_bind fun _ => newLabel_bind fun _ => newTemp_bind fun _ =>
      bind (hc _) fun _ => bind (emit_silent rfl) fun _ => bind (emit_silent rfl) fun _ =>
        bind (ht _) fun _ => bind (writesIn_result rfl) fun _ => bind (emit_silent rfl) fun _ =>
          bind (emit_silent rfl) fun _ => bind (he _) fun _ => bind (writesIn_result rfl) fun _ =>
            bind (emit_silent rfl) fun _ => pure _

end WritesFresh

end TinyC
