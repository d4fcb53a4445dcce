import TinyC.GenRules
import TinyC.Scans

/-!
# Labels placed and labels jumped to

A generator accounts for the labels of its code: those taken before it that it places, how often
it places each, and those it jumps to without placing them. Labels it takes itself it places
once, if it jumps to them at all.
-/

namespace TinyC

def IRInstr.target? (i : IRInstr) : Option ℤ :=
  match i.op with
  | .jmp | .jz | .jnz => some i.labelId
  | _ => none

def jumpsOf (is : List IRInstr) : List ℤ := is.filterMap IRInstr.target?

theorem jumpsOf_append (xs ys : List IRInstr) : jumpsOf (xs ++ ys) = jumpsOf xs ++ jumpsOf ys :=
  List.filterMap_append

/-- The code of `g'` is that of `g` and a block that places each label as often as `own` says, or
more, and jumps to labels of its own and of `out`. -/
def Closes (own out : List ℕ) (g g' : IrGen) : Prop :=
  ∃ block, g'.func.instrs = g.func.instrs ++ block ∧
    (∀ l : ℕ, own.count l ≤ (labelsOf block).count (l : ℤ)) ∧
    ∀ k ∈ jumpsOf block, k ∈ labelsOf block ∨ ∃ l ∈ out, k = (l : ℤ)

namespace Closes

variable {own own' out out' : List ℕ} {g g' g'' : IrGen}

theorem of_instrs_eq (h : g'.func.instrs = g.func.instrs) : Closes [] [] g g' :=
  ⟨[], h.trans (List.append_nil _).symm, by simp, by simp [jumpsOf]⟩

theorem trans (h : Closes own out g g') (h' : Closes own' out' g' g'') :
    Closes (own ++ own') (out ++ out') g g'' := by
  obtain ⟨b, hb, hown, hout⟩ := h
  obtain ⟨b', hb', hown', hout'⟩ := h'
  refine ⟨b ++ b', by rw [hb', hb, List.append_assoc], fun l => ?_, fun k hk => ?_⟩
  · rw [List.count_append, labelsOf_append, List.count_append]
    exact Nat.add_le_add (hown l) (hown' l)
  · rw [labelsOf_append, List.mem_append]
    rw [jumpsOf_append, List.mem_append] at hk
    rcases hk with hk | hk
    · rcases hout k hk with hk | ⟨l, hl, rfl⟩
      · exact .inl (.inl hk)
      · exact .inr ⟨l, List.mem_append_left _ hl, rfl⟩
    · rcases hout' k hk with hk | ⟨l, hl, rfl⟩
      · exact .inl (.inr hk)
      · exact .inr ⟨l, List.mem_append_right _ hl, rfl⟩

/-- A jump to a label that the block places is settled. -/
theorem mono (h : Closes own out g g') (hown : ∀ l, own'.count l ≤ own.count l)
    (hout : ∀ l ∈ out, l ∈ own ∨ l ∈ out') : Closes own' out' g g' := by
  obtain ⟨b, hb, hown₁, hout₁⟩ := h
  refine ⟨b, hb, fun l => (hown l).trans (hown₁ l), fun k hk => ?_⟩
  rcases hout₁ k hk with hk | ⟨l, hl, rfl⟩
  · exact .inl hk
  · rcases hout l hl with hl | hl
    · exact .inl (List.count_pos_iff.mp ((List.count_pos_iff.mpr hl).trans_le (hown₁ l)))
    · exact .inr ⟨l, hl, rfl⟩

/-- Before the block, nothing but the code matters. -/
theorem of_start (hcode : g'.func.instrs = g.func.instrs) (h : Closes own out g' g'') :
    Closes own out g g'' := by
  obtain ⟨b, hb, hrest⟩ := h
  exact ⟨b, hb.trans (congrArg (· ++ b) hcode), hrest⟩

theorem of_end (hcode : g''.func.instrs = g'.func.instrs) (h : Closes own out g g') :
    Closes own out g g'' := by
  obtain ⟨b, hb, hrest⟩ := h
  exact ⟨b, hcode.trans hb, hrest⟩

theorem emitLabel (l : ℕ) (g : IrGen) : Closes [l] [] g (emitLabel l g).2 := by
  refine ⟨[{ op := .label, labelId := l }], rfl, fun k => ?_, by simp [jumpsOf, IRInstr.target?]⟩
  by_cases h : l = k <;> simp [labelsOf, h]

theorem jump {ins : IRInstr} {l : ℕ} (hl : ins.target? = some (l : ℤ)) (g : IrGen) :
    Closes [] [l] g (emit ins g).2 :=
  ⟨[ins], rfl, fun k => Nat.zero_le _, fun k hk => .inr ⟨l, List.mem_singleton_self l, by
    rw [jumpsOf, List.filterMap_cons_some hl] at hk
    exact List.mem_singleton.mp hk⟩⟩

theorem straight {ins : IRInstr} (h : ins.target? = none) (g : IrGen) :
    Closes [] [] g (emit ins g).2 :=
  ⟨[ins], rfl, fun k => Nat.zero_le _, fun k hk => by
    rw [jumpsOf, List.filterMap_cons_none h] at hk
    cases hk⟩

end Closes

theorem target?_of_straight {ins : IRInstr} (h : ins.op.straight) : ins.target? = none := by
  unfold IRInstr.target?
  split
  all_goals first | rfl | (rename_i hop; rw [hop] at h; cases h)

/-- A generator that closes what it opens. -/
def Closing {α : Type} (own out : List ℕ) (m : Gen α) : Prop := ∀ g, Closes own out g (m g).2

namespace Closing

variable {α β : Type} {own own' out out' : List ℕ}

theorem pure (a : α) : Closing [] [] (Pure.pure a : Gen α) := fun _ => .of_instrs_eq rfl

theorem bind {m : Gen α} {k : α → Gen β} (hm : Closing own out m)
    (hk : ∀ a, Closing own' out' (k a)) : Closing (own ++ own') (out ++ out') (m >>= k) :=
  fun g => (hm g).trans (hk (m g).1 (m g).2)

theorem mono {m : Gen α} (h : Closing own out m) (hown : ∀ l, own'.count l ≤ own.count l)
    (hout : ∀ l ∈ out, l ∈ own ∨ l ∈ out') : Closing own' out' m :=
  fun g => (h g).mono hown hout

theorem newTemp_bind {k : ℕ → Gen β} (hk : ∀ t, Closing own out (k t)) :
    Closing own out (newTemp >>= k) := fun g => (hk _ (newTemp g).2).of_start rfl

theorem newLabel_bind {k : ℕ → Gen β} (hk : ∀ l, Closing own out (k l)) :
    Closing own out (newLabel >>= k) := fun g => (hk _ (newLabel g).2).of_start rfl

theorem emitLabel (l : ℕ) : Closing [l] [] (emitLabel l) := Closes.emitLabel l

theorem emitJmp (l : ℕ) : Closing [] [l] (emitJmp l) := Closes.jump rfl

theorem emitJz (v : IRValue) (l : ℕ) : Closing [] [l] (emitJz v l) := Closes.jump rfl

theorem emitJnz (v : IRValue) (l : ℕ) : Closing [] [l] (emitJnz v l) := Closes.jump rfl

theorem emit {ins : IRInstr} (h : ins.op.straight) : Closing [] [] (emit ins) :=
  Closes.straight (target?_of_straight h)

theorem genShortCircuit (isAnd : Bool) {left right : Gen IRValue} (hl : Closing [] [] left)
    (hr : Closing [] [] right) : Closing [] [] (genShortCircuit isAnd left right) := by
  refine newTemp_bind fun t => newLabel_bind fun e => newLabel_bind fun f =>
    newLabel_bind fun l => ?_
  have htail : Closing [l, e] [e]
      (TinyC.emit { op := .copy, dst := irvTemp t typeInt, src1 := irvInt 0 typeInt } >>= fun _ =>
        TinyC.emitJmp e >>= fun _ => TinyC.emitLabel l >>= fun _ =>
          TinyC.emit { op := .copy, dst := irvTemp t typeInt, src1 := irvInt 1 typeInt } >>= fun _ =>
            TinyC.emitLabel e >>= fun _ => (Pure.pure (irvTemp t typeInt) : Gen IRValue)) :=
    bind (emit rfl) fun _ => bind (emitJmp e) fun _ => bind (emitLabel l) fun _ =>
      bind (emit rfl) fun _ => bind (emitLabel e) fun _ => pure _
  cases isAnd with
  | true =>
    have h := bind hl fun lv => bind (bind (emitJz lv f) fun _ => bind hr fun rv =>
      bind (emitJnz rv l) fun _ => bind (emitJmp f) fun _ => emitLabel f) fun _ => htail
    exact h.mono (by simp) (by simp)
  | false =>
    have h := bind hl fun lv => bind (bind (emitJnz lv l) fun _ => bind hr fun rv =>
      emitJnz rv l) fun _ => htail
    exact h.mono (by simp) (by simp)

theorem genTernary (ty : Option CType) {cond thenExpr elseExpr : Gen IRValue}
    (hc : Closing [] [] cond) (ht : Closing [] [] thenExpr) (he : Closing [] [] elseExpr) :
    Closing [] [] (genTernary ty cond thenExpr elseExpr) := by
  have hcopy : ∀ r v, Closing [] []
      (TinyC.emit { op := .copy, dst := irvTemp r (ty.getD typeInt), src1 := v }) :=
    fun _ _ => emit rfl
  refine newLabel_bind fun t => newLabel_bind fun e => newLabel_bind fun l =>
    newTemp_bind fun r => ?_
  have h := bind hc fun c => bind (emitJz c e) fun _ => bind (emitLabel t) fun _ =>
    bind ht fun tv => bind (hcopy r tv) fun _ => bind (emitJmp l) fun _ => bind (emitLabel e)
      fun _ => bind he fun ev => bind (hcopy r ev) fun _ => bind (emitLabel l) fun _ =>
        pure (irvTemp r (ty.getD typeInt))
  exact h.mono (by simp) (by simp)

theorem addStringConst (data : String) : Closing [] [] (addStringConst data) := by
  intro g
  refine .of_instrs_eq ?_
  rw [TinyC.addStringConst, Gen.run_get_bind]
  dsimp only
  cases (g.module.strConsts.find? fun s => s.data == data) <;> rfl

/-- Expressions jump within their own code only. -/
theorem rules : GenRules fun _ => Closing [] [] where
  pure := pure
  bind := bind
  newTemp_bind := newTemp_bind
  emit := fun h _ => emit h
  vscopeLookup _ := fun _ => .of_instrs_eq rfl
  addStringConst := addStringConst
  genShortCircuit := fun isAnd _ _ hl hr => genShortCircuit isAnd (hl ∅) (hr ∅)
  genTernary := fun ty _ _ _ hc ht he => genTernary ty (hc ∅) (ht ∅) (he ∅)

theorem emitTo {ty : CType} {op : IROp} {a b : IRValue} (h : op.straight) :
    Closing [] [] (emitTo ty op a b) := newTemp_bind fun _ => bind (emit h) fun _ => pure _

theorem genAlloca (Γ : TypeEnv) (ty : CType) : Closing [] [] (genAlloca Γ ty) :=
  newTemp_bind fun _ => bind (emit rfl) fun _ => pure _

end Closing

end TinyC
