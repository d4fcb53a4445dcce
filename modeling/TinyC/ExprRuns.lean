import TinyC.ControlFlow
import TinyC.GenRules
import TinyC.Lib.RegionRuns

/-!
# Runs of the code of an expression

The code of an expression or an initializer has one entry and one end. Every run comes from the
one to the other, on every machine, and writes no temp that was taken before.
-/

namespace TinyC

open RegionRuns

/-- A machine that knows whether something undefined has been done. As long as nothing has, its
instructions write no temp but their own. -/
structure LiveMachine (W V : Type) extends IrMachine W V where
  live : W → Prop
  still : ∀ {i w τ}, live (effect i w τ).1 → live w
  frame : ∀ {i : IRInstr} {w τ own}, i.WritesIn own → live (effect i w τ).1 → ∀ t ∉ own,
    (effect i w τ).2 t = τ t

section

variable {W V : Type} (M : LiveMachine W V) (F : List IRInstr)

/-- A run of the code `F` through the region from `lo` to `hi`. If nothing undefined is done in it,
it writes no temp below `n` but those of `own`. -/
structure Traverses (lo hi : ℕ) (own : Set ℕ) (n : ℕ) (s s' : IrState W V) : Prop where
  run : Crosses (M.step F) IrState.pc lo hi s s'
  still : M.live s'.world → M.live s.world
  frame : M.live s'.world → ∀ t ∉ own, t < n → s'.temps t = s.temps t

/-- The code from `g` on is run to its end from every state. -/
structure RunsThrough (own : Set ℕ) (g g' : IrGen) : Prop where
  code : g.func.instrs <+: g'.func.instrs
  temps : g.func.nextTemp ≤ g'.func.nextTemp
  run : ∀ F, (labelsOf F).Nodup → g'.func.instrs <+: F → ∀ s : IrState W V, s.pc = g.pos →
    ∃ s', Traverses M F g.pos g'.pos own g.func.nextTemp s s'

end

theorem writeTemp_of_ne {V : Type} {τ : ℕ → V} {dst : IRValue} {t : ℕ} (h : dst.kind ≠ .temp t)
    (v : V) : IrMachine.writeTemp τ dst v t = τ t := by
  obtain ⟨kind, ty⟩ := dst
  cases kind with
  | temp u => exact Function.update_of_ne (fun htu => h (congrArg IRVKind.temp htu.symm)) _ _
  | _ => rfl

/-- An instruction that does not jump has one successor. -/
theorem LiveMachine.step_straight {W V : Type} (M : LiveMachine W V) {F : List IRInstr}
    {s : IrState W V} {i : IRInstr} (hi : F[s.pc]? = some i) (hop : i.op.straight) {own : Set ℕ}
    (hwrites : i.WritesIn own) :
    ∃ s', M.step F s = some s' ∧ s'.pc = s.pc + 1 ∧ (M.live s'.world → M.live s.world) ∧
      (M.live s'.world → ∀ t ∉ own, s'.temps t = s.temps t) := by
  have hperform : ∃ s', some (M.perform s i) = some s' ∧ s'.pc = s.pc + 1 ∧
      (M.live s'.world → M.live s.world) ∧
      (M.live s'.world → ∀ t ∉ own, s'.temps t = s.temps t) :=
    ⟨_, rfl, rfl, M.still, M.frame hwrites⟩
  unfold IrMachine.step
  rw [hi]
  dsimp only
  split
  case h_2 => exact ⟨_, rfl, rfl, id, fun _ _ _ => rfl⟩
  case h_7 hcopy =>
    split
    · exact hperform
    · refine ⟨_, rfl, rfl, id, fun _ t ht => writeTemp_of_ne (fun hdst => ht ?_) _⟩
      exact (hwrites.resolve_left fun h => h.2 hcopy) t hdst
  case h_8 => exact hperform
  all_goals
    rename_i hjump
    rw [hjump] at hop
    cases hop

/-- The instructions whose meaning is left to the machine. -/
def IROp.performs (op : IROp) : Bool := op.straight && op ≠ .nop && op ≠ .copy

theorem step_of_performs {W V : Type} {M : IrMachine W V} {F : List IRInstr} {s : IrState W V}
    {ins : IRInstr} (hi : F[s.pc]? = some ins) (hop : ins.op.performs) :
    M.step F s = some (M.perform s ins) := by
  unfold IrMachine.step
  rw [hi]
  dsimp only
  split
  case h_8 => rfl
  all_goals
    rename_i hother
    rw [hother] at hop
    cases hop

namespace Traverses

variable {W V : Type} {M : LiveMachine W V} {F : List IRInstr} {lo hi a b n n' : ℕ}
  {own : Set ℕ} {s s' s'' : IrState W V}

theorem done (h : s.pc = hi) : Traverses M F lo hi own n s s :=
  ⟨.done h, id, fun _ _ _ _ => rfl⟩

/-- One region after another, both within a larger one. -/
theorem append (h : Traverses M F a b own n' s s') (hlo : lo ≤ a) (hhi : b ≤ hi) (hn : n ≤ n')
    (h' : Traverses M F lo hi own n s' s'') : Traverses M F lo hi own n s s'' where
  run := h.run.append hlo hhi h'.run
  still hlive := h.still (h'.still hlive)
  frame hlive t ht htn := (h'.frame hlive t ht htn).trans
    (h.frame (h'.still hlive) t ht (htn.trans_le hn))

/-- A step stands before. -/
theorem head (h : Traverses M F lo hi own n s' s'') (hlo : lo ≤ s.pc) (hhi : s.pc < hi)
    (hstep : M.step F s = some s') (hstill : M.live s'.world → M.live s.world)
    (htemps : M.live s'.world → ∀ t ∉ own, t < n → s'.temps t = s.temps t) :
    Traverses M F lo hi own n s s'' where
  run := .head hlo hhi hstep h.run
  still hlive := hstill (h.still hlive)
  frame hlive t ht htn := (h.frame hlive t ht htn).trans (htemps (h.still hlive) t ht htn)

end Traverses

theorem pos_emit (ins : IRInstr) (g : IrGen) : (emit ins g).2.pos = g.pos + 1 :=
  List.length_append

theorem emit_prefix (ins : IRInstr) (g : IrGen) :
    g.func.instrs <+: (emit ins g).2.func.instrs := List.prefix_append _ _

theorem instr_at {F : List IRInstr} {ins : IRInstr} {g : IrGen}
    (h : (emit ins g).2.func.instrs <+: F) : F[g.pos]? = some ins :=
  getElem?_of_append_singleton_prefix h

/-- In code that places no label twice, a label is found where it is placed. -/
theorem label_at {F : List IRInstr} (hnodup : (labelsOf F).Nodup) {l : ℕ} {g : IrGen}
    (h : (emitLabel l g).2.func.instrs <+: F) : labelIndex F l = some g.pos :=
  labelIndex_of_nodup hnodup h

namespace RunsThrough

variable {W V : Type} {M : LiveMachine W V} {own : Set ℕ} {g g' g'' : IrGen}

/-- Nothing is emitted. -/
theorem of_instrs_eq (h : g'.func.instrs = g.func.instrs)
    (htemps : g.func.nextTemp ≤ g'.func.nextTemp) : RunsThrough M own g g' where
  code := h ▸ List.prefix_rfl
  temps := htemps
  run _ _ _ s hs := ⟨s, .done (hs.trans (congrArg List.length h.symm))⟩

theorem pos_le (h : RunsThrough M own g g') : g.pos ≤ g'.pos := h.code.length_le

theorem trans (h : RunsThrough M own g g') (h' : RunsThrough M own g' g'') :
    RunsThrough M own g g'' where
  code := h.code.trans h'.code
  temps := h.temps.trans h'.temps
  run F hnodup hF s hs := by
    obtain ⟨s₁, h₁⟩ := h.run F hnodup (h'.code.trans hF) s hs
    obtain ⟨s₂, h₂⟩ := h'.run F hnodup hF s₁ h₁.run.pos_eq
    have hlast : Traverses M F g.pos g''.pos own g.func.nextTemp s₁ s₂ :=
      h₂.append h.pos_le le_rfl h.temps (.done h₂.run.pos_eq)
    exact ⟨s₂, h₁.append le_rfl h'.pos_le le_rfl hlast⟩

theorem newTemp (h : RunsThrough M (insert g.func.nextTemp own) (newTemp g).2 g') :
    RunsThrough M own g g' where
  code := h.code
  temps := (Nat.le_succ _).trans h.temps
  run F hnodup hF s hs := by
    obtain ⟨s', h'⟩ := h.run F hnodup hF s hs
    refine ⟨s', h'.run, h'.still, fun hlive t ht htn => h'.frame hlive t ?_ (Nat.lt_succ_of_lt htn)⟩
    exact fun hmem => (Set.mem_insert_iff.mp hmem).elim htn.ne ht

theorem emit {ins : IRInstr} (hop : ins.op.straight) (hwrites : ins.WritesIn own) :
    RunsThrough M own g (emit ins g).2 where
  code := List.prefix_append _ _
  temps := le_rfl
  run F _ hF s hs := by
    have hpos : (TinyC.emit ins g).2.pos = g.pos + 1 := List.length_append
    have hi := getElem?_of_append_singleton_prefix hF
    change F[g.pos]? = some ins at hi
    rw [← hs] at hi
    obtain ⟨s', hstep, hpc, hstill, htemps⟩ := M.step_straight hi hop hwrites
    exact ⟨s', (Traverses.done (by omega)).head hs.ge (by omega) hstep hstill
      fun hlive t ht _ => htemps hlive t ht⟩

end RunsThrough

/-! ### From a position to the end -/

/-- Every run from the position `p` comes to the end of the region. -/
def EndsFrom {W V : Type} (M : LiveMachine W V) (F : List IRInstr) (lo hi : ℕ) (own : Set ℕ)
    (n p : ℕ) : Prop :=
  ∀ s : IrState W V, s.pc = p → ∃ s', Traverses M F lo hi own n s s'

namespace EndsFrom

variable {W V : Type} {M : LiveMachine W V} {F : List IRInstr} {lo hi n p : ℕ} {own : Set ℕ}
  {g g' : IrGen} {l : ℕ} {v : IRValue}

theorem done : EndsFrom M F lo hi own n hi := fun s hs => ⟨s, .done hs⟩

theorem code (hm : RunsThrough M own g g') (hnodup : (labelsOf F).Nodup)
    (hF : g'.func.instrs <+: F) (hlo : lo ≤ g.pos) (hhi : g'.pos ≤ hi) (hn : n ≤ g.func.nextTemp)
    (h : EndsFrom M F lo hi own n g'.pos) : EndsFrom M F lo hi own n g.pos := by
  intro s hs
  obtain ⟨s₁, h₁⟩ := hm.run F hnodup hF s hs
  obtain ⟨s', h'⟩ := h s₁ h₁.run.pos_eq
  exact ⟨s', h₁.append hlo hhi hn h'⟩

/-- An instruction that does not jump and writes no temp below `n` but those of `own`. -/
theorem straight {ins : IRInstr} (hop : ins.op.straight) (hwrites : ins.WritesIn (own ∪ Set.Ici n))
    (hF : (emit ins g).2.func.instrs <+: F) (hlo : lo ≤ g.pos) (hhi : g.pos < hi)
    (h : EndsFrom M F lo hi own n (emit ins g).2.pos) : EndsFrom M F lo hi own n g.pos := by
  intro s hs
  obtain ⟨s₁, hstep, hpc, hstill, htemps⟩ :=
    M.step_straight (hs ▸ instr_at hF) hop hwrites
  obtain ⟨s', h'⟩ := h s₁ (by rw [pos_emit]; omega)
  refine ⟨s', h'.head (by omega) (by omega) hstep hstill fun hlive t ht htn => htemps hlive t ?_⟩
  exact fun hmem => hmem.elim ht fun hge => (Set.mem_Ici.mp hge).not_gt htn

theorem label (hF : (emitLabel l g).2.func.instrs <+: F) (hlo : lo ≤ g.pos) (hhi : g.pos < hi)
    (h : EndsFrom M F lo hi own n (emitLabel l g).2.pos) : EndsFrom M F lo hi own n g.pos := by
  intro s hs
  have hi' : F[s.pc]? = some { op := .label, labelId := l } := hs ▸ instr_at hF
  obtain ⟨s', h'⟩ := h { s with pc := s.pc + 1 } (by rw [hs]; exact (pos_emit _ _).symm)
  refine ⟨s', h'.head (by omega) (by omega) ?_ id fun _ _ _ _ => rfl⟩
  simp only [IrMachine.step, hi']
  rfl

theorem jmp (hF : (emitJmp l g).2.func.instrs <+: F) (hl : labelIndex F l = some p)
    (hlo : lo ≤ g.pos) (hhi : g.pos < hi) (h : EndsFrom M F lo hi own n p) :
    EndsFrom M F lo hi own n g.pos := by
  intro s hs
  have hi' : F[s.pc]? = some { op := .jmp, labelId := l } := hs ▸ instr_at hF
  obtain ⟨s', h'⟩ := h { s with pc := p } rfl
  refine ⟨s', h'.head (by omega) (by omega) ?_ id fun _ _ _ _ => rfl⟩
  simp [IrMachine.step, hi', IrMachine.jump, hl]

/-- A conditional jump goes on with the next instruction or with the label. -/
theorem branch {ins : IRInstr} (hop : ins.op = .jz ∨ ins.op = .jnz)
    (hF : (emit ins g).2.func.instrs <+: F) (hl : labelIndex F ins.labelId = some p)
    (hlo : lo ≤ g.pos) (hhi : g.pos < hi) (h : EndsFrom M F lo hi own n (emit ins g).2.pos)
    (h' : EndsFrom M F lo hi own n p) : EndsFrom M F lo hi own n g.pos := by
  intro s hs
  have hi' : F[s.pc]? = some ins := hs ▸ instr_at hF
  have hnext : ∃ s', Traverses M F lo hi own n { s with pc := s.pc + 1 } s' :=
    h _ (by rw [hs]; exact (pos_emit _ _).symm)
  have hjump : ∃ s', Traverses M F lo hi own n { s with pc := p } s' := h' _ rfl
  have hstep : M.step F s = some { s with pc := s.pc + 1 } ∨
      M.step F s = some { s with pc := p } := by
    rcases hop with hop | hop <;> simp only [IrMachine.step, hi', hop, IrMachine.jump, hl] <;> split
    · exact .inl rfl
    · exact .inr rfl
    · exact .inr rfl
    · exact .inl rfl
  rcases hstep with hstep | hstep
  · obtain ⟨s', hs'⟩ := hnext
    exact ⟨s', hs'.head (by omega) (by omega) hstep id fun _ _ _ _ => rfl⟩
  · obtain ⟨s', hs'⟩ := hjump
    exact ⟨s', hs'.head (by omega) (by omega) hstep id fun _ _ _ _ => rfl⟩

end EndsFrom

/-- The code that `m` emits is run to its end. -/
def Completes {W V : Type} (M : LiveMachine W V) (own : Set ℕ) {α : Type} (m : Gen α) : Prop :=
  ∀ g, RunsThrough M own g (m g).2

namespace Completes

variable {W V : Type} {M : LiveMachine W V} {own : Set ℕ}

theorem genTernary (ty : Option CType) {cond thenExpr elseExpr : Gen IRValue}
    (hc : Completes M own cond) (ht : Completes M own thenExpr) (he : Completes M own elseExpr) :
    Completes M own (genTernary ty cond thenExpr elseExpr) := by
  intro g
  let n := g.func.nextLabel
  let res := irvTemp g.func.nextTemp (ty.getD typeInt)
  let g₁ : IrGen := (newTemp (newLabel (newLabel (newLabel g).2).2).2).2
  let c := cond g₁
  let gz := (emitJz c.1 (n + 1) c.2).2
  let gt := (emitLabel n gz).2
  let tv := thenExpr gt
  let gc := (emit { op := .copy, dst := res, src1 := tv.1 } tv.2).2
  let gj := (emitJmp (n + 2) gc).2
  let ge := (emitLabel (n + 1) gj).2
  let ev := elseExpr ge
  let gd := (emit { op := .copy, dst := res, src1 := ev.1 } ev.2).2
  let gend := (emitLabel (n + 2) gd).2
  have hcond : RunsThrough M own g₁ c.2 := hc g₁
  have hthen : RunsThrough M own gt tv.2 := ht gt
  have helse : RunsThrough M own ge ev.2 := he ge
  have htemps : g.func.nextTemp ≤ g₁.func.nextTemp := Nat.le_succ _
  have hz : c.2.func.instrs <+: gz.func.instrs := emit_prefix _ _
  have hlt : gz.func.instrs <+: gt.func.instrs := emit_prefix _ _
  have hcp : tv.2.func.instrs <+: gc.func.instrs := emit_prefix _ _
  have hj : gc.func.instrs <+: gj.func.instrs := emit_prefix _ _
  have hle : gj.func.instrs <+: ge.func.instrs := emit_prefix _ _
  have hd : ev.2.func.instrs <+: gd.func.instrs := emit_prefix _ _
  have hend : gd.func.instrs <+: gend.func.instrs := emit_prefix _ _
  refine ⟨?_, ?_, fun F hnodup hF s hs => ?_⟩
  · exact hcond.code.trans <| hz.trans <| hlt.trans <| hthen.code.trans <| hcp.trans <| hj.trans <|
      hle.trans <| helse.code.trans <| hd.trans hend
  · exact htemps.trans <| hcond.temps.trans <| hthen.temps.trans helse.temps
  have hgd := hend.trans hF
  have hev := hd.trans hgd
  have hge := helse.code.trans hev
  have hgj := hle.trans hge
  have hgc := hj.trans hgj
  have htv := hcp.trans hgc
  have hgt := hthen.code.trans htv
  have hgz := hlt.trans hgt
  have hcF := hz.trans hgz
  have hpos : g.pos ≤ c.2.pos := hcond.pos_le
  have hzpos : gz.pos = c.2.pos + 1 := pos_emit _ _
  have htpos : gt.pos = gz.pos + 1 := pos_emit _ _
  have hpos' : gt.pos ≤ tv.2.pos := hthen.pos_le
  have hcpos : gc.pos = tv.2.pos + 1 := pos_emit _ _
  have hjpos : gj.pos = gc.pos + 1 := pos_emit _ _
  have hepos : ge.pos = gj.pos + 1 := pos_emit _ _
  have hpos'' : ge.pos ≤ ev.2.pos := helse.pos_le
  have hdpos : gd.pos = ev.2.pos + 1 := pos_emit _ _
  have hendpos : gend.pos = gd.pos + 1 := pos_emit _ _
  have hwrites : ∀ v, IRInstr.WritesIn { op := .copy, dst := res, src1 := v }
      (own ∪ Set.Ici g.func.nextTemp) := fun v => .inr fun t ht => .inr <| by
    cases ht
    exact Set.self_mem_Ici
  have hnt : g.func.nextTemp ≤ gt.func.nextTemp := htemps.trans hcond.temps
  have hne : g.func.nextTemp ≤ ge.func.nextTemp := hnt.trans hthen.temps
  have atEnd : EndsFrom M F g.pos gend.pos own g.func.nextTemp gd.pos :=
    .label hF (by omega) (by omega) .done
  have inElse : EndsFrom M F g.pos gend.pos own g.func.nextTemp ge.pos :=
    .code helse hnodup hev (by omega) (by omega) hne <|
      .straight rfl (hwrites _) hgd (by omega) (by omega) atEnd
  have atElse : EndsFrom M F g.pos gend.pos own g.func.nextTemp gj.pos :=
    .label hge (by omega) (by omega) inElse
  have atJmp : EndsFrom M F g.pos gend.pos own g.func.nextTemp gc.pos :=
    .jmp hgj (label_at hnodup hF) (by omega) (by omega) atEnd
  have inThen : EndsFrom M F g.pos gend.pos own g.func.nextTemp gt.pos :=
    .code hthen hnodup htv (by omega) (by omega) hnt <|
      .straight rfl (hwrites _) hgc (by omega) (by omega) atJmp
  have atThen : EndsFrom M F g.pos gend.pos own g.func.nextTemp gz.pos :=
    .label hgt (by omega) (by omega) inThen
  have atStart : EndsFrom M F g.pos gend.pos own g.func.nextTemp g₁.pos :=
    .code hcond hnodup hcF le_rfl (by omega) htemps <|
      .branch (.inl rfl) hgz (label_at hnodup hge) (by omega) (by omega) atThen atElse
  exact atStart s hs

/-- The tests of `&&` and `||` go on after themselves or with the label for true. -/
theorem genShortCircuitTest (isAnd : Bool) (lv : IRValue) {right : Gen IRValue}
    (hr : Completes M own right) (f l : ℕ) (g : IrGen) :
    let g' := (genShortCircuitTest isAnd lv right f l g).2
    g.func.instrs <+: g'.func.instrs ∧ g.func.nextTemp ≤ g'.func.nextTemp ∧
      ∀ {F : List IRInstr} {lo hi p : ℕ}, (labelsOf F).Nodup → g'.func.instrs <+: F →
        labelIndex F l = some p → lo ≤ g.pos → g'.pos ≤ hi →
        ∀ n ≤ g.func.nextTemp, EndsFrom M F lo hi own n g'.pos → EndsFrom M F lo hi own n p →
          EndsFrom M F lo hi own n g.pos := by
  cases isAnd with
  | true =>
    let gz := (emitJz lv f g).2
    let rv := right gz
    let gnz := (emitJnz rv.1 l rv.2).2
    let gf := (emitJmp f gnz).2
    let g' := (emitLabel f gf).2
    have hright : RunsThrough M own gz rv.2 := hr gz
    have hz : g.func.instrs <+: gz.func.instrs := emit_prefix _ _
    have hnz : rv.2.func.instrs <+: gnz.func.instrs := emit_prefix _ _
    have hf : gnz.func.instrs <+: gf.func.instrs := emit_prefix _ _
    have hl : gf.func.instrs <+: g'.func.instrs := emit_prefix _ _
    have hzpos : gz.pos = g.pos + 1 := pos_emit _ _
    have hpos : gz.pos ≤ rv.2.pos := hright.pos_le
    have hnzpos : gnz.pos = rv.2.pos + 1 := pos_emit _ _
    have hfpos : gf.pos = gnz.pos + 1 := pos_emit _ _
    have hlpos : g'.pos = gf.pos + 1 := pos_emit _ _
    refine ⟨?_, hright.temps, fun {F lo hi p} hnodup hF htrue hlo hhi n hn hnext hlabel => ?_⟩
    · exact hz.trans <| hright.code.trans <| hnz.trans <| hf.trans hl
    change g'.func.instrs <+: F at hF
    change g'.pos ≤ hi at hhi
    have hgf := hl.trans hF
    have hgnz := hf.trans hgf
    have hrv := hnz.trans hgnz
    have atFalse : EndsFrom M F lo hi own n gf.pos := .label hF (by omega) (by omega) hnext
    have atJmp : EndsFrom M F lo hi own n gnz.pos :=
      .jmp hgf (label_at hnodup hF) (by omega) (by omega) atFalse
    have atRight : EndsFrom M F lo hi own n gz.pos :=
      .code hright hnodup hrv (by omega) (by omega) hn <|
        .branch (.inr rfl) hgnz htrue (by omega) (by omega) atJmp hlabel
    exact .branch (.inl rfl) (hright.code.trans hrv) (label_at hnodup hF) hlo (by omega) atRight
      atFalse
  | false =>
    let gz := (emitJnz lv l g).2
    let rv := right gz
    let g' := (emitJnz rv.1 l rv.2).2
    have hright : RunsThrough M own gz rv.2 := hr gz
    have hz : g.func.instrs <+: gz.func.instrs := emit_prefix _ _
    have hnz : rv.2.func.instrs <+: g'.func.instrs := emit_prefix _ _
    have hzpos : gz.pos = g.pos + 1 := pos_emit _ _
    have hpos : gz.pos ≤ rv.2.pos := hright.pos_le
    have hnzpos : g'.pos = rv.2.pos + 1 := pos_emit _ _
    refine ⟨?_, hright.temps, fun {F lo hi p} hnodup hF htrue hlo hhi n hn hnext hlabel => ?_⟩
    · exact hz.trans <| hright.code.trans hnz
    change g'.func.instrs <+: F at hF
    change g'.pos ≤ hi at hhi
    have hrv := hnz.trans hF
    have atRight : EndsFrom M F lo hi own n gz.pos :=
      .code hright hnodup hrv (by omega) (by omega) hn <|
        .branch (.inr rfl) hF htrue (by omega) (by omega) hnext hlabel
    exact .branch (.inr rfl) (hright.code.trans hrv) htrue hlo (by omega) atRight hlabel

theorem genShortCircuit (isAnd : Bool) {left right : Gen IRValue} (hl : Completes M own left)
    (hr : Completes M own right) : Completes M own (genShortCircuit isAnd left right) := by
  intro g
  let e := g.func.nextLabel
  let res := irvTemp g.func.nextTemp typeInt
  let g₁ : IrGen := (newLabel (newLabel (newLabel (newTemp g).2).2).2).2
  let lv := left g₁
  let test := (TinyC.genShortCircuitTest isAnd lv.1 right (e + 1) (e + 2) lv.2).2
  let g0 := (emit { op := .copy, dst := res, src1 := irvInt 0 typeInt } test).2
  let gj := (emitJmp e g0).2
  let gl := (emitLabel (e + 2) gj).2
  let gone := (emit { op := .copy, dst := res, src1 := irvInt 1 typeInt } gl).2
  let gend := (emitLabel e gone).2
  have hleft : RunsThrough M own g₁ lv.2 := hl g₁
  obtain ⟨htest, htestTemps, htestRun⟩ := genShortCircuitTest isAnd lv.1 hr (e + 1) (e + 2) lv.2
  have htemps : g.func.nextTemp ≤ g₁.func.nextTemp := Nat.le_succ _
  have h0 : test.func.instrs <+: g0.func.instrs := emit_prefix _ _
  have hj : g0.func.instrs <+: gj.func.instrs := emit_prefix _ _
  have hlb : gj.func.instrs <+: gl.func.instrs := emit_prefix _ _
  have hone : gl.func.instrs <+: gone.func.instrs := emit_prefix _ _
  have hend : gone.func.instrs <+: gend.func.instrs := emit_prefix _ _
  refine ⟨?_, htemps.trans <| hleft.temps.trans htestTemps, fun F hnodup hF s hs => ?_⟩
  · exact hleft.code.trans <| htest.trans <| h0.trans <| hj.trans <| hlb.trans <| hone.trans hend
  have hgone := hend.trans hF
  have hgl := hone.trans hgone
  have hgj := hlb.trans hgl
  have hg0 := hj.trans hgj
  have hgt := h0.trans hg0
  have hpos : g.pos ≤ lv.2.pos := hleft.pos_le
  have htpos : lv.2.pos ≤ test.pos := htest.length_le
  have h0pos : g0.pos = test.pos + 1 := pos_emit _ _
  have hjpos : gj.pos = g0.pos + 1 := pos_emit _ _
  have hlpos : gl.pos = gj.pos + 1 := pos_emit _ _
  have honepos : gone.pos = gl.pos + 1 := pos_emit _ _
  have hendpos : gend.pos = gone.pos + 1 := pos_emit _ _
  have hwrites : ∀ v, IRInstr.WritesIn { op := .copy, dst := res, src1 := v }
      (own ∪ Set.Ici g.func.nextTemp) := fun v => .inr fun t ht => .inr <| by
    cases ht
    exact Set.self_mem_Ici
  have atEnd : EndsFrom M F g.pos gend.pos own g.func.nextTemp gone.pos :=
    .label hF (by omega) (by omega) .done
  have atOne : EndsFrom M F g.pos gend.pos own g.func.nextTemp gl.pos :=
    .straight rfl (hwrites _) hgone (by omega) (by omega) atEnd
  have atTrue : EndsFrom M F g.pos gend.pos own g.func.nextTemp gj.pos :=
    .label hgl (by omega) (by omega) atOne
  have atJmp : EndsFrom M F g.pos gend.pos own g.func.nextTemp g0.pos :=
    .jmp hgj (label_at hnodup hF) (by omega) (by omega) atEnd
  have atZero : EndsFrom M F g.pos gend.pos own g.func.nextTemp test.pos :=
    .straight rfl (hwrites _) hg0 (by omega) (by omega) atJmp
  have atTests : EndsFrom M F g.pos gend.pos own g.func.nextTemp lv.2.pos :=
    htestRun hnodup hgt (label_at hnodup hgl) hpos (show test.pos ≤ gend.pos by omega) _
      (htemps.trans hleft.temps) atZero atTrue
  have atStart : EndsFrom M F g.pos gend.pos own g.func.nextTemp g₁.pos :=
    .code hleft hnodup (htest.trans hgt) le_rfl (by omega) htemps atTests
  exact atStart s hs

/-- So is the code of every expression and initializer. -/
theorem rules : GenRules (Completes M) where
  pure _ := fun _ => .of_instrs_eq rfl le_rfl
  bind hm hk := fun g => (hm g).trans (hk _ _)
  newTemp_bind hk := fun _ => (hk _ _).newTemp
  emit hop hwrites := fun _ => .emit hop hwrites
  vscopeLookup _ := fun _ => .of_instrs_eq rfl le_rfl
  addStringConst data g := .of_instrs_eq (congrArg IRFunc.instrs (addStringConst_func data g))
    (congrArg IRFunc.nextTemp (addStringConst_func data g)).ge
  genShortCircuit isAnd _ _ hl hr := genShortCircuit isAnd (hl _) (hr _)
  genTernary ty _ _ _ hc ht he := genTernary ty (hc _) (ht _) (he _)

end Completes

/-! ### Where the code of a generator ends -/

section

variable {W V : Type} (M : LiveMachine W V) (F : List IRInstr)

/-- The state after the code that `m` emits in `g`, run from `s`. -/
noncomputable def after {α : Type} (m : Gen α) (g : IrGen) (s : IrState W V) : IrState W V :=
  landing (M.step F) IrState.pc g.pos (m g).2.pos s

/-- The value of the operand that `m` gives, after its code. -/
noncomputable def valueAfter (m : Gen IRValue) (g : IrGen) (s : IrState W V) : V :=
  M.operand (after M F m g s).temps (m g).1

/-- The code that `m` emits in `g` stands in `F`, and `s` stands before it. -/
structure Stands {α : Type} (m : Gen α) (g : IrGen) (s : IrState W V) : Prop where
  nodup : (labelsOf F).Nodup
  code : (m g).2.func.instrs <+: F
  pc : s.pc = g.pos

variable {M F} {α β : Type} {m : Gen α} {k : α → Gen β} {g : IrGen} {s : IrState W V}
  {own own' : Set ℕ}

theorem Stands.traverses (h : Stands F m g s) (hm : Completes M own m) :
    Traverses M F g.pos (m g).2.pos own g.func.nextTemp s (after M F m g s) := by
  obtain ⟨s', h'⟩ := (hm g).run F h.nodup h.code s h.pc
  rwa [after, h'.run.landing_eq]

theorem Stands.first (h : Stands F (m >>= k) g s) (hk : Completes M own (k (m g).1)) :
    Stands F m g s := ⟨h.nodup, (hk (m g).2).code.trans h.code, h.pc⟩

theorem Stands.second (h : Stands F (m >>= k) g s) (hm : Completes M own m)
    (hk : Completes M own' (k (m g).1)) : Stands F (k (m g).1) (m g).2 (after M F m g s) :=
  ⟨h.nodup, h.code, ((h.first hk).traverses hm).run.pos_eq⟩

theorem after_bind (h : Stands F (m >>= k) g s) (hm : Completes M own m)
    (hk : Completes M own' (k (m g).1)) :
    after M F (m >>= k) g s = after M F (k (m g).1) (m g).2 (after M F m g s) := by
  have hfirst := (h.first hk).traverses hm
  have hsecond := (h.second hm hk).traverses hk
  exact (hfirst.run.trans hsecond.run (hm g).pos_le (hk (m g).2).pos_le).landing_eq

theorem after_eq_of_pos_eq (h : Stands F m g s) (hpos : (m g).2.pos = g.pos) :
    after M F m g s = s := (RegionRuns.Crosses.done (h.pc.trans hpos.symm)).landing_eq

theorem after_emit {ins : IRInstr} {s' : IrState W V} (h : Stands F (emit ins) g s)
    (hstep : M.step F s = some s') (hpc : s'.pc = s.pc + 1) : after M F (emit ins) g s = s' := by
  have hpos : (emit ins g).2.pos = g.pos + 1 := pos_emit _ _
  have hs := h.pc
  exact (RegionRuns.Crosses.single (by omega) (by omega) hstep (by omega)).landing_eq

end

end TinyC
