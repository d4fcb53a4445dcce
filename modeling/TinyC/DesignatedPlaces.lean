import TinyC.PlacedRuns

/-!
# The code of an lvalue finds the object

The code of an expression computes the addresses of all that its parts designate exactly if names
stand for their objects, members are found, and arrays and functions are used in a form that keeps
their address.
-/

namespace TinyC

open ByteMemory

section

variable {Γ : TypeEnv} {N : Bindings} {W : Type} {A : AddressMachine W} {R : Residence}
  {F : List IRInstr} {g : IrGen} {s : IrState W (BitVec 64)} {v : IRValue}
  {i : Info} {e b x l r : Expr} {field name : String} {ty : CType}

/-! ### Names -/

/-- A name is the address in its slot, or the symbol. -/
theorem PlacedRun.word_ident (h : PlacedRun N A F (genLvalue Γ (.ident i name)) g s) :
    A.word F (genLvalue Γ (.ident i name)) g s =
      (N name).slot.elim (A.layout.sym name) A.layout.place := by
  have hafter : A.after F (genLvalue Γ (.ident i name)) g s = s := by
    refine after_eq_of_pos_eq h.stands ?_
    change (genIdentLvalue name g).2.pos = g.pos
    rw [genIdentLvalue, Gen.run_vscopeLookup_bind]
    cases g.scope.lookup vtabBuckets name <;> rfl
  have hword : A.word F (genLvalue Γ (.ident i name)) g s =
      A.layout.operand s.temps (genIdentLvalue name g).1 := by
    rw [← A.operand_eq]
    exact congrArg (fun s' : IrState W (BitVec 64) => A.operand s'.temps _) hafter
  rw [hword, genIdentLvalue, Gen.run_vscopeLookup_bind]
  cases hslot : (N name).slot with
  | none =>
    have hbinds := (boundAs_of_no_slot hslot).mp (h.binds name)
    cases he : g.scope.lookup vtabBuckets name with
    | none => rfl
    | some e =>
      have hkind := hbinds e he
      change A.layout.operand s.temps e.addr = A.layout.sym name
      rw [ObjectLayout.operand, hkind]
  | some t =>
    obtain ⟨e, he, hkind⟩ := (boundAs_of_slot hslot).mp (h.binds name)
    have hplace := h.reserved name t hslot
    rw [he]
    change A.layout.operand s.temps e.addr = A.layout.place t
    rw [ObjectLayout.operand, hkind]
    exact hplace

/-- A name stands for its object, unless that lies apart from what irgen reserves. -/
theorem placeRight_ident (hready : g.Ready) (hbinds : Binds N g) :
    PlaceRight Γ N (.ident i name) ↔ KeepsPlace Γ N (.place (.ident i name)) := by
  constructor
  · intro h
    obtain ⟨g', F, s, hrun⟩ := exists_placedRun
      (genNode_emits Γ (.ident i name)).lvalue hready hbinds
    have hplace := h Unit _ apartResidence F g' s hrun
    rw [hrun.word_ident] at hplace
    change some ((N name).address apartLayout apartResidence name) = _ at hplace
    have hapart : (1 : BitVec 64) ≠ 0 := by decide
    rw [KeepsPlace]
    cases hN : N name with
    | file => rfl
    | block t life =>
      rw [hN] at hplace
      cases life <;> first | rfl | exact absurd (Option.some.inj hplace) hapart
    | passed t =>
      rw [hN] at hplace
      exact absurd (Option.some.inj hplace) hapart
  · intro h W A R F g s hrun
    change some ((N name).address A.layout R name) = _
    rw [hrun.word_ident]
    rw [KeepsPlace] at h
    cases hN : N name with
    | file => rfl
    | block t life =>
      rw [hN] at h
      cases life <;> first | rfl | cases h
    | passed t =>
      rw [hN] at h
      cases h

/-! ### Sums of addresses -/

/-- Where the code of `m` is run, that of the operands `l` and `r` is, and it computes `f` of their
words. -/
def ComputesWord (Γ : TypeEnv) (N : Bindings) (m : Gen IRValue) (l r : Expr)
    (f : BitVec 64 → BitVec 64 → BitVec 64) : Prop :=
  ∀ (W : Type) (A : AddressMachine W) (F : List IRInstr) (g : IrGen) (s : IrState W (BitVec 64)),
    PlacedRun N A F m g s →
      PlacedRun N A F (genExpr Γ l) g s ∧
      PlacedRun N A F (genExpr Γ r) (genExpr Γ l g).2 (A.after F (genExpr Γ l) g s) ∧
      A.word F m g s = f (A.word F (genExpr Γ l) g s)
        (A.word F (genExpr Γ r) (genExpr Γ l g).2 (A.after F (genExpr Γ l) g s))

theorem computesWord_operands {k : IRValue → IRValue → Gen IRValue}
    {f : BitVec 64 → BitVec 64 → BitVec 64}
    (hk : ∀ {W : Type} (A : AddressMachine W) (lv rv : IRValue),
      Completes A.toLiveMachine ∅ (k lv rv))
    (hword : ∀ {W : Type} {A : AddressMachine W} {F : List IRInstr} {g : IrGen}
      {s : IrState W (BitVec 64)} {lv rv : IRValue}, lv.HasSlot g.func.nextTemp →
        rv.HasSlot g.func.nextTemp → PlacedRun N A F (k lv rv) g s →
          A.word F (k lv rv) g s = f (A.operand s.temps lv) (A.operand s.temps rv)) :
    ComputesWord Γ N (genExpr Γ l >>= fun lv => genExpr Γ r >>= k lv) l r f := by
  intro W A F g s h
  have hops := h.operands (hk A)
  refine ⟨hops.left, hops.right, hops.word.trans ?_⟩
  rw [hword hops.leftSlot hops.rightSlot hops.rest, hops.leftWord]
  rfl

/-- What C means by an address, on each machine and each run. -/
abbrev AddressMeaning : Type 1 := (W : Type) → AddressMachine W → Residence → List IRInstr → IrGen →
  IrState W (BitVec 64) → Option Addr

/-- C means `f` of the words of the operands. -/
def MeansSum (Γ : TypeEnv) (N : Bindings) (d : AddressMeaning) (l r : Expr)
    (f : BitVec 64 → BitVec 64 → BitVec 64) : Prop :=
  ∀ (W : Type) (A : AddressMachine W) (R : Residence) (F : List IRInstr) (g : IrGen)
    (s : IrState W (BitVec 64)), PlacedRun N A F (genExpr Γ l) g s →
      PlacedRun N A F (genExpr Γ r) (genExpr Γ l g).2 (A.after F (genExpr Γ l) g s) →
        d W A R F g s = some (f (A.word F (genExpr Γ l) g s)
          (A.word F (genExpr Γ r) (genExpr Γ l g).2 (A.after F (genExpr Γ l) g s)))

/-- Where C means one sum of the operands' words and the code computes another one, it is right
exactly if the two are the same on all runs. -/
theorem right_iff_wordsMeet {m : Gen IRValue} {d : AddressMeaning}
    {spec code : BitVec 64 → BitVec 64 → BitVec 64} (hspec : MeansSum Γ N d l r spec)
    (hcode : ComputesWord Γ N m l r code) :
    (∀ W A R F g s, PlacedRun N A F m g s → d W A R F g s = some (A.word F m g s)) ↔
      WordsMeet Γ N m l r fun a b => spec a b = code a b := by
  constructor
  · intro h W A F g s hrun
    obtain ⟨hl, hr, hword⟩ := hcode W A F g s hrun
    have hd := h W A apartResidence F g s hrun
    rw [hspec W A _ F g s hl hr, hword] at hd
    exact Option.some.inj hd
  · intro h W A R F g s hrun
    obtain ⟨hl, hr, hword⟩ := hcode W A F g s hrun
    rw [hspec W A R F g s hl hr, hword]
    exact congrArg some (h W A F g s hrun)

/-- Where the code computes the sum that C means, it is right. -/
theorem right_of_computesWord {m : Gen IRValue} {d : AddressMeaning}
    {f : BitVec 64 → BitVec 64 → BitVec 64} (hspec : MeansSum Γ N d l r f)
    (hcode : ComputesWord Γ N m l r f) :
    ∀ W A R F g s, PlacedRun N A F m g s → d W A R F g s = some (A.word F m g s) :=
  (right_iff_wordsMeet hspec hcode).mpr fun _ _ _ _ _ _ => rfl

theorem wordsMeet_congr {m : Gen IRValue} {P Q : BitVec 64 → BitVec 64 → Prop}
    (h : ∀ a b, P a b ↔ Q a b) : WordsMeet Γ N m l r P ↔ WordsMeet Γ N m l r Q := by
  unfold WordsMeet
  simp only [h]

theorem computesWord_subscript :
    ComputesWord Γ N (genLvalue Γ (.subscript i b x)) b x fun p v =>
      p + v * BitVec.ofInt 64 (elemSize Γ (i.type.getD typeInt)) :=
  computesWord_operands
    (k := fun lv rv => scaledSum .add (typePointer (i.type.getD typeInt) .none) lv rv
      (elemSize Γ (i.type.getD typeInt)))
    (fun _ _ _ => scaledSum_completes rfl _ _ _ _)
    fun hslot _ hrun => hrun.word_scaledSum_temp (f := (· + ·)) rfl hslot

theorem placeRight_subscript (hb : ValueRight Γ N b) (hx : ValueRight Γ N x) :
    PlaceRight Γ N (.subscript i b x) ↔ KeepsPlace Γ N (.place (.subscript i b x)) := by
  by_cases haddr : hasAddressValue b.type = true
  · refine iff_of_true (right_of_computesWord (fun W A R F g s hleft _ => ?_)
      computesWord_subscript) (.inl haddr)
    change (if hasAddressValue b.type = true then _ else _) = _
    rw [if_pos haddr, hb W A R F g s hleft]
    rfl
  · refine (right_iff_wordsMeet (fun W A R F g s _ hright => ?_) computesWord_subscript).trans
      (or_iff_right haddr).symm
    change (if hasAddressValue b.type = true then _ else _) = _
    rw [if_neg haddr, hx W A R F _ _ hright]
    rfl

/-- A pointer, but no array or function. -/
theorem isPointerType_of_address {t : Option CType} (h : hasAddressValue t = true)
    (hdecays : ¬t.any CType.decays = true) :
    isPointerType t = true ∧ pointerPointeeSize Γ t = stepSize Γ t := by
  cases t with
  | none => cases h
  | some t => cases t <;> first | exact ⟨rfl, rfl⟩ | (cases h; done) | exact absurd rfl hdecays

theorem not_isPointerType {t : Option CType}
    (h : ¬hasAddressValue t = true ∨ t.any CType.decays = true) : isPointerType t = false := by
  cases t with
  | none => rfl
  | some t => cases t <;> first | rfl | exact h.elim (absurd rfl) fun h => by cases h

theorem hasAddressValue_of_decays {t : Option CType} (h : t.any CType.decays = true) :
    hasAddressValue t = true := by
  cases t with
  | none => cases h
  | some t => cases t <;> first | rfl | cases h

/-- `+` and `-`, and the instructions for them. -/
def sumOp : TokenKind → Option IROp
  | .plus => some .add
  | .minus => some .sub
  | _ => none

theorem genExpr_sum_left {op : TokenKind} {iop : IROp} (hop : sumOp op = some iop)
    (hl : isPointerType l.type = true) (hr : isPointerType r.type = false) :
    genExpr Γ (.binop i op l r) = genExpr Γ l >>= fun lv => genExpr Γ r >>= fun rv =>
      scaledSum iop (i.type.getD typeInt) lv rv (pointerPointeeSize Γ l.type) := by
  change genBinop Γ op i.type l.type r.type (genExpr Γ l) (genExpr Γ r) = _
  unfold genBinop
  cases op <;> cases hop <;> simp only [hl, hr] <;> rfl

theorem genExpr_sum_right (hl : isPointerType l.type = false) (hr : isPointerType r.type = true) :
    genExpr Γ (.binop i .plus l r) = genExpr Γ l >>= fun lv => genExpr Γ r >>= fun rv =>
      scaledSum .add (i.type.getD typeInt) rv lv (pointerPointeeSize Γ r.type) := by
  change genBinop Γ .plus i.type l.type r.type (genExpr Γ l) (genExpr Γ r) = _
  unfold genBinop
  simp only [hl, hr]
  rfl

/-- Irgen does not scale where no operand is a pointer. -/
theorem genExpr_sum_plain {op : TokenKind} {iop : IROp} (hop : sumOp op = some iop)
    (hl : isPointerType l.type = false) (hr : isPointerType r.type = false) :
    genExpr Γ (.binop i op l r) = genExpr Γ l >>= fun lv => genExpr Γ r >>= fun rv =>
      emitTo (i.type.getD typeInt) iop lv rv := by
  change genBinop Γ op i.type l.type r.type (genExpr Γ l) (genExpr Γ r) = _
  unfold genBinop
  cases op <;> cases hop <;> simp only [hl, hr] <;> rfl

/-- A value that is the word of a sum, whatever the sum. -/
theorem computesWord_plain {op : TokenKind} {iop : IROp} {f : BitVec 64 → BitVec 64 → BitVec 64}
    (hop : sumOp op = some iop) (hf : IROp.onWords iop = some f)
    (hl : isPointerType l.type = false) (hr : isPointerType r.type = false) :
    ComputesWord Γ N (genExpr Γ (.binop i op l r)) l r f := by
  rw [genExpr_sum_plain hop hl hr]
  exact computesWord_operands
    (fun _ _ _ => Completes.rules.emitTo (by cases op <;> cases hop <;> rfl))
    fun _ _ hrun => hrun.word_emitTo hf

/-- The left operand is an address, and the other one is added or subtracted. -/
theorem valueRight_sum_left {op : TokenKind} {iop : IROp} {f : BitVec 64 → BitVec 64 → BitVec 64}
    (hop : sumOp op = some iop) (hf : IROp.onWords iop = some f)
    (hcancel : ∀ a b c, f a b = f a c ↔ b = c) (hl : ValueRight Γ N l)
    (hsum : ∀ lv rv a b word, addressSum Γ op l.type r.type lv rv a b word =
      lv.map (f · (b * BitVec.ofInt 64 (stepSize Γ l.type))))
    (hlt : hasAddressValue l.type = true) (hrt : ¬hasAddressValue r.type = true) :
    ValueRight Γ N (.binop i op l r) ↔ (l.type.any CType.decays → WordsMeet Γ N
      (genExpr Γ (.binop i op l r)) l r
        fun _ v => v * BitVec.ofInt 64 (stepSize Γ l.type) = v) := by
  have hspec : MeansSum Γ N (fun W A R F g s => (designated Γ N A R F (.binop i op l r) g s).value)
      l r fun a b => f a (b * BitVec.ofInt 64 (stepSize Γ l.type)) := by
    intro W A R F g s hleft _
    refine (hsum _ _ _ _ _).trans ?_
    rw [hl W A R F g s hleft]
    rfl
  have hright := not_isPointerType (.inl hrt)
  by_cases hdecays : l.type.any CType.decays = true
  · refine (right_iff_wordsMeet hspec
      (computesWord_plain hop hf (not_isPointerType (.inr hdecays)) hright)).trans ?_
    rw [wordsMeet_congr fun a b => hcancel a _ _]
    exact ⟨fun h _ => h, fun h => h hdecays⟩
  · obtain ⟨hpointer, hsize⟩ := isPointerType_of_address (Γ := Γ) hlt hdecays
    refine iff_of_true (right_of_computesWord hspec ?_) fun h => absurd h hdecays
    rw [genExpr_sum_left hop hpointer hright, hsize]
    exact computesWord_operands
      (fun _ _ _ => scaledSum_completes (by cases op <;> cases hop <;> rfl) _ _ _ _)
      fun hslot _ hrun => hrun.word_scaledSum_temp hf hslot

/-- The right operand is an address, and the left one is added. -/
theorem valueRight_sum_right (hr : ValueRight Γ N r) (hlt : ¬hasAddressValue l.type = true)
    (hrt : hasAddressValue r.type = true) :
    ValueRight Γ N (.binop i .plus l r) ↔ (r.type.any CType.decays → WordsMeet Γ N
      (genExpr Γ (.binop i .plus l r)) l r
        fun v _ => v * BitVec.ofInt 64 (stepSize Γ r.type) = v) := by
  have hspec : MeansSum Γ N
      (fun W A R F g s => (designated Γ N A R F (.binop i .plus l r) g s).value)
      l r fun a b => b + a * BitVec.ofInt 64 (stepSize Γ r.type) := by
    intro W A R F g s _ hright
    refine (if_neg fun h => hlt h.2.1).trans ((if_pos ⟨rfl, hrt, hlt⟩).trans ?_)
    rw [hr W A R F _ _ hright]
    rfl
  have hleft := not_isPointerType (.inl hlt)
  by_cases hdecays : r.type.any CType.decays = true
  · refine (right_iff_wordsMeet hspec
      (computesWord_plain rfl rfl hleft (not_isPointerType (.inr hdecays)))).trans ?_
    rw [wordsMeet_congr fun a b => by rw [BitVec.add_comm a b, BitVec.add_right_inj]]
    exact ⟨fun h _ => h, fun h => h hdecays⟩
  · obtain ⟨hpointer, hsize⟩ := isPointerType_of_address (Γ := Γ) hrt hdecays
    refine iff_of_true (right_of_computesWord hspec ?_) fun h => absurd h hdecays
    rw [genExpr_sum_right hleft hpointer, hsize]
    exact computesWord_operands
      (k := fun lv rv => scaledSum .add (i.type.getD typeInt) rv lv (stepSize Γ r.type))
      (fun _ _ _ => scaledSum_completes rfl _ _ _ _)
      fun _ hslot hrun => hrun.word_scaledSum_temp (f := (· + ·)) rfl hslot

/-- A sum with an array is right exactly if the operand that irgen does not scale needs no
scaling. -/
theorem valueRight_binop {op : TokenKind} (hl : ValueRight Γ N l) (hr : ValueRight Γ N r) :
    ValueRight Γ N (.binop i op l r) ↔ KeepsPlace Γ N (.value (.binop i op l r)) := by
  by_cases hleft : (op = .plus ∨ op = .minus) ∧
      hasAddressValue l.type = true ∧ ¬hasAddressValue r.type = true
  · obtain ⟨hop, hlt, hrt⟩ := hleft
    have hiff : ValueRight Γ N (.binop i op l r) ↔ (l.type.any CType.decays → WordsMeet Γ N
        (genExpr Γ (.binop i op l r)) l r
          fun _ v => v * BitVec.ofInt 64 (stepSize Γ l.type) = v) := by
      rcases hop with rfl | rfl
      · exact valueRight_sum_left rfl rfl (fun _ _ _ => BitVec.add_right_inj _) hl
          (fun _ _ _ _ _ => if_pos ⟨rfl, hlt, hrt⟩) hlt hrt
      · refine valueRight_sum_left rfl rfl (fun _ _ _ => sub_right_inj) hl
          (fun _ _ _ _ _ => ?_) hlt hrt
        rw [addressSum, if_neg (fun h => by cases h.1), if_neg (fun h => by cases h.1),
          if_pos ⟨rfl, hlt, hrt⟩]
    refine hiff.trans ⟨fun h => ⟨fun _ hd _ => h hd, fun _ hd _ => ?_⟩, fun h hd => h.1 hop hd hrt⟩
    exact absurd (hasAddressValue_of_decays hd) hrt
  by_cases hright : op = .plus ∧ hasAddressValue r.type = true ∧ ¬hasAddressValue l.type = true
  · obtain ⟨rfl, hrt, hlt⟩ := hright
    refine (valueRight_sum_right hr hlt hrt).trans
      ⟨fun h => ⟨fun _ hd _ => ?_, fun _ hd _ => h hd⟩, fun h hd => h.2 rfl hd hlt⟩
    exact absurd (hasAddressValue_of_decays hd) hlt
  -- any other value is the word of the code
  · refine iff_of_true (fun W A R F g s hrun => ?_) ⟨fun hop hd hrt => ?_, fun hop hd hlt => ?_⟩
    · change addressSum Γ op l.type r.type _ _ _ _ _ = _
      rw [addressSum, if_neg fun h => hleft ⟨.inl h.1, h.2⟩, if_neg hright,
        if_neg fun h => hleft ⟨.inr h.1, h.2⟩]
    · exact absurd ⟨hop, hasAddressValue_of_decays hd, hrt⟩ hleft
    · exact absurd ⟨hop, hasAddressValue_of_decays hd, hlt⟩ hright

/-! ### Members and compound literals -/

/-- The code of an address and then that of an offset, if there is a member. -/
theorem word_member {base : Gen IRValue} {aggTy : Option CType}
    (hc : Completes A.toLiveMachine ∅ base) (hm : Emits base)
    (h : PlacedRun N A F (genMemberLvalue Γ aggTy field base) g s) :
    PlacedRun N A F base g s ∧ A.word F (genMemberLvalue Γ aggTy field base) g s =
      A.word F base g s + BitVec.ofInt 64 (emittedOffset Γ aggTy field) := by
  have hnone : ∀ addr g s, PlacedRun N A F (pure addr : Gen IRValue) g s →
      A.word F (pure addr) g s = A.operand s.temps addr + BitVec.ofInt 64 0 :=
    fun addr g s hrun => hrun.word_pure.trans (BitVec.add_zero _).symm
  obtain ⟨k, hgen, hk, hword⟩ : ∃ k, genMemberLvalue Γ aggTy field base = base >>= k ∧
      (∀ addr, Completes A.toLiveMachine ∅ (k addr)) ∧
      ∀ addr g s, PlacedRun N A F (k addr) g s → A.word F (k addr) g s =
        A.operand s.temps addr + BitVec.ofInt 64 (emittedOffset Γ aggTy field) := by
    unfold emittedOffset foundOffset
    cases aggTy with
    | none => exact ⟨pure, rfl, fun _ => Completes.rules.pure _, hnone⟩
    | some t =>
      simp only [Option.bind_some, genMemberLvalue]
      rcases findFieldWithOffset Γ t field with _ | ⟨_ | ⟨f, fs⟩, off⟩
      · exact ⟨pure, rfl, fun _ => Completes.rules.pure _, hnone⟩
      · exact ⟨pure, rfl, fun _ => Completes.rules.pure _, hnone⟩
      · exact ⟨_, rfl, fun _ => Completes.rules.genAddrOffset _ _ _,
          fun _ _ _ hrun => hrun.word_genAddrOffset⟩
  rw [hgen] at h ⊢
  have hsecond := h.second hc hm (hk _)
  exact ⟨h.first hc (hk _), (h.word_eq hc (hk _)).trans (hword _ _ _ hsecond)⟩

theorem offset_agrees (found : Option ℤ) (a : BitVec 64) (n : ℤ) :
    (found.map fun off => a + BitVec.ofInt 64 off) = some (a + BitVec.ofInt 64 n) ↔
      found.map (BitVec.ofInt 64) = some (BitVec.ofInt 64 n) := by
  cases found <;> simp

/-- A member lies where it is found exactly if irgen adds the same offset. -/
theorem right_member {base : Gen IRValue} {ty' : Option CType} {aggTy : Option CType}
    {d : AddressMeaning} (hready : g.Ready) (hbinds : Binds N g)
    (hc : ∀ {W : Type} (A : AddressMachine W), Completes A.toLiveMachine ∅ base) (hm : Emits base)
    (hmember : Emits (genMemberLvalue Γ ty' field base))
    (hd : ∀ W A R F g s, PlacedRun N A F base g s → d W A R F g s = some (A.word F base g s)) :
    (∀ W A R F g s, PlacedRun N A F (genMemberLvalue Γ ty' field base) g s →
      ((d W A R F g s).bind fun a => (foundOffset Γ aggTy field).map fun off =>
        a + BitVec.ofInt 64 off) = some (A.word F (genMemberLvalue Γ ty' field base) g s)) ↔
      (foundOffset Γ aggTy field).map (BitVec.ofInt 64) =
        some (BitVec.ofInt 64 (emittedOffset Γ ty' field)) := by
  have hrun : ∀ W A R F g s, PlacedRun N A F (genMemberLvalue Γ ty' field base) g s →
      (((d W A R F g s).bind fun a => (foundOffset Γ aggTy field).map fun off =>
        a + BitVec.ofInt 64 off) = some (A.word F (genMemberLvalue Γ ty' field base) g s) ↔
      (foundOffset Γ aggTy field).map (BitVec.ofInt 64) =
        some (BitVec.ofInt 64 (emittedOffset Γ ty' field))) := by
    intro W A R F g s h
    obtain ⟨hbase, hword⟩ := word_member (hc A) hm h
    rw [hd W A R F g s hbase, hword]
    exact offset_agrees _ _ _
  constructor
  · intro h
    obtain ⟨g', F, s, hplaced⟩ := exists_placedRun hmember hready hbinds
    exact (hrun Unit _ apartResidence F g' s hplaced).mp (h Unit _ _ F g' s hplaced)
  · exact fun h W A R F g s hplaced => (hrun W A R F g s hplaced).mpr h

theorem placeRight_member (hready : g.Ready) (hbinds : Binds N g) (h : PlaceRight Γ N b) :
    PlaceRight Γ N (.member i b field) ↔ KeepsPlace Γ N (.place (.member i b field)) := by
  refine (right_member (d := fun W A R F g s => (designated Γ N A R F b g s).place) hready hbinds
    (fun A => genLvalue_completes Γ A b) (genNode_emits Γ b).lvalue
    (genNode_emits Γ (.member i b field)).lvalue h).trans ?_
  rw [KeepsPlace, emittedOffset]
  cases foundOffset Γ b.type field <;> simp

theorem placeRight_memberPtr (hready : g.Ready) (hbinds : Binds N g) (h : ValueRight Γ N b) :
    PlaceRight Γ N (.memberPtr i b field) ↔ KeepsPlace Γ N (.place (.memberPtr i b field)) :=
  right_member (d := fun _ A R F g s => (designated Γ N A R F b g s).value) hready hbinds
    (fun A => genExpr_completes Γ A b) (genNode_emits Γ b).expr
    (genNode_emits Γ (.memberPtr i b field)).lvalue h

theorem placeRight_star (h : ValueRight Γ N e) : PlaceRight Γ N (.unop i .star e) :=
  fun W A R F g s hrun => h W A R F g s hrun

/-- The storage of a compound literal is that of the temp it takes first. -/
theorem placeRight_compoundLit (init : Expr) : PlaceRight Γ N (.compoundLit i ty init) := by
  intro W A R F g s hrun
  let rest (addr : IRValue) : Gen IRValue := (genNode Γ init).init addr ty >>= fun _ => pure addr
  have hrest : ∀ addr, Completes A.toLiveMachine ∅ (rest addr) := fun addr =>
    Completes.rules.seq ((Completes.rules.node Γ init).init addr ty ∅) _
  have halloca : Completes A.toLiveMachine ∅ (genAlloca Γ ty) := Completes.rules.genAlloca Γ ty
  have hrun' : PlacedRun N A F (genAlloca Γ ty >>= rest) g s := hrun
  have hfirst := hrun'.first halloca (hrest _)
  have hsecond := hrun'.second halloca (Emits.genAlloca Γ ty) (hrest _)
  have hslot : (genAlloca Γ ty g).1.HasSlot (genAlloca Γ ty g).2.func.nextTemp :=
    .temp _ hrun.ready.temps (Nat.lt_succ_self _)
  have hplace : A.word F (genAlloca Γ ty) g s = A.layout.place g.func.nextTemp := by
    obtain ⟨hword, hlive⟩ := hfirst.newTemp.word_emit rfl
    exact hword.trans (A.alloca rfl rfl hlive)
  have hword : A.word F (genAlloca Γ ty >>= rest) g s = A.word F (genAlloca Γ ty) g s :=
    (hrun'.word_eq halloca (hrest _)).trans (hsecond.operand_after (hrest _) hslot)
  change some (A.layout.place g.func.nextTemp) = some (A.word F (genAlloca Γ ty >>= rest) g s)
  rw [hword, hplace]

/-! ### The values of address types -/

theorem valueRight_comma (h : ValueRight Γ N r) : ValueRight Γ N (.comma i l r) := by
  intro W A R F g s hrun
  have hl := genExpr_completes Γ A l
  have hr := genExpr_completes Γ A r
  have hrun' : PlacedRun N A F (genExpr Γ l >>= fun _ => genExpr Γ r) g s := hrun
  have hsecond := hrun'.second hl (genNode_emits Γ l).expr hr
  change (designated Γ N A R F r (genExpr Γ l g).2 (A.after F (genExpr Γ l) g s)).value = _
  rw [h W A R F _ _ hsecond]
  exact congrArg some (hrun'.word_eq hl hr).symm

theorem valueRight_amp (h : PlaceRight Γ N e) : ValueRight Γ N (.unop i .amp e) :=
  fun W A R F g s hrun => h W A R F g s hrun

theorem PlacedRun.word_copy (hv : v.kind ≠ .none) (h : PlacedRun N A F (emitTo ty .copy v) g s) :
    A.word F (emitTo ty .copy v) g s = A.operand s.temps v := by
  let s' : IrState W (BitVec 64) :=
    ⟨s.pc + 1, s.world, Function.update s.temps g.func.nextTemp (A.operand s.temps v)⟩
  have hi : F[s.pc]? = some { op := .copy, dst := irvTemp g.func.nextTemp ty, src1 := v } := by
    have hat := instr_at h.newTemp.stands.code
    rwa [← h.newTemp.stands.pc] at hat
  have hstep : A.step F s = some s' := by
    simp only [IrMachine.step, hi, hv, if_false]
    rfl
  have hemit : Stands F (emit { op := .copy, dst := irvTemp g.func.nextTemp ty, src1 := v })
      (TinyC.newTemp g).2 s := ⟨h.stands.nodup, h.stands.code, h.stands.pc⟩
  have hend : A.after F (emitTo ty .copy v) g s = s' := by
    have hafter := TinyC.after_emit hemit hstep rfl
    exact hafter
  change A.operand (A.after F _ g s).temps (irvTemp g.func.nextTemp ty) = _
  rw [hend]
  exact Function.update_self ..

theorem castOp_of_address {t : CType} (h : hasAddressValue (some t) = true) (ty : CType) :
    castOp Γ t ty = .copy := by
  cases t <;> first | rfl | cases h

/-- A cast of an address is a copy of it. -/
theorem valueRight_cast (h : ValueRight Γ N e) : ValueRight Γ N (.cast i ty e) := by
  intro W A R F g s hrun
  change (if (ty.isPointer && hasAddressValue e.type) = true then _ else _) = _
  split
  · rename_i hty
    rw [Bool.and_eq_true] at hty
    obtain ⟨t, ht⟩ : ∃ t, e.type = some t := by
      cases he : e.type with
      | none => rw [he] at hty; cases hty.2
      | some t => exact ⟨t, rfl⟩
    let k (src : IRValue) : Gen IRValue := if t = ty then pure src else emitTo ty .copy src
    have hgen : genExpr Γ (.cast i ty e) = genExpr Γ e >>= k := by
      change genCast Γ e.type ty (genExpr Γ e) = _
      simp only [genCast, ht, castOp_of_address (ht ▸ hty.2)]
      rfl
    rw [hgen] at hrun ⊢
    have he := genExpr_completes Γ A e
    have hk : ∀ src, Completes A.toLiveMachine ∅ (k src) := fun src =>
      GenRules.ite (Completes.rules.pure _) (Completes.rules.emitTo rfl)
    have hfirst := hrun.first he (hk _)
    have hsecond := hrun.second he (genNode_emits Γ e).expr (hk _)
    have hslot := (genNode_givesSlots Γ e).expr g hfirst.ready
    rw [h W A R F g s hfirst, hrun.word_eq he (hk _)]
    refine congrArg some ?_
    by_cases hsame : t = ty
    · simp only [k, if_pos hsame] at hsecond ⊢
      exact hsecond.word_pure.symm
    · simp only [k, if_neg hsame] at hsecond ⊢
      exact (hsecond.word_copy hslot.1).symm
  · rfl

/-! ### The values of lvalues -/

/-- An lvalue whose code as a value is that of its address, if it is an array or a function. -/
theorem valueRight_of_placeRight (hvalue : ∀ (W : Type) (A : AddressMachine W) (R : Residence)
      (F : List IRInstr) (g : IrGen) (s : IrState W (BitVec 64)),
      (designated Γ N A R F e g s).value = if e.type.any CType.decays then
        (designated Γ N A R F e g s).place else some (A.word F (genExpr Γ e) g s))
    (hgen : e.type.any CType.decays = true → genExpr Γ e = genLvalue Γ e)
    (h : PlaceRight Γ N e) : ValueRight Γ N e := by
  intro W A R F g s hrun
  rw [hvalue]
  split
  · rename_i hty
    rw [hgen hty] at hrun ⊢
    exact h W A R F g s hrun
  · rfl

/-- The name of an array or a function is its address, and no code. -/
theorem genIdent_address (h : i.type.any CType.decays = true) (name : String) (g : IrGen) :
    (genIdent name i.type g).2 = g ∧ (genIdentLvalue name g).2 = g ∧
      (genIdent name i.type g).1.kind = (genIdentLvalue name g).1.kind := by
  obtain ⟨t, ht⟩ : ∃ t, i.type = some t := by
    cases hi : i.type with
    | none => rw [hi] at h; cases h
    | some t => exact ⟨t, rfl⟩
  rw [ht] at h ⊢
  have hty : (t.isArray || t.isFunc || isAggregateType (some t)) = true := by
    rw [Bool.or_eq_true]
    exact .inl h
  rw [genIdent, genIdentLvalue, Gen.run_vscopeLookup_bind, Gen.run_vscopeLookup_bind]
  cases g.scope.lookup vtabBuckets name with
  | none => exact ⟨rfl, rfl, rfl⟩
  | some e =>
    simp only [Option.getD_some, hty, if_true]
    exact ⟨rfl, rfl, trivial⟩

theorem valueRight_ident (h : PlaceRight Γ N (.ident i name)) : ValueRight Γ N (.ident i name) := by
  intro W A R F g s hrun
  change (if i.type.any CType.decays = true then _ else _) = _
  split
  · rename_i hty
    obtain ⟨hstate, hstate', hkind⟩ := genIdent_address hty name g
    have hend : A.after F (genExpr Γ (.ident i name)) g s = s :=
      after_eq_of_pos_eq hrun.stands (congrArg IrGen.pos hstate)
    have hstands : Stands F (genLvalue Γ (.ident i name)) g s := by
      refine ⟨hrun.stands.nodup, ?_, hrun.stands.pc⟩
      have hcode := hrun.stands.code
      change (genIdent name i.type g).2.func.instrs <+: F at hcode
      change (genIdentLvalue name g).2.func.instrs <+: F
      rw [hstate', ← hstate]
      exact hcode
    have hend' : A.after F (genLvalue Γ (.ident i name)) g s = s :=
      after_eq_of_pos_eq hstands (congrArg IrGen.pos hstate')
    have hlive : A.live s.world := hend ▸ hrun.live
    have hplace := h W A R F g s ⟨hrun.ready, hrun.binds, hrun.reserved, hstands, by rwa [hend']⟩
    refine hplace.trans (congrArg some ?_)
    change A.operand (A.after F (genLvalue Γ (.ident i name)) g s).temps (genIdentLvalue name g).1 =
      A.operand (A.after F (genExpr Γ (.ident i name)) g s).temps (genIdent name i.type g).1
    rw [hend, hend', A.operand_eq, A.operand_eq, ObjectLayout.operand, ObjectLayout.operand, hkind]
  · rfl

theorem valueRight_member (h : PlaceRight Γ N (.member i b field))
    (hkeeps : i.type.any CType.decays = true → keepsAddress Γ (.member i b field) = true) :
    ValueRight Γ N (.member i b field) :=
  valueRight_of_placeRight (fun _ _ _ _ _ _ => rfl) (fun hty => genMemberExpr_array (hkeeps hty)) h

theorem valueRight_memberPtr (h : PlaceRight Γ N (.memberPtr i b field))
    (hkeeps : i.type.any CType.decays = true → keepsAddress Γ (.memberPtr i b field) = true) :
    ValueRight Γ N (.memberPtr i b field) :=
  valueRight_of_placeRight (fun _ _ _ _ _ _ => rfl) (fun hty => genMemberExpr_array (hkeeps hty)) h

theorem valueRight_compoundLit {init : Expr} (h : PlaceRight Γ N (.compoundLit i ty init))
    (hkeeps : i.type.any CType.decays = true → i.type.any CType.isArray = true) :
    ValueRight Γ N (.compoundLit i ty init) := by
  refine valueRight_of_placeRight (fun _ _ _ _ _ _ => rfl) (fun hty => ?_) h
  obtain ⟨t, ht⟩ : ∃ t, i.type = some t := by
    cases hi : i.type with
    | none => rw [Expr.type, Expr.info, hi] at hty; cases hty
    | some t => exact ⟨t, rfl⟩
  have harray : t.isArray = true := by simpa [ht] using hkeeps hty
  change genCompoundLit i.type _ = _
  simp only [genCompoundLit, ht, Option.getD_some, harray, Bool.or_true, if_true, bind_pure]
  rfl

/-! ### All uses -/

/-- The code is right for all of these uses exactly if they keep their places. -/
def AllRight (Γ : TypeEnv) (N : Bindings) (us : List Use) : Prop :=
  (∀ u ∈ us, Right Γ N u) ↔ ∀ u ∈ us, KeepsPlace Γ N u

theorem AllRight.append {us vs : List Use} (h : AllRight Γ N us) (h' : AllRight Γ N vs) :
    AllRight Γ N (us ++ vs) := by
  unfold AllRight
  rw [List.forall_mem_append, List.forall_mem_append]
  exact and_congr h h'

/-- The uses of the parts come before that of the whole. -/
theorem AllRight.cons {u : Use} {us : List Use} (h : AllRight Γ N us)
    (hu : (∀ v ∈ us, Right Γ N v) → (Right Γ N u ↔ KeepsPlace Γ N u)) :
    AllRight Γ N (u :: us) := by
  unfold AllRight
  rw [List.forall_mem_cons, List.forall_mem_cons]
  constructor
  · rintro ⟨hright, hrest⟩
    exact ⟨(hu hrest).mp hright, h.mp hrest⟩
  · rintro ⟨hkeeps, hrest⟩
    exact ⟨(hu (h.mpr hrest)).mpr hkeeps, h.mpr hrest⟩

theorem AllRight.nil : AllRight Γ N [] := by simp [AllRight]

theorem right_value (g : IrGen)
    (h : (designatesArrayOrFunc e → keepsAddress Γ e) → ValueRight Γ N e) :
    Right Γ N (.value e) ↔ (designatesArrayOrFunc e → keepsAddress Γ e) := by
  constructor
  · rintro ⟨-, hdecays⟩ hdes
    exact (decaysAt_iff Γ e hdes g).mp (hdecays hdes g)
  · intro hkeeps
    exact ⟨h hkeeps, fun hdes g => (decaysAt_iff Γ e hdes g).mpr (hkeeps hdes)⟩

/-- What is used by value is among the uses. -/
theorem value_mem_uses (e : Expr) : .value e ∈ e.uses.2 := by
  cases e with
  | unop i op e => cases op <;> exact List.mem_cons_self
  | _ => exact List.mem_cons_self

/-- An expression that is no lvalue lies where its code says. -/
theorem placeRight_of_uses (e : Expr) (h : ∀ u ∈ e.uses.1, Right Γ N u) : PlaceRight Γ N e := by
  have hself : ∀ {u us}, e.uses.1 = u :: us → Right Γ N u := fun hu =>
    h _ (hu ▸ List.mem_cons_self)
  cases e with
  | ident i x => exact hself rfl
  | subscript i b x => exact hself rfl
  | member i b field => exact hself rfl
  | memberPtr i b field => exact hself rfl
  | compoundLit i ty init => exact hself rfl
  | unop i op e => cases op <;> first | exact fun _ _ _ _ _ _ _ => rfl | exact hself rfl
  | comma i l r => exact (hself rfl).1
  | _ => exact fun _ _ _ _ _ _ _ => rfl

theorem valueRight_of_uses (e : Expr) (h : ∀ u ∈ e.uses.2, Right Γ N u) : ValueRight Γ N e :=
  (h _ (value_mem_uses e)).1

theorem forall_right_left {us vs : List Use} (h : ∀ u ∈ us ++ vs, Right Γ N u) :
    ∀ u ∈ us, Right Γ N u := fun u hu => h u (List.mem_append_left vs hu)

theorem forall_right_right {us vs : List Use} (h : ∀ u ∈ us ++ vs, Right Γ N u) :
    ∀ u ∈ vs, Right Γ N u := fun u hu => h u (List.mem_append_right us hu)

/-- The uses of an lvalue, by its parts. -/
theorem allRight_lvalue (g : IrGen) {parts : List Use} (hparts : AllRight Γ N parts)
    (hplace : (∀ u ∈ parts, Right Γ N u) → (Right Γ N (.place e) ↔ KeepsPlace Γ N (.place e)))
    (hvalue : KeepsPlace Γ N (.value e) = (designatesArrayOrFunc e → keepsAddress Γ e))
    (h : (designatesArrayOrFunc e → keepsAddress Γ e) → PlaceRight Γ N e → ValueRight Γ N e) :
    AllRight Γ N (.place e :: parts) ∧ AllRight Γ N (.value e :: .place e :: parts) := by
  have hfirst : AllRight Γ N (.place e :: parts) := hparts.cons hplace
  refine ⟨hfirst, hfirst.cons fun hright => ?_⟩
  rw [hvalue]
  exact right_value g fun hkeeps => h hkeeps (hright (.place e) List.mem_cons_self)

/-- The uses of any other expression. -/
theorem allRight_value {parts : List Use} (hparts : AllRight Γ N parts)
    (h : (∀ u ∈ parts, Right Γ N u) → (Right Γ N (.value e) ↔ KeepsPlace Γ N (.value e))) :
    AllRight Γ N (.value e :: parts) ∧ AllRight Γ N (.value e :: parts) :=
  ⟨hparts.cons h, hparts.cons h⟩

mutual

/-- The code is right for the uses of an expression exactly if they keep their places. -/
theorem allRight (Γ : TypeEnv) (hready : g.Ready) (hbinds : Binds N g) :
    (e : Expr) → AllRight Γ N e.uses.1 ∧ AllRight Γ N e.uses.2
  | .ident i x =>
      allRight_lvalue g .nil (fun _ => placeRight_ident hready hbinds) rfl fun _ => valueRight_ident
  | .unop i op e => by
      have he := allRight Γ hready hbinds e
      have hword : ∀ us, AllRight Γ N us → op ≠ .star → op ≠ .amp →
          AllRight Γ N (.value (.unop i op e) :: us) ∧ AllRight Γ N (.value (.unop i op e) :: us) :=
        fun us hus hstar hamp => allRight_value hus fun _ => right_value g fun _ _ _ _ _ _ _ _ => by
          cases op <;> first | rfl | exact absurd rfl hstar | exact absurd rfl hamp
      cases op with
      | star =>
        refine allRight_lvalue g he.2 (fun h => ?_) rfl fun hkeeps hplace => ?_
        · exact iff_of_true (placeRight_star (valueRight_of_uses e h)) trivial
        · refine valueRight_of_placeRight (fun _ _ _ _ _ _ => rfl) (fun hty => ?_) hplace
          exact absurd (hkeeps hty) Bool.false_ne_true
      | amp =>
        exact allRight_value he.1 fun h =>
          right_value g fun _ => valueRight_amp (placeRight_of_uses e h)
      | plusplus => exact hword _ he.1 (by decide) (by decide)
      | minusminus => exact hword _ he.1 (by decide) (by decide)
      | _ => exact hword _ he.2 (by decide) (by decide)
  | .subscript i b x => by
      have hb := allRight Γ hready hbinds b
      have hx := allRight Γ hready hbinds x
      refine allRight_lvalue g (hb.2.append hx.2) (fun h => ?_) rfl fun hkeeps hplace => ?_
      · exact placeRight_subscript (valueRight_of_uses b (forall_right_left h))
          (valueRight_of_uses x (forall_right_right h))
      · refine valueRight_of_placeRight (fun _ _ _ _ _ _ => rfl) (fun hty => ?_) hplace
        exact absurd (hkeeps hty) Bool.false_ne_true
  | .member i b field =>
      allRight_lvalue g (allRight Γ hready hbinds b).1
        (fun h => placeRight_member hready hbinds (placeRight_of_uses b h)) rfl
        fun hkeeps hplace => valueRight_member hplace hkeeps
  | .memberPtr i b field =>
      allRight_lvalue g (allRight Γ hready hbinds b).2
        (fun h => placeRight_memberPtr hready hbinds (valueRight_of_uses b h)) rfl
        fun hkeeps hplace => valueRight_memberPtr hplace hkeeps
  | .compoundLit i ty init =>
      allRight_lvalue g (allRight Γ hready hbinds init).2
        (fun _ => iff_of_true (placeRight_compoundLit init) trivial) rfl
        fun hkeeps hplace => valueRight_compoundLit hplace hkeeps
  | .postop i op e =>
      allRight_value (allRight Γ hready hbinds e).1
        fun _ => right_value g fun _ _ _ _ _ _ _ _ => rfl
  | .binop i op l r =>
      allRight_value ((allRight Γ hready hbinds l).2.append (allRight Γ hready hbinds r).2) fun h =>
        (and_iff_left fun hdes => absurd hdes Bool.false_ne_true).trans
          (valueRight_binop (valueRight_of_uses l (forall_right_left h))
            (valueRight_of_uses r (forall_right_right h)))
  | .assign i op l r =>
      allRight_value ((allRight Γ hready hbinds l).1.append (allRight Γ hready hbinds r).2)
        fun _ => right_value g fun _ _ _ _ _ _ _ _ => rfl
  | .ternary i c t e =>
      allRight_value (((allRight Γ hready hbinds c).2.append (allRight Γ hready hbinds t).2).append
        (allRight Γ hready hbinds e).2) fun _ => right_value g fun _ _ _ _ _ _ _ _ => rfl
  | .call i f args =>
      allRight_value ((allRight Γ hready hbinds f).2.append (allRight_all Γ hready hbinds args))
        fun _ => right_value g fun _ _ _ _ _ _ _ _ => rfl
  | .cast i ty e =>
      allRight_value (allRight Γ hready hbinds e).2 fun h =>
        right_value g fun _ => valueRight_cast (valueRight_of_uses e h)
  | .comma i l r =>
      allRight_value ((allRight Γ hready hbinds l).2.append (allRight Γ hready hbinds r).2) fun h =>
        right_value g fun _ => valueRight_comma (valueRight_of_uses r (forall_right_right h))
  | .initList i items =>
      allRight_value (allRight_all Γ hready hbinds items)
        fun _ => right_value g fun _ _ _ _ _ _ _ _ => rfl
  | .fieldDesig i field e =>
      allRight_value (allRight Γ hready hbinds e).2
        fun _ => right_value g fun _ _ _ _ _ _ _ _ => rfl
  | .indexDesig i x e =>
      allRight_value (allRight Γ hready hbinds e).2
        fun _ => right_value g fun _ _ _ _ _ _ _ _ => rfl
  | .intLit _ _ _ | .floatLit _ _ _ | .charLit _ _ | .strLit _ _ | .sizeofExpr _ _
  | .sizeofType _ _ =>
      allRight_value .nil fun _ => right_value g fun _ _ _ _ _ _ _ _ => rfl

theorem allRight_all (Γ : TypeEnv) (hready : g.Ready) (hbinds : Binds N g) :
    (es : List Expr) → AllRight Γ N (usesOfAll es)
  | [] => .nil
  | e :: rest => (allRight Γ hready hbinds e).2.append (allRight_all Γ hready hbinds rest)

end

end

end TinyC
