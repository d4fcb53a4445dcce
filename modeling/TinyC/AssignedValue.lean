import TinyC.BitFields

/-!
# The value of an assignment

The address and the right operand are computed first, once each. What follows is straight-line
code that stores to the object and picks a temp for the value. Whether that value is what a load
of the object gives depends on the word that is stored.
-/

namespace TinyC

open ByteMemory TwosComplement

/-! ### Operands and tail -/

def bitFieldOf (Γ : TypeEnv) (l : Expr) : Option StructField :=
  (memberField Γ l).filter fun f => f.bitWidth > 0

/-- A load of the object at `addr`, as the lvalue's own node does it. -/
def genReload (bf : Option StructField) (T : CType) (addr : IRValue) : Gen IRValue :=
  match bf with
  | some f => genBitfieldLoad addr f
  | none => genLoad addr T

/-- What is at hand when the tail begins; `old` is the value loaded for a compound assignment. -/
structure Operands where
  addr : IRValue
  old : IRValue
  right : IRValue

/-- `T` is the type of the lvalue. -/
def assignOperands (Γ : TypeEnv) (T : CType) : Expr → Gen Operands
  | .assign _ op l r => do
      let addr ← genLvalue Γ l
      let old ← if op = .assign then pure addr else genLoad addr T
      let right ← genExpr Γ r
      return ⟨addr, old, right⟩
  | .unop _ _ l | .postop _ _ l => do
      let addr ← genLvalue Γ l
      return ⟨addr, addr, addr⟩
  | _ => return ⟨irvNone, irvNone, irvNone⟩

/-- The old and the new value of `++` and `--`. -/
def stepTail (op : TokenKind) (T : CType) (addr : IRValue) : Gen (IRValue × IRValue) := do
  let old ← genLoad addr T
  let new ← emitTo T (if op = .plusplus then .add else .sub) old (irvInt 1 typeInt)
  genStore addr new
  return (old, new)

def assignTail (op : TokenKind) (bf : Option StructField) (T : CType) (o : Operands) :
    Gen IRValue :=
  if op = .assign then
    match bf with
    | some f => genBitfieldStore o.addr f o.right
    | none => do
        genStore o.addr o.right
        return o.right
  else do
    let new ← emitTo T (tokToIrBinop (compoundBase op)) o.old o.right
    genStore o.addr new
    return new

/-- The tail of an assignment, with a load of the object after it, or before it for `l++` and
`l--`. Returned are the value of the expression and what was loaded. -/
def tailWithReload (bf : Option StructField) (T : CType) (o : Operands) :
    Expr → Gen (IRValue × IRValue)
  | .assign _ op _ _ => do
      let value ← assignTail op bf T o
      let loaded ← genReload bf T o.addr
      return (value, loaded)
  | .unop _ op _ => do
      let values ← stepTail op T o.addr
      let loaded ← genReload bf T o.addr
      return (values.2, loaded)
  | .postop _ op _ => do
      let loaded ← genReload bf T o.addr
      let values ← stepTail op T o.addr
      return (values.1, loaded)
  | _ => return (irvNone, irvNone)

/-- The tail alone. -/
def tailOf (bf : Option StructField) (T : CType) (o : Operands) : Expr → Gen IRValue
  | .assign _ op _ _ => assignTail op bf T o
  | .unop _ op _ => do
      let values ← stepTail op T o.addr
      return values.2
  | .postop _ op _ => do
      let values ← stepTail op T o.addr
      return values.1
  | _ => return irvNone

section

variable {Γ : TypeEnv} {g : IrGen} {n l : Expr} {T : CType}

theorem integer_facts (hT : typeIsInteger T = true) : isAggregateType (some T) = false ∧
    T.isPointer = false ∧ T.isArray = false ∧ T.isFunc = false ∧ isFpType (some T) = false := by
  cases T with
  | scalar k q => cases k <;> first | exact ⟨rfl, rfl, rfl, rfl, rfl⟩ | cases hT
  | enum id q => exact ⟨rfl, rfl, rfl, rfl, rfl⟩
  | _ => cases hT

theorem genStep_eq (op : TokenKind) (hT : typeIsInteger T = true) (lvalue : Gen IRValue) :
    genStep Γ op (some T) lvalue = lvalue >>= stepTail op T := by
  have hsize : pointerPointeeSize Γ (some T) = 1 := by
    cases T <;> first | rfl | cases hT
  unfold genStep stepTail
  simp only [Option.getD_some, hsize]
  rfl

/-- An assignment to an integer object computes the operands and then the tail. -/
theorem genExpr_assignment (hn : assignedLvalue n = some l) (hl : l.type = some T)
    (hty : n.type = some T) (hT : typeIsInteger T = true) :
    genExpr Γ n = assignOperands Γ T n >>= fun o => tailOf (bitFieldOf Γ l) T o n := by
  obtain ⟨hagg, hptr, -⟩ := integer_facts hT
  cases n with
  | assign i op l' r =>
    cases hn
    have hi : i.type = some T := hty
    have hor : (l.type <|> i.type) = some T := by rw [hl]; rfl
    change genAssign Γ op i.type (l.type <|> i.type) (memberField Γ l) (genNode Γ l)
      (genNode Γ r) = _
    rw [hor, hi]
    unfold genAssign assignOperands tailOf assignTail
    by_cases hop : op = .assign
    · funext g
      simp only [hop, hagg, if_true, if_false, Bool.and_false, Bool.false_eq_true]
      cases hbf : bitFieldOf Γ l with
      | none =>
        have hnone : ((memberField Γ l).filter fun f => f.bitWidth > 0) = none := hbf
        rw [hnone]
        rfl
      | some f =>
        have hsome : ((memberField Γ l).filter fun f => f.bitWidth > 0) = some f := hbf
        rw [hsome]
        rfl
    · funext g
      simp only [hop, if_false, decide_false, Bool.false_and, Bool.false_eq_true,
        genCompoundOperand, hptr, Option.getD_some]
      rfl
  | postop i op l' =>
    cases hn
    have hi : i.type = some T := hty
    change (genStep Γ op i.type (genLvalue Γ l) >>= fun r => pure r.1) = _
    rw [hi, genStep_eq op hT]
    rfl
  | unop i op l' =>
    rw [assignedLvalue] at hn
    split at hn
    · rename_i hop
      cases hn
      have hi : i.type = some T := hty
      rcases hop with rfl | rfl
      · change (genStep Γ .plusplus i.type (genLvalue Γ l) >>= fun r => pure r.2) = _
        rw [hi, genStep_eq .plusplus hT]
        rfl
      · change (genStep Γ .minusminus i.type (genLvalue Γ l) >>= fun r => pure r.2) = _
        rw [hi, genStep_eq .minusminus hT]
        rfl
    · cases hn
  | _ => cases hn

end

/-! ### Words -/

/-- The word that the tail makes from the old one and the right operand; none where a division
faults. -/
def newWord (old right : BitVec 64) : Expr → Option (BitVec 64)
  | .assign _ op _ _ =>
      if op = .assign then some right
      else machineBinop (tokToIrBinop (compoundBase op)) false old right
  | .unop _ op _ | .postop _ op _ =>
      machineBinop (if op = .plusplus then .add else .sub) false old 1
  | _ => none

/-- The word at hand as the old one: loaded before the right operand was computed, or in the
tail. -/
def oldWord (Γ : TypeEnv) (T : CType) (m : Mem) (a : Addr) (loaded : BitVec 64) : Expr → BitVec 64
  | .assign _ _ _ _ => loaded
  | _ => readWord Γ (some T) m a

/-- What a load of the object gives. -/
def reloadWord (Γ : TypeEnv) (bf : Option StructField) (T : CType) (m : Mem) (a : Addr) :
    BitVec 64 :=
  match bf with
  | some f => fieldOf f (readWord Γ (some T) m a)
  | none => readWord Γ (some T) m a

/-- The word that is stored when the new value is `w`. -/
def objectWord (Γ : TypeEnv) (bf : Option StructField) (T : CType) (m : Mem) (a : Addr)
    (w : BitVec 64) : Expr → BitVec 64
  | .assign _ op _ _ =>
      if op = .assign then bf.elim w fun f => withField f (readWord Γ (some T) m a) w else w
  | _ => w

/-- The value of the expression. -/
def tailValue (old w : BitVec 64) : Expr → BitVec 64
  | .postop _ _ _ => old
  | _ => w

/-- The word that is loaded before `l++` and `l--`, and after the other assignments. -/
def tailReload (Γ : TypeEnv) (bf : Option StructField) (T : CType) (k : ℕ) (m : Mem) (a : Addr)
    (w : BitVec 64) : Expr → BitVec 64
  | .postop _ _ _ => reloadWord Γ bf T m a
  | n => reloadWord Γ bf T (store m a k (objectWord Γ bf T m a w n)) a

/-- The type of the value that is stored. -/
def tailStored (bf : Option StructField) (T : CType) (o : Operands) : Expr → Option CType
  | .assign _ op _ _ =>
      if op = .assign then bf.elim o.right.type fun _ => some T else some T
  | _ => some T

/-- What the tail of the assignment `n` to an object of type `T` rests on. The store goes by the
type `st`. -/
structure AtTail (F : SlotFrame) (Γ : TypeEnv) (E : Env) (g : IrGen) (σ : WordState)
    (bf : Option StructField) (T : CType) (st : Option CType) (o : Operands) (n : Expr) : Prop where
  temps : 1 ≤ g.func.nextTemp
  room : g.func.nextTemp + 5 ≤ F.temps
  addr : o.addr.HasSlot g.func.nextTemp
  old : o.old.HasSlot g.func.nextTemp
  right : o.right.HasSlot g.func.nextTemp
  type : typeIsInteger T = true
  field : ∀ f, bf = some f → f.type = T ∧ FieldPlaced Γ f
  goes : pointeeOrStored o.addr.type (tailStored bf T o n) = st
  word : isFpType st = false
  clear : F.Clear (σ.word E o.addr) (accessBytes Γ (some T))
  clear_store : F.Clear (σ.word E o.addr) (accessBytes Γ st)

theorem AtTail.later {F : SlotFrame} {Γ : TypeEnv} {E : Env} {g g' : IrGen} {σ σ' : WordState}
    {bf : Option StructField} {T : CType} {st : Option CType} {o : Operands} {n : Expr}
    (h : AtTail F Γ E g σ bf T st o n) (htemps : g.func.nextTemp ≤ g'.func.nextTemp)
    (hroom : g'.func.nextTemp + 5 ≤ F.temps) (haddr : σ'.word E o.addr = σ.word E o.addr) :
    AtTail F Γ E g' σ' bf T st o n :=
  { h with
    temps := h.temps.trans htemps
    room := hroom
    addr := h.addr.mono htemps
    old := h.old.mono htemps
    right := h.right.mono htemps
    clear := haddr ▸ h.clear
    clear_store := haddr ▸ h.clear_store }

/-- What holds after a store of the object, `v` being the new value and `x` the word stored. -/
structure Updated (E : Env) (g : IrGen) (σ : WordState) (a : Addr) (k : ℕ) (x w : BitVec 64)
    (v : IRValue) (g' : IrGen) (σ' : WordState) : Prop where
  word : σ'.word E v = w
  slot : v.HasSlot g'.func.nextTemp
  temps : g.func.nextTemp ≤ g'.func.nextTemp
  few : g'.func.nextTemp ≤ g.func.nextTemp + 5
  kept : ∀ t < g.func.nextTemp, σ'.temp t = σ.temp t
  mem : σ'.mem = store σ.mem a k x

theorem Updated.word_kept {E : Env} {g g' : IrGen} {σ σ' : WordState} {a : Addr} {k : ℕ}
    {x w : BitVec 64} {v u : IRValue} (h : Updated E g σ a k x w v g' σ')
    (hu : u.HasSlot g.func.nextTemp) : σ'.word E u = σ.word E u := by
  unfold WordState.word
  cases hk : u.kind with
  | temp t => exact h.kept t (hu.2 t hk).2
  | _ => rfl

section

variable {F : SlotFrame} {Γ : TypeEnv} {E : Env} {g : IrGen} {σ : WordState}
  {bf : Option StructField} {T : CType} {st : Option CType} {o : Operands} {w : BitVec 64}

theorem emits_genReload (bf : Option StructField) (T : CType) (addr : IRValue) :
    Emits (genReload bf T addr) := by
  cases bf with
  | none => exact .genLoad _ _
  | some f => exact .genBitfieldLoad _ _

/-- The load of the object, whatever the operands were. -/
theorem Does.genReload (hT : typeIsInteger T = true)
    (hfield : ∀ f, bf = some f → f.type = T ∧ FieldPlaced Γ f) (hg : 1 ≤ g.func.nextTemp)
    (hF : g.func.nextTemp + 3 ≤ F.temps) (ha : o.addr.HasSlot g.func.nextTemp)
    (hclear : F.Clear (σ.word E o.addr) (accessBytes Γ (some T))) :
    Does F Γ E (genReload bf T o.addr) g σ fun v g' σ' =>
      Yielded E g σ (reloadWord Γ bf T σ.mem (σ.word E o.addr)) v g' σ' ∧
        g'.func.nextTemp ≤ g.func.nextTemp + 3 := by
  have hfp := (integer_facts hT).2.2.2.2
  cases bf with
  | none =>
    exact (genLoad hfp hg (by omega) ha hclear).mono fun _ _ _ ⟨y, n⟩ => ⟨y, by omega⟩
  | some f =>
    obtain ⟨rfl, -⟩ := hfield f rfl
    exact genBitfieldLoad hfp hg hF ha hclear

/-- An operator and the store of its result. -/
def genUpdate (T : CType) (op : IROp) (addr a b : IRValue) : Gen IRValue := do
  let new ← emitTo T op a b
  genStore addr new
  return new

theorem stepTail_eq (op : TokenKind) (addr : IRValue) : stepTail op T addr = do
    let old ← genLoad addr T
    let new ← genUpdate T (if op = .plusplus then .add else .sub) addr old (irvInt 1 typeInt)
    return (old, new) := rfl

theorem Does.genUpdate {op : IROp} {addr a b : IRValue}
    (hT : typeIsInteger T = true) (hop : op.isArith = true) (hg : 1 ≤ g.func.nextTemp)
    (hF : g.func.nextTemp + 1 ≤ F.temps) (haddr : addr.HasSlot g.func.nextTemp)
    (ha : a.HasSlot g.func.nextTemp) (hb : b.HasSlot g.func.nextTemp)
    (hst : pointeeOrStored addr.type (some T) = st) (hword : isFpType st = false)
    (hclear : F.Clear (σ.word E addr) (accessBytes Γ st))
    (hw : machineBinop op false (σ.word E a) (σ.word E b) = some w) :
    Does F Γ E (genUpdate T op addr a b) g σ fun v g' σ' =>
      Updated E g σ (σ.word E addr) (accessBytes Γ st) w w v g' σ' ∧
        g'.func.nextTemp = g.func.nextTemp + 1 := by
  have hfp := (integer_facts hT).2.2.2.2
  refine (emitTo hop hfp hg hF ha hb hw).andThen fun v g₁ σ₁ ⟨y, n, hv⟩ => ?_
  have hkept : σ₁.word E addr = σ.word E addr := y.keeps.word haddr
  have hgoes : pointeeOrStored addr.type v.type = st := by rw [hv, hst]
  refine (genStore (n := accessBytes Γ st) (by rw [hgoes]) (by rw [hgoes, hword])
    (haddr.mono y.temps) y.slot (by omega) (by rwa [hkept])).andThen fun _ g₂ σ₂ ⟨hσ, n₂⟩ =>
      pure ⟨⟨?_, y.slot.mono n₂.ge, by omega, by omega, ?_, ?_⟩, by omega⟩
  · rw [hσ]
    exact y.word
  · rw [hσ]
    exact y.keeps.temp
  · rw [hσ, hkept, y.word, y.keeps.mem]

theorem Stops.genUpdate {op : IROp} {addr a b : IRValue}
    (hT : typeIsInteger T = true) (hop : op.isArith = true) (hg : 1 ≤ g.func.nextTemp)
    (hF : g.func.nextTemp + 1 ≤ F.temps) (ha : a.HasSlot g.func.nextTemp)
    (hb : b.HasSlot g.func.nextTemp)
    (hw : machineBinop op false (σ.word E a) (σ.word E b) = none) :
    Stops F Γ E (genUpdate T op addr a b) g σ :=
  (emitTo hop (integer_facts hT).2.2.2.2 hg hF ha hb hw).bind_left fun _ =>
    .bind (.genStore _ _) fun _ => .pure _

theorem isArith_step (op : TokenKind) :
    (if op = .plusplus then IROp.add else .sub).isArith = true := by
  split <;> rfl

theorem isArith_compound (op : TokenKind) : (tokToIrBinop (compoundBase op)).isArith = true := by
  cases op <;> rfl

/-- `++` and `--`. -/
theorem Does.stepTail {n : Expr} {op : TokenKind} (h : AtTail F Γ E g σ bf T st o n)
    (hgoes : pointeeOrStored o.addr.type (some T) = st)
    (hw : machineBinop (if op = .plusplus then .add else .sub) false
      (readWord Γ (some T) σ.mem (σ.word E o.addr)) 1 = some w) :
    Does F Γ E (stepTail op T o.addr) g σ fun r g' σ' =>
      σ'.word E r.1 = readWord Γ (some T) σ.mem (σ.word E o.addr) ∧
        r.1.HasSlot g'.func.nextTemp ∧
        Updated E g σ (σ.word E o.addr) (accessBytes Γ st) w w r.2 g' σ' := by
  have hroom := h.room
  rw [stepTail_eq]
  refine (genLoad (integer_facts h.type).2.2.2.2 h.temps (by omega) h.addr h.clear).andThen
    fun old g₁ σ₁ ⟨y, n₁⟩ => ?_
  have haddr : σ₁.word E o.addr = σ.word E o.addr := y.keeps.word h.addr
  have hw₁ : machineBinop (if op = .plusplus then .add else .sub) false (σ₁.word E old)
      (σ₁.word E (irvInt 1 typeInt)) = some w := by
    rw [y.word]
    exact hw
  refine (genUpdate h.type (isArith_step op) (h.temps.trans y.temps) (by omega)
    (h.addr.mono y.temps) y.slot (.int _ _) hgoes h.word (by rw [haddr]; exact h.clear_store)
    hw₁).andThen fun new g₂ σ₂ ⟨u, n₂⟩ => pure ⟨?_, y.slot.mono u.temps, u.word, u.slot,
      y.temps.trans u.temps, by omega, ?_, ?_⟩
  · rw [u.word_kept y.slot, y.word]
  · intro t ht
    rw [u.kept t (ht.trans_le y.temps), y.keeps.temp t ht]
  · rw [u.mem, haddr, y.keeps.mem]

/-- `=` and the compound assignments. -/
theorem Does.assignTail {n : Expr} {i : Info} {op : TokenKind} {l r : Expr}
    (hn : n = .assign i op l r) (h : AtTail F Γ E g σ bf T st o n)
    (hw : newWord (σ.word E o.old) (σ.word E o.right) n = some w) :
    Does F Γ E (assignTail op bf T o) g σ
      (Updated E g σ (σ.word E o.addr) (accessBytes Γ st)
        (objectWord Γ bf T σ.mem (σ.word E o.addr) w n) w) := by
  subst hn
  have hroom := h.room
  have hgoes := h.goes
  rw [tailStored] at hgoes
  rw [newWord] at hw
  rw [objectWord]
  unfold TinyC.assignTail
  by_cases hop : op = .assign
  · rw [if_pos hop] at hgoes hw ⊢
    rw [if_pos hop]
    cases hw
    cases bf with
    | none =>
      refine (genStore (n := accessBytes Γ st) (by rw [← hgoes]; rfl)
        ((congrArg isFpType hgoes).trans h.word) h.addr h.right (by omega) h.clear_store).andThen
        fun _ g₁ σ₁ ⟨hσ, n₁⟩ => pure ⟨?_, h.right.mono n₁.ge, by omega, by omega, ?_, ?_⟩
      · rw [hσ]
        rfl
      · rw [hσ]
        exact fun _ _ => rfl
      · rw [hσ]
        rfl
    | some f =>
      obtain ⟨rfl, -⟩ := h.field f rfl
      refine (genBitfieldStore (n := accessBytes Γ st) (by rw [← hgoes]; rfl)
        ((congrArg isFpType hgoes).trans h.word) (integer_facts h.type).2.2.2.2 h.temps (by omega)
        h.addr h.right h.clear h.clear_store).mono
        fun v g₁ σ₁ ⟨hv, hle, hfew, hkept, hmem⟩ => ?_
      have hword : σ₁.word E o.right = σ.word E o.right := by
        unfold WordState.word
        cases hk : o.right.kind with
        | temp t => exact hkept t (h.right.2 t hk).2
        | _ => rfl
      subst hv
      exact ⟨hword, h.right.mono hle, hle, hfew, hkept, hmem⟩
  · rw [if_neg hop] at hgoes hw ⊢
    rw [if_neg hop]
    exact (genUpdate h.type (isArith_compound op) h.temps (by omega) h.addr h.old h.right hgoes
      h.word h.clear_store hw).mono fun _ _ _ h => h.1

/-- The value of the expression and what a load gives. -/
theorem Does.tailWithReload {n l : Expr} (hn : assignedLvalue n = some l)
    (h : AtTail F Γ E g σ bf T st o n) (hroom : g.func.nextTemp + 8 ≤ F.temps) {old : BitVec 64}
    (hold : oldWord Γ T σ.mem (σ.word E o.addr) (σ.word E o.old) n = old)
    (hw : newWord old (σ.word E o.right) n = some w) :
    Does F Γ E (tailWithReload bf T o n) g σ fun r g' σ' =>
      σ'.word E r.1 = tailValue old w n ∧ σ'.word E r.2 =
        tailReload Γ bf T (accessBytes Γ st) σ.mem (σ.word E o.addr) w n ∧
      r.1.HasSlot g'.func.nextTemp ∧ r.2.HasSlot g'.func.nextTemp ∧
      g'.func.nextTemp ≤ g.func.nextTemp + 8 := by
  subst hold
  -- a load after the store
  have hafter : ∀ {x : BitVec 64} {v : IRValue} {g₁ : IrGen} {σ₁ : WordState},
      Updated E g σ (σ.word E o.addr) (accessBytes Γ st) x w v g₁ σ₁ →
      Does F Γ E (TinyC.genReload bf T o.addr >>= fun r => Pure.pure (v, r)) g₁ σ₁
        fun r g' σ' => σ'.word E r.1 = w ∧ σ'.word E r.2 = reloadWord Γ bf T
          (store σ.mem (σ.word E o.addr) (accessBytes Γ st) x) (σ.word E o.addr) ∧
          r.1.HasSlot g'.func.nextTemp ∧ r.2.HasSlot g'.func.nextTemp ∧
          g'.func.nextTemp ≤ g.func.nextTemp + 8 := by
    intro x v g₁ σ₁ u
    have hfew := u.few
    have haddr := u.word_kept h.addr
    refine (genReload h.type h.field (h.temps.trans u.temps) (by omega) (h.addr.mono u.temps)
      (by rw [haddr]; exact h.clear)).andThen fun r g₂ σ₂ ⟨y, n₂⟩ =>
        pure ⟨?_, ?_, u.slot.mono y.temps, y.slot, by omega⟩
    · rw [y.keeps.word u.slot, u.word]
    · rw [y.word, haddr, u.mem]
  cases n with
  | assign i op l' r => exact (assignTail rfl h hw).andThen fun v g₁ σ₁ u => hafter u
  | unop i op l' =>
    exact (stepTail h h.goes hw).andThen fun v g₁ σ₁ ⟨_, _, u⟩ => hafter u
  | postop i op l' =>
    refine (genReload h.type h.field h.temps (by omega) h.addr h.clear).andThen
      fun r g₁ σ₁ ⟨y, n₁⟩ => ?_
    have haddr : σ₁.word E o.addr = σ.word E o.addr := y.keeps.word h.addr
    have hmem := y.keeps.mem
    have hread : readWord Γ (some T) σ₁.mem (σ₁.word E o.addr) =
        readWord Γ (some T) σ.mem (σ.word E o.addr) := by rw [haddr, hmem]
    have hread' : oldWord Γ T σ.mem (σ.word E o.addr) (σ.word E o.old) (.postop i op l') =
        readWord Γ (some T) σ₁.mem (σ₁.word E o.addr) := hread.symm
    rw [newWord, hread'] at hw
    refine (stepTail (h.later y.temps (by omega) haddr) h.goes hw).andThen
      fun v g₂ σ₂ ⟨hold, hslot, u⟩ => pure ⟨hold.trans hread, ?_, hslot, y.slot.mono u.temps, ?_⟩
    · rw [u.word_kept y.slot, y.word]
      rfl
    · have hfew := u.few
      omega
  | _ => cases hn

/-- Only a division faults. -/
theorem Stops.tailWithReload {n l : Expr} (hn : assignedLvalue n = some l)
    (h : AtTail F Γ E g σ bf T st o n) {old : BitVec 64}
    (hold : oldWord Γ T σ.mem (σ.word E o.addr) (σ.word E o.old) n = old)
    (hw : newWord old (σ.word E o.right) n = none) :
    Stops F Γ E (tailWithReload bf T o n) g σ := by
  have hroom := h.room
  cases n with
  | assign i op l' r =>
    rw [← hold, newWord] at hw
    by_cases hop : op = .assign
    · rw [if_pos hop] at hw
      cases hw
    · rw [if_neg hop] at hw
      unfold TinyC.tailWithReload TinyC.assignTail
      simp only [if_neg hop]
      exact (genUpdate h.type (isArith_compound op) h.temps (by omega) h.old h.right hw).bind_left
        fun v => .bind (emits_genReload _ _ _) fun _ => .pure _
  | unop i op l' | postop i op l' =>
    rw [newWord] at hw
    by_cases hop : op = .plusplus
    · rw [if_pos hop] at hw
      cases hw
    · rw [if_neg hop] at hw
      cases hw
  | _ => cases hn

end

/-! ### Agreement -/

/-- Stored in `k` bytes over the object `u`, the word is read back as it is: it is the extension of
its low bits, and the bytes of the object beyond the store agree with it. -/
def ReadsBack (Γ : TypeEnv) (T : CType) (k : ℕ) (w u : BitVec 64) : Prop :=
  Canonical (typeIsSigned T) (T.bits Γ) w ∧
    ∀ i, 8 * k ≤ i → i < T.bits Γ → w.getLsbD i = u.getLsbD i

/-- The words for which the value of the assignment is what a load gives. `=` stores to a bit-field
alone; the other operators work on the whole unit. -/
def ValueKept (Γ : TypeEnv) (bf : Option StructField) (T : CType) (k : ℕ) (u old w : BitVec 64) :
    Expr → Prop
  | .assign _ op _ _ =>
      if op = .assign then bf.elim (ReadsBack Γ T k w u) fun f => FieldFits f w
      else bf.elim (ReadsBack Γ T k w u) fun f => FillsUnit f w
  | .postop _ _ _ => bf.elim True fun f => FillsUnit f old
  | _ => bf.elim (ReadsBack Γ T k w u) fun f => FillsUnit f w

section

variable {Γ : TypeEnv} {bf : Option StructField} {T : CType} {k : ℕ} {m : Mem} {a : Addr}
  {old w u : BitVec 64} {n l : Expr}

/-- A whole unit is read back as the field only if the field fills it. -/
theorem reloadWord_whole_iff (hT : typeIsInteger T = true)
    (hfield : ∀ f, bf = some f → (f.type = T ∧ FieldPlaced Γ f) ∧ typeSizeof Γ T ≤ k)
    (hk : k ≤ 8) :
    w = reloadWord Γ bf T (store m a k w) a ↔
      bf.elim (ReadsBack Γ T k w (load m a (accessBytes Γ (some T)))) fun f => FillsUnit f w := by
  rw [eq_comm]
  cases bf with
  | none =>
    change readWord Γ (some T) (store m a k w) a = w ↔ ReadsBack Γ T k w _
    rw [readWord_store hT hk, reread_eq_self_iff hT, ReadsBack]
  | some f =>
    obtain ⟨⟨rfl, hplaced⟩, hcover⟩ := hfield f rfl
    change fieldOf f (readWord Γ (some f.type) (store m a k w) a) = w ↔ FillsUnit f w
    rw [readWord_store hT hk, reread_covered hT hcover, fieldOf_extend_eq_iff hplaced]

theorem tailValue_eq_iff (hn : assignedLvalue n = some l) (hT : typeIsInteger T = true)
    (hfield : ∀ f, bf = some f → (f.type = T ∧ FieldPlaced Γ f) ∧ typeSizeof Γ T ≤ k)
    (hk : k ≤ 8) (hold : ∀ i op l', n = .postop i op l' → old = readWord Γ (some T) m a) :
    tailValue old w n = tailReload Γ bf T k m a w n ↔
      ValueKept Γ bf T k (load m a (accessBytes Γ (some T))) old w n := by
  cases n with
  | assign i op l' r =>
    rw [ValueKept]
    by_cases hop : op = .assign
    · rw [if_pos hop]
      cases bf with
      | none =>
        have hobject : tailReload Γ none T k m a w (.assign i op l' r) =
            reloadWord Γ none T (store m a k w) a := by
          simp [tailReload, objectWord]
        rw [hobject]
        exact reloadWord_whole_iff hT hfield hk
      | some f =>
        obtain ⟨⟨rfl, hplaced⟩, hcover⟩ := hfield f rfl
        have hobject : tailReload Γ (some f) f.type k m a w (.assign i op l' r) = fieldOf f
            (readWord Γ (some f.type) (store m a k
              (withField f (readWord Γ (some f.type) m a) w)) a) := by
          simp [tailReload, objectWord, hop, reloadWord]
        rw [hobject, readWord_store hT hk, fieldOf_store hplaced hcover, eq_comm]
        exact storedField_eq_iff
    · rw [if_neg hop]
      have hobject : tailReload Γ bf T k m a w (.assign i op l' r) =
          reloadWord Γ bf T (store m a k w) a := by
        simp [tailReload, objectWord, hop]
      rw [hobject]
      exact reloadWord_whole_iff hT hfield hk
  | unop i op l' => exact reloadWord_whole_iff hT hfield hk
  | postop i op l' =>
    have hread := hold i op l' rfl
    subst hread
    cases bf with
    | none => simp [tailValue, tailReload, reloadWord, ValueKept]
    | some f =>
      obtain ⟨⟨rfl, hplaced⟩, -⟩ := hfield f rfl
      have hbits := word_bits_le (Γ := Γ) (integer_isWord hT)
      have hunit : readWord Γ (some f.type) m a =
          extend (typeIsSigned f.type) (f.type.bits Γ) (readWord Γ (some f.type) m a) := by
        conv_lhs => rw [readWord_integer hT]
        rw [readWord_integer hT]
        exact canonical_extend hbits.1 hbits.2 _
      change readWord Γ (some f.type) m a = fieldOf f (readWord Γ (some f.type) m a) ↔
        FillsUnit f (readWord Γ (some f.type) m a)
      rw [← fieldOf_extend_eq_iff hplaced, ← hunit, eq_comm]
  | _ => cases hn

end

/-! ### Operands -/

section

variable {Γ : TypeEnv} {g : IrGen} {n l : Expr} {T : CType}

/-- The address of a bit-field points to the type of the field. -/
theorem bitField_place (sc : ScopeChain VarEntry) {f : StructField}
    (h : bitFieldOf Γ l = some f) : ∃ q, (staticTypes Γ sc l).place = some (.pointer f.type q) := by
  have hmember : memberField Γ l = some f := (Option.filter_eq_some_iff.mp h).1
  have hfound : ∀ {ty : Option CType} {field : String},
      (findField Γ ty field).head? = some f →
      ∃ fs offset, (ty.bind fun t => findFieldWithOffset Γ t field) = some (f :: fs, offset) := by
    intro ty field hf
    cases ty with
    | none => cases hf
    | some t =>
      rw [findField] at hf
      cases hsearch : findFieldWithOffset Γ t field with
      | none =>
        rw [hsearch] at hf
        cases hf
      | some r =>
        rw [hsearch] at hf
        obtain ⟨fields, offset⟩ := r
        obtain ⟨fs, rfl⟩ := List.head?_eq_some_iff.mp hf
        exact ⟨fs, offset, hsearch⟩
  cases l with
  | member i b field =>
    obtain ⟨fs, offset, hf⟩ := hfound hmember
    obtain ⟨q, hq⟩ := memberPlace_points (staticTypes Γ sc b).place hf
    exact ⟨q, by rw [staticTypes, hq]⟩
  | memberPtr i b field =>
    obtain ⟨fs, offset, hf⟩ := hfound hmember
    obtain ⟨q, hq⟩ := memberPlace_points (staticTypes Γ sc b).value hf
    exact ⟨q, by rw [staticTypes, hq]⟩
  | _ => cases hmember

/-- What is at hand after the operands have been computed. -/
theorem assignOperands_slots (hn : assignedLvalue n = some l) (hg : g.Ready) :
    Extends g (assignOperands Γ T n g).2 ∧
      (assignOperands Γ T n g).1.addr = (genLvalue Γ l g).1 ∧
      (assignOperands Γ T n g).1.addr.HasSlot (assignOperands Γ T n g).2.func.nextTemp ∧
      (assignOperands Γ T n g).1.old.HasSlot (assignOperands Γ T n g).2.func.nextTemp ∧
      (assignOperands Γ T n g).1.right.HasSlot (assignOperands Γ T n g).2.func.nextTemp := by
  have hemit := (genNode_emits Γ l).lvalue g
  have haddr := (genNode_givesSlots Γ l).lvalue g hg
  cases n with
  | assign i op l' r =>
    cases hn
    let g₁ := (genLvalue Γ l g).2
    have hg₁ : g₁.Ready := hg.extends hemit
    unfold assignOperands
    by_cases hop : op = .assign
    · simp only [hop, if_true]
      have hright := (genNode_emits Γ r).expr g₁
      exact ⟨hemit.trans hright, rfl, haddr.mono hright.temps, haddr.mono hright.temps,
        (genNode_givesSlots Γ r).expr g₁ hg₁⟩
    · simp only [hop, if_false]
      let a := (genLvalue Γ l g).1
      let g₂ := (genLoad a T g₁).2
      have hload : Extends g₁ g₂ := Emits.genLoad a T g₁
      have hold : (genLoad a T g₁).1.HasSlot g₂.func.nextTemp :=
        GivesSlots.emitTo T .load a _ g₁ hg₁
      have hright := (genNode_emits Γ r).expr g₂
      exact ⟨(hemit.trans hload).trans hright, rfl, haddr.mono (hload.temps.trans hright.temps),
        hold.mono hright.temps, (genNode_givesSlots Γ r).expr g₂ (hg₁.extends hload)⟩
  | unop i op l' =>
    rw [assignedLvalue] at hn
    split at hn
    · cases hn
      exact ⟨hemit, rfl, haddr, haddr, haddr⟩
    · cases hn
  | postop i op l' =>
    cases hn
    exact ⟨hemit, rfl, haddr, haddr, haddr⟩
  | _ => cases hn

/-- The store of the tail goes by the type of the assignment's store. -/
theorem tailStored_goes (hn : assignedLvalue n = some l) (hty : n.type = some T) (hg : g.Ready) :
    pointeeOrStored (assignOperands Γ T n g).1.addr.type
      (tailStored (bitFieldOf Γ l) T (assignOperands Γ T n g).1 n) =
      assignmentStoreType Γ g.scope n l := by
  have hplace : (assignOperands Γ T n g).1.addr.type = (staticTypes Γ g.scope l).place := by
    rw [(assignOperands_slots hn hg).2.1]
    exact (genNode_hasTypes Γ g.scope l).lvalue g rfl
  rw [hplace, assignmentStoreType]
  cases hbf : bitFieldOf Γ l with
  | some f =>
    obtain ⟨q, hq⟩ := bitField_place g.scope hbf
    rw [hq]
    rfl
  | none =>
    congr 1
    cases n with
    | assign i op l' r =>
      have hi : i.type = some T := hty
      cases hn
      rw [tailStored, storedType]
      by_cases hop : op = .assign
      · have hscope : (genLvalue Γ l g).2.scope = g.scope := ((genNode_emits Γ l).lvalue g).scope
        rw [if_pos hop, if_pos hop]
        unfold assignOperands
        simp only [hop, if_true]
        exact (genNode_hasTypes Γ g.scope r).expr _ hscope
      · rw [if_neg hop, if_neg hop, hi]
        rfl
    | unop i op l' | postop i op l' => exact congrArg (fun ty => some (ty.getD typeInt)) hty.symm
    | _ => cases hn

end

/-! ### Runs -/

/-- After `g`, the code of `m` ends. -/
def CodeEnds {α : Type} (E : Env) (Γ : TypeEnv) (f : IRFunc) (ra : RegAlloc) (s : MState)
    (m : Gen α) (g : IrGen) : Prop :=
  ∃ code s', (m g).2.func.instrs = g.func.instrs ++ code ∧
    execIr E Γ f ra code s = some (s', .fall)

/-- Wherever the code of `m` ends, the two values it picks are the same word. -/
def ValuesAgree (E : Env) (Γ : TypeEnv) (f : IRFunc) (ra : RegAlloc) (s : MState)
    (m : Gen (IRValue × IRValue)) (g : IrGen) : Prop :=
  ∃ code, (m g).2.func.instrs = g.func.instrs ++ code ∧
    ∀ s' exit, execIr E Γ f ra code s = some (s', exit) →
      operandWord E ra s' .rax (m g).1.1 = operandWord E ra s' .rax (m g).1.2

section

variable {F : SlotFrame} {Γ : TypeEnv} {E : Env} {g : IrGen} {bf : Option StructField} {T : CType}
  {st : Option CType} {o : Operands} {s : MState} {n l : Expr}

theorem tailWithReload_emits (bf : Option StructField) (T : CType) (o : Operands) (n : Expr) :
    Emits (tailWithReload bf T o n) := by
  have hreload := emits_genReload bf T o.addr
  have hupdate : ∀ op a b, op.isArith = true → Emits (genUpdate T op o.addr a b) := by
    intro op a b hop
    have hlabel : op ≠ .label := by
      rintro rfl
      cases hop
    exact .bind (.emitTo hlabel) fun _ => .bind (.genStore _ _) fun _ => .pure _
  have hstep : ∀ op, Emits (stepTail op T o.addr) := by
    intro op
    rw [stepTail_eq]
    exact .bind (.genLoad _ _) fun _ => .bind (hupdate _ _ _ (isArith_step op)) fun _ => .pure _
  cases n with
  | assign i op l r =>
    refine .bind ?_ fun _ => .bind hreload fun _ => .pure _
    unfold assignTail
    split
    · cases bf with
      | none => exact .bind (.genStore _ _) fun _ => .pure _
      | some f => exact .genBitfieldStore _ _ _
    · exact hupdate _ _ _ (isArith_compound op)
  | unop i op l => exact .bind (hstep op) fun _ => .bind hreload fun _ => .pure _
  | postop i op l => exact .bind hreload fun _ => .bind (hstep op) fun _ => .pure _
  | _ => exact .pure _

theorem tail_runs (f : IRFunc) (hn : assignedLvalue n = some l) (hs : s.reg .rbp = F.bp)
    (h : AtTail F Γ E g (F.view s) bf T st o n) (hroom : g.func.nextTemp + 8 ≤ F.temps)
    (hst : bf.isSome → st = some T) {a : Addr} {old right : BitVec 64}
    (ha : operandWord E F.ra s .rax o.addr = a)
    (hold : oldWord Γ T s.mem a (operandWord E F.ra s .rax o.old) n = old)
    (hright : operandWord E F.ra s .rax o.right = right) :
    (CodeEnds E Γ f F.ra s (tailWithReload bf T o n) g ↔ (newWord old right n).isSome) ∧
    (ValuesAgree E Γ f F.ra s (tailWithReload bf T o n) g ↔
      ∀ w, newWord old right n = some w →
        ValueKept Γ bf T (accessBytes Γ st) (load s.mem a (accessBytes Γ (some T))) old w n) := by
  have hholds := F.holds_view hs
  have husable : ∀ {v : IRValue}, v.HasSlot g.func.nextTemp → F.Usable v :=
    fun hv => F.usable_of_hasSlot hv (by omega)
  have hviewAddr : (F.view s).word E o.addr = a := by
    rw [← hholds.operandWord (husable h.addr) .rax, ha]
  have hviewOld : (F.view s).word E o.old = operandWord E F.ra s .rax o.old :=
    (hholds.operandWord (husable h.old) .rax).symm
  have hviewRight : (F.view s).word E o.right = right := by
    rw [← hholds.operandWord (husable h.right) .rax, hright]
  have hviewMem : oldWord Γ T (F.view s).mem ((F.view s).word E o.addr) ((F.view s).word E o.old) n
      = old := by rw [hviewAddr, hviewOld, ← hold]; rfl
  obtain ⟨code, hcode, -⟩ := (tailWithReload_emits bf T o n g).code
  have hunique : ∀ {code'}, (tailWithReload bf T o n g).2.func.instrs = g.func.instrs ++ code' →
      code' = code := fun h => List.append_cancel_left (h.symm.trans hcode)
  cases hw : newWord old right n with
  | none =>
    rw [← hviewRight] at hw
    have hfault := (Stops.tailWithReload hn h hviewMem hw).exec hholds f hcode
    refine ⟨iff_of_false ?_ Bool.false_ne_true, iff_of_true ⟨code, hcode, ?_⟩ nofun⟩
    · rintro ⟨code', s', hcode', hexec⟩
      rw [hunique hcode', hfault] at hexec
      cases hexec
    · intro s' exit hexec
      rw [hfault] at hexec
      cases hexec
  | some w =>
    rw [← hviewRight] at hw
    obtain ⟨s', σ', hexec, hholds', hvalue, hreload, hslot, hslot', htemps⟩ :=
      (Does.tailWithReload hn h hroom hviewMem hw).exec hholds f hcode
    have hword : ∀ {v : IRValue}, v.HasSlot (tailWithReload bf T o n g).2.func.nextTemp →
        operandWord E F.ra s' .rax v = σ'.word E v := by
      intro v hv
      exact hholds'.operandWord (F.usable_of_hasSlot hv (by omega)) .rax
    have hagree : ValuesAgree E Γ f F.ra s (tailWithReload bf T o n) g ↔
        tailValue old w n = tailReload Γ bf T (accessBytes Γ st) s.mem a w n := by
      rw [← hviewAddr, ← hvalue, ← hword hslot]
      have hreload' : operandWord E F.ra s' .rax (tailWithReload bf T o n g).1.2 =
          tailReload Γ bf T (accessBytes Γ st) s.mem ((F.view s).word E o.addr) w n :=
        (hword hslot').trans hreload
      rw [← hreload']
      constructor
      · rintro ⟨code', hcode', heq⟩
        rw [hunique hcode'] at heq
        exact heq s' .fall hexec
      · intro heq
        refine ⟨code, hcode, fun s₁ exit hexec₁ => ?_⟩
        rw [hexec] at hexec₁
        cases hexec₁
        exact heq
    refine ⟨iff_of_true ⟨code, s', hcode, hexec⟩ rfl, hagree.trans ?_⟩
    have hfield : ∀ f, bf = some f →
        (f.type = T ∧ FieldPlaced Γ f) ∧ typeSizeof Γ T ≤ accessBytes Γ st := by
      intro f hf
      refine ⟨h.field f hf, ?_⟩
      rw [hst (by rw [hf]; rfl), (accessBytes_integer h.type).1]
    have hread : ∀ i op l', n = .postop i op l' → old = readWord Γ (some T) s.mem a := by
      rintro i op l' rfl
      exact hold.symm
    refine (tailValue_eq_iff hn h.type hfield (Width.bytes_le _) hread).trans ?_
    exact ⟨fun hk w' hw' => by cases hw'; exact hk, fun hk => hk w rfl⟩

/-- The processor is about to run the tail of an assignment: the frame has slots for it, and the
object at `a` is clear of them. -/
structure TailFrame (F : SlotFrame) (Γ : TypeEnv) (s : MState) (g : IrGen) (T : CType)
    (st : Option CType) (a : Addr) : Prop where
  bp : s.reg .rbp = F.bp
  room : g.func.nextTemp + 8 ≤ F.temps
  clear : F.Clear a (accessBytes Γ (some T))
  clear_store : F.Clear a (accessBytes Γ st)

/-- The runs of the tail, the operands being at hand. -/
theorem assignment_tail_runs (hn : assignedLvalue n = some l) (hty : n.type = some T)
    (hT : typeIsInteger T = true) (hg : g.Ready)
    (hfield : ∀ f, bitFieldOf Γ l = some f → f.type = T ∧ FieldPlaced Γ f)
    (hword : isFpType (assignmentStoreType Γ g.scope n l) = false) (f : IRFunc) {o : Operands}
    {g' : IrGen} (ho : assignOperands Γ T n g = (o, g')) {a : Addr} {old right : BitVec 64}
    (hs : TailFrame F Γ s g' T (assignmentStoreType Γ g.scope n l) a)
    (ha : operandWord E F.ra s .rax o.addr = a)
    (hold : oldWord Γ T s.mem a (operandWord E F.ra s .rax o.old) n = old)
    (hright : operandWord E F.ra s .rax o.right = right) :
    (CodeEnds E Γ f F.ra s (tailWithReload (bitFieldOf Γ l) T o n) g' ↔
      (newWord old right n).isSome) ∧
    (ValuesAgree E Γ f F.ra s (tailWithReload (bitFieldOf Γ l) T o n) g' ↔
      ∀ w, newWord old right n = some w → ValueKept Γ (bitFieldOf Γ l) T
        (accessBytes Γ (assignmentStoreType Γ g.scope n l))
        (load s.mem a (accessBytes Γ (some T))) old w n) := by
  obtain ⟨hext, -, haddr, hslot, hslot'⟩ := assignOperands_slots (Γ := Γ) (T := T) hn hg
  have hgoes := tailStored_goes (Γ := Γ) hn hty hg
  rw [ho] at hext haddr hslot hslot' hgoes
  dsimp only at hext haddr hslot hslot' hgoes
  have hroom := hs.room
  have hview : (F.view s).word E o.addr = a := by
    rw [← (F.holds_view hs.bp).operandWord (F.usable_of_hasSlot haddr (by omega)) .rax, ha]
  have htail : AtTail F Γ E g' (F.view s) (bitFieldOf Γ l) T (assignmentStoreType Γ g.scope n l) o
      n :=
    { temps := (hg.extends hext).temps
      room := by omega
      addr := haddr
      old := hslot
      right := hslot'
      type := hT
      field := hfield
      goes := hgoes
      word := hword
      clear := by rw [hview]; exact hs.clear
      clear_store := by rw [hview]; exact hs.clear_store }
  refine tail_runs f hn hs.bp htail hroom (fun hsome => ?_) ha hold hright
  obtain ⟨fld, hfld⟩ := Option.isSome_iff_exists.mp hsome
  obtain ⟨q, hq⟩ := bitField_place g.scope hfld
  rw [assignmentStoreType, hq, ← (hfield fld hfld).1]
  rfl

end

/-- The address of an assignment's lvalue is computed once, with the operands. The value of the
assignment is what a load of the object gives, after it or before `l++` and `l--`, exactly when
the new word is one that the object keeps. -/
theorem assigned_value_iff (Γ : TypeEnv) (g : IrGen) (n l : Expr) (T : CType)
    (hn : assignedLvalue n = some l) (hl : l.type = some T) (hty : n.type = some T)
    (hT : typeIsInteger T = true) (hg : g.Ready)
    (hfield : ∀ f, bitFieldOf Γ l = some f → f.type = T ∧ FieldPlaced Γ f)
    (hword : isFpType (assignmentStoreType Γ g.scope n l) = false) :
    (genExpr Γ n = assignOperands Γ T n >>= fun o => tailOf (bitFieldOf Γ l) T o n) ∧
    ∀ (E : Env) (f : IRFunc) (F : SlotFrame) (s : MState) (o : Operands) (g' : IrGen) (a : Addr)
      (old right : BitVec 64), assignOperands Γ T n g = (o, g') →
      TailFrame F Γ s g' T (assignmentStoreType Γ g.scope n l) a →
      operandWord E F.ra s .rax o.addr = a →
      oldWord Γ T s.mem a (operandWord E F.ra s .rax o.old) n = old →
      operandWord E F.ra s .rax o.right = right →
      (CodeEnds E Γ f F.ra s (tailWithReload (bitFieldOf Γ l) T o n) g' ↔
        (newWord old right n).isSome) ∧
      (ValuesAgree E Γ f F.ra s (tailWithReload (bitFieldOf Γ l) T o n) g' ↔
        ∀ w, newWord old right n = some w → ValueKept Γ (bitFieldOf Γ l) T
          (accessBytes Γ (assignmentStoreType Γ g.scope n l))
          (load s.mem a (accessBytes Γ (some T))) old w n) :=
  ⟨genExpr_assignment hn hl hty hT, fun _ f _ _ _ _ _ _ _ ho hs ha hold hright =>
    assignment_tail_runs hn hty hT hg hfield hword f ho hs ha hold hright⟩

/-- After `unsigned char c;`. -/
def afterUcharVar : IrGen where
  func := { name := "f", funcType := none, nextTemp := 2 }
  scope := ScopeChain.define vtabBuckets [fun _ => []] "c"
    ⟨irvTemp 1 (typePointer typeUchar .none), false⟩

/-- The lvalue `c`. -/
def ucharVar : Expr := .ident { type := some typeUchar } "c"

def ucharPlace : IRValue := irvTemp 1 (typePointer typeUchar .none)

theorem lookup_afterUcharVar :
    afterUcharVar.scope.lookup vtabBuckets "c" = some ⟨ucharPlace, false⟩ :=
  (ScopeChain.lookup_define "c").trans (if_pos rfl)

theorem genLvalue_ucharVar :
    genLvalue .empty ucharVar afterUcharVar = (ucharPlace, afterUcharVar) := by
  change genIdentLvalue "c" afterUcharVar = _
  rw [genIdentLvalue, Gen.run_vscopeLookup_bind, lookup_afterUcharVar]
  rfl

theorem ready_afterUcharVar : afterUcharVar.Ready where
  temps := by decide
  scope := by
    intro fr hfr b p hp
    have hdefined : fr ∈ ScopeChain.define vtabBuckets [fun _ => []] "c" ⟨ucharPlace, false⟩ := hfr
    rcases ScopeChain.mem_define hdefined hp with heq | ⟨fr', hfr', hp'⟩
    · rw [heq]
      exact .temp _ (by decide) (by decide)
    · cases List.mem_singleton.mp hfr'
      cases hp'

/-- `++c` or `--c`. -/
def stepUchar (op : TokenKind) : Expr := .unop { type := some typeUchar } op ucharVar

theorem storeType_stepUchar (op : TokenKind) :
    assignmentStoreType .empty afterUcharVar.scope (stepUchar op) ucharVar = some typeUchar :=
  ident_storeType lookup_afterUcharVar rfl

theorem assignOperands_stepUchar (op : TokenKind) :
    assignOperands .empty typeUchar (stepUchar op) afterUcharVar =
      (⟨ucharPlace, ucharPlace, ucharPlace⟩, afterUcharVar) := by
  change (genLvalue .empty ucharVar >>= fun a => pure (⟨a, a, a⟩ : Operands)) afterUcharVar = _
  exact congrArg (fun r : IRValue × IrGen => ((⟨r.1, r.1, r.1⟩ : Operands), r.2)) genLvalue_ucharVar

def sixteenTemps : IRFunc := { emptyFunc with nextTemp := 16 }

def sixteenSlots : SlotFrame := .ofFunc sixteenTemps 0 (by decide)

/-- The variable is at address 0 and holds 0. -/
theorem frame_stepUchar (op : TokenKind) : TailFrame sixteenSlots .empty (slotsState 0 0)
    afterUcharVar typeUchar (assignmentStoreType .empty afterUcharVar.scope (stepUchar op) ucharVar)
    0 where
  bp := rfl
  room := by decide
  clear := SlotFrame.ofFunc_clear (by decide)
  clear_store := by
    rw [storeType_stepUchar]
    exact SlotFrame.ofFunc_clear (by decide)

/-- `++c` has the value 1, and so has `c` after it. -/
theorem increment_uchar_agrees :
    ValuesAgree idleEnv .empty sixteenTemps sixteenSlots.ra (slotsState 0 0)
      (tailWithReload none typeUchar ⟨ucharPlace, ucharPlace, ucharPlace⟩ (stepUchar .plusplus))
      afterUcharVar := by
  have hgoes := storeType_stepUchar .plusplus
  have hword : isFpType (assignmentStoreType .empty afterUcharVar.scope (stepUchar .plusplus)
      ucharVar) = false := by
    rw [hgoes]
    rfl
  have hruns := (assigned_value_iff .empty afterUcharVar (stepUchar .plusplus) ucharVar typeUchar
    rfl rfl rfl rfl ready_afterUcharVar nofun hword).2 idleEnv sixteenTemps sixteenSlots
    (slotsState 0 0) _ _ 0 0 0 (assignOperands_stepUchar .plusplus) (frame_stepUchar .plusplus)
    (by decide) (by decide) (by decide)
  refine hruns.2.mpr fun w hw => ?_
  cases hw
  rw [hgoes]
  exact ⟨by decide, by decide⟩

/-- `--c` has the value -1, but `c` is 255 after it. -/
theorem decrement_uchar_disagrees :
    ¬ValuesAgree idleEnv .empty sixteenTemps sixteenSlots.ra (slotsState 0 0)
      (tailWithReload none typeUchar ⟨ucharPlace, ucharPlace, ucharPlace⟩ (stepUchar .minusminus))
      afterUcharVar := by
  have hgoes := storeType_stepUchar .minusminus
  have hword : isFpType (assignmentStoreType .empty afterUcharVar.scope (stepUchar .minusminus)
      ucharVar) = false := by
    rw [hgoes]
    rfl
  have hruns := assignment_tail_runs (Γ := .empty) (E := idleEnv) (g := afterUcharVar)
    (n := stepUchar .minusminus) (l := ucharVar) (T := typeUchar) rfl rfl rfl ready_afterUcharVar
    nofun hword sixteenTemps (assignOperands_stepUchar .minusminus) (frame_stepUchar .minusminus)
    (a := 0) (by decide) rfl rfl
  intro h
  have hcanonical := (hruns.2.mp h (-1) (by decide)).1
  revert hcanonical
  decide

end TinyC
