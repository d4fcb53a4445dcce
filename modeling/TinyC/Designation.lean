import TinyC.Decay
import TinyC.ExprRuns
import TinyC.SlotValues
import TinyC.WordIr

/-!
# The objects that expressions designate

A name designates an object by what C makes of its declaration, and any other lvalue by what its
parts are worth. The generator works on words; the address it computes for an lvalue is to be
compared with where that object lies.
-/

namespace TinyC

open ByteMemory

/-- A machine that computes addresses. What loads and calls give and what becomes of the memory is
left open. -/
structure AddressMachine (W : Type) extends LiveMachine W (BitVec 64) where
  layout : ObjectLayout
  literal_eq : ∀ v, literal v = layout.operand (fun _ => 0) v
  alloca : ∀ {i w τ t}, i.op = .alloca → i.dst.kind = .temp t → live (effect i w τ).1 →
    (effect i w τ).2 t = layout.place t
  add : ∀ {i w τ t}, i.op = .add → i.dst.kind = .temp t → live (effect i w τ).1 →
    (effect i w τ).2 t =
      toIrMachine.operand τ i.src1 + toIrMachine.operand τ i.src2
  sub : ∀ {i w τ t}, i.op = .sub → i.dst.kind = .temp t → live (effect i w τ).1 →
    (effect i w τ).2 t =
      toIrMachine.operand τ i.src1 - toIrMachine.operand τ i.src2
  mul : ∀ {i w τ t}, i.op = .mul → i.dst.kind = .temp t → live (effect i w τ).1 →
    (effect i w τ).2 t =
      toIrMachine.operand τ i.src1 * toIrMachine.operand τ i.src2

theorem AddressMachine.operand_eq {W : Type} (A : AddressMachine W) (τ : ℕ → BitVec 64)
    (v : IRValue) : A.operand τ v = A.layout.operand τ v := by
  obtain ⟨kind, ty⟩ := v
  cases kind with
  | temp t => rfl
  | _ => exact A.literal_eq _

namespace ObjectLayout

variable {Γ : TypeEnv} {K : ObjectLayout} {i : IRInstr} {w : Option Mem} {τ : ℕ → BitVec 64}

end ObjectLayout

/-! ### What names stand for -/

inductive Lifetime where
  | static | external | automatic
  deriving DecidableEq, Repr

/-- What the storage class and the type of a block-scope declaration make of its name. -/
def VarDecl.lifetime (v : VarDecl) : Lifetime :=
  if v.storage = .externScope ∨ (v.declType.getD typeInt).isFunc then .external
  else if v.storage = .static then .static
  else .automatic

/-- What C makes of a name where an expression stands. The storage that irgen reserves for a
declaration in a block or a parameter is that of the temp `t`. -/
inductive Binding where
  /-- Declared at file scope, or a function, or not declared at all. -/
  | file
  | block (t : ℕ) (life : Lifetime)
  /-- A parameter declared with an array or function type, which is a pointer. -/
  | passed (t : ℕ)
  deriving DecidableEq, Repr

abbrev Bindings := String → Binding

/-- Where the objects are that no storage of an activation is reserved for. -/
structure Residence where
  /-- The object that is declared `static` with the storage of that temp. -/
  permanent : ℕ → Addr
  /-- What the argument for that parameter points to. -/
  passed : ℕ → Addr

namespace Binding

/-- The temp of the storage that irgen reserves. -/
def slot : Binding → Option ℕ
  | .file => none
  | .block t _ | .passed t => some t

/-- Where the object or function lies that the name `x` designates. -/
def address (K : ObjectLayout) (R : Residence) (x : String) : Binding → Addr
  | .file | .block _ .external => K.sym x
  | .block t .static => R.permanent t
  | .block t .automatic => K.place t
  | .passed t => R.passed t

/-- Does the object lie where irgen takes it to be? -/
def keepsPlace : Binding → Bool
  | .file | .block _ .automatic => true
  | _ => false

end Binding

/-- In the scope `sc` the name `x` has the storage reserved for it, or is a symbol. -/
def BoundAs (sc : ScopeChain VarEntry) (x : String) (b : Binding) : Prop :=
  match b.slot with
  | none => ∀ e, sc.lookup vtabBuckets x = some e → e.addr.kind = .global x
  | some t => ∃ e, sc.lookup vtabBuckets x = some e ∧ e.addr.kind = .temp t

theorem boundAs_of_slot {sc : ScopeChain VarEntry} {x : String} {b : Binding} {t : ℕ}
    (h : b.slot = some t) : BoundAs sc x b ↔
      ∃ e, sc.lookup vtabBuckets x = some e ∧ e.addr.kind = .temp t := by
  unfold BoundAs
  rw [h]

theorem boundAs_of_no_slot {sc : ScopeChain VarEntry} {x : String} {b : Binding}
    (h : b.slot = none) : BoundAs sc x b ↔
      ∀ e, sc.lookup vtabBuckets x = some e → e.addr.kind = .global x := by
  unfold BoundAs
  rw [h]

/-- The scope of the generator has the names that C has. -/
def Binds (N : Bindings) (g : IrGen) : Prop := ∀ x, BoundAs g.scope x (N x)

theorem Binds.of_scope_eq {N : Bindings} {g g' : IrGen} (h : Binds N g)
    (hscope : g'.scope = g.scope) : Binds N g' := by
  unfold Binds
  rw [hscope]
  exact h

/-- The storage reserved for a name has been taken. -/
theorem Binds.slot_lt {N : Bindings} {g : IrGen} (h : Binds N g) (hready : g.Ready) {x : String}
    {t : ℕ} (ht : (N x).slot = some t) : t < g.func.nextTemp := by
  obtain ⟨e, he, hkind⟩ := (boundAs_of_slot ht).mp (h x)
  exact ((GivesSlots.lookup hready he).2 t hkind).2

/-- The declarations of the names in scope have been passed. -/
def Reserved (K : ObjectLayout) (N : Bindings) (τ : ℕ → BitVec 64) : Prop :=
  ∀ x t, (N x).slot = some t → τ t = K.place t

/-! ### What expressions designate -/

/-- The types whose values are addresses. -/
def hasAddressValue (ty : Option CType) : Bool := ty.any fun t => t.isPointer || t.decays

/-- What a step of a pointer, or of the address of an array's first element, amounts to. -/
def stepSize (Γ : TypeEnv) : Option CType → ℤ
  | some (.array elem _ _) | some (.arrayUnsized elem _) =>
      pointerPointeeSize Γ (some (typePointer elem .none))
  | ty => pointerPointeeSize Γ ty

/-- The offset of the member that is found, in the type `ty`. -/
def foundOffset (Γ : TypeEnv) (ty : Option CType) (field : String) : Option ℤ :=
  match ty.bind fun t => findFieldWithOffset Γ t field with
  | some (_ :: _, offset) => some offset
  | _ => none

/-- The aggregate that a value of the type points to. -/
def pointedTo : Option CType → Option CType
  | some (.array elem _ _) | some (.arrayUnsized elem _) => some elem
  | ty => pointeeOrSelf ty

/-- Where the object lies that an expression designates, and the address it is worth as a value.
What designates no object is said to lie where its code says. -/
structure Designated where
  place : Option Addr
  value : Option Addr

/-- An array or a function is worth its address, any other object the word its code loads. -/
def Designated.ofLvalue (ty : Option CType) (place : Option Addr) (word : Addr) : Designated :=
  ⟨place, if ty.any CType.decays then place else some word⟩

namespace AddressMachine

variable {W : Type} (A : AddressMachine W) (F : List IRInstr)

noncomputable abbrev after {α : Type} (m : Gen α) (g : IrGen) (s : IrState W (BitVec 64)) :
    IrState W (BitVec 64) := TinyC.after A.toLiveMachine F m g s

/-- The word of the operand that `m` gives, after its code. -/
noncomputable abbrev word (m : Gen IRValue) (g : IrGen) (s : IrState W (BitVec 64)) : BitVec 64 :=
  valueAfter A.toLiveMachine F m g s

end AddressMachine

section

variable (Γ : TypeEnv) (N : Bindings) {W : Type} (A : AddressMachine W) (R : Residence)
  (F : List IRInstr)

/-- What `l + r` and `l - r` are worth, from what the operands are worth as addresses and as
words. -/
def addressSum (op : TokenKind) (lt rt : Option CType) (lv rv : Option Addr) (l r word : Addr) :
    Option Addr :=
  if op = .plus ∧ hasAddressValue lt ∧ ¬hasAddressValue rt then
    lv.map (· + r * BitVec.ofInt 64 (stepSize Γ lt))
  else if op = .plus ∧ hasAddressValue rt ∧ ¬hasAddressValue lt then
    rv.map (· + l * BitVec.ofInt 64 (stepSize Γ rt))
  else if op = .minus ∧ hasAddressValue lt ∧ ¬hasAddressValue rt then
    lv.map (· - r * BitVec.ofInt 64 (stepSize Γ lt))
  else some word

/-- What an expression designates whose code the generator emits in `g` and which is run from `s`.
The values of indices, and of what is read from the memory or called, are those the code
computes. -/
noncomputable def designated : Expr → IrGen → IrState W (BitVec 64) → Designated
  | .ident i x, g, s =>
      .ofLvalue i.type (some ((N x).address A.layout R x)) (A.word F (genExpr Γ (.ident i x)) g s)
  | .unop i op e, g, s =>
      let word := A.word F (genExpr Γ (.unop i op e)) g s
      match op with
      | .star => .ofLvalue i.type (designated e g s).value word
      | .amp => ⟨some word, (designated e g s).place⟩
      | _ => ⟨some word, some word⟩
  | .subscript i b x, g, s =>
      let g' := (genExpr Γ b g).2
      let s' := A.after F (genExpr Γ b) g s
      let size := BitVec.ofInt 64 (elemSize Γ (i.type.getD typeInt))
      let place :=
        if hasAddressValue b.type then
          (designated b g s).value.map (· + A.word F (genExpr Γ x) g' s' * size)
        else (designated x g' s').value.map (· + A.word F (genExpr Γ b) g s * size)
      .ofLvalue i.type place (A.word F (genExpr Γ (.subscript i b x)) g s)
  | .member i b field, g, s =>
      let place := (designated b g s).place.bind fun a =>
        (foundOffset Γ b.type field).map fun off => a + BitVec.ofInt 64 off
      .ofLvalue i.type place (A.word F (genExpr Γ (.member i b field)) g s)
  | .memberPtr i b field, g, s =>
      let place := (designated b g s).value.bind fun a =>
        (foundOffset Γ (pointedTo b.type) field).map fun off => a + BitVec.ofInt 64 off
      .ofLvalue i.type place (A.word F (genExpr Γ (.memberPtr i b field)) g s)
  | .compoundLit i ty init, g, s =>
      .ofLvalue i.type (some (A.layout.place g.func.nextTemp))
        (A.word F (genExpr Γ (.compoundLit i ty init)) g s)
  | .binop i op l r, g, s =>
      let word := A.word F (genExpr Γ (.binop i op l r)) g s
      let g' := (genExpr Γ l g).2
      let s' := A.after F (genExpr Γ l) g s
      ⟨some word, addressSum Γ op l.type r.type (designated l g s).value (designated r g' s').value
        (A.word F (genExpr Γ l) g s) (A.word F (genExpr Γ r) g' s') word⟩
  | .cast i ty e, g, s =>
      let word := A.word F (genExpr Γ (.cast i ty e)) g s
      ⟨some word,
        if ty.isPointer && hasAddressValue e.type then (designated e g s).value else some word⟩
  | .comma _ l r, g, s =>
      let v := (designated r (genExpr Γ l g).2 (A.after F (genExpr Γ l) g s)).value
      ⟨v, v⟩
  | e, g, s =>
      let word := A.word F (genExpr Γ e) g s
      ⟨some word, some word⟩

end

/-! ### What is asked of the code -/

/-- The machine runs the code that `m` emits in `g` from `s` to its end. Nothing undefined is done,
and the declarations of the names in scope have been passed. -/
structure PlacedRun {W α : Type} (N : Bindings) (A : AddressMachine W) (F : List IRInstr)
    (m : Gen α) (g : IrGen) (s : IrState W (BitVec 64)) : Prop where
  ready : g.Ready
  binds : Binds N g
  reserved : Reserved A.layout N s.temps
  stands : Stands F m g s
  live : A.live (A.after F m g s).world

/-- An expression in a place where its address counts, or its value. -/
inductive Use where
  | place (e : Expr)
  | value (e : Expr)

/-- The code computes the address of the object that the expression designates. -/
def PlaceRight (Γ : TypeEnv) (N : Bindings) (e : Expr) : Prop :=
  ∀ (W : Type) (A : AddressMachine W) (R : Residence) (F : List IRInstr) (g : IrGen)
    (s : IrState W (BitVec 64)), PlacedRun N A F (genLvalue Γ e) g s →
      (designated Γ N A R F e g s).place = some (A.word F (genLvalue Γ e) g s)

/-- The code computes the address that the expression is worth. -/
def ValueRight (Γ : TypeEnv) (N : Bindings) (e : Expr) : Prop :=
  ∀ (W : Type) (A : AddressMachine W) (R : Residence) (F : List IRInstr) (g : IrGen)
    (s : IrState W (BitVec 64)), PlacedRun N A F (genExpr Γ e) g s →
      (designated Γ N A R F e g s).value = some (A.word F (genExpr Γ e) g s)

/-- Moreover, no load is emitted from the address of an array or a function. -/
def Right (Γ : TypeEnv) (N : Bindings) : Use → Prop
  | .place e => PlaceRight Γ N e
  | .value e => ValueRight Γ N e ∧ (designatesArrayOrFunc e → ∀ g, DecaysAt Γ e g)

/-- The offset that irgen adds for a member, none if it finds no such member. -/
def emittedOffset (Γ : TypeEnv) (ty : Option CType) (field : String) : ℤ :=
  (foundOffset Γ ty field).getD 0

/-- Wherever the code of `m` is run, the words of the operands `l` and `r` meet `P`. -/
def WordsMeet (Γ : TypeEnv) (N : Bindings) (m : Gen IRValue) (l r : Expr)
    (P : BitVec 64 → BitVec 64 → Prop) : Prop :=
  ∀ (W : Type) (A : AddressMachine W) (F : List IRInstr) (g : IrGen) (s : IrState W (BitVec 64)),
    PlacedRun N A F m g s →
      P (A.word F (genExpr Γ l) g s)
        (A.word F (genExpr Γ r) (genExpr Γ l g).2 (A.after F (genExpr Γ l) g s))

/-- Irgen scales no operand of a sum with an array. That does no harm where the operand is worth the
same when it is scaled. -/
def SumKept (Γ : TypeEnv) (N : Bindings) (i : Info) (op : TokenKind) (l r : Expr) : Prop :=
  let meet := WordsMeet Γ N (genExpr Γ (.binop i op l r)) l r
  ((op = .plus ∨ op = .minus) → l.type.any CType.decays → ¬hasAddressValue r.type →
    meet fun _ v => v * BitVec.ofInt 64 (stepSize Γ l.type) = v) ∧
  (op = .plus → r.type.any CType.decays → ¬hasAddressValue l.type →
    meet fun v _ => v * BitVec.ofInt 64 (stepSize Γ r.type) = v)

/-- Irgen keeps the place of the object: names stand for it, members are found where they are, and
arrays and functions are used in a form that keeps their address. It is the right operand of `[]`
that it scales, also if that is the pointer. -/
def KeepsPlace (Γ : TypeEnv) (N : Bindings) : Use → Prop
  | .place (.ident _ x) => (N x).keepsPlace
  | .place (.subscript i b x) => hasAddressValue b.type ∨
      WordsMeet Γ N (genLvalue Γ (.subscript i b x)) b x fun v p =>
        p + v * BitVec.ofInt 64 (elemSize Γ (i.type.getD typeInt)) =
          v + p * BitVec.ofInt 64 (elemSize Γ (i.type.getD typeInt))
  | .place (.member _ b field) => (foundOffset Γ b.type field).isSome
  | .place (.memberPtr _ b field) =>
      (foundOffset Γ (pointedTo b.type) field).map (BitVec.ofInt 64) =
        some (BitVec.ofInt 64 (emittedOffset Γ (pointeeOrSelf b.type) field))
  | .place _ => True
  | .value (.binop i op l r) => SumKept Γ N i op l r
  | .value e => designatesArrayOrFunc e → keepsAddress Γ e

mutual

/-- The uses of lvalues and values on the way to the address of an expression, and to its value.
The operand of `sizeof` is not evaluated. -/
def Expr.uses : Expr → List Use × List Use
  | .ident i x => ([.place (.ident i x)], [.value (.ident i x), .place (.ident i x)])
  | .unop i op e =>
      let self := Expr.unop i op e
      match op with
      | .star => (.place self :: e.uses.2, .value self :: .place self :: e.uses.2)
      | .amp | .plusplus | .minusminus => (.value self :: e.uses.1, .value self :: e.uses.1)
      | _ => (.value self :: e.uses.2, .value self :: e.uses.2)
  | .subscript i b x =>
      let self := Expr.subscript i b x
      let parts := b.uses.2 ++ x.uses.2
      (.place self :: parts, .value self :: .place self :: parts)
  | .member i b field =>
      let self := Expr.member i b field
      (.place self :: b.uses.1, .value self :: .place self :: b.uses.1)
  | .memberPtr i b field =>
      let self := Expr.memberPtr i b field
      (.place self :: b.uses.2, .value self :: .place self :: b.uses.2)
  | .compoundLit i ty init =>
      let self := Expr.compoundLit i ty init
      (.place self :: init.uses.2, .value self :: .place self :: init.uses.2)
  | .postop i op e => ofValue (.postop i op e) e.uses.1
  | .binop i op l r => ofValue (.binop i op l r) (l.uses.2 ++ r.uses.2)
  | .assign i op l r => ofValue (.assign i op l r) (l.uses.1 ++ r.uses.2)
  | .ternary i c t e => ofValue (.ternary i c t e) (c.uses.2 ++ t.uses.2 ++ e.uses.2)
  | .call i f args => ofValue (.call i f args) (f.uses.2 ++ usesOfAll args)
  | .cast i ty e => ofValue (.cast i ty e) e.uses.2
  | .comma i l r => ofValue (.comma i l r) (l.uses.2 ++ r.uses.2)
  | .initList i items => ofValue (.initList i items) (usesOfAll items)
  | .fieldDesig i field e => ofValue (.fieldDesig i field e) e.uses.2
  | .indexDesig i x e => ofValue (.indexDesig i x e) e.uses.2
  | e => ofValue e []
where
  ofValue (e : Expr) (parts : List Use) : List Use × List Use :=
    (.value e :: parts, .value e :: parts)

def usesOfAll : List Expr → List Use
  | [] => []
  | e :: rest => e.uses.2 ++ usesOfAll rest

end

end TinyC
