import TinyC.LoweredOps
import TinyC.SlotValues

/-!
# The lowering of expressions

The code of an expression over integers and pointers, its operands being lowered by the types they
have, leaves the word of the value and the memory that the expression means.
-/

namespace TinyC

open ByteMemory PartialRuns TwosComplement

/-- The static types depend on what is visible. -/
theorem staticTypes_congr {Γ : TypeEnv} {sc sc' : ScopeChain VarEntry}
    (h : ∀ x, sc.lookup vtabBuckets x = sc'.lookup vtabBuckets x) (e : Expr) :
    staticTypes Γ sc e = staticTypes Γ sc' e := by
  fun_induction staticTypes Γ sc e <;> simp_all +zetaDelta [staticTypes]

/-! ### The expressions -/

/-- The instructions take an operand of the static type for one of type `ty`. -/
def readsAs (static : Option CType) (ty : CType) : Bool :=
  isUnsigned static = typeIsUnsignedInteger ty

/-- A store through an address writes the bytes of the object of type `ty`. -/
def storesAs (Γ : TypeEnv) (place value : Option CType) (ty : CType) : Bool :=
  accessBytes Γ (Lowering.storedType place value) = (typeSizeof Γ ty).toNat

/-- Is there code for the place of a node, and for its value? -/
structure Coverage where
  place : Bool
  value : Bool
  deriving DecidableEq, Repr

namespace Coverage

def ofValue (b : Bool) : Coverage := ⟨false, b⟩

/-- An object that is used by its address if it is an array. -/
def ofObject (b : Bool) (ty : CType) : Coverage := ⟨b, b && (ty.isArray || ty.isWord)⟩

end Coverage

/-- The expressions over integers and pointers whose operands the code takes for what they are. -/
def covered (Γ : TypeEnv) (sc : ScopeChain VarEntry) : Expr → Coverage
  | .intLit _ _ _ | .charLit _ _ => .ofValue true
  | .ident i name => .ofObject (sc.lookup vtabBuckets name).isSome (i.type.getD typeInt)
  | .unop i op e =>
      let ty := i.type.getD typeInt
      let c := covered Γ sc e
      ⟨op = .star && c.value,
        match op with
        | .amp => c.place
        | .star => c.value && ty.isWord
        | .plusplus | .minusminus =>
            c.place && ty.isWord && storesAs Γ (staticTypes Γ sc e).place (some ty) ty
        | .minus | .tilde | .bang | .plus => c.value
        | _ => false⟩
  | .postop i _ e =>
      let ty := i.type.getD typeInt
      .ofValue ((covered Γ sc e).place && ty.isWord &&
        storesAs Γ (staticTypes Γ sc e).place (some ty) ty)
  | .binop _ op l r => .ofValue ((covered Γ sc l).value && (covered Γ sc r).value &&
      (op = .and || op = .or || op ∈ binaryOperators &&
        readsAs (staticTypes Γ sc l).value l.typeOrInt &&
        readsAs (staticTypes Γ sc r).value r.typeOrInt))
  | .assign i op l r =>
      let ty := i.type.getD typeInt
      let place := (staticTypes Γ sc l).place
      let value := (staticTypes Γ sc r).value
      .ofValue ((covered Γ sc l).place && (covered Γ sc r).value &&
        if op = .assign then !isAggregateType (l.type <|> i.type) && storesAs Γ place value ty
        else op ∈ Lowering.compoundOps && ty.isWord && !r.typeOrInt.isPointer &&
          readsAs value r.typeOrInt && storesAs Γ place (some ty) ty)
  | .ternary _ c t e => .ofValue
      ((covered Γ sc c).value && (covered Γ sc t).value && (covered Γ sc e).value)
  | .subscript i b x =>
      let both := (covered Γ sc b).value && (covered Γ sc x).value
      ⟨both, both && (i.type.getD typeInt).isWord⟩
  | .member i b field => .ofObject
      ((covered Γ sc b).place && (memberOffset Γ b.type field).isSome) (i.type.getD typeInt)
  | .memberPtr i b field => .ofObject
      ((covered Γ sc b).value && (memberOffset Γ (pointeeOrSelf b.type) field).isSome)
      (i.type.getD typeInt)
  | .cast _ ty e => .ofValue ((covered Γ sc e).value && e.type.isSome && e.typeOrInt.isWord &&
      ty.isWord && (staticTypes Γ sc e).value.any fun tv =>
        tempBits Γ tv = tempBits Γ e.typeOrInt)
  | .sizeofExpr _ e => .ofValue e.type.isSome
  | .sizeofType _ _ => .ofValue true
  | .comma _ l r => .ofValue ((covered Γ sc l).value && (covered Γ sc r).value)
  | _ => .ofValue false

namespace Lowering

variable {B : Lowering} {Γ : TypeEnv} {ω : Objects}

/-! ### Types and places -/

theorem typed_value (e : Expr) : B.Typed (genExpr Γ e) (staticTypes Γ B.scope e).value := by
  intro g hg
  rw [← staticTypes_congr hg e]
  exact (genNode_hasTypes Γ g.scope e).expr g rfl

theorem typed_place (e : Expr) : B.Typed (genLvalue Γ e) (staticTypes Γ B.scope e).place := by
  intro g hg
  rw [← staticTypes_congr hg e]
  exact (genNode_hasTypes Γ g.scope e).lvalue g rfl

theorem Yields.congr {β : Type} {m m' : Gen IRValue} {r : BitVec 64 → β → Prop} {c : Meaning β}
    (hm : B.Yields Γ m r c) (h : ∀ g, B.Sees g → m' g = m g) : B.Yields Γ m' r c := by
  obtain ⟨ev, hrun, href⟩ := hm
  exact ⟨ev, hrun.congr h, href⟩

/-- A value of the type of its node. -/
theorem Yields.checked {m : Gen IRValue} {ty : CType} {c : Meaning ℤ}
    (hm : B.Yields Γ m (fun x v => x = wordOf v) c) :
    B.Yields Γ m (Word Γ ty) (NodeMeaning.checked Γ ty c) := by
  obtain ⟨ev, hrun, href⟩ := hm
  refine ⟨ev, hrun, href.filterMap fun x v d hx hd => ?_⟩
  obtain ⟨hfits, hv⟩ := Option.ite_none_right_eq_some.mp hd
  obtain rfl := Option.some.inj hv
  exact ⟨hx, hfits⟩

theorem wordOf_toNat (a : Addr) : wordOf a.toNat = a := by
  simp [wordOf]

/-- An address as a number. -/
theorem Yields.address {m : Gen IRValue} {place : Meaning Addr} (hm : B.Yields Γ m Eq place) :
    B.Yields Γ m (fun x v => x = wordOf v) (place >>= fun a => pure (a.toNat : ℤ)) := by
  obtain ⟨ev, hrun, href⟩ := hm
  refine ⟨ev, hrun, href.map ?_⟩
  rintro x a rfl
  exact (wordOf_toNat x).symm

/-- A number as an address. -/
theorem Yields.place {m : Gen IRValue} {ty : CType} {c : Meaning ℤ}
    (hm : B.Yields Γ m (Word Γ ty) c) :
    B.Yields Γ m Eq (c >>= fun v => pure (addrOf v)) := by
  obtain ⟨ev, hrun, href⟩ := hm
  exact ⟨ev, hrun, href.map fun x v hx => hx.1⟩

/-- The code of an object's value, by its type. -/
theorem Yields.object {m : Gen IRValue} {k : IRValue → Gen IRValue} {place : Meaning Addr}
    {ty : CType} {t : Option CType} (hM : B.Matches ω) (hm : B.Yields Γ m Eq place)
    (hT : B.Typed m t) (hty : ty.isArray = true ∨ ty.isWord = true)
    (harray : ty.isArray = true → ∀ p, k p = pure p)
    (hword : ty.isArray = false → ty.isWord = true → ∀ p, k p = TinyC.genLoad p ty) :
    B.Yields Γ (m >>= k) (fun x v => x = wordOf v) (objectValue Γ ω ty place) := by
  unfold objectValue
  cases harr : ty.isArray with
  | true =>
    have hk : m >>= k = m := by
      rw [funext (harray harr)]
      exact bind_pure m
    rw [hk]
    exact hm.address
  | false =>
    have hw := hty.resolve_left (by simp [harr])
    rw [funext (hword harr hw)]
    exact (Yields.load hM hw hm hT).word

/-! ### `&&`, `||` and `?:` -/

variable (B Γ) in
/-- No primitive is looked into here. -/
def noPrims : PrimSem (Option Mem) (BitVec 64) Unit where
  eval _ _ w := (0, w)
  declare _ ρ := ρ
  isTrue x := x ≠ 0
  ofBool b := if b then 1 else 0

variable (B Γ) in
/-- The temps that stand for what was there at the start go on doing so. -/
def implements : Implements Γ B.code (B.objects.machine Γ) noPrims (fun _ => False) where
  stands _ g τ := B.Stands g τ
  stands_mono h hscope hle ha := h.later (fun x => (hscope x).trans (h.scope x)) hle ha
  isTrue := rfl
  ofBool b := by cases b <;> rfl
  run _ hp := hp.elim

/-- A run that lists the expression. -/
def listed (e : Expr) (ev : WordSem (BitVec 64)) : PrimSem.Run (Option Mem) (BitVec 64) := fun o =>
  let r := ev o.world
  (r.1, ⟨r.2, o.trace ++ [.value e]⟩)

theorem computes_listed {e : Expr} {ev : WordSem (BitVec 64)}
    (h : B.Realises Γ [] (genExpr Γ e) ev one) :
    (B.implements Γ).Computes (genExpr Γ e) (fun _ => listed e ev) := by
  intro ρ g o τ hst hF
  obtain ⟨k, τ', hrun, hagree, hone⟩ := h.runs g τ o.world hst (fun _ hp => absurd hp List.not_mem_nil) hF
  obtain ⟨hsome, -, hword⟩ := hone _ List.mem_cons_self
  refine ⟨k + 0, τ', .prim (c := ⟨g.pos, o, τ⟩) (p := .value e) rfl hF hrun rfl (.refl _), hagree,
    hsome, ?_⟩
  rw [ObjectLayout.machine_operand]
  exact hword

/-- What the machine does, without the list. -/
theorem realises_of_computes {m : Gen IRValue} {ev : PrimSem.Run (Option Mem) (BitVec 64)}
    {ew : WordSem (BitVec 64)} (hm : Emits m) (h : (B.implements Γ).Computes m (fun _ => ev))
    (hworld : ∀ w, ew w = ((ev ⟨w, []⟩).1, (ev ⟨w, []⟩).2.world))
    (htaken : ∀ g t, (m g).1.kind = .temp t → t < (m g).2.func.nextTemp) :
    B.Realises Γ [] m ew one where
  emits g _ := hm g
  runs g τ w hst _ hF := by
    obtain ⟨k, τ', hrun, hagree, hsome, hword⟩ := h () g ⟨w, []⟩ τ hst hF
    rw [ObjectLayout.machine_operand] at hword
    rw [hworld]
    refine ⟨k, τ', hrun.steps, hagree, fun p hp => ?_⟩
    obtain rfl := List.mem_singleton.mp hp
    exact ⟨hsome, htaken g, hword⟩

theorem taken_genTernary (ty : Option CType) {c t e : Gen IRValue} (hc : Emits c) (ht : Emits t)
    (he : Emits e) (g : IrGen) (n : ℕ) (hn : (genTernary ty c t e g).1.kind = .temp n) :
    n < (genTernary ty c t e g).2.func.nextTemp := by
  cases hn
  have hrest : TakesTemps (c >>= fun c => emitJz c (g.func.nextLabel + 1) >>= fun _ =>
      emitLabel g.func.nextLabel >>= fun _ => t >>= fun tv =>
      emit { op := .copy, dst := irvTemp g.func.nextTemp (ty.getD typeInt), src1 := tv }
        >>= fun _ => emitJmp (g.func.nextLabel + 2) >>= fun _ =>
      emitLabel (g.func.nextLabel + 1) >>= fun _ => e >>= fun ev =>
      emit { op := .copy, dst := irvTemp g.func.nextTemp (ty.getD typeInt), src1 := ev }
        >>= fun _ => emitLabel (g.func.nextLabel + 2)) :=
    .bind (.of_emits hc) fun _ => .bind (.emit _) fun _ => .bind (.emit _) fun _ =>
      .bind (.of_emits ht) fun _ => .bind (.emit _) fun _ => .bind (.emit _) fun _ =>
        .bind (.emit _) fun _ => .bind (.of_emits he) fun _ => .bind (.emit _) fun _ => .emit _
  exact hrest { g with func := { g.func with
    nextLabel := g.func.nextLabel + 1 + 1 + 1, nextTemp := g.func.nextTemp + 1 } }

theorem taken_genShortCircuit (isAnd : Bool) {l r : Gen IRValue} (hl : Emits l) (hr : Emits r)
    (g : IrGen) (n : ℕ) (hn : (genShortCircuit isAnd l r g).1.kind = .temp n) :
    n < (genShortCircuit isAnd l r g).2.func.nextTemp := by
  cases hn
  have hrest : ∀ t, TakesTemps (newLabel >>= fun e => newLabel >>= fun f => newLabel >>= fun u =>
      l >>= fun lv => genShortCircuitTest isAnd lv r f u >>= fun _ =>
      emit { op := .copy, dst := irvTemp t typeInt, src1 := irvInt 0 typeInt } >>= fun _ =>
      emitJmp e >>= fun _ => emitLabel u >>= fun _ =>
      emit { op := .copy, dst := irvTemp t typeInt, src1 := irvInt 1 typeInt } >>= fun _ =>
      emitLabel e) := fun t =>
    .bind .newLabel fun e => .bind .newLabel fun f => .bind .newLabel fun u =>
      .bind (.of_emits hl) fun lv => .bind (.of_emits (Emits.genShortCircuitTest isAnd lv hr f u))
        fun _ => .bind (.emit _) fun _ => .bind (.emit _) fun _ => .bind (.emit _) fun _ =>
          .bind (.emit _) fun _ => .emit _
  exact hrest g.func.nextTemp (newTemp g).2

/-- A number is zero if its word is. -/
theorem wordOf_eq_zero {ty : CType} {v : ℤ} (h : ty.Fits Γ v) : wordOf v = 0 ↔ v = 0 := by
  constructor
  · intro hzero
    by_contra hne
    unfold CType.Fits at h
    split at h
    · rename_i hty
      exact wordOf_ne_zero h.inRange (word_bits_le hty).2 hne hzero
    · have hrange : InRange false 64 v := h
      exact wordOf_ne_zero hrange le_rfl hne hzero
  · rintro rfl
    rfl

section Choices

variable {c l r t e : Expr} {tc tl tr : CType} {cc cl cr ct ce : Meaning ℤ}
  {q : BitVec 64 → ℤ → Prop} (hnodup : (labelsOf B.code.func.instrs).Nodup)

include hnodup in
theorem yields_ternary (ty : Option CType) (hc : B.Yields Γ (genExpr Γ c) (Word Γ tc) cc)
    (ht : B.Yields Γ (genExpr Γ t) q ct) (he : B.Yields Γ (genExpr Γ e) q ce) :
    B.Yields Γ (genTernary ty (genExpr Γ c) (genExpr Γ t) (genExpr Γ e)) q
      (cc >>= fun v => if v ≠ 0 then ct else ce) := by
  obtain ⟨ec, hcrun, hcref⟩ := hc
  obtain ⟨et, htrun, htref⟩ := ht
  obtain ⟨ee, herun, heref⟩ := he
  have hemits := fun e => (genNode_emits Γ e).expr
  have hcomp : (B.implements Γ).Computes (genTernary ty (genExpr Γ c) (genExpr Γ t) (genExpr Γ e)) _ :=
    Implements.computes_ternary hnodup (hemits c) (hemits t) (hemits e) (computes_listed hcrun)
      (computes_listed htrun) (computes_listed herun)
  refine ⟨ec >>= fun x => if x ≠ 0 then et else ee, realises_of_computes
    (.genTernary ty (hemits c) (hemits t) (hemits e)) hcomp (fun w => ?_)
    (taken_genTernary ty (hemits c) (hemits t) (hemits e)), hcref.bind fun x v hx => ?_⟩
  · change (if (ec w).1 ≠ 0 then et else ee) (ec w).2 =
      (((if decide ((ec w).1 ≠ 0) then listed t et else listed e ee) ⟨(ec w).2, _⟩).1,
        ((if decide ((ec w).1 ≠ 0) then listed t et else listed e ee) ⟨(ec w).2, _⟩).2.world)
    by_cases h : (ec w).1 ≠ 0
    · rw [if_pos h, decide_eq_true h]
      rfl
    · rw [if_neg h, decide_eq_false h]
      rfl
  · obtain ⟨rfl, hv⟩ := hx
    by_cases h : v = 0
    · rw [if_neg (not_not.mpr h), if_neg (not_not.mpr ((wordOf_eq_zero hv).mpr h))]
      exact heref
    · rw [if_pos h, if_pos (mt (wordOf_eq_zero hv).mp h)]
      exact htref

theorem truthWord (b : Bool) : (if b then (1 : BitVec 64) else 0) = wordOf (truth b) := by
  cases b <;> rfl

theorem isTrue_word {ty : CType} {x : BitVec 64} {v : ℤ} (h : Word Γ ty x v) :
    decide (x ≠ 0) = decide (v ≠ 0) := by
  obtain ⟨rfl, hv⟩ := h
  exact decide_eq_decide.mpr (not_congr (wordOf_eq_zero hv))

include hnodup in
theorem yields_shortCircuit (isAnd : Bool) (hl : B.Yields Γ (genExpr Γ l) (Word Γ tl) cl)
    (hr : B.Yields Γ (genExpr Γ r) (Word Γ tr) cr) :
    B.Yields Γ (genShortCircuit isAnd (genExpr Γ l) (genExpr Γ r)) (fun x v => x = wordOf v)
      (logicalMeaning isAnd cl cr) := by
  obtain ⟨el, hlrun, hlref⟩ := hl
  obtain ⟨er, hrrun, hrref⟩ := hr
  have hemits := fun e => (genNode_emits Γ e).expr
  have hcomp : (B.implements Γ).Computes (genShortCircuit isAnd (genExpr Γ l) (genExpr Γ r)) _ :=
    Implements.computes_shortCircuit hnodup (hemits l) (hemits r) (computes_listed hlrun)
      (computes_listed hrrun)
  let bit (x : BitVec 64) : BitVec 64 := if decide (x ≠ 0) then 1 else 0
  refine ⟨el >>= fun x => if decide (x ≠ 0) = isAnd then er >>= fun y => pure (bit y) else
    pure (bit x), realises_of_computes (.genShortCircuit isAnd (hemits l) (hemits r)) hcomp
      (fun w => ?_) (taken_genShortCircuit isAnd (hemits l) (hemits r)), hlref.bind fun x v hx => ?_⟩
  · change (if decide ((el w).1 ≠ 0) = isAnd then er >>= fun y => pure (bit y) else
        pure (bit (el w).1)) (el w).2 =
      (if (Implements.secondTest noPrims isAnd (decide ((el w).1 ≠ 0)) (listed r er)
          ⟨(el w).2, _⟩).1 then 1 else 0,
        (Implements.secondTest noPrims isAnd (decide ((el w).1 ≠ 0)) (listed r er)
          ⟨(el w).2, _⟩).2.world)
    unfold Implements.secondTest
    by_cases h : decide ((el w).1 ≠ 0) = isAnd
    · rw [if_pos h, if_pos h]
      rfl
    · rw [if_neg h, if_neg h]
      rfl
  · rw [isTrue_word hx]
    split
    · refine hrref.bind fun y u hy => .pure ?_
      unfold bit
      rw [isTrue_word hy, truthWord]
    · refine .pure ?_
      unfold bit
      rw [isTrue_word hx, truthWord]

end Choices

/-! ### Nodes -/

variable (B Γ ω) in
/-- The code of a node does what the node means, as far as it is covered. -/
structure Lowered (e : Expr) : Prop where
  place : (covered Γ B.scope e).place = true →
    B.Yields Γ (genLvalue Γ e) Eq (meaning Γ ω e).place
  value : (covered Γ B.scope e).value = true →
    B.Yields Γ (genExpr Γ e) (Word Γ e.typeOrInt) (meaning Γ ω e).value

section Nodes

variable {i : Info} {e l r c t : Expr} {op : TokenKind} (hM : B.Matches ω)

theorem lowered_literal {v : BitVec 64} {ty : CType}
    (hgen : genExpr Γ e = pure (irvInt v ty))
    (hmeans : (meaning Γ ω e).value = NodeMeaning.checked Γ e.typeOrInt
      (pure (if typeIsSigned e.typeOrInt then v.toInt else v.toNat))) :
    B.Yields Γ (genExpr Γ e) (Word Γ e.typeOrInt) (meaning Γ ω e).value := by
  rw [hgen, hmeans]
  refine .checked ⟨_, .int v ty, .pure ?_⟩
  split
  · exact (BitVec.ofInt_toInt).symm
  · exact (wordOf_toNat v).symm

include hM in
/-- The address of a variable stands ready. -/
theorem yields_addr {name : String} {en : VarEntry}
    (hen : B.scope.lookup vtabBuckets name = some en) :
    B.Yields Γ (pure en.addr) Eq (pure (ω.place name)) := by
  obtain ⟨hsome, htemps⟩ := B.visible hen
  refine ⟨_, .value fun g τ hst => ⟨hsome, fun t ht => (htemps t ht).trans_le hst.temps, ?_⟩,
    .pure rfl⟩
  rw [← hM.place hen]
  unfold ObjectLayout.operand
  cases hk : en.addr.kind with
  | temp t => exact hst.held t (htemps t hk)
  | _ => rfl

theorem word_scalar {ty : CType} (h : ty.isWord = true) :
    ty.isArray = false ∧ ty.isFunc = false ∧ isAggregateType (some ty) = false := by
  cases ty <;> first | exact ⟨rfl, rfl, rfl⟩ | cases h

theorem object_cases {b : Bool} {ty : CType} (h : (Coverage.ofObject b ty).value = true) :
    b = true ∧ (ty.isArray = true ∨ ty.isWord = true) := by
  simpa [Coverage.ofObject] using h

include hM in
theorem lowered_ident (name : String) : B.Lowered Γ ω (.ident i name) := by
  have hvar : (B.scope.lookup vtabBuckets name).isSome = true → ∃ en,
      B.scope.lookup vtabBuckets name = some en ∧
        B.Yields Γ (pure en.addr) Eq (pure (ω.place name)) := by
    intro h
    obtain ⟨en, hen⟩ := Option.isSome_iff_exists.mp h
    exact ⟨en, hen, yields_addr hM hen⟩
  constructor
  · intro h
    obtain ⟨en, hen, hy⟩ := hvar h
    refine hy.congr fun g hg => ?_
    change genIdentLvalue name g = _
    rw [genIdentLvalue, Gen.run_vscopeLookup_bind, hg, hen]
  · intro h
    obtain ⟨hsome, hty⟩ := object_cases h
    obtain ⟨en, hen, hy⟩ := hvar hsome
    let ty := i.type.getD typeInt
    let k (p : IRValue) : Gen IRValue :=
      if ty.isArray || ty.isFunc || isAggregateType (some ty) then pure p else genLoad p ty
    have hobj : B.Yields Γ (pure en.addr >>= k) (fun x v => x = wordOf v)
        (objectValue Γ ω ty (pure (ω.place name))) := by
      refine hy.object hM (t := en.addr.type) (fun _ _ => rfl) hty (fun harr p => ?_)
        (fun _ hw p => ?_)
      · simp [k, ty, harr]
      · obtain ⟨harr, hfunc, hagg⟩ := word_scalar hw
        simp [k, ty, harr, hfunc, hagg]
    refine .checked (hobj.congr fun g hg => ?_)
    change genIdent name i.type g = _
    rw [genIdent, Gen.run_vscopeLookup_bind, hg, hen]
    rfl

theorem storesAs_eq {place value : Option CType} {ty : CType}
    (h : storesAs Γ place value ty = true) :
    accessBytes Γ (storedType place value) = (typeSizeof Γ ty).toNat := of_decide_eq_true h

theorem loadUnlessAggregate_word {ty : Option CType} (h : (ty.getD typeInt).isWord = true)
    (p : IRValue) : loadUnlessAggregate ty p = genLoad p (ty.getD typeInt) := by
  unfold loadUnlessAggregate
  cases ty with
  | none => rfl
  | some ty =>
    have hw : ty.isWord = true := h
    rw [(word_scalar hw).2.2]
    rfl

include hM in
/-- `++` and `--` with the value they return. -/
theorem yields_step (ih : B.Lowered Γ ω e)
    (h : ((covered Γ B.scope e).place && (i.type.getD typeInt).isWord &&
      storesAs Γ (staticTypes Γ B.scope e).place (some (i.type.getD typeInt))
        (i.type.getD typeInt)) = true) {pick : {α : Type} → α × α → α}
    (hpick : (∀ {α : Type} (p : α × α), pick p = p.1) ∨ ∀ {α : Type} (p : α × α), pick p = p.2) :
    B.Yields Γ (genStep Γ op i.type (genLvalue Γ e) >>= fun r => pure (pick r))
      (fun x v => x = wordOf v)
      (stepMeaning Γ ω op (i.type.getD typeInt) (meaning Γ ω e).place >>= fun r =>
        pure (pick r)) := by
  simp only [Bool.and_eq_true] at h
  obtain ⟨⟨hp, hw⟩, hst⟩ := h
  obtain ⟨ev, hrun, href⟩ := genStep_yields hM hw (ih.place hp) (typed_place e) (storesAs_eq hst)
  refine ⟨_, hrun.bind (T := fun _ => True) (fun _ _ => trivial) fun p q _ =>
    .pure (b := pick q) ?_, href.bind fun p q hpq => .pure ?_⟩
  · rcases hpick with h | h <;> simp [h, one]
  · rcases hpick with h | h <;> simp [h, hpq]

/-- The word of a logical negation. -/
theorem resultWord_bang {t : Option CType} {ty : CType} (x : BitVec 64) (m : Mem) :
    B.objects.resultWord Γ .eq t (some typeInt) ty x 0 m = some (wordOf (truth (x = 0))) := by
  change some (if (x == 0) = true then (1 : BitVec 64) else 0) = _
  rw [beq_eq_decide, truthWord]

include hM in
theorem lowered_unop (ih : B.Lowered Γ ω e) : B.Lowered Γ ω (.unop i op e) := by
  constructor
  · intro h
    obtain ⟨hop, hv⟩ := Bool.and_eq_true_iff.mp h
    obtain rfl := of_decide_eq_true hop
    exact (ih.value hv).place
  · intro h
    refine .checked ?_
    cases op with
    | amp => exact (ih.place h).address
    | star =>
      obtain ⟨hv, hw⟩ := Bool.and_eq_true_iff.mp h
      refine (ih.value hv).place.object hM (typed_value e) (.inr hw) (fun harr => ?_)
        (fun _ _ p => loadUnlessAggregate_word hw p)
      rw [(word_scalar hw).1] at harr
      cases harr
    | plusplus => exact yields_step hM ih h (.inr fun _ => rfl)
    | minusminus => exact yields_step hM ih h (.inr fun _ => rfl)
    | minus =>
      refine (ih.value h).unary (typed_value e) (b := irvNone) rfl (fun _ => .none) ?_
      rintro x v d ⟨rfl, hv⟩ hd m
      exact ⟨_, rfl, neg_word hd hv⟩
    | tilde =>
      refine (ih.value h).unary (typed_value e) (b := irvNone) rfl (fun _ => .none) ?_
      rintro x v d ⟨rfl, hv⟩ hd m
      exact ⟨_, rfl, not_word hd hv⟩
    | bang =>
      refine (ih.value h).unary (f := fun v => some (truth (v = 0))) (typed_value e)
        (show isPlain IROp.eq = true from rfl)
        (fun _ => .int 0 typeInt) ?_
      rintro x v d ⟨rfl, hv⟩ hd m
      obtain rfl := Option.some.inj hd
      exact ⟨_, resultWord_bang _ m, by simp only [wordOf_eq_zero hv]⟩
    | plus =>
      obtain ⟨ev, hrun, href⟩ := ih.value h
      refine ⟨ev, ?_, href.mono fun _ _ hx => hx.1⟩
      have hev : ev = ev >>= fun x => pure () >>= fun _ => pure x := (bind_pure ev).symm
      rw [hev]
      exact hrun.andThen (typed_value e) fun v x _ => .bind (T := fun _ => True) .newTemp
        (fun _ _ => trivial) fun _ _ _ => .pure (by simp [one])
    | _ => cases h

include hM in
theorem lowered_postop (ih : B.Lowered Γ ω e) : B.Lowered Γ ω (.postop i op e) where
  place h := by cases h
  value h := .checked (yields_step hM ih h (.inl fun _ => rfl))

theorem readsAs_eq {t : Option CType} {ty : CType} (h : readsAs t ty = true) :
    isUnsigned t = typeIsUnsignedInteger ty := of_decide_eq_true h

theorem lowered_binop (hnodup : (labelsOf B.code.func.instrs).Nodup) (ihl : B.Lowered Γ ω l)
    (ihr : B.Lowered Γ ω r) : B.Lowered Γ ω (.binop i op l r) where
  place h := by cases h
  value h := by
    simp only [covered, Coverage.ofValue, Bool.and_eq_true, Bool.or_eq_true] at h
    obtain ⟨⟨hl, hr⟩, hop⟩ := h
    refine .checked ?_
    change B.Yields Γ (genBinop Γ op i.type l.type r.type (genExpr Γ l) (genExpr Γ r)) _ _
    by_cases hlog : op = .and ∨ op = .or
    · have hgen : genBinop Γ op i.type l.type r.type (genExpr Γ l) (genExpr Γ r) =
          genShortCircuit (op = .and) (genExpr Γ l) (genExpr Γ r) := if_pos hlog
      rw [hgen, if_pos hlog]
      exact yields_shortCircuit hnodup _ (ihl.value hl) (ihr.value hr)
    · rw [if_neg hlog]
      obtain ⟨⟨htk, hfl⟩, hfr⟩ := hop.resolve_left (by simpa using hlog)
      exact genBinop_yields (of_decide_eq_true htk) (ihl.value hl) (typed_value l) (ihr.value hr)
        (typed_value r) (readsAs_eq hfl) (readsAs_eq hfr)

theorem memberField_plain {aggTy : Option CType} {field : String}
    (h : (memberOffset Γ aggTy field).isSome = true) :
    (findField Γ aggTy field).head?.filter (fun f => f.bitWidth > 0) = none := by
  obtain ⟨offset, hoffset⟩ := Option.isSome_iff_exists.mp h
  obtain ⟨ty, f, rest, rfl, hfind, hbits⟩ := memberOffset_eq_some hoffset
  simp [findField, hfind, not_lt.mp hbits]

/-- What has a place is no bit-field. -/
theorem place_plain (h : (covered Γ B.scope e).place = true) :
    (memberField Γ e).filter (fun f => f.bitWidth > 0) = none := by
  cases e with
  | member i b field => exact memberField_plain (Bool.and_eq_true_iff.mp h).2
  | memberPtr i b field => exact memberField_plain (Bool.and_eq_true_iff.mp h).2
  | _ => rfl

include hM in
theorem lowered_assign (ihl : B.Lowered Γ ω l) (ihr : B.Lowered Γ ω r) :
    B.Lowered Γ ω (.assign i op l r) where
  place h := by cases h
  value h := by
    simp only [covered, Coverage.ofValue, Bool.and_eq_true] at h
    obtain ⟨⟨hl, hr⟩, hop⟩ := h
    refine .checked ?_
    change B.Yields Γ (genAssign Γ op i.type (l.type <|> i.type) (memberField Γ l) (genNode Γ l)
      (genNode Γ r)) _ (assignMeaning Γ ω op _ _ _ _)
    by_cases hassign : op = .assign
    · subst hassign
      rw [if_pos rfl, Bool.and_eq_true, Bool.not_eq_true'] at hop
      exact genAssign_simple hM hop.1 (place_plain hl) (ihl.place hl) (typed_place l)
        (ihr.value hr).word (typed_value r) (storesAs_eq hop.2)
    · simp only [if_neg hassign, Bool.and_eq_true, Bool.not_eq_true', decide_eq_true_eq] at hop
      obtain ⟨⟨⟨⟨hmem, hw⟩, hptr⟩, hfr⟩, hst⟩ := hop
      unfold assignMeaning
      simp only [if_neg hassign]
      exact genAssign_compound hM hmem hw hptr (readsAs_eq hfr) (ihl.place hl) (typed_place l)
        (ihr.value hr) (typed_value r) (storesAs_eq hst)

theorem lowered_ternary (hnodup : (labelsOf B.code.func.instrs).Nodup) (ihc : B.Lowered Γ ω c)
    (iht : B.Lowered Γ ω t) (ihe : B.Lowered Γ ω e) : B.Lowered Γ ω (.ternary i c t e) where
  place h := by cases h
  value h := by
    simp only [covered, Coverage.ofValue, Bool.and_eq_true] at h
    exact .checked (yields_ternary hnodup i.type (ihc.value h.1.1) (iht.value h.1.2).word
      (ihe.value h.2).word)

include hM in
theorem lowered_subscript (ihb : B.Lowered Γ ω l) (ihx : B.Lowered Γ ω r) :
    B.Lowered Γ ω (.subscript i l r) := by
  have hplace : ((covered Γ B.scope l).value && (covered Γ B.scope r).value) = true →
      B.Yields Γ (genLvalue Γ (.subscript i l r)) Eq (meaning Γ ω (.subscript i l r)).place := by
    intro h
    obtain ⟨hb, hx⟩ := Bool.and_eq_true_iff.mp h
    exact genSubscriptLvalue_yields (ihb.value hb) (typed_value l) (ihx.value hx) (typed_value r)
  refine ⟨hplace, fun h => .checked ?_⟩
  obtain ⟨hboth, hw⟩ := Bool.and_eq_true_iff.mp h
  refine (hplace hboth).object hM (typed_place (.subscript i l r)) (.inr hw) (fun harr => ?_)
    (fun _ _ p => loadUnlessAggregate_word hw p)
  rw [(word_scalar hw).1] at harr
  cases harr

theorem genMemberExpr_eq {nodeType : Option CType} {bf : Option StructField} {m : Gen IRValue}
    (hbf : bf.filter (fun f => f.bitWidth > 0) = none) :
    genMemberExpr nodeType bf m = m >>= fun p =>
      if nodeType.any CType.isArray then pure p else loadUnlessAggregate nodeType p := by
  unfold genMemberExpr
  simp only [hbf]

include hM in
/-- A member, once the address of the aggregate is there. -/
theorem lowered_object {aggTy : Option CType} {field : String} {m : Gen IRValue} {b : Bool}
    {place : Meaning Addr} {t : Option CType}
    (hT : B.Typed (genMemberLvalue Γ aggTy field m) t)
    (hoff : (memberOffset Γ aggTy field).isSome = true)
    (hm : B.Yields Γ (genMemberLvalue Γ aggTy field m) Eq place)
    (h : (Coverage.ofObject b (i.type.getD typeInt)).value = true) :
    B.Yields Γ (genMemberExpr i.type (findField Γ aggTy field).head?
        (genMemberLvalue Γ aggTy field m)) (fun x v => x = wordOf v)
      (objectValue Γ ω (i.type.getD typeInt) place) := by
  obtain ⟨-, hty⟩ := object_cases h
  rw [genMemberExpr_eq (memberField_plain hoff)]
  have hany : i.type.any CType.isArray = (i.type.getD typeInt).isArray := by cases i.type <;> rfl
  refine hm.object hM hT hty (fun harr p => ?_) (fun harr hw p => ?_)
  · rw [hany, harr, if_pos rfl]
  · rw [hany, harr, if_neg Bool.false_ne_true]
    exact loadUnlessAggregate_word hw p

include hM in
theorem lowered_member {field : String} (ih : B.Lowered Γ ω e) :
    B.Lowered Γ ω (.member i e field) := by
  have hplace : ((covered Γ B.scope e).place && (memberOffset Γ e.type field).isSome) = true →
      B.Yields Γ (genMemberLvalue Γ e.type field (genLvalue Γ e)) Eq
        (meaning Γ ω (.member i e field)).place := by
    intro h
    obtain ⟨hb, hoff⟩ := Bool.and_eq_true_iff.mp h
    exact genMemberLvalue_yields (ih.place hb) (typed_place e) hoff
  refine ⟨hplace, fun h => .checked ?_⟩
  obtain ⟨hb, -⟩ := object_cases h
  exact lowered_object hM (typed_place (.member i e field)) (Bool.and_eq_true_iff.mp hb).2
    (hplace hb) h

include hM in
theorem lowered_memberPtr {field : String} (ih : B.Lowered Γ ω e) :
    B.Lowered Γ ω (.memberPtr i e field) := by
  have hplace : ((covered Γ B.scope e).value &&
      (memberOffset Γ (pointeeOrSelf e.type) field).isSome) = true →
      B.Yields Γ (genMemberLvalue Γ (pointeeOrSelf e.type) field (genExpr Γ e)) Eq
        (meaning Γ ω (.memberPtr i e field)).place := by
    intro h
    obtain ⟨hb, hoff⟩ := Bool.and_eq_true_iff.mp h
    exact genMemberLvalue_yields (ih.value hb).place (typed_value e) hoff
  refine ⟨hplace, fun h => .checked ?_⟩
  obtain ⟨hb, -⟩ := object_cases h
  exact lowered_object hM (typed_place (.memberPtr i e field)) (Bool.and_eq_true_iff.mp hb).2
    (hplace hb) h

theorem lowered_cast {ty : CType} (ih : B.Lowered Γ ω e) : B.Lowered Γ ω (.cast i ty e) where
  place h := by cases h
  value h := by
    simp only [covered, Coverage.ofValue, Bool.and_eq_true] at h
    obtain ⟨⟨⟨⟨hv, hsome⟩, hsrc⟩, hdst⟩, hbits⟩ := h
    obtain ⟨src, htype⟩ := Option.isSome_iff_exists.mp hsome
    have hty : e.typeOrInt = src := by
      rw [Expr.typeOrInt, htype]
      rfl
    have hT : B.Typed (genExpr Γ e) (staticTypes Γ B.scope e).value := typed_value e
    have hvalue := ih.value hv
    refine .checked ?_
    change B.Yields Γ (genCast Γ e.type ty (genExpr Γ e)) _
      ((meaning Γ ω e).value >>= fun v => Partial.ofOption (castMeaning Γ e.typeOrInt ty v))
    rw [hty] at hsrc hbits hvalue ⊢
    rw [htype]
    cases hstatic : (staticTypes Γ B.scope e).value with
    | none =>
      rw [hstatic] at hbits
      cases hbits
    | some tv =>
      rw [hstatic] at hbits hT
      exact genCast_yields hvalue hT hsrc hdst (of_decide_eq_true hbits)

theorem lowered_comma (ihl : B.Lowered Γ ω l) (ihr : B.Lowered Γ ω r) :
    B.Lowered Γ ω (.comma i l r) where
  place h := by cases h
  value h := by
    obtain ⟨hl, hr⟩ := Bool.and_eq_true_iff.mp h
    obtain ⟨el, hlrun, hlref⟩ := ihl.value hl
    obtain ⟨er, hrrun, hrref⟩ := (ihr.value hr).word
    exact .checked ⟨_, hlrun.andThen (typed_value l) fun _ _ _ => hrrun.frame (List.nil_subset _),
      hlref.bind fun _ _ _ => hrref⟩

theorem lowered_sizeof {m : Gen IRValue} {n : ℤ} {ty : CType}
    (hgen : m = pure (irvInt (wordOf n) typeUlong)) :
    B.Yields Γ m (Word Γ ty) (NodeMeaning.checked Γ ty (pure n)) := by
  rw [hgen]
  exact .checked ⟨_, .int _ _, .pure rfl⟩

include hM in
/-- Every node, by the form of the expression. -/
theorem lowered (hnodup : (labelsOf B.code.func.instrs).Nodup) (e : Expr) : B.Lowered Γ ω e := by
  have hnone : ∀ {e}, covered Γ B.scope e = .ofValue false → B.Lowered Γ ω e := by
    intro e h
    constructor <;> rw [h] <;> rintro ⟨⟩
  cases e with
  | intLit i v s => exact ⟨fun h => absurd h Bool.false_ne_true, fun _ => lowered_literal rfl rfl⟩
  | charLit i v => exact ⟨fun h => absurd h Bool.false_ne_true, fun _ => lowered_literal rfl rfl⟩
  | ident i name => exact lowered_ident hM name
  | unop i op e => exact lowered_unop hM (lowered hnodup e)
  | postop i op e => exact lowered_postop hM (lowered hnodup e)
  | binop i op l r => exact lowered_binop hnodup (lowered hnodup l) (lowered hnodup r)
  | assign i op l r => exact lowered_assign hM (lowered hnodup l) (lowered hnodup r)
  | ternary i c t e =>
    exact lowered_ternary hnodup (lowered hnodup c) (lowered hnodup t) (lowered hnodup e)
  | subscript i b x => exact lowered_subscript hM (lowered hnodup b) (lowered hnodup x)
  | member i b field => exact lowered_member hM (lowered hnodup b)
  | memberPtr i b field => exact lowered_memberPtr hM (lowered hnodup b)
  | cast i ty e => exact lowered_cast (lowered hnodup e)
  | sizeofExpr i e =>
    refine ⟨fun h => absurd h Bool.false_ne_true, fun h => lowered_sizeof ?_⟩
    obtain ⟨ty, hty⟩ := Option.isSome_iff_exists.mp h
    change pure (sizeofValue Γ e.type) = _
    rw [Expr.typeOrInt, hty]
    rfl
  | sizeofType i ty => exact ⟨fun h => absurd h Bool.false_ne_true, fun _ => lowered_sizeof rfl⟩
  | comma i l r => exact lowered_comma (lowered hnodup l) (lowered hnodup r)
  | _ => exact hnone rfl

end Nodes

end Lowering

end TinyC
