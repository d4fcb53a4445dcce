import TinyC.SilentCode

/-!
# Forms that keep the address of an array or a function

An lvalue of array or function type is used by its address. Whether its code is that of the
address alone depends on its form.
-/

namespace TinyC

/-- A type whose lvalues are used by their addresses wherever they stand. -/
def CType.decays (ty : CType) : Bool := ty.isArray || ty.isFunc

/-- An lvalue of array or function type. A comma has the type of its right operand and
designates what that designates. -/
def designatesArrayOrFunc : Expr → Bool
  | .comma _ _ r => designatesArrayOrFunc r
  | .unop i op _ => op = .star && i.type.any CType.decays
  | .ident i _ | .subscript i _ _ | .member i _ _ | .memberPtr i _ _ | .compoundLit i _ _ =>
      i.type.any CType.decays
  | _ => false

/-- The code of the address alone. -/
def addressCode (Γ : TypeEnv) : Expr → Gen IRValue
  | .comma _ l r => do
      let _ ← genExpr Γ l
      addressCode Γ r
  | e => genLvalue Γ e

/-- In the state `g`, the code of `e` computes the address and emits no load from it. -/
def DecaysAt (Γ : TypeEnv) (e : Expr) (g : IrGen) : Prop :=
  let addr := addressCode Γ e g
  (genExpr Γ e g).1.kind = addr.1.kind ∧
    ∃ code, (genExpr Γ e g).2.func.instrs = addr.2.func.instrs ++ code ∧
      ∀ ins ∈ code, ins.op = .load → ins.src1.kind ≠ addr.1.kind

/-- The forms whose generators know of arrays and functions. -/
def keepsAddress (Γ : TypeEnv) : Expr → Bool
  | .comma _ _ r => keepsAddress Γ r
  | .ident _ _ => true
  | .member i b field =>
      i.type.any CType.isArray && (memberField Γ (.member i b field)).all (·.bitWidth ≤ 0)
  | .memberPtr i b field =>
      i.type.any CType.isArray && (memberField Γ (.memberPtr i b field)).all (·.bitWidth ≤ 0)
  | .compoundLit i _ _ => i.type.any CType.isArray
  | _ => false

section

variable {Γ : TypeEnv} {e : Expr} {g : IrGen} {ty : Option CType}
  {m : Gen IRValue}

theorem not_aggregate_of_decays (h : ty.any CType.decays = true) : isAggregateType ty = false := by
  cases ty with
  | none => rfl
  | some t => cases t <;> first | rfl | cases h

/-- Code that begins with a load from the address `a`. -/
def LoadsFirst (m : Gen IRValue) (a : IRValue) : Prop :=
  ∀ g, ∃ ins code, (m g).2.func.instrs = g.func.instrs ++ ins :: code ∧ ins.op = .load ∧
    ins.src1 = a

theorem LoadsFirst.genLoad (a : IRValue) (t : CType) : LoadsFirst (genLoad a t) a :=
  fun _ => ⟨_, [], rfl, rfl, rfl⟩

theorem LoadsFirst.before {a : IRValue} {k : IRValue → Gen IRValue} (hm : LoadsFirst m a)
    (hk : ∀ v, Emits (k v)) : LoadsFirst (m >>= k) a := by
  intro g
  obtain ⟨ins, code, hcode, hop, hsrc⟩ := hm g
  obtain ⟨more, hmore⟩ := (hk (m g).1 (m g).2).grows.code
  refine ⟨ins, code ++ more, ?_, hop, hsrc⟩
  calc (k (m g).1 (m g).2).2.func.instrs
      = (m g).2.func.instrs ++ more := hmore.symm
    _ = g.func.instrs ++ ins :: (code ++ more) := by rw [hcode, List.append_assoc, List.cons_append]

theorem LoadsFirst.genBitfieldLoad (a : IRValue) (f : StructField) :
    LoadsFirst (genBitfieldLoad a f) a :=
  (LoadsFirst.genLoad a f.type).before fun _ =>
    .bind (Emits.genFieldShift (by simp) _ _) fun _ => .emitTo (by simp)

/-- Nothing that decays is spared by the test for structs and unions. -/
theorem LoadsFirst.loadUnlessAggregate (h : ty.any CType.decays = true) (a : IRValue) :
    LoadsFirst (loadUnlessAggregate ty a) a := by
  rw [TinyC.loadUnlessAggregate, not_aggregate_of_decays h]
  exact .genLoad a _

theorem decaysAt_of_eq (hd : addressCode Γ e = genLvalue Γ e) (h : genExpr Γ e = genLvalue Γ e) :
    DecaysAt Γ e g := by
  rw [DecaysAt, hd, h]
  exact ⟨rfl, [], (List.append_nil _).symm, fun _ hmem => absurd hmem (List.not_mem_nil)⟩

/-- Code that goes on with a load from the address. -/
theorem not_decaysAt_of_loadsFirst {k : IRValue → Gen IRValue}
    (hd : addressCode Γ e = genLvalue Γ e) (h : genExpr Γ e = genLvalue Γ e >>= k)
    (hk : ∀ a, LoadsFirst (k a) a) : ¬DecaysAt Γ e g := by
  rintro ⟨-, code, hcode, hnone⟩
  rw [hd] at hcode hnone
  rw [h] at hcode
  obtain ⟨ins, code', hcode', hop, hsrc⟩ := hk (genLvalue Γ e g).1 (genLvalue Γ e g).2
  have heq : code = ins :: code' := List.append_cancel_left (hcode.symm.trans hcode')
  exact hnone ins (heq ▸ List.mem_cons_self) hop (congrArg IRValue.kind hsrc)

theorem genMemberExpr_array {bf : Option StructField}
    (h : (ty.any CType.isArray && bf.all (·.bitWidth ≤ 0)) = true) : genMemberExpr ty bf m = m := by
  rw [Bool.and_eq_true] at h
  have hbf : (bf.filter fun f => f.bitWidth > 0) = none := by
    cases bf with
    | none => rfl
    | some f => simpa using h.2
  funext g
  simp only [genMemberExpr, hbf, h.1, if_true]
  rfl

theorem genMemberExpr_loads {bf : Option StructField} (hty : ty.any CType.decays = true)
    (h : ¬(ty.any CType.isArray && bf.all (·.bitWidth ≤ 0)) = true) :
    ∃ k, genMemberExpr ty bf m = m >>= k ∧ ∀ a, LoadsFirst (k a) a := by
  refine ⟨_, rfl, fun a => ?_⟩
  split
  · exact .genBitfieldLoad _ _
  case h_2 hbf =>
    have hall : bf.all (·.bitWidth ≤ 0) = true := by
      cases bf with
      | none => rfl
      | some f => simpa using hbf
    rw [hall, Bool.and_true] at h
    rw [if_neg h]
    exact .loadUnlessAggregate hty a

/-- A member keeps its address only as an array that is no bit-field. -/
theorem decaysAt_member {bf : Option StructField} (hd : addressCode Γ e = genLvalue Γ e)
    (hgen : genExpr Γ e = genMemberExpr ty bf (genLvalue Γ e)) (hty : ty.any CType.decays = true) :
    DecaysAt Γ e g ↔ (ty.any CType.isArray && bf.all (·.bitWidth ≤ 0)) = true := by
  constructor
  · intro hdec
    by_contra hnot
    obtain ⟨k, hk, hloads⟩ := genMemberExpr_loads (m := genLvalue Γ e) hty hnot
    exact not_decaysAt_of_loadsFirst hd (hgen.trans hk) hloads hdec
  · intro h
    exact decaysAt_of_eq hd (hgen.trans (genMemberExpr_array h))

theorem decaysAt_ident (i : Info) (name : String) (h : i.type.any CType.decays = true) :
    DecaysAt Γ (.ident i name) g := by
  have hty : ((i.type.getD typeInt).isArray || (i.type.getD typeInt).isFunc) = true := by
    cases hi : i.type with
    | none => rw [hi] at h; cases h
    | some t => rw [hi] at h; exact h
  change (genIdent name i.type g).1.kind = (genIdentLvalue name g).1.kind ∧
    ∃ code, (genIdent name i.type g).2.func.instrs =
      (genIdentLvalue name g).2.func.instrs ++ code ∧ _
  rw [genIdent, genIdentLvalue, Gen.run_vscopeLookup_bind, Gen.run_vscopeLookup_bind]
  cases g.scope.lookup vtabBuckets name with
  | none => exact ⟨rfl, [], (List.append_nil _).symm, fun _ hmem => absurd hmem List.not_mem_nil⟩
  | some entry =>
    simp only [hty, Bool.true_or, if_true]
    refine ⟨?_, [], (List.append_nil _).symm, fun _ hmem => absurd hmem List.not_mem_nil⟩
    trivial

theorem decaysAt_compoundLit (i : Info) (t : CType) (init : Expr)
    (h : i.type.any CType.decays = true) :
    DecaysAt Γ (.compoundLit i t init) g ↔ i.type.any CType.isArray = true := by
  obtain ⟨ty, hi⟩ : ∃ ty, i.type = some ty := by
    cases hi : i.type with
    | none => rw [hi] at h; cases h
    | some ty => exact ⟨ty, rfl⟩
  have hagg : isAggregateType (some ty) = false := hi ▸ not_aggregate_of_decays h
  have hgen : genExpr Γ (.compoundLit i t init) = genLvalue Γ (.compoundLit i t init) >>= fun a =>
      if ty.isArray then pure a else genLoad a ty := by
    change genCompoundLit i.type _ = _
    rw [hi, genCompoundLit]
    simp only [Option.getD_some, hagg, Bool.false_or]
    rfl
  rw [hi, Option.any_some]
  by_cases harr : ty.isArray = true
  · refine iff_of_true (decaysAt_of_eq rfl ?_) harr
    rw [hgen]
    simp only [harr, if_true, bind_pure]
  · refine iff_of_false (not_decaysAt_of_loadsFirst rfl hgen fun a => ?_) harr
    rw [if_neg harr]
    exact .genLoad a ty

/-- A comma is its right operand, after the code of the left one. -/
theorem decaysAt_comma (i : Info) (l r : Expr) :
    DecaysAt Γ (.comma i l r) g ↔ DecaysAt Γ r (genExpr Γ l g).2 := Iff.rfl

/-- Exactly the forms that know of arrays and functions use an lvalue of such a type by its
address. -/
theorem decaysAt_iff (Γ : TypeEnv) (e : Expr) (h : designatesArrayOrFunc e = true)
    (g : IrGen) : DecaysAt Γ e g ↔ keepsAddress Γ e = true := by
  cases e with
  | comma i l r =>
    exact (decaysAt_comma i l r).trans (decaysAt_iff Γ r h (genExpr Γ l g).2)
  | ident i name => exact iff_of_true (decaysAt_ident i name h) rfl
  | unop i op e =>
    obtain ⟨hop, hty⟩ := (Bool.and_eq_true _ _).mp h
    obtain rfl : op = .star := of_decide_eq_true hop
    refine iff_of_false (not_decaysAt_of_loadsFirst rfl rfl fun a => ?_) Bool.false_ne_true
    exact .loadUnlessAggregate hty a
  | subscript i b x =>
    refine iff_of_false (not_decaysAt_of_loadsFirst rfl rfl fun a => ?_) Bool.false_ne_true
    exact .loadUnlessAggregate h a
  | member i b field => exact decaysAt_member rfl rfl h
  | memberPtr i b field => exact decaysAt_member rfl rfl h
  | compoundLit i t init => exact decaysAt_compoundLit i t init h
  | _ => exact absurd h Bool.false_ne_true

end

end TinyC
