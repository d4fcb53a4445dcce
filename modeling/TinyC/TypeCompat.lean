import TinyC.Readback

/-!
# Compatible types

`type_compatible` on the nodes of the type table. Nowhere does it look at qualifiers, and structs,
unions and enumerations it compares by their nodes, of which a qualified version is another one.
-/

namespace TinyC

namespace TypeTable

/-- `type_compatible` along `n` nodes. -/
def compatibleAlong (t : TypeTable) : ℕ → Option TypeRef → Option TypeRef → Except Stuck Bool
  | 0, _, _ => throw .cycle
  | n + 1, a, b =>
      if a = b then return true
      else
        match t.node? a, t.node? b with
        | some x, some y =>
            match x.body, y.body with
            | .scalar k, .scalar k' => return k = k'
            | .enum _, .scalar k | .scalar k, .enum _ => return k = .int
            | .pointer p, .pointer p' => compatibleAlong t n p p'
            | .array e count, .array e' count' =>
                if count = count' then compatibleAlong t n e e' else return false
            | .arrayUnsized e, .arrayUnsized e' => compatibleAlong t n e e'
            | .func r ps variadic, .func r' ps' variadic' => do
                if !(← compatibleAlong t n r r') then return false
                if ps.length ≠ ps'.length then return false
                if variadic ≠ variadic' then return false
                (ps.zip ps').allM fun p => compatibleAlong t n p.1.type p.2.type
            | _, _ => return false
        | _, _ => throw .null

/-- A walk along more nodes than there are goes round in a cycle. -/
def typeCompatible (t : TypeTable) (a b : Option TypeRef) : Except Stuck Bool :=
  t.compatibleAlong (t.nodes.length + 1) a b

end TypeTable

/-! ### Types that are the same but for qualifiers -/

mutual

/-- The types have the same structure, whatever their qualifiers. An enumeration goes with `int`. -/
def CType.sameShape : CType → CType → Bool
  | .scalar k _, .scalar k' _ => k = k'
  | .enum _ _, .scalar k _ | .scalar k _, .enum _ _ => k = .int
  | .pointer p _, .pointer p' _ => p.sameShape p'
  | .array e count _, .array e' count' _ => count = count' && e.sameShape e'
  | .arrayUnsized e _, .arrayUnsized e' _ => e.sameShape e'
  | .func r ps variadic _, .func r' ps' variadic' _ =>
      r.sameShape r' && variadic = variadic' && ps.sameShape ps'
  | .agg _ id _, .agg _ id' _ | .enum id _, .enum id' _ => id = id'
  | _, _ => false

def FuncParams.sameShape : FuncParams → FuncParams → Bool
  | .nil, .nil => true
  | .cons _ type next, .cons _ type' next' => type.sameShape type' && next.sameShape next'
  | _, _ => false

end

mutual

/-- The qualifiers of a type that is pointed to, or of an element, differ somewhere in the types. -/
def CType.innerDiffer : CType → CType → Bool
  | .pointer p _, .pointer p' _ => p.qual ≠ p'.qual || p.innerDiffer p'
  | .array e _ _, .array e' _ _ => e.qual ≠ e'.qual || e.innerDiffer e'
  | .arrayUnsized e _, .arrayUnsized e' _ => e.qual ≠ e'.qual || e.innerDiffer e'
  | .func r ps _ _, .func r' ps' _ _ => r.innerDiffer r' || ps.innerDiffer ps'
  | _, _ => false

def FuncParams.innerDiffer : FuncParams → FuncParams → Bool
  | .cons _ type next, .cons _ type' next' => type.innerDiffer type' || next.innerDiffer next'
  | _, _ => false

end

namespace CType

/-- A struct, union or enumeration. -/
def isDeclared : CType → Bool
  | .agg _ _ _ | .enum _ _ => true
  | _ => false

/-- The type with other qualifiers, as node `r`. -/
def requalify (r : TypeRef) (q : TypeQual) : CType → CType
  | .agg isUnion _ _ => .agg isUnion r q
  | .enum _ _ => .enum r q
  | ty => ty.withQual q

/-- A struct, union or enumeration is this node. -/
def IsNode (r : TypeRef) : CType → Prop
  | .agg _ id _ | .enum id _ => id = r
  | _ => True

end CType

mutual

theorem CType.sameShape_self (ty : CType) : ty.sameShape ty = true := by
  cases ty with
  | scalar | agg | «enum» => simp [CType.sameShape]
  | pointer p q => exact p.sameShape_self
  | array e count q => simp [CType.sameShape, e.sameShape_self]
  | arrayUnsized e q => exact e.sameShape_self
  | func r ps variadic q => simp [CType.sameShape, r.sameShape_self, ps.sameShape_self]

theorem FuncParams.sameShape_self (ps : FuncParams) : ps.sameShape ps = true := by
  cases ps with
  | nil => rfl
  | cons name type next => simp [FuncParams.sameShape, type.sameShape_self, next.sameShape_self]

end

mutual

theorem CType.sameShape_comm (ty ty' : CType) : ty.sameShape ty' = ty'.sameShape ty := by
  cases ty with
  | scalar k q => cases ty' <;> simp [CType.sameShape, eq_comm]
  | agg u id q => cases ty' <;> simp [CType.sameShape, eq_comm]
  | «enum» id q => cases ty' <;> simp [CType.sameShape, eq_comm]
  | pointer p q =>
    cases ty' with
    | pointer p' q' => exact p.sameShape_comm p'
    | _ => rfl
  | array e count q =>
    cases ty' with
    | array e' count' q' => simp [CType.sameShape, e.sameShape_comm e', eq_comm]
    | _ => rfl
  | arrayUnsized e q =>
    cases ty' with
    | arrayUnsized e' q' => exact e.sameShape_comm e'
    | _ => rfl
  | func r ps variadic q =>
    cases ty' with
    | func r' ps' variadic' q' =>
      simp [CType.sameShape, r.sameShape_comm r', ps.sameShape_comm ps', eq_comm]
    | _ => rfl

theorem FuncParams.sameShape_comm (ps ps' : FuncParams) : ps.sameShape ps' = ps'.sameShape ps := by
  cases ps with
  | nil => cases ps' <;> rfl
  | cons name type next =>
    cases ps' with
    | nil => rfl
    | cons name' type' next' =>
      simp [FuncParams.sameShape, type.sameShape_comm type', next.sameShape_comm next']

end

namespace CType

variable {ta tb : CType} {a b a' b' : TypeRef} {q r : TypeQual}

theorem requalify_self (h : ta.IsNode a) : ta.requalify a ta.qual = ta := by
  cases ta <;> first | rfl | (cases h; rfl)

/-- New nodes that are equal just where the old ones were make no difference. -/
theorem sameShape_requalify (ha : ta.IsNode a) (hb : tb.IsNode b) (h : a' = b' ↔ a = b) :
    (ta.requalify a' q).sameShape (tb.requalify b' r) = ta.sameShape tb := by
  cases ta <;> cases tb <;> simp_all [requalify, withQual, sameShape, IsNode]

theorem sameShape_requalify_other (h : ta.isDeclared = false) :
    (ta.requalify a' q).sameShape (tb.requalify b' r) = ta.sameShape tb := by
  cases ta <;> cases tb <;> first | rfl | cases h

/-- Two versions of one struct are two nodes. -/
theorem sameShape_versions (h : ta.isDeclared) (hne : a' ≠ b') :
    (ta.requalify a' q).sameShape (ta.requalify b' r) = false := by
  cases ta with
  | agg | «enum» => simp [requalify, sameShape, hne]
  | scalar | pointer | array | arrayUnsized | func => cases h

end CType

/-! ### Types that are read -/

/-- The parameters of a function type, read with `read`. -/
def readParams (read : Option TypeRef → Except Stuck CType) (ps : List ParamNode) :
    Except Stuck FuncParams :=
  ps.foldrM (fun p ps => do return FuncParams.cons p.name (← read p.type) ps) .nil

variable {read read' : Option TypeRef → Except Stuck CType} {ps ps' : List ParamNode}
  {us us' : FuncParams} {p : ParamNode}

theorem readParams_cons (h : readParams read (p :: ps) = .ok us) : ∃ us' ty,
    readParams read ps = .ok us' ∧ read p.type = .ok ty ∧ us = .cons p.name ty us' := by
  rw [readParams, List.foldrM_cons] at h
  obtain ⟨us', hrest, h⟩ := except_bind_ok h
  obtain ⟨ty, hty, h⟩ := except_bind_ok h
  cases h
  exact ⟨us', ty, hrest, hty, rfl⟩

theorem readParams_mono (hread : ∀ r ty, read r = .ok ty → read' r = .ok ty)
    (h : readParams read ps = .ok us) : readParams read' ps = .ok us := by
  induction ps generalizing us with
  | nil => exact h
  | cons p ps ih =>
    obtain ⟨us', ty, hrest, hty, rfl⟩ := readParams_cons h
    have hrest' := ih hrest
    rw [readParams] at hrest'
    rw [readParams, List.foldrM_cons, hrest']
    change (read' p.type >>= fun ty => pure (FuncParams.cons p.name ty us')) = _
    rw [hread _ _ hty]
    rfl

/-- Lists of different lengths are different. -/
theorem sameShape_of_length_ne (h : readParams read ps = .ok us) (h' : readParams read ps' = .ok us')
    (hlen : ps.length ≠ ps'.length) : us.sameShape us' = false := by
  induction ps generalizing ps' us us' with
  | nil =>
    cases h
    cases ps' with
    | nil => exact absurd rfl hlen
    | cons p' ps' =>
      obtain ⟨vs', ty', -, -, rfl⟩ := readParams_cons h'
      rfl
  | cons p ps ih =>
    obtain ⟨vs, ty, hrest, -, rfl⟩ := readParams_cons h
    cases ps' with
    | nil =>
      cases h'
      rfl
    | cons p' ps' =>
      obtain ⟨vs', ty', hrest', -, rfl⟩ := readParams_cons h'
      have hlen' : ps.length ≠ ps'.length := fun heq => hlen (congrArg (· + 1) heq)
      rw [FuncParams.sameShape, ih hrest hrest' hlen', Bool.and_false]

/-- The loop over two lists of parameters. -/
theorem allM_params {f : Option TypeRef → Option TypeRef → Except Stuck Bool}
    (hf : ∀ a b ta tb, read a = .ok ta → read b = .ok tb → f a b = .ok (ta.sameShape tb))
    (h : readParams read ps = .ok us) (h' : readParams read ps' = .ok us')
    (hlen : ps.length = ps'.length) :
    (ps.zip ps').allM (fun p => f p.1.type p.2.type) = .ok (us.sameShape us') := by
  induction ps generalizing ps' us us' with
  | nil =>
    cases h
    cases ps' with
    | nil =>
      cases h'
      rfl
    | cons p' ps' => cases hlen
  | cons p ps ih =>
    obtain ⟨vs, ty, hrest, hty, rfl⟩ := readParams_cons h
    cases ps' with
    | nil => cases hlen
    | cons p' ps' =>
      obtain ⟨vs', ty', hrest', hty', rfl⟩ := readParams_cons h'
      have htail := ih hrest hrest' (Nat.succ.inj hlen)
      rw [List.zip_cons_cons, List.allM, hf _ _ _ _ hty hty', FuncParams.sameShape]
      cases ty.sameShape ty' with
      | true => exact htail
      | false => rfl

/-- Function types, compared part by part. -/
theorem compareFuncs (variadic variadic' : Bool)
    {f : Option TypeRef → Option TypeRef → Except Stuck Bool}
    (hf : ∀ a b ta tb, read a = .ok ta → read b = .ok tb → f a b = .ok (ta.sameShape tb))
    {ret ret' : Option TypeRef} {tr tr' : CType}
    (hret : read ret = .ok tr) (hret' : read ret' = .ok tr')
    (h : readParams read ps = .ok us) (h' : readParams read ps' = .ok us') :
    (do
      if !(← f ret ret') then return false
      if ps.length ≠ ps'.length then return false
      if variadic ≠ variadic' then return false
      (ps.zip ps').allM fun p => f p.1.type p.2.type : Except Stuck Bool) =
      .ok (tr.sameShape tr' && variadic = variadic' && us.sameShape us') := by
  rw [hf _ _ _ _ hret hret']
  cases tr.sameShape tr' with
  | false => rfl
  | true =>
    change (if ps.length ≠ ps'.length then pure false
      else if variadic ≠ variadic' then pure false
      else (ps.zip ps').allM fun p => f p.1.type p.2.type) = _
    by_cases hlen : ps.length = ps'.length
    · rw [if_neg (not_not.mpr hlen)]
      by_cases hvar : variadic = variadic'
      · rw [if_neg (not_not.mpr hvar), allM_params hf h h' hlen, decide_eq_true hvar]
        rfl
      · rw [if_pos hvar, decide_eq_false hvar]
        rfl
    · rw [if_pos hlen, sameShape_of_length_ne h h' hlen, Bool.and_false]
      rfl

namespace TypeTable

variable {t t' : TypeTable} {n m : ℕ} {a b : Option TypeRef} {ta tb : CType}

/-- What a node is read as, along `n` nodes from its components on. -/
inductive ReadsBody (t : TypeTable) (n : ℕ) (r : TypeRef) (q : TypeQual) : TypeBody → CType → Prop
  | scalar (k : ScalarKind) : ReadsBody t n r q (.scalar k) (.scalar k q)
  | pointer {p : Option TypeRef} {ty : CType} (h : t.readAlong n p = .ok ty) :
      ReadsBody t n r q (.pointer p) (.pointer ty q)
  | array {e : Option TypeRef} {ty : CType} (count : ℤ) (h : t.readAlong n e = .ok ty) :
      ReadsBody t n r q (.array e count) (.array ty count q)
  | arrayUnsized {e : Option TypeRef} {ty : CType} (h : t.readAlong n e = .ok ty) :
      ReadsBody t n r q (.arrayUnsized e) (.arrayUnsized ty q)
  | func {ret : Option TypeRef} {ps : List ParamNode} {ty : CType} {us : FuncParams}
      (variadic : Bool) (h : t.readAlong n ret = .ok ty)
      (hps : readParams (t.readAlong n) ps = .ok us) :
      ReadsBody t n r q (.func ret ps variadic) (.func ty us variadic q)
  | agg (isUnion : Bool) (d : AggNode) : ReadsBody t n r q (.agg isUnion d) (.agg isUnion r q)
  | enum (d : EnumDef) : ReadsBody t n r q (.enum d) (.enum r q)

theorem readAlong_succ {r : TypeRef} : t.readAlong (n + 1) (some r) = .ok ta ↔
    ∃ body q, t.nodes[r]? = some ⟨body, q⟩ ∧ ReadsBody t n r q body ta := by
  rw [readAlong]
  constructor
  · intro h
    cases hnode : t.node? (some r) with
    | none =>
      rw [hnode] at h
      cases h
    | some node =>
      obtain ⟨body, q⟩ := node
      rw [hnode] at h
      refine ⟨body, q, hnode, ?_⟩
      cases body with
      | scalar k =>
        cases h
        exact .scalar k
      | agg isUnion d =>
        cases h
        exact .agg isUnion d
      | «enum» d =>
        cases h
        exact .enum d
      | pointer p =>
        obtain ⟨ty, hty, h⟩ := except_bind_ok h
        cases h
        exact .pointer hty
      | array e count =>
        obtain ⟨ty, hty, h⟩ := except_bind_ok h
        cases h
        exact .array count hty
      | arrayUnsized e =>
        obtain ⟨ty, hty, h⟩ := except_bind_ok h
        cases h
        exact .arrayUnsized hty
      | func ret ps variadic =>
        obtain ⟨ty, hty, h⟩ := except_bind_ok h
        obtain ⟨us, hus, h⟩ := except_bind_ok h
        cases h
        exact .func variadic hty hus
  · rintro ⟨body, q, hnode, hbody⟩
    have hnode' : t.node? (some r) = some ⟨body, q⟩ := hnode
    rw [hnode']
    cases hbody with
    | scalar | agg | «enum» => rfl
    | pointer h | array _ h | arrayUnsized h =>
      simp only [h]
      rfl
    | func variadic h hps =>
      rw [readParams] at hps
      simp only [h, hps]
      rfl

/-- A body is read as the same when its components are. -/
theorem ReadsBody.mono {r : TypeRef} {q : TypeQual} {body : TypeBody}
    (h : ReadsBody t n r q body ta)
    (hread : ∀ x ty, t.readAlong n x = .ok ty → t'.readAlong m x = .ok ty) :
    ReadsBody t' m r q body ta := by
  cases h with
  | scalar k => exact .scalar k
  | pointer h => exact .pointer (hread _ _ h)
  | array count h => exact .array count (hread _ _ h)
  | arrayUnsized h => exact .arrayUnsized (hread _ _ h)
  | func variadic h hps => exact .func variadic (hread _ _ h) (readParams_mono hread hps)
  | agg isUnion d => exact .agg isUnion d
  | «enum» d => exact .enum d

/-- The same body in another node. -/
theorem ReadsBody.requalify {r : TypeRef} {q : TypeQual} {body : TypeBody}
    (h : ReadsBody t n r q body ta) (r' : TypeRef) (q' : TypeQual) :
    ReadsBody t n r' q' body (ta.requalify r' q') := by
  cases h with
  | scalar k => exact .scalar k
  | pointer h => exact .pointer h
  | array count h => exact .array count h
  | arrayUnsized h => exact .arrayUnsized h
  | func variadic h hps => exact .func variadic h hps
  | agg isUnion d => exact .agg isUnion d
  | «enum» d => exact .enum d

theorem ReadsBody.isNode {r : TypeRef} {q : TypeQual} {body : TypeBody}
    (h : ReadsBody t n r q body ta) : ta.IsNode r ∧ ta.qual = q := by
  cases h <;> exact ⟨by trivial, rfl⟩

/-- What is read stays when nodes are added, and along more nodes. -/
theorem readAlong_extends (hext : ∀ (r : TypeRef) x, t.nodes[r]? = some x → t'.nodes[r]? = some x)
    (hnm : n ≤ m) (h : t.readAlong n a = .ok ta) : t'.readAlong m a = .ok ta := by
  induction n generalizing m a ta with
  | zero => cases a <;> cases h
  | succ n ih =>
    obtain ⟨m, rfl⟩ := Nat.exists_eq_succ_of_ne_zero (show m ≠ 0 by omega)
    cases a with
    | none => cases h
    | some r =>
      obtain ⟨body, q, hnode, hbody⟩ := readAlong_succ.mp h
      exact readAlong_succ.mpr ⟨body, q, hext r _ hnode,
        hbody.mono fun x ty hx => ih (by omega) hx⟩

/-- The code compares types as if they had no qualifiers. -/
theorem compatibleAlong_eq (ha : t.readAlong n a = .ok ta) (hb : t.readAlong n b = .ok tb) :
    t.compatibleAlong n a b = .ok (ta.sameShape tb) := by
  induction n generalizing a b ta tb with
  | zero => cases a <;> cases ha
  | succ n ih =>
    rw [compatibleAlong]
    by_cases hab : a = b
    · subst hab
      rw [ha] at hb
      cases hb
      rw [if_pos rfl, CType.sameShape_self]
      rfl
    · rw [if_neg hab]
      cases a with
      | none => cases ha
      | some r =>
        cases b with
        | none => cases hb
        | some s =>
          have hrs : r ≠ s := fun heq => hab (congrArg some heq)
          obtain ⟨body, q, hx, hbody⟩ := readAlong_succ.mp ha
          obtain ⟨body', q', hy, hbody'⟩ := readAlong_succ.mp hb
          have hx' : t.node? (some r) = some ⟨body, q⟩ := hx
          have hy' : t.node? (some s) = some ⟨body', q'⟩ := hy
          rw [hx', hy']
          cases hbody with
          | scalar k => cases hbody' <;> rfl
          | agg u d =>
            cases hbody' with
            | agg u' d' => exact congrArg Except.ok (decide_eq_false hrs).symm
            | _ => rfl
          | «enum» d =>
            cases hbody' with
            | «enum» d' => exact congrArg Except.ok (decide_eq_false hrs).symm
            | _ => rfl
          | pointer h =>
            cases hbody' with
            | pointer h' =>
              have hinner := ih h h'
              exact hinner
            | _ => rfl
          | array count h =>
            cases hbody' with
            | array count' h' =>
              by_cases hcount : count = count'
              · have hinner := ih h h'
                simp only [hcount, if_true, hinner, CType.sameShape, decide_true, Bool.true_and]
              · simp only [hcount, if_false, CType.sameShape, decide_false, Bool.false_and]
                rfl
            | _ => rfl
          | arrayUnsized h =>
            cases hbody' with
            | arrayUnsized h' =>
              have hinner := ih h h'
              exact hinner
            | _ => rfl
          | func variadic h hps =>
            cases hbody' with
            | func variadic' h' hps' =>
              rw [CType.sameShape]
              have hfuncs := compareFuncs variadic variadic' (f := t.compatibleAlong n)
                (fun _ _ _ _ => ih) h h' hps hps'
              exact hfuncs
            | _ => rfl

theorem typeCompatible_eq (ha : t.readType a = .ok ta) (hb : t.readType b = .ok tb) :
    t.typeCompatible a b = .ok (ta.sameShape tb) := compatibleAlong_eq ha hb

/-! ### Qualified versions -/

variable {r s : ℕ} {q q' : TypeQual}

/-- `type_qualify` gives the node itself, or a new node with the same body. -/
theorem typeQualify_cases {body : TypeBody} {q₀ : TypeQual}
    (hnode : t.nodes[r]? = some ⟨body, q₀⟩) :
    (q₀.merge q = q₀ ∧ t.typeQualify r q = (r, t)) ∨
      (q₀.merge q ≠ q₀ ∧ (t.typeQualify r q).1 = t.nodes.length ∧
        (t.typeQualify r q).2.nodes = t.nodes ++ [⟨body, q₀.merge q⟩]) := by
  rw [typeQualify, hnode]
  dsimp only
  by_cases hsame : q₀.merge q = q₀
  · rw [if_pos hsame]
    exact .inl ⟨hsame, rfl⟩
  · rw [if_neg hsame]
    exact .inr ⟨hsame, rfl, rfl⟩

/-- A qualified version of a type in a table that has more nodes. -/
structure Qualifies (t t' : TypeTable) (r : ℕ) (q : TypeQual) (ta : CType) (r' : ℕ) : Prop where
  ext : ∀ (x : TypeRef) node, t.nodes[x]? = some node → t'.nodes[x]? = some node
  read : t'.readType (some r') = .ok (ta.requalify r' (ta.qual.merge q))
  lt : r' < t'.nodes.length
  node : if ta.qual.merge q = ta.qual then r' = r else r' = t.nodes.length

theorem length_le_of_ext
    (h : ∀ (x : TypeRef) node, t.nodes[x]? = some node → t'.nodes[x]? = some node) :
    t.nodes.length ≤ t'.nodes.length := by
  by_contra hlt
  have hlast := List.getElem?_eq_getElem (Nat.not_le.mp hlt)
  have hmore := (List.getElem?_eq_some_iff.mp (h _ _ hlast)).1
  omega

theorem readType_extends
    (hext : ∀ (x : TypeRef) node, t.nodes[x]? = some node → t'.nodes[x]? = some node)
    (h : t.readType a = .ok ta) : t'.readType a = .ok ta :=
  readAlong_extends hext (Nat.succ_le_succ (length_le_of_ext hext)) h

theorem qualifies (h : t.readType (some r) = .ok ta) (q : TypeQual) :
    Qualifies t (t.typeQualify r q).2 r q ta (t.typeQualify r q).1 := by
  obtain ⟨body, q₀, hnode, hbody⟩ := readAlong_succ.mp h
  obtain ⟨hself, rfl⟩ := hbody.isNode
  rcases typeQualify_cases (q := q) hnode with ⟨hsame, heq⟩ | ⟨hdiff, hr, hnodes⟩
  · rw [heq]
    refine ⟨fun _ _ hx => hx, ?_, (List.getElem?_eq_some_iff.mp hnode).1, ?_⟩
    · rw [hsame, CType.requalify_self hself]
      exact h
    · rw [if_pos hsame]
  · have hext : ∀ (x : TypeRef) node, t.nodes[x]? = some node →
        (t.typeQualify r q).2.nodes[x]? = some node := by
      intro x node hx
      rw [hnodes, List.getElem?_append_left (List.getElem?_eq_some_iff.mp hx).1]
      exact hx
    have hnew : (t.typeQualify r q).2.nodes[(t.typeQualify r q).1]? =
        some ⟨body, ta.qual.merge q⟩ := by
      rw [hnodes, hr, List.getElem?_concat_length]
    have hlen := length_le_of_ext hext
    refine ⟨hext, ?_, (List.getElem?_eq_some_iff.mp hnew).1, ?_⟩
    · exact readAlong_succ.mpr ⟨body, _, hnew,
        (hbody.mono fun x ty hx => readAlong_extends hext hlen hx).requalify _ _⟩
    · rw [if_neg hdiff, hr]

theorem lt_of_readType (h : t.readType (some r) = .ok ta) : r < t.nodes.length := by
  obtain ⟨body, q₀, hnode, -⟩ := readAlong_succ.mp h
  exact (List.getElem?_eq_some_iff.mp hnode).1

/-- The call on the two qualified versions, as the code makes it. -/
def compatibleQualified (t : TypeTable) (r s : TypeRef) (q q' : TypeQual) : Except Stuck Bool :=
  let (r', t₁) := t.typeQualify r q
  let (s', t₂) := t₁.typeQualify s q'
  t₂.typeCompatible (some r') (some s')

/-- A struct, union or enumeration is copied on one side, or on both. -/
def Copies (r s : TypeRef) (q q' : TypeQual) (ta : CType) : Prop :=
  r = s ∧ ta.isDeclared ∧ (ta.qual.merge q ≠ ta.qual ∨ ta.qual.merge q' ≠ ta.qual)

theorem compatibleQualified_eq (ha : t.readType (some r) = .ok ta)
    (hb : t.readType (some s) = .ok tb) (q q' : TypeQual) :
    ∃ v, t.compatibleQualified r s q q' = .ok v ∧
      (v = ta.sameShape tb ↔ ¬Copies r s q q' ta) := by
  have hr := lt_of_readType ha
  have hs := lt_of_readType hb
  have hfirst := qualifies ha q
  have hb₁ := readType_extends hfirst.ext hb
  have hsecond := qualifies hb₁ q'
  have ha₂ := readType_extends hsecond.ext hfirst.read
  refine ⟨_, typeCompatible_eq ha₂ hsecond.read, ?_⟩
  have hlen := length_le_of_ext hfirst.ext
  have hnode := hfirst.node
  have hnode' := hsecond.node
  have hlt := hfirst.lt
  obtain ⟨body, q₀, -, hbody⟩ := readAlong_succ.mp ha
  obtain ⟨body', q₀', -, hbody'⟩ := readAlong_succ.mp hb
  cases hdecl : ta.isDeclared with
  | false =>
    rw [CType.sameShape_requalify_other hdecl]
    simp [Copies, hdecl]
  | true =>
    by_cases hcopies : Copies r s q q' ta
    · -- two nodes for one struct
      obtain ⟨rfl, -, hadds⟩ := id hcopies
      rw [ha] at hb
      cases hb
      have hne : (t.typeQualify r q).1 ≠ ((t.typeQualify r q).2.typeQualify r q').1 := by
        change @Ne ℕ _ _
        by_cases hsame : ta.qual.merge q = ta.qual
        · rw [if_pos hsame] at hnode
          rw [if_neg (hadds.resolve_left (not_not.mpr hsame))] at hnode'
          omega
        · rw [if_neg hsame] at hnode
          split at hnode' <;> omega
      rw [CType.sameShape_versions hdecl hne, CType.sameShape_self]
      exact iff_of_false (by decide) (not_not.mpr hcopies)
    · have hnodes : (t.typeQualify r q).1 = ((t.typeQualify r q).2.typeQualify s q').1 ↔ r = s := by
        by_cases hrs : r = s
        · subst hrs
          rw [ha] at hb
          cases hb
          have hkeep : ta.qual.merge q = ta.qual ∧ ta.qual.merge q' = ta.qual := by
            by_contra hnot
            exact hcopies ⟨rfl, hdecl, not_and_or.mp hnot⟩
          rw [if_pos hkeep.1] at hnode
          rw [if_pos hkeep.2] at hnode'
          exact iff_of_true (hnode.trans hnode'.symm) rfl
        · refine iff_of_false ?_ hrs
          change @Ne ℕ _ _
          split at hnode <;> split at hnode' <;> omega
      exact iff_of_true (CType.sameShape_requalify hbody.isNode.1 hbody'.isNode.1 hnodes) hcopies

/-- What `type_compatible` promises for two types. -/
structure IgnoresTopQualifiers (t : TypeTable) (r s : TypeRef) (q q' : TypeQual) (ta tb : CType) :
    Prop where
  returns : ∃ v, t.typeCompatible (some r) (some s) = .ok v
  symm : t.typeCompatible (some r) (some s) = t.typeCompatible (some s) (some r)
  refl : t.typeCompatible (some r) (some r) = .ok true
  qualified : t.compatibleQualified r s q q' = t.typeCompatible (some r) (some s)
  inner : ta.innerDiffer tb → t.typeCompatible (some r) (some s) = .ok false

/-- It keeps its promise for two types unless they are one struct, union or enumeration that gets
qualified, or they differ in nothing but qualifiers and do so below a pointer or array. -/
theorem typeCompatible_iff (t : TypeTable) (r s : TypeRef) (q q' : TypeQual) (ta tb : CType)
    (ha : t.readType (some r) = .ok ta) (hb : t.readType (some s) = .ok tb) :
    t.IgnoresTopQualifiers r s q q' ta tb ↔
      ¬Copies r s q q' ta ∧ ¬(ta.innerDiffer tb ∧ ta.sameShape tb) := by
  have heq := typeCompatible_eq ha hb
  obtain ⟨v, hv, hiff⟩ := compatibleQualified_eq ha hb q q'
  constructor
  · intro h
    refine ⟨hiff.mp ?_, fun ⟨hinner, hshape⟩ => ?_⟩
    · have hq := h.qualified
      rw [hv, heq] at hq
      exact Except.ok.inj hq
    · have hfalse := h.inner hinner
      rw [heq, hshape] at hfalse
      cases hfalse
  · rintro ⟨hcopies, hinner⟩
    refine ⟨⟨_, heq⟩, ?_, ?_, ?_, fun hd => ?_⟩
    · rw [heq, typeCompatible_eq hb ha, CType.sameShape_comm]
    · rw [typeCompatible_eq ha ha, CType.sameShape_self]
    · rw [hv, heq, hiff.mpr hcopies]
    · rw [heq]
      cases hshape : ta.sameShape tb with
      | false => rfl
      | true => exact absurd ⟨hd, hshape⟩ hinner

/-- `int` and `const int`. -/
theorem typeCompatible_int :
    (typeTableInit fun _ => 0).IgnoresTopQualifiers 7 7 { isConst := true } .none typeInt typeInt :=
  (typeCompatible_iff _ 7 7 _ _ typeInt typeInt (by rfl) (by rfl)).mpr
    ⟨fun h => absurd h.2.1 (by decide), by decide⟩

/-- A struct that is qualified on one side, and pointers to `const int` and to `int`. -/
theorem qualified_incompatible :
    let t := (typeTableInit fun _ => 0).run [.agg false (some "S"),
      .qualify 7 { isConst := true }, .pointer (some 17) .none, .pointer (some 7) .none]
    let pointerToConst := CType.pointer (.scalar .int { isConst := true }) .none
    (t.readType (some 16) = .ok (.agg false 16 .none) ∧
      ¬t.IgnoresTopQualifiers 16 16 { isConst := true } .none (.agg false 16 .none)
        (.agg false 16 .none)) ∧
      t.readType (some 18) = .ok pointerToConst ∧
        t.readType (some 19) = .ok (.pointer typeInt .none) ∧
          ¬t.IgnoresTopQualifiers 18 19 .none .none pointerToConst (.pointer typeInt .none) := by
  refine ⟨⟨by rfl, fun h => ?_⟩, by rfl, by rfl, fun h => ?_⟩
  · have hq := h.qualified
    revert hq
    decide
  · have hinner := h.inner (by decide)
    revert hinner
    decide

end TypeTable

end TinyC
