import TinyC.Sema

/-!
# A rule for the functions that check expressions

The functions that check an expression are put together from few pieces, and of the errors of sema
they report one. What holds of the pieces and of a sequence holds of `check_expr`.
-/

namespace TinyC

namespace SemaM

variable {α β : Type} {m : SemaM α} {k : α → SemaM β} {s s' s₁ : Sema} {a : α} {b : β}

theorem bind_ok (h : (m >>= k) s = .ok (b, s')) :
    ∃ a s₁, m s = .ok (a, s₁) ∧ k a s₁ = .ok (b, s') := by
  change (m s >>= fun r => k r.1 r.2) = _ at h
  cases hm : m s with
  | error e =>
    rw [hm] at h
    cases h
  | ok r =>
    rw [hm] at h
    exact ⟨r.1, r.2, rfl, h⟩

theorem run_bind (h : m s = .ok (a, s₁)) : (m >>= k) s = k a s₁ := by
  change (m s >>= fun r => k r.1 r.2) = _
  rw [h]
  rfl

end SemaM

/-- `Q` holds of what `check_expr` does to the state and is kept by a sequence. -/
structure ExprRules (Q : ∀ {α : Type}, SemaM α → Prop) : Prop where
  pure : ∀ {α : Type} (a : α), Q (Pure.pure a : SemaM α)
  bind : ∀ {α β : Type} {m : SemaM α} {k : α → SemaM β},
    Q m → (∀ a, Q (k a)) → Q (m >>= k)
  throw : ∀ {α : Type} (e : Stuck), Q (throw e : SemaM α)
  get : Q (MonadState.get : SemaM Sema)
  refuse : ∀ line col, Q (SemaM.error line col "assignment to const-qualified object")
  pointer : ∀ pointee q, Q (SemaM.typeCall (.pointer pointee q))

namespace ExprRules

variable {Q : ∀ {α : Type}, SemaM α → Prop} (R : ExprRules Q)

theorem ite {α : Type} {b : Prop} [Decidable b] {m m' : SemaM α} (h : Q m) (h' : Q m') :
    Q (if b then m else m') := by
  split
  · exact h
  · exact h'

include R

theorem nodeOf (r : Option TypeRef) : Q (SemaM.nodeOf r) := by
  apply R.bind R.get
  intro s
  split
  · exact R.pure _
  · exact R.throw _

theorem lookup (name : String) : Q (SemaM.lookup name) := R.bind R.get fun _ => R.pure _

theorem lookupMember (ty : Option TypeRef) (name : String) : Q (lookupMember ty name) := by
  apply R.bind R.get
  intro s
  dsimp only
  split
  · exact R.pure _
  · exact R.throw _

/-! ### Types -/

theorem isArithmetic (ty : TypeRef) : Q (isArithmetic ty) :=
  R.bind (R.nodeOf _) fun _ => R.pure _

theorem integerPromote (ty : TypeRef) : Q (integerPromote ty) := by
  apply R.bind (R.nodeOf _)
  intro n
  split
  · exact R.pure _
  · exact R.pure _

theorem usualArithmetic (a b : TypeRef) : Q (usualArithmetic a b) := by
  apply R.bind (R.nodeOf _)
  intro x
  apply R.bind (R.nodeOf _)
  intro y
  apply ite (R.pure _)
  apply ite (R.pure _)
  apply ite (R.pure _)
  apply R.bind (R.integerPromote a)
  intro a
  apply R.bind (R.integerPromote b)
  intro b
  apply ite (R.pure _)
  exact R.bind (R.nodeOf _) fun _ => R.bind (R.nodeOf _) fun _ => R.pure _

theorem decay (ty : TypeRef) : Q (decay ty) := by
  apply R.bind (R.nodeOf _)
  intro n
  split
  · exact R.pointer _ _
  · exact R.pointer _ _
  · exact R.pointer _ _
  · exact R.pure _

theorem decayOrInt (ty : Option TypeRef) : Q (decayOrInt ty) := by
  cases ty with
  | none => exact R.pure _
  | some ty => exact R.decay ty

theorem refuseConst (i : RawInfo) (ty : Option TypeRef) : Q (refuseConst i ty) := by
  have hconst : Q (isConstLvalue ty) := by
    cases ty with
    | none => exact R.pure _
    | some ty => exact R.bind (R.nodeOf _) fun _ => R.pure _
  exact R.bind hconst fun _ => ite (R.refuse _ _) (R.pure _)

/-! ### Operators -/

theorem checkIdent (i : RawInfo) (name : String) : Q (checkIdent i name) := by
  apply R.bind (R.lookup name)
  intro sym
  cases sym with
  | none => exact R.pure _
  | some sym => exact ite (R.pure _) (R.pure _)

theorem unopType (i : RawInfo) (op : TokenKind) (ty : Option TypeRef) : Q (unopType i op ty) := by
  apply R.bind (R.decayOrInt ty)
  intro r
  cases op with
  | minus => exact R.bind (R.integerPromote r) fun _ => R.pure _
  | plus => exact R.bind (R.integerPromote r) fun _ => R.pure _
  | tilde => exact R.bind (R.integerPromote r) fun _ => R.pure _
  | amp => exact R.bind (R.pointer _ _) fun _ => R.pure _
  | star =>
    apply R.bind (R.nodeOf _)
    intro n
    split
    · exact R.pure _
    · exact R.pure _
  | plusplus => exact R.bind (R.refuseConst i ty) fun _ => R.pure _
  | minusminus => exact R.bind (R.refuseConst i ty) fun _ => R.pure _
  | _ => exact R.pure _

theorem binopTypes (op : TokenKind) (lt rt : TypeRef) : Q (binopTypes op lt rt) := by
  have husual : ∀ k : TypeRef → TypeRef × Option TypeRef,
      Q (TinyC.usualArithmetic lt rt >>= fun ty => (Pure.pure (k ty) : SemaM _)) :=
    fun k => R.bind (R.usualArithmetic lt rt) fun _ => R.pure _
  apply R.bind (R.nodeOf _)
  intro x
  apply R.bind (R.nodeOf _)
  intro y
  cases op with
  | plus => exact ite (R.pure _) (ite (R.pure _) (husual _))
  | minus => exact ite (R.pure _) (ite (R.pure _) (husual _))
  | and => exact R.pure _
  | or => exact R.pure _
  | _ => exact husual _

theorem checkBinop (i : RawInfo) (op : TokenKind) (l r : RawExpr) : Q (checkBinop i op l r) := by
  have hconv : ∀ common ty e, Q (convertOperand common ty e) := by
    intro common ty e
    cases common with
    | none => exact R.pure _
    | some c => exact R.bind (R.isArithmetic _) fun _ => R.bind (R.isArithmetic _) fun _ => R.pure _
  exact R.bind (R.decayOrInt _) fun lt => R.bind (R.decayOrInt _) fun rt =>
    R.bind (R.binopTypes op lt rt) fun _ => R.bind (hconv _ _ _) fun _ =>
      R.bind (hconv _ _ _) fun _ => R.pure _

theorem checkAssign (i : RawInfo) (op : TokenKind) (l r : RawExpr) :
    Q (checkAssign i op l r) := by
  apply R.bind (R.refuseConst i _)
  intro _
  apply R.bind (R.isArithmetic _)
  intro _
  apply R.bind (R.isArithmetic _)
  intro _
  exact ite (R.bind (R.usualArithmetic _ _) fun _ => R.bind (R.pure _) fun _ => R.pure _)
    (R.bind (R.pure _) fun _ => R.pure _)

theorem ternaryType (th el : Option TypeRef) : Q (ternaryType th el) :=
  R.bind (R.decayOrInt _) fun _ => R.bind (R.decayOrInt _) fun _ =>
    R.bind (R.isArithmetic _) fun _ => R.bind (R.isArithmetic _) fun _ =>
      ite (R.usualArithmetic _ _) (R.pure _)

theorem callType (fn : Option TypeRef) : Q (callType fn) := by
  cases fn with
  | none => exact R.pure _
  | some fn =>
    apply R.bind (R.decay fn)
    intro r
    apply R.bind (R.nodeOf _)
    intro n
    split
    · apply R.bind (R.nodeOf _)
      intro n'
      split
      · exact R.pure _
      · exact R.pure _
    · exact R.pure _
    · exact R.pure _

theorem subscriptType (base : Option TypeRef) : Q (subscriptType base) := by
  cases base with
  | none => exact R.pure _
  | some ty =>
    apply R.bind (R.decay ty)
    intro r
    apply R.bind (R.nodeOf _)
    intro n
    split
    · exact R.pure _
    · exact R.pure _

theorem memberType (i : RawInfo) (base : Option TypeRef) (field : String) :
    Q (memberType i base field) := by
  cases base with
  | none => exact R.bind (R.pure _) fun _ => R.pure _
  | some ty =>
    exact R.bind (R.nodeOf _) fun _ => ite (R.bind (R.lookupMember _ _) fun _ => R.pure _)
      (R.bind (R.pure _) fun _ => R.pure _)

theorem memberPtrType (i : RawInfo) (base : Option TypeRef) (field : String) :
    Q (memberPtrType i base field) := by
  cases base with
  | none => exact R.pure _
  | some ty =>
    apply R.bind (R.decay ty)
    intro r
    apply R.bind (R.nodeOf _)
    intro n
    split
    · exact R.bind (R.nodeOf _) fun _ => R.memberType _ _ _
    · exact R.pure _

/-! ### Expressions -/

mutual

theorem checkExpr (e : RawExpr) : Q (checkExpr e) := by
  cases e with
  | intLit i v s => exact R.pure _
  | charLit i v => exact R.pure _
  | floatLit i v s => exact R.pure _
  | strLit i s => exact R.bind (R.pointer _ _) fun _ => R.pure _
  | ident i name => exact R.checkIdent i name
  | unop i op e =>
    exact R.bind (checkExpr e) fun _ => R.bind (R.unopType _ _ _) fun _ => R.pure _
  | postop i op e =>
    exact R.bind (checkExpr e) fun _ => R.bind (R.decayOrInt _) fun _ =>
      R.bind (R.refuseConst _ _) fun _ => R.pure _
  | binop i op l r =>
    exact R.bind (checkExpr l) fun _ => R.bind (checkExpr r) fun _ => R.checkBinop _ _ _ _
  | assign i op l r =>
    exact R.bind (checkExpr l) fun _ => R.bind (checkExpr r) fun _ => R.checkAssign _ _ _ _
  | ternary i c th el =>
    exact R.bind (checkExpr c) fun _ => R.bind (checkExpr th) fun _ =>
      R.bind (checkExpr el) fun _ => R.bind (R.ternaryType _ _) fun _ => R.pure _
  | call i fn as =>
    exact R.bind (checkExpr fn) fun _ => R.bind (R.callType _) fun _ =>
      R.bind (checkExprs as) fun _ => R.pure _
  | subscript i b x =>
    exact R.bind (checkExpr b) fun _ => R.bind (checkExpr x) fun _ =>
      R.bind (R.subscriptType _) fun _ => R.pure _
  | member i b field =>
    exact R.bind (checkExpr b) fun _ => R.bind (R.memberType _ _ _) fun _ => R.pure _
  | memberPtr i b field =>
    exact R.bind (checkExpr b) fun _ => R.bind (R.memberPtrType _ _ _) fun _ => R.pure _
  | cast i ty e => exact R.bind (checkExpr e) fun _ => R.pure _
  | sizeofExpr i e => exact R.bind (checkExpr e) fun _ => R.pure _
  | sizeofType i ty => exact R.pure _
  | comma i l r => exact R.bind (checkExpr l) fun _ => R.bind (checkExpr r) fun _ => R.pure _
  | initList i items => exact R.bind (checkItems items) fun _ => R.pure _
  | fieldDesig i field v => exact R.bind (checkExpr v) fun _ => R.pure _
  | indexDesig i x v => exact R.bind (checkExpr v) fun _ => R.pure _
  | compoundLit i ty init => exact R.bind (checkExpr init) fun _ => R.pure _

theorem checkExprs (es : List RawExpr) : Q (checkExprs es) := by
  cases es with
  | nil => exact R.pure _
  | cons e es => exact R.bind (checkExpr e) fun _ => R.bind (checkExprs es) fun _ => R.pure _

theorem checkItems (es : List RawExpr) : Q (checkItems es) := by
  cases es with
  | nil => exact R.pure _
  | cons e es =>
    cases e with
    | fieldDesig i field v =>
      exact R.bind (checkExpr v) fun _ => R.bind (checkItems es) fun _ => R.pure _
    | indexDesig i x v =>
      exact R.bind (checkExpr v) fun _ => R.bind (checkItems es) fun _ => R.pure _
    | _ => exact R.bind (checkExpr _) fun _ => R.bind (checkItems es) fun _ => R.pure _

end

theorem checkExpr? (e : Option RawExpr) : Q (checkExpr? e) := by
  cases e with
  | none => exact R.pure _
  | some e => exact R.bind (R.checkExpr e) fun _ => R.pure _

theorem convertReturn (e : RawExpr) : Q (convertReturn e) := by
  apply R.bind R.get
  intro s
  split
  · apply ite (R.pure _)
    exact R.bind (R.isArithmetic _) fun _ => R.bind (R.isArithmetic _) fun _ => R.pure _
  · exact R.pure _

end ExprRules

end TinyC
