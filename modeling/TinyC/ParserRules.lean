import TinyC.Parser

/-!
# A rule for the functions of the parser

The functions of the parser are put together from few pieces. What relates the pieces to themselves
and is kept by a sequence relates every function to itself, at every depth.
-/

namespace TinyC

variable {L : Type} [TokenSource L]

/-- `Q` relates every function of a record to that of another. -/
structure ParseFns.Related (Q : ∀ {α : Type}, ParseM L α → ParseM L α → Prop)
    (F F' : ParseFns L) : Prop where
  skipAttributes : Q F.skipAttributes F'.skipAttributes
  skipParens : ∀ depth, Q (F.skipParens depth) (F'.skipParens depth)
  declSpec : ∀ ds seenType, Q (F.declSpec ds seenType) (F'.declSpec ds seenType)
  members : ∀ fields, Q (F.members fields) (F'.members fields)
  memberDeclarators : ∀ base fields,
    Q (F.memberDeclarators base fields) (F'.memberDeclarators base fields)
  enumerators : ∀ nextVal consts, Q (F.enumerators nextVal consts) (F'.enumerators nextVal consts)
  suffix : ∀ inner, Q (F.suffix inner) (F'.suffix inner)
  params : ∀ ps, Q (F.params ps) (F'.params ps)
  quals : ∀ q, Q (F.quals q) (F'.quals q)
  stars : ∀ qs, Q (F.stars qs) (F'.stars qs)
  declarator : ∀ base, Q (F.declarator base) (F'.declarator base)
  initItems : ∀ items, Q (F.initItems items) (F'.initItems items)
  initializer : Q F.initializer F'.initializer
  expr : ∀ minBp, Q (F.expr minBp) (F'.expr minBp)
  infixes : ∀ minBp left, Q (F.infixes minBp left) (F'.infixes minBp left)
  args : ∀ as, Q (F.args as) (F'.args as)
  statement : Q F.statement F'.statement
  statements : ∀ stmts, Q (F.statements stmts) (F'.statements stmts)
  declarators : ∀ ds topLevel base decls,
    Q (F.declarators ds topLevel base decls) (F'.declarators ds topLevel base decls)
  topDecls : ∀ unit, Q (F.topDecls unit) (F'.topDecls unit)

/-- A call that does not define a struct, union or enum type. -/
def TypeCall.isMinor : TypeCall → Bool
  | .complete _ _ _ _ | .enumerate _ _ => false
  | _ => true

/-- `Q` relates what the parser does to its state to itself, and is kept by a sequence. -/
structure StateRules (Q : ∀ {α : Type}, ParseM L α → ParseM L α → Prop) : Prop where
  pure : ∀ {α : Type} (a : α), Q (Pure.pure a : ParseM L α) (Pure.pure a)
  bind : ∀ {α β : Type} {m m' : ParseM L α} {k k' : α → ParseM L β},
    Q m m' → (∀ a, Q (k a) (k' a)) → Q (m >>= k) (m' >>= k')
  throw : ∀ {α : Type} (e : Stuck), Q (throw e : ParseM L α) (throw e)
  get : Q (MonadState.get : ParseM L (Parser L)) MonadState.get
  peek : Q peek peek
  advance : Q advance advance
  parseError : ∀ line col msg, Q (parseError line col msg) (parseError line col msg)
  typeCall : ∀ {c : TypeCall}, c.isMinor → Q (typeCall c) (typeCall c)
  scopeDefine : ∀ name kind type, Q (scopeDefine name kind type) (scopeDefine name kind type)
  tagDefine : ∀ name kind type, Q (tagDefine name kind type) (tagDefine name kind type)
  inNewScope : ∀ {α : Type} {m m' : ParseM L α}, Q m m' → Q (inNewScope m) (inNewScope m')
  inLoop : ∀ {α : Type} {m m' : ParseM L α}, Q m m' → Q (inLoop m) (inLoop m')
  inSwitch : ∀ {α : Type} {m m' : ParseM L α}, Q m m' → Q (inSwitch m) (inSwitch m')
  newNode : Q newNode newNode

/-- `Q` relates `m` to itself. -/
abbrev Self (Q : ∀ {α : Type}, ParseM L α → ParseM L α → Prop) {α : Type}
    (m : ParseM L α) : Prop := Q m m

/-- The functions that define a type are pieces of their own. -/
structure ParseRules (Q : ∀ {α : Type}, ParseM L α → ParseM L α → Prop) : Prop
    extends StateRules Q where
  structUnion : ∀ {F F' : ParseFns L}, F.Related Q F' →
    ∀ isUnion, Q (parseStructUnion F isUnion) (parseStructUnion F' isUnion)
  enum : ∀ {F F' : ParseFns L}, F.Related Q F' → Q (parseEnum F) (parseEnum F')

namespace StateRules

variable {Q : ∀ {α : Type}, ParseM L α → ParseM L α → Prop} (R : StateRules Q)

omit [TokenSource L] in
theorem ite {α : Type} {p : Prop} [Decidable p] {m k m' k' : ParseM L α} (hm : Q m m')
    (hk : Q k k') : Q (if p then m else k) (if p then m' else k') := by
  by_cases hp : p
  · rwa [if_pos hp, if_pos hp]
  · rwa [if_neg hp, if_neg hp]

include R

theorem map {α β : Type} (f : α → β) {m m' : ParseM L α} (hm : Q m m') :
    Q (f <$> m) (f <$> m') := by
  rw [map_eq_pure_bind, map_eq_pure_bind]
  exact R.bind hm fun _ => R.pure _

/-- A value that is read off the state. -/
theorem gets {α : Type} (f : Parser L → α) :
    Self Q (MonadState.get >>= fun p => Pure.pure (f p) : ParseM L α) :=
  R.bind R.get fun _ => R.pure _

/-! ### Tokens, types and scopes -/

theorem describe (t : Token) : Self Q (describe t : ParseM L String) := R.gets _

theorem tokIntern (t : Token) : Self Q (tokIntern t : ParseM L String) := R.gets _

theorem check (k : TokenKind) : Self Q (check k : ParseM L Bool) := R.bind R.peek fun _ => R.pure _

theorem accept (k : TokenKind) : Self Q (accept k : ParseM L Bool) :=
  R.bind R.peek fun _ => ite (R.bind R.advance fun _ => R.pure _) (R.pure _)

theorem expect (k : TokenKind) : Self Q (expect k : ParseM L Token) :=
  R.bind R.peek fun _ => ite R.advance (R.bind (R.describe _) fun _ =>
    R.bind (R.parseError _ _ _) fun _ => ite (R.bind R.advance fun _ => R.pure _) (R.pure _))

theorem atListEnd : Self Q (atListEnd : ParseM L Bool) := R.bind R.peek fun _ => R.pure _

theorem nodeOf (r : Option TypeRef) : Self Q (nodeOf r : ParseM L TypeNode) := by
  refine R.bind R.get fun p => ?_
  split
  · exact R.pure _
  · exact R.throw _

theorem readTypes {α : Type} (f : TypeTable → Except Stuck α) :
    Self Q (readTypes f : ParseM L α) := by
  refine R.bind R.get fun p => ?_
  split
  · exact R.pure _
  · exact R.throw _

theorem scopeLookup (name : String) : Self Q (scopeLookup name : ParseM L (Option Symbol)) :=
  R.gets _

theorem tagLookup (name : String) : Self Q (tagLookup name : ParseM L (Option Symbol)) := R.gets _

theorem isTypedefName (name : String) : Self Q (isTypedefName name : ParseM L Bool) :=
  R.bind (R.scopeLookup _) fun _ => R.pure _

theorem isTypeStart : Self Q (isTypeStart : ParseM L Bool) :=
  R.bind R.peek fun _ => ite (R.bind (R.tokIntern _) fun _ => R.isTypedefName _) (R.pure _)

/-! ### Specifiers -/

theorem resolveTypeSpec (ds : DeclSpec) (loc : Token) :
    Self Q (resolveTypeSpec ds loc : ParseM L TypeRef) := by
  unfold TinyC.resolveTypeSpec
  split
  · exact R.pure _
  · split
    · exact R.pure _
    · exact R.bind (R.parseError _ _ _) fun _ => R.pure _

theorem qualifySpec (ds : DeclSpec) (base : TypeRef) :
    Self Q (qualifySpec ds base : ParseM L TypeRef) :=
  ite (R.pure _) (R.bind (R.nodeOf _) fun _ => R.typeCall rfl)

theorem visibleTag (kind : SymKind) (tag : Option String) :
    Self Q (visibleTag kind tag : ParseM L (Option TypeRef)) := by
  cases tag with
  | none => exact R.pure _
  | some name => exact R.bind (R.tagLookup _) fun _ => R.pure _

theorem tagType (kind : SymKind) (tag : Option String) (visible : Option TypeRef) {c : TypeCall}
    (hc : c.isMinor) : Self Q (tagType kind tag visible c : ParseM L TypeRef) := by
  cases visible with
  | some ty => exact R.pure _
  | none =>
    refine R.bind (R.typeCall hc) fun ty => ?_
    cases tag with
    | none => exact R.pure _
    | some name => exact R.bind (R.tagDefine _ _ _) fun _ => R.pure _

theorem parseTag : Self Q (parseTag : ParseM L (Option String)) :=
  R.bind (R.check _) fun _ => ite
    (R.bind R.advance fun _ => R.bind (R.tokIntern _) fun _ => R.pure _) (R.pure _)

theorem wrapStars (base : Option TypeRef) (qs : List TypeQual) :
    Self Q (wrapStars base qs : ParseM L (Option TypeRef)) := by
  induction qs with
  | nil => exact R.pure _
  | cons q qs ih =>
    unfold TinyC.wrapStars
    rw [List.foldrM_cons]
    exact R.bind ih fun _ => R.map _ (R.typeCall rfl)

theorem dropVoid (ps : List ParamNode) : Self Q (dropVoid ps : ParseM L (List ParamNode)) := by
  unfold TinyC.dropVoid
  split
  · exact R.bind (R.nodeOf _) fun _ => ite (R.pure _) (R.pure _)
  · exact R.pure _

theorem skipPragma : Self Q (skipPragma : ParseM L Unit) := by
  have hsemi : Self Q (TinyC.accept .semicolon >>= fun _ => Pure.pure () : ParseM L Unit) :=
    R.bind (R.accept _) fun _ => R.pure _
  have hend : Self Q (TinyC.expect .rparen >>= fun _ =>
      TinyC.accept .semicolon >>= fun _ => Pure.pure () : ParseM L Unit) :=
    R.bind (R.expect _) fun _ => hsemi
  exact R.bind R.advance fun _ => R.bind (R.accept _) fun _ =>
    ite (R.bind (R.check _) fun _ => ite (R.bind R.advance fun _ => hend) hend) hsemi

theorem typeDecl (base : Option TypeRef) : Self Q (typeDecl base : ParseM L (List RawDecl)) := by
  cases base with
  | none => exact R.pure _
  | some r =>
    refine R.bind (R.nodeOf _) fun n => ?_
    split
    · exact R.pure _
    · exact R.pure _
    · exact R.pure _

theorem enumDecl (base : Option TypeRef) : Self Q (enumDecl base : ParseM L (List RawDecl)) := by
  cases base with
  | none => exact R.pure _
  | some r =>
    refine R.bind (R.nodeOf _) fun n => ?_
    split
    · exact R.pure _
    · exact R.pure _

theorem funcParams (type : Option TypeRef) :
    Self Q (funcParams type : ParseM L (Option (List ParamNode))) := by
  cases type with
  | none => exact R.pure _
  | some r =>
    refine R.bind (R.nodeOf _) fun n => ?_
    split
    · exact R.pure _
    · exact R.pure _

theorem paramDecl (dn : DeclName) (fp : ParamNode) :
    Self Q (paramDecl dn fp : ParseM L RawParam) := by
  unfold TinyC.paramDecl
  split
  · exact R.bind (R.scopeDefine _ _ _) fun _ => R.bind R.newNode fun _ => R.pure _
  · exact R.bind R.newNode fun _ => R.pure _

theorem paramDecls (dn : DeclName) (ps : List ParamNode) :
    Self Q (ps.mapM (TinyC.paramDecl dn) : ParseM L (List RawParam)) := by
  induction ps with
  | nil => exact R.pure _
  | cons p ps ih =>
    rw [List.mapM_cons]
    exact R.bind (R.paramDecl _ _) fun _ => R.bind ih fun _ => R.pure _

theorem vaListSpec : Self Q (vaListSpec : ParseM L TypeRef) :=
  R.bind (R.typeCall rfl) fun _ => R.bind R.advance fun _ => R.pure _

/-! ### Definitions of types -/

variable (hcall : ∀ c, Self Q (TinyC.typeCall c : ParseM L TypeRef))
  (hnote : ∀ d, Self Q (noteDefinition d : ParseM L Unit)) {F F' : ParseFns L}
  (h : F.Related Q F')

include hcall hnote h

/-- Where every call is allowed, so is the definition of a type. -/
theorem structUnion (isUnion : Bool) :
    Q (parseStructUnion F isUnion) (parseStructUnion F' isUnion) :=
  R.bind R.advance fun _ => R.bind R.parseTag fun _ => R.bind (R.visibleTag _ _) fun _ =>
    R.bind (R.tagType _ _ _ rfl) fun _ => R.bind (R.check _) fun _ => ite
      (R.bind R.advance fun _ => R.bind (h.members _) fun _ => R.bind (R.expect _) fun _ =>
        R.bind h.skipAttributes fun _ => R.bind (R.readTypes _) fun _ => R.bind (hcall _) fun _ =>
        R.bind (hnote _) fun _ => R.pure _)
      (R.pure _)

theorem enum : Q (parseEnum F) (parseEnum F') :=
  R.bind R.advance fun _ => R.bind R.parseTag fun _ => R.bind (R.visibleTag _ _) fun _ =>
    R.bind (R.tagType _ _ _ rfl) fun _ => R.bind (R.check _) fun _ => ite
      (R.bind R.advance fun _ => R.bind (h.enumerators _ _) fun _ => R.bind (R.expect _) fun _ =>
        R.bind h.skipAttributes fun _ => R.bind (hcall _) fun _ => R.bind (hnote _) fun _ =>
        R.pure _)
      (R.pure _)

end StateRules

namespace ParseRules

open StateRules (ite)

variable {Q : ∀ {α : Type}, ParseM L α → ParseM L α → Prop} (R : ParseRules Q)

/-! ### The functions -/

variable {F F' : ParseFns L} (h : F.Related Q F')

include R h

theorem specType : Q (specType F) (specType F') :=
  R.bind (h.declSpec _ _) fun _ => R.bind R.peek fun _ =>
    R.bind (R.resolveTypeSpec _ _) fun _ => R.qualifySpec _ _

theorem typeName : Q (typeName F) (typeName F') :=
  R.bind (R.specType h) fun _ => R.bind (h.declarator _) fun _ => R.pure _

theorem skipAttributes : Q (skipAttributes F) (skipAttributes F') :=
  R.bind R.peek fun _ => ite (R.bind R.advance fun _ => R.bind (R.accept _) fun _ =>
    ite (R.bind (h.skipParens _) fun _ => h.skipAttributes) h.skipAttributes) (R.pure _)

theorem skipParens (depth : ℕ) : Q (skipParens F depth) (skipParens F' depth) :=
  R.bind R.peek fun _ => ite (R.pure _) (R.bind R.advance fun _ => h.skipParens _)

theorem members (fields : List FieldNode) : Q (members F fields) (members F' fields) :=
  R.bind R.atListEnd fun _ => ite (R.pure _) (R.bind (R.specType h) fun _ =>
    R.bind (h.memberDeclarators _ _) fun _ => R.bind (R.expect _) fun _ => h.members _)

theorem memberDeclarators (base : TypeRef) (fields : List FieldNode) :
    Q (memberDeclarators F base fields) (memberDeclarators F' base fields) := by
  have hnext : ∀ fields : List FieldNode,
      Q (TinyC.accept .comma >>= fun comma =>
          if comma = true then F.memberDeclarators base fields else Pure.pure fields)
        (TinyC.accept .comma >>= fun comma =>
          if comma = true then F'.memberDeclarators base fields else Pure.pure fields) :=
    fun fields =>
    R.bind (R.accept _) fun _ => ite (h.memberDeclarators _ _) (R.pure _)
  exact R.bind (R.check _) fun _ => ite (R.bind (R.nodeOf _) fun _ => ite (R.pure _) (R.pure _))
    (R.bind (h.declarator _) fun r => R.bind (R.accept _) fun _ =>
      ite (R.bind (R.map _ (h.expr _)) fun w => hnext _) (hnext _))

theorem enumerators (nextVal : BitVec 64) (consts : List (String × ℤ)) :
    Q (enumerators F nextVal consts) (enumerators F' nextVal consts) := by
  have hnext : ∀ (name : String) (val : BitVec 64),
      Q (TinyC.scopeDefine name .enumConst (some (scalarRef .int)) >>= fun _ =>
          TinyC.accept .comma >>= fun comma =>
            if comma = true then F.enumerators (val + 1) (consts ++ [(name, val.toInt)])
            else Pure.pure (consts ++ [(name, val.toInt)]))
        (TinyC.scopeDefine name .enumConst (some (scalarRef .int)) >>= fun _ =>
          TinyC.accept .comma >>= fun comma =>
            if comma = true then F'.enumerators (val + 1) (consts ++ [(name, val.toInt)])
            else Pure.pure (consts ++ [(name, val.toInt)])) := fun name val =>
    R.bind (R.scopeDefine _ _ _) fun _ => R.bind (R.accept _) fun _ =>
      ite (h.enumerators _ _) (R.pure _)
  exact R.bind R.atListEnd fun _ => ite (R.pure _) (R.bind (R.check _) fun _ =>
    ite (R.bind R.advance fun _ => R.bind (R.tokIntern _) fun _ => R.bind (R.accept _) fun _ =>
        ite (R.bind (h.expr _) fun _ => R.bind (R.readTypes _) fun _ => hnext _ _) (hnext _ _))
      (R.bind R.peek fun _ => R.bind (R.parseError _ _ _) fun _ => R.bind R.advance fun _ =>
        h.enumerators _ _))

theorem takeSpec (ds : DeclSpec) (seenType : Bool) :
    Q (takeSpec F ds seenType) (takeSpec F' ds seenType) :=
  R.bind R.advance fun _ => h.declSpec _ _

theorem refuseSpec (t : Token) (msg : String) (ds : DeclSpec) (seenType : Bool) :
    Q (refuseSpec F t msg ds seenType) (refuseSpec F' t msg ds seenType) :=
  R.bind (R.parseError _ _ _) fun _ => R.takeSpec h _ _

theorem takeStorage (t : Token) (sc : StorageClass) (ds : DeclSpec) (seenType : Bool) :
    Q (takeStorage F t sc ds seenType) (takeStorage F' t sc ds seenType) :=
  ite (R.refuseSpec h _ _ _ _) (R.takeSpec h _ _)

theorem takeLone (t : Token) (f : SpecFlags) (ds : DeclSpec) (seenType : Bool) :
    Q (takeLone F t f ds seenType) (takeLone F' t f ds seenType) :=
  ite (R.refuseSpec h _ _ _ _) (R.takeSpec h _ _)

theorem takeFlag (t : Token) (busy f : SpecFlags) (ds : DeclSpec) (seenType : Bool) :
    Q (takeFlag F t busy f ds seenType) (takeFlag F' t busy f ds seenType) :=
  ite (R.refuseSpec h _ _ _ _) (R.takeSpec h _ _)

theorem takeBase (t : Token) (ds : DeclSpec) (seenType : Bool) {m m' : ParseM L TypeRef}
    (hm : Q m m') : Q (takeBase F t ds seenType m) (takeBase F' t ds seenType m') :=
  ite (R.refuseSpec h _ _ _ _) (R.bind hm fun _ => h.declSpec _ _)

theorem typeofSpec : Q (typeofSpec F) (typeofSpec F') :=
  R.bind R.advance fun _ => R.bind (R.accept _) fun _ =>
    ite (R.bind (h.skipParens _) fun _ => R.pure _) (R.pure _)

theorem parseDeclSpec (ds : DeclSpec) (seenType : Bool) :
    Q (parseDeclSpec F ds seenType) (parseDeclSpec F' ds seenType) := by
  have hattr : Q (F.skipAttributes >>= fun _ => F.declSpec ds seenType)
      (F'.skipAttributes >>= fun _ => F'.declSpec ds seenType) :=
    R.bind h.skipAttributes fun _ => h.declSpec _ _
  refine R.bind R.peek fun t => ?_
  split
  · exact R.takeStorage h _ _ _ _
  · exact R.takeStorage h _ _ _ _
  · exact R.takeStorage h _ _ _ _
  · exact R.takeStorage h _ _ _ _
  · exact R.takeStorage h _ _ _ _
  · exact R.takeSpec h _ _
  · exact R.takeSpec h _ _
  · exact R.takeSpec h _ _
  · exact R.takeSpec h _ _
  · exact R.takeLone h _ _ _ _
  · exact R.takeLone h _ _ _ _
  · exact R.takeFlag h _ _ _ _ _
  · exact R.takeFlag h _ _ _ _ _
  · exact R.takeFlag h _ _ _ _ _
  · exact R.takeFlag h _ _ _ _ _
  · exact R.takeLone h _ _ _ _
  · exact R.takeFlag h _ _ _ _ _
  · exact R.takeFlag h _ _ _ _ _
  · exact R.takeFlag h _ _ _ _ _
  · exact R.takeFlag h _ _ _ _ _
  · exact R.takeFlag h _ _ _ _ _
  · exact R.takeBase h _ _ _ (R.structUnion h _)
  · exact R.takeBase h _ _ _ (R.structUnion h _)
  · exact R.takeBase h _ _ _ (R.enum h)
  · exact hattr
  · exact hattr
  · exact hattr
  · exact hattr
  · exact hattr
  · exact hattr
  · exact R.takeBase h _ _ _ R.vaListSpec
  · exact R.takeBase h _ _ _ (R.typeofSpec h)
  · refine ite (R.pure _) (R.bind (R.tokIntern _) fun _ => R.bind (R.scopeLookup _) fun _ => ?_)
    split
    · exact R.takeSpec h _ _
    · exact R.pure _
  · exact R.pure _

theorem suffix (inner : Option TypeRef) : Q (suffix F inner) (suffix F' inner) := by
  have hfunc : ∀ r : List ParamNode × Bool, Q (TinyC.dropVoid r.1 >>= fun ps =>
      TinyC.expect .rparen >>= fun _ => TinyC.typeCall (.func inner ps r.2) >>= fun ty =>
        F.suffix (some ty)) (TinyC.dropVoid r.1 >>= fun ps =>
      TinyC.expect .rparen >>= fun _ => TinyC.typeCall (.func inner ps r.2) >>= fun ty =>
        F'.suffix (some ty)) := fun r =>
    R.bind (R.dropVoid _) fun _ => R.bind (R.expect _) fun _ => R.bind (R.typeCall rfl) fun _ =>
      h.suffix _
  exact R.bind (R.check _) fun _ => ite
    (R.bind R.advance fun _ => R.bind (R.check _) fun _ => ite
      (R.bind R.advance fun _ => R.bind (R.typeCall rfl) fun _ => h.suffix _)
      (R.bind (h.expr _) fun _ => R.bind (R.expect _) fun _ => R.bind (R.typeCall rfl) fun _ =>
        h.suffix _))
    (R.bind (R.check _) fun _ => ite (R.bind R.advance fun _ => R.bind (R.check _) fun _ =>
        ite (R.bind (R.pure _) hfunc) (R.bind (h.params _) hfunc))
      (R.pure _))

theorem params (ps : List ParamNode) : Q (params F ps) (params F' ps) :=
  R.bind (R.check _) fun _ => ite (R.bind R.advance fun _ => R.pure _)
    (R.bind (R.specType h) fun _ => R.bind (h.declarator _) fun _ => R.bind (R.accept _) fun _ =>
      ite (h.params _) (R.pure _))

theorem quals (q : TypeQual) : Q (quals F q) (quals F' q) := by
  have hattr : Q (F.skipAttributes >>= fun _ => F.quals q)
      (F'.skipAttributes >>= fun _ => F'.quals q) :=
    R.bind h.skipAttributes fun _ => h.quals _
  refine R.bind R.peek fun t => ?_
  split
  · exact R.bind R.advance fun _ => h.quals _
  · exact R.bind R.advance fun _ => h.quals _
  · exact R.bind R.advance fun _ => h.quals _
  · exact hattr
  · exact hattr
  · exact hattr
  · exact hattr
  · exact R.pure _

theorem stars (qs : List TypeQual) : Q (stars F qs) (stars F' qs) :=
  R.bind R.peek fun _ => ite
    (R.bind R.advance fun _ => R.bind (h.quals _) fun _ => h.stars _) (R.pure _)

theorem groupDeclarator (starred : Option TypeRef) :
    Q (groupDeclarator F starred) (groupDeclarator F' starred) := by
  refine R.bind R.advance fun _ => R.bind (h.declarator _) fun r => R.bind (R.expect _) fun _ =>
    R.bind (h.suffix _) fun _ => ?_
  split
  · exact R.pure _
  · exact R.bind (R.nodeOf _) fun _ => R.bind (R.typeCall rfl) fun _ => R.pure _

theorem plainDeclarator (starred : Option TypeRef) :
    Q (plainDeclarator F starred) (plainDeclarator F' starred) :=
  R.bind (R.check _) fun _ => ite
    (R.bind R.advance fun _ => R.bind (R.tokIntern _) fun _ => R.bind (h.suffix _) fun _ =>
      R.pure _)
    (R.bind (h.suffix _) fun _ => R.pure _)

theorem parseDeclarator (base : Option TypeRef) :
    Q (parseDeclarator F base) (parseDeclarator F' base) := by
  have hend : ∀ r : DeclName × Option TypeRef,
      Q (F.skipAttributes >>= fun _ => Pure.pure r)
        (F'.skipAttributes >>= fun _ => Pure.pure r) := fun r =>
    R.bind h.skipAttributes fun _ => R.pure _
  exact R.bind h.skipAttributes fun _ => R.bind (h.stars _) fun qs =>
    R.bind h.skipAttributes fun _ => R.bind (R.wrapStars _ _) fun starred =>
    R.bind (R.check _) fun _ => R.bind R.isTypeStart fun _ =>
      ite (R.bind (R.groupDeclarator h _) hend) (R.bind (R.plainDeclarator h _) hend)

theorem parseInitList : Q (parseInitList F) (parseInitList F') :=
  R.bind (R.expect _) fun _ => R.bind (h.initItems _) fun _ => R.bind (R.expect _) fun _ => R.pure _

theorem initItem : Q (initItem F) (initItem F') :=
  R.bind R.peek fun _ => ite
    (R.bind R.advance fun _ => R.bind (R.expect _) fun _ => R.bind (R.tokIntern _) fun _ =>
      R.bind (R.expect _) fun _ => R.bind h.initializer fun _ => R.pure _)
    (ite (R.bind R.advance fun _ => R.bind (h.expr _) fun _ => R.bind (R.expect _) fun _ =>
        R.bind (R.expect _) fun _ => R.bind h.initializer fun _ => R.pure _)
      h.initializer)

theorem initItems (items : List RawExpr) : Q (initItems F items) (initItems F' items) :=
  R.bind R.atListEnd fun _ => ite (R.pure _) (R.bind (R.initItem h) fun _ =>
    R.bind (R.accept _) fun _ => ite (h.initItems _) (R.pure _))

theorem parseInitializer : Q (parseInitializer F) (parseInitializer F') :=
  R.bind (R.check _) fun _ => ite (R.parseInitList h) (h.expr _)

theorem parseSizeof (i : RawInfo) : Q (parseSizeof F i) (parseSizeof F' i) :=
  R.bind (R.check _) fun _ => ite
    (R.bind R.advance fun _ => R.bind R.isTypeStart fun _ => ite
      (R.bind (R.typeName h) fun _ => R.bind (R.expect _) fun _ => R.pure _)
      (R.bind (h.expr _) fun _ => R.bind (R.expect _) fun _ => R.pure _))
    (R.bind (h.expr _) fun _ => R.pure _)

theorem parseParen (i : RawInfo) : Q (parseParen F i) (parseParen F' i) :=
  R.bind R.isTypeStart fun _ => ite
    (R.bind (R.typeName h) fun _ => R.bind (R.expect _) fun _ => R.bind (R.check _) fun _ => ite
      (R.bind (R.parseInitList h) fun _ => R.pure _) (R.bind (h.expr _) fun _ => R.pure _))
    (R.bind (h.expr _) fun _ => R.bind (R.expect _) fun _ => R.pure _)

theorem parseAlignof (i : RawInfo) : Q (parseAlignof F i) (parseAlignof F' i) :=
  R.bind (R.expect _) fun _ => R.bind (R.typeName h) fun _ => R.bind (R.expect _) fun _ =>
    R.bind (R.readTypes _) fun _ => R.pure _

theorem nud (t : Token) : Q (nud F t) (nud F' t) := by
  have hprefix : ∀ op : RawExpr → RawExpr, Q (F.expr 140 >>= fun e => Pure.pure (op e))
      (F'.expr 140 >>= fun e => Pure.pure (op e)) := fun op =>
    R.bind (h.expr _) fun _ => R.pure _
  unfold TinyC.nud
  dsimp only
  split
  · exact R.pure _
  · exact R.pure _
  · exact R.pure _
  · exact R.bind (R.tokIntern _) fun _ => R.pure _
  · exact R.bind (R.tokIntern _) fun _ => R.pure _
  · exact hprefix _
  · exact hprefix _
  · exact hprefix _
  · exact hprefix _
  · exact hprefix _
  · exact hprefix _
  · exact hprefix _
  · exact h.expr _
  · exact R.parseAlignof h _
  · exact R.parseSizeof h _
  · exact R.parseParen h _
  · exact R.bind (R.describe _) fun _ => R.bind (R.parseError _ _ _) fun _ => R.pure _

theorem args (as : List RawExpr) : Q (args F as) (args F' as) :=
  R.bind (h.expr _) fun _ => R.bind (R.accept _) fun _ => ite (h.args _) (R.pure _)

theorem led (left : RawExpr) (t : Token) : Q (led F left t) (led F' left t) := by
  have hoperand : ∀ (minBp : ℤ) (op : RawExpr → RawExpr),
      Q (F.expr minBp >>= fun e => Pure.pure (op e))
        (F'.expr minBp >>= fun e => Pure.pure (op e)) := fun minBp op =>
    R.bind (h.expr _) fun _ => R.pure _
  have hcall : ∀ as : List RawExpr, Self Q (TinyC.expect .rparen >>= fun _ =>
      Pure.pure (RawExpr.call { line := t.line, col := t.col } left as)) := fun as =>
    R.bind (R.expect _) fun _ => R.pure _
  unfold TinyC.led
  dsimp only
  split
  case h_30 =>
    exact R.bind (h.expr _) fun _ => R.bind (R.expect _) fun _ => R.bind (h.expr _) fun _ =>
      R.pure _
  case h_31 =>
    exact R.bind (R.check _) fun _ => ite (R.bind (R.pure _) hcall) (R.bind (h.args _) hcall)
  case h_32 => exact R.bind (h.expr _) fun _ => R.bind (R.expect _) fun _ => R.pure _
  case h_33 => exact R.bind (R.expect _) fun _ => R.bind (R.tokIntern _) fun _ => R.pure _
  case h_34 => exact R.bind (R.expect _) fun _ => R.bind (R.tokIntern _) fun _ => R.pure _
  case h_35 => exact R.pure _
  case h_36 => exact R.pure _
  case h_38 =>
    exact R.bind (R.describe _) fun _ => R.bind (R.parseError _ _ _) fun _ => R.pure _
  -- the binary operators, the assignments and the comma
  all_goals exact hoperand _ _

theorem infixes (minBp : ℤ) (left : RawExpr) : Q (infixes F minBp left) (infixes F' minBp left) :=
  R.bind R.peek fun _ => ite (R.pure _)
    (R.bind R.advance fun _ => R.bind (R.led h _ _) fun _ => h.infixes _ _)

theorem parseExpr (minBp : ℤ) : Q (parseExpr F minBp) (parseExpr F' minBp) :=
  R.bind R.advance fun _ => R.bind (R.nud h _) fun _ => h.infixes _ _

theorem parseCompound : Q (parseCompound F) (parseCompound F') :=
  R.bind (R.expect _) fun _ => R.inNewScope
    (R.bind (h.statements _) fun _ => R.bind (R.expect _) fun _ => R.pure _)

theorem statements (stmts : List RawStmt) : Q (statements F stmts) (statements F' stmts) :=
  R.bind R.atListEnd fun _ => ite (R.pure _) (R.bind h.statement fun _ => h.statements _)

theorem parseDeclList (ds : DeclSpec) (topLevel : Bool) :
    Q (parseDeclList F ds topLevel) (parseDeclList F' ds topLevel) :=
  R.bind R.peek fun _ => R.bind (R.resolveTypeSpec _ _) fun _ => R.bind (R.qualifySpec _ _) fun _ =>
    R.bind (R.check _) fun _ => ite
      (R.bind R.advance fun _ => R.bind (R.typeDecl _) fun _ => R.pure _)
      (R.bind (R.enumDecl _) fun _ => h.declarators _ _ _ _)

theorem nextDeclarator (ds : DeclSpec) (topLevel : Bool) (base : TypeRef) (decls : List RawDecl) :
    Q (nextDeclarator F ds topLevel base decls) (nextDeclarator F' ds topLevel base decls) :=
  R.bind (R.accept _) fun _ => ite (h.declarators _ _ _ _) (R.bind (R.expect _) fun _ => R.pure _)

theorem parseFunc (ds : DeclSpec) (dn : DeclName) (name : String) (type : Option TypeRef)
    (ps : List ParamNode) :
    Q (parseFunc F ds dn name type ps) (parseFunc F' ds dn name type ps) :=
  R.bind R.newNode fun _ => R.bind (R.inNewScope (R.bind (R.paramDecls _ _) fun _ =>
    R.bind (R.parseCompound h) fun _ => R.pure _)) fun _ =>
      R.bind (R.scopeDefine _ _ _) fun _ => R.pure _

theorem varDecl (ds : DeclSpec) (dn : DeclName) (name : String) (type : Option TypeRef) :
    Q (varDecl F ds dn name type) (varDecl F' ds dn name type) := by
  refine R.bind R.newNode fun node => R.bind (R.accept _) fun _ => ite
    (R.bind (R.map _ (R.parseInitializer h)) fun _ => ?_) (R.bind (R.pure _) fun _ => ?_)
  · exact R.bind (R.scopeDefine _ _ _) fun _ => R.pure _
  · exact R.bind (R.scopeDefine _ _ _) fun _ => R.pure _

theorem declarators (ds : DeclSpec) (topLevel : Bool) (base : TypeRef) (decls : List RawDecl) :
    Q (declarators F ds topLevel base decls) (declarators F' ds topLevel base decls) := by
  refine R.bind (h.declarator _) fun r => ?_
  obtain ⟨dn, type⟩ := r
  dsimp only
  split
  · exact R.bind (R.accept _) fun _ => ite (R.nextDeclarator h _ _ _ _)
      (R.bind (R.expect _) fun _ => R.pure _)
  · refine ite (R.bind (R.scopeDefine _ _ _) fun _ => R.nextDeclarator h _ _ _ _)
      (ite (R.bind (R.funcParams _) fun ps => ?_) (R.bind (R.pure _) fun ps => ?_))
    all_goals
      refine R.bind (R.check _) fun opens => ?_
      split
      · exact R.bind (R.parseFunc h _ _ _ _ _) fun _ => R.pure _
      · exact R.bind (R.varDecl h _ _ _ _) fun _ => R.nextDeclarator h _ _ _ _

theorem declStmt : Q (declStmt F) (declStmt F') :=
  R.bind (h.declSpec _ _) fun _ => R.bind (R.parseDeclList h _ _) fun _ => R.pure _

theorem parenExpr : Q (parenExpr F) (parenExpr F') :=
  R.bind (R.expect _) fun _ => R.bind (h.expr _) fun _ => R.bind (R.expect _) fun _ => R.pure _

theorem forInit : Q (forInit F) (forInit F') :=
  R.bind (R.check _) fun _ => ite (R.bind R.advance fun _ => R.pure _)
    (R.bind R.isTypeStart fun _ => ite (R.bind (R.declStmt h) fun _ => R.pure _)
      (R.bind (h.expr _) fun _ => R.bind (R.expect _) fun _ => R.pure _))

theorem exprBefore (k : TokenKind) : Q (exprBefore F k) (exprBefore F' k) :=
  R.bind (R.check _) fun _ => ite (R.pure _) (R.bind (h.expr _) fun _ => R.pure _)

theorem parseFor (t : Token) : Q (parseFor F t) (parseFor F' t) :=
  R.bind R.advance fun _ => R.bind (R.expect _) fun _ => R.bind (R.forInit h) fun _ =>
    R.bind (R.exprBefore h _) fun _ => R.bind (R.expect _) fun _ =>
    R.bind (R.exprBefore h _) fun _ => R.bind (R.expect _) fun _ =>
    R.bind (R.inLoop h.statement) fun _ => R.pure _

theorem caseBody : Q (caseBody F) (caseBody F') := R.bind R.peek fun _ => ite h.statement (R.pure _)

theorem identStmt (t : Token) : Q (identStmt F t) (identStmt F' t) :=
  R.bind R.advance fun _ => R.bind (R.tokIntern _) fun _ => R.bind (R.check _) fun _ => ite
    (R.bind R.advance fun _ => R.bind h.statement fun _ => R.pure _)
    (R.bind (h.infixes _ _) fun _ => R.bind (R.expect _) fun _ => R.pure _)

theorem plainStmt (t : Token) : Q (plainStmt F t) (plainStmt F' t) := by
  have hbreak : Self Q (TinyC.expect .semicolon >>= fun _ =>
      Pure.pure (RawStmt.break t.line t.col) : ParseM L RawStmt) :=
    R.bind (R.expect _) fun _ => R.pure _
  have hcontinue : Self Q (TinyC.expect .semicolon >>= fun _ =>
      Pure.pure (RawStmt.continue t.line t.col) : ParseM L RawStmt) :=
    R.bind (R.expect _) fun _ => R.pure _
  unfold TinyC.plainStmt
  split
  · exact R.parseCompound h
  · refine R.bind R.advance fun _ => R.bind (R.parenExpr h) fun _ => R.bind h.statement fun _ =>
      R.bind (R.accept _) fun _ => ite (R.bind (R.map _ h.statement) fun _ => R.pure _)
        (R.bind (R.pure _) fun _ => R.pure _)
  · exact R.bind R.advance fun _ => R.bind (R.parenExpr h) fun _ =>
      R.bind (R.inLoop h.statement) fun _ => R.pure _
  · exact R.bind R.advance fun _ => R.bind (R.inLoop h.statement) fun _ =>
      R.bind (R.expect _) fun _ => R.bind (R.parenExpr h) fun _ => R.bind (R.expect _) fun _ =>
      R.pure _
  · exact R.parseFor h _
  · exact R.bind R.advance fun _ => R.bind (R.exprBefore h _) fun _ => R.bind (R.expect _) fun _ =>
      R.pure _
  · exact R.bind R.advance fun _ => R.bind R.get fun _ =>
      ite (R.bind (R.parseError _ _ _) fun _ => hbreak) hbreak
  · exact R.bind R.advance fun _ => R.bind R.get fun _ =>
      ite (R.bind (R.parseError _ _ _) fun _ => hcontinue) hcontinue
  · exact R.bind R.advance fun _ => R.bind (R.expect _) fun _ => R.bind (R.expect _) fun _ =>
      R.bind (R.tokIntern _) fun _ => R.pure _
  · exact R.bind R.advance fun _ => R.bind (R.parenExpr h) fun _ =>
      R.bind (R.inSwitch h.statement) fun _ => R.pure _
  · exact R.bind R.advance fun _ => R.bind R.newNode fun _ => R.bind (h.expr _) fun _ =>
      R.bind (R.expect _) fun _ => R.bind (R.caseBody h) fun _ => R.pure _
  · exact R.bind R.advance fun _ => R.bind (R.expect _) fun _ => R.bind R.newNode fun _ =>
      R.bind (R.caseBody h) fun _ => R.pure _
  · exact R.bind R.advance fun _ => R.pure _
  · exact R.identStmt h _
  · exact R.bind (h.expr _) fun _ => R.bind (R.expect _) fun _ => R.pure _

theorem parseStatement : Q (parseStatement F) (parseStatement F') :=
  R.bind R.peek fun _ => ite (R.bind R.skipPragma fun _ => R.pure _)
    (R.bind R.isTypeStart fun _ => ite (R.declStmt h) (R.plainStmt h _))

theorem topDecls (unit : RawUnit) : Q (topDecls F unit) (topDecls F' unit) :=
  R.bind R.peek fun _ => ite (R.pure _) (ite (R.bind R.skipPragma fun _ => h.topDecls _)
    (R.bind R.isTypeStart fun _ => ite
      (R.bind (h.declSpec _ _) fun _ => R.bind (R.parseDeclList h _ _) fun _ => h.topDecls _)
      (R.bind (R.describe _) fun _ => R.bind (R.parseError _ _ _) fun _ => R.bind R.advance fun _ =>
        h.topDecls _)))

theorem deeper : F.deeper.Related Q F'.deeper where
  skipAttributes := R.skipAttributes h
  skipParens := R.skipParens h
  declSpec := R.parseDeclSpec h
  members := R.members h
  memberDeclarators := R.memberDeclarators h
  enumerators := R.enumerators h
  suffix := R.suffix h
  params := R.params h
  quals := R.quals h
  stars := R.stars h
  declarator := R.parseDeclarator h
  initItems := R.initItems h
  initializer := R.parseInitializer h
  expr := R.parseExpr h
  infixes := R.infixes h
  args := R.args h
  statement := R.parseStatement h
  statements := R.statements h
  declarators := R.declarators h
  topDecls := R.topDecls h

omit h

theorem stuck : (ParseFns.stuck : ParseFns L).Related Q ParseFns.stuck where
  skipAttributes := R.throw _
  skipParens _ := R.throw _
  declSpec _ _ := R.throw _
  members _ := R.throw _
  memberDeclarators _ _ := R.throw _
  enumerators _ _ := R.throw _
  suffix _ := R.throw _
  params _ := R.throw _
  quals _ := R.throw _
  stars _ := R.throw _
  declarator _ := R.throw _
  initItems _ := R.throw _
  initializer := R.throw _
  expr _ := R.throw _
  infixes _ _ := R.throw _
  args _ := R.throw _
  statement := R.throw _
  statements _ := R.throw _
  declarators _ _ _ _ := R.throw _
  topDecls _ := R.throw _

/-- What the rules allow holds of the parser. -/
theorem parsers (n : ℕ) : (parsers n : ParseFns L).Related Q (parsers n) := by
  induction n with
  | zero => exact R.stuck
  | succ n ih => exact R.deeper ih

theorem parserParse (n : ℕ) : Self Q (parserParse n : ParseM L RawUnit) :=
  (R.parsers n).topDecls _

end ParseRules

end TinyC
