import TinyC.ParserState

/-!
# The parser

The functions of the recursive-descent parser call each other and loop over tokens. Each is
written here over a record of those it calls again; `parsers` ties the knot, with a bound on the
depth of calls. A turn of a loop counts as a call.
-/

namespace TinyC

/-! ### Declaration specifiers -/

/-- The bits of `TypeSpecFlag`. -/
abbrev SpecFlags := BitVec 14

namespace SpecFlags

def void : SpecFlags := 1 <<< 0
def bool : SpecFlags := 1 <<< 1
def char : SpecFlags := 1 <<< 2
def short : SpecFlags := 1 <<< 3
def int : SpecFlags := 1 <<< 4
def long : SpecFlags := 1 <<< 5
/-- The second `long` of `long long`. -/
def long2 : SpecFlags := 1 <<< 6
def float : SpecFlags := 1 <<< 7
def double : SpecFlags := 1 <<< 8
def signed : SpecFlags := 1 <<< 9
def unsigned : SpecFlags := 1 <<< 10
def complex : SpecFlags := 1 <<< 12
def imaginary : SpecFlags := 1 <<< 13

/-- Is one of the bits of `m` set? -/
def has (f m : SpecFlags) : Bool := f &&& m ≠ 0

end SpecFlags

structure DeclSpec where
  storage : StorageClass := .none
  qual : TypeQual := .none
  /-- The struct, union, enum or typedef type. -/
  base : Option TypeRef := none
  flags : SpecFlags := 0
  deriving DecidableEq, Repr

/-- The scalar type of the flags; `none` for a combination that is not allowed. -/
def scalarOfFlags (f : SpecFlags) : Option ScalarKind :=
  let scalar := f &&& ~~~(SpecFlags.complex ||| SpecFlags.imaginary)
  let hasSign := f.has (SpecFlags.signed ||| SpecFlags.unsigned)
  let isUns := f.has SpecFlags.unsigned
  if scalar = 0 ∧ f.has (SpecFlags.complex ||| SpecFlags.imaginary) then some .double
  else if scalar.has SpecFlags.void then some .void
  else if scalar.has SpecFlags.bool then some .bool
  else if scalar.has SpecFlags.float then some .float
  else if scalar.has SpecFlags.double then
    some (if scalar.has SpecFlags.long then .ldouble else .double)
  else if scalar.has SpecFlags.char then
    some (if isUns then .uchar else if hasSign then .schar else .char)
  else if scalar.has SpecFlags.short then some (if isUns then .ushort else .short)
  else if scalar.has SpecFlags.long2 then some (if isUns then .ullong else .llong)
  else if scalar.has SpecFlags.long then some (if isUns then .ulong else .long)
  else if scalar = 0 ∨ scalar = SpecFlags.signed then some .int
  else if scalar = SpecFlags.unsigned then some .uint
  else if scalar = SpecFlags.int ||| SpecFlags.signed ∨ scalar = SpecFlags.int then some .int
  else if scalar = SpecFlags.int ||| SpecFlags.unsigned then some .uint
  else none

/-- The name that a declarator declares. -/
structure DeclName where
  name : Option String := none
  line : ℤ := 0
  col : ℤ := 0
  deriving DecidableEq, Repr

/-! ### Constants -/

/-- A `long long` operation of `parser_const_eval`. A shift takes its count modulo 64. -/
def constBinop (op : TokenKind) (l r : BitVec 64) : Except Stuck (BitVec 64) :=
  match op with
  | .plus => return l + r
  | .minus => return l - r
  | .star => return l * r
  | .slash =>
      if r = 0 then return 0
      else if l = BitVec.intMin 64 ∧ r = -1 then throw .trap
      else return l.sdiv r
  | .percent =>
      if r = 0 then return 0
      else if l = BitVec.intMin 64 ∧ r = -1 then throw .trap
      else return l.srem r
  | .lshift => return l <<< (r.toNat % 64)
  | .rshift => return l.sshiftRight (r.toNat % 64)
  | .amp => return l &&& r
  | .pipe => return l ||| r
  | .caret => return l ^^^ r
  | _ => return 0

def parserConstEval : RawExpr → Except Stuck (BitVec 64)
  | .intLit _ v _ | .charLit _ v => return v
  | .unop _ op e => do
      let v ← parserConstEval e
      match op with
      | .minus => return -v
      | .tilde => return ~~~v
      | .bang => return if v = 0 then 1 else 0
      | _ => return v
  | .binop _ op left right => do
      let l ← parserConstEval left
      let r ← parserConstEval right
      constBinop op l r
  | _ => return 0

/-! ### Binding powers -/

def tokLbp : TokenKind → ℤ
  | .comma => 10
  | .assign | .plusAssign | .minusAssign | .starAssign | .slashAssign | .percentAssign
  | .ampAssign | .pipeAssign | .caretAssign | .lshiftAssign | .rshiftAssign => 20
  | .question => 30
  | .or => 40
  | .and => 50
  | .pipe => 60
  | .caret => 70
  | .amp => 80
  | .eq | .neq => 90
  | .lt | .le | .gt | .ge => 100
  | .lshift | .rshift => 110
  | .plus | .minus => 120
  | .star | .slash | .percent => 130
  | .lparen | .lbracket | .dot | .arrow | .plusplus | .minusminus => 150
  | _ => 0

/-! ### The functions -/

/-- The functions that are called again, and the loops. -/
structure ParseFns (L : Type) where
  skipAttributes : ParseM L Unit
  /-- The loop that skips to the parenthesis that closes the `depth`-th open one. -/
  skipParens : (depth : ℕ) → ParseM L Unit
  /-- The loop of `parse_decl_spec`. -/
  declSpec : DeclSpec → (seenType : Bool) → ParseM L DeclSpec
  /-- The loop over the members of a struct or union. -/
  members : List FieldNode → ParseM L (List FieldNode)
  memberDeclarators : (base : TypeRef) → List FieldNode → ParseM L (List FieldNode)
  enumerators : (nextVal : BitVec 64) → List (String × ℤ) → ParseM L (List (String × ℤ))
  /-- `parse_declarator_suffix`. -/
  suffix : (inner : Option TypeRef) → ParseM L (Option TypeRef)
  params : List ParamNode → ParseM L (List ParamNode × Bool)
  /-- The qualifiers after a star. -/
  quals : TypeQual → ParseM L TypeQual
  stars : List TypeQual → ParseM L (List TypeQual)
  declarator : (base : Option TypeRef) → ParseM L (DeclName × Option TypeRef)
  initItems : List RawExpr → ParseM L (List RawExpr)
  initializer : ParseM L RawExpr
  expr : (minBp : ℤ) → ParseM L RawExpr
  /-- The loop of `parse_expr`. -/
  infixes : (minBp : ℤ) → (left : RawExpr) → ParseM L RawExpr
  args : List RawExpr → ParseM L (List RawExpr)
  statement : ParseM L RawStmt
  /-- The loop of `parse_compound`. -/
  statements : List RawStmt → ParseM L (List RawStmt)
  /-- The loop of `parse_decl_list`. -/
  declarators : DeclSpec → (topLevel : Bool) → (base : TypeRef) → List RawDecl →
    ParseM L (List RawDecl × Option RawFunc)
  /-- The loop of `parser_parse`. -/
  topDecls : RawUnit → ParseM L RawUnit

section

variable {L : Type} [TokenSource L] (F : ParseFns L)

/-- `is_typedef_name`. -/
def isTypedefName (name : String) : ParseM L Bool := do
  return (← scopeLookup name).any fun s => .typedef = s.kind

/-- The keywords that begin a declaration specifier. -/
def startsSpec : TokenKind → Bool
  | .void | .bool | .char | .short | .int | .long | .float | .double | .complex | .imaginary
  | .signed | .unsigned | .struct | .union | .enum | .const | .volatile | .restrict | .inline
  | .externKw | .static | .auto | .register | .typedef | .builtinVaList | .typeof | .attribute
  | .asm | .extension | .nonnull | .noreturn | .nullable => true
  | _ => false

def isTypeStart : ParseM L Bool := do
  let t ← peek
  if t.kind = .ident then isTypedefName (← tokIntern t)
  else return startsSpec t.kind

def startsAttribute : TokenKind → Bool
  | .attribute | .asm | .extension | .nonnull | .noreturn | .nullable => true
  | _ => false

def skipAttributes : ParseM L Unit := do
  if startsAttribute (← peek).kind then
    let _ ← advance
    if ← accept .lparen then F.skipParens 1
    F.skipAttributes
  else return ()

def skipParens (depth : ℕ) : ParseM L Unit := do
  let t ← peek
  if depth = 0 ∨ t.kind = .eof then return ()
  else
    let _ ← advance
    F.skipParens
      (if t.kind = .lparen then depth + 1 else if t.kind = .rparen then depth - 1 else depth)

/-! ### Declaration specifiers -/

def resolveTypeSpec (ds : DeclSpec) (loc : Token) : ParseM L TypeRef := do
  match ds.base with
  | some base => return base
  | none =>
      match scalarOfFlags ds.flags with
      | some k => return scalarRef k
      | none =>
          parseError loc.line loc.col "invalid type specifier combination"
          return scalarRef .int

/-- `type_qualify` of the type of some specifiers, if they have qualifiers. -/
def qualifySpec (ds : DeclSpec) (base : TypeRef) : ParseM L TypeRef := do
  if ds.qual = .none then return base
  else
    let _ ← nodeOf (some base)
    typeCall (.qualify base ds.qual)

/-- Specifiers and the type they give. -/
def specType : ParseM L TypeRef := do
  let ds ← F.declSpec {} false
  let base ← resolveTypeSpec ds (← peek)
  qualifySpec ds base

/-- The type of this kind that a tag stands for. -/
def visibleTag (kind : SymKind) (tag : Option String) : ParseM L (Option TypeRef) := do
  match tag with
  | none => return none
  | some name => return (← tagLookup name).bind fun s => if s.kind = kind then s.type else none

/-- The node of a tag: the visible one, or a new one. -/
def tagType (kind : SymKind) (tag : Option String) (visible : Option TypeRef) (c : TypeCall) :
    ParseM L TypeRef := do
  match visible with
  | some ty => return ty
  | none =>
      let ty ← typeCall c
      match tag with
      | none => return ty
      | some name =>
          tagDefine name kind ty
          return ty

/-- The tag after `struct`, `union` or `enum`. -/
def parseTag : ParseM L (Option String) := do
  if ← check .ident then
    let name ← tokIntern (← advance)
    return some name
  else return none

def parseStructUnion (isUnion : Bool) : ParseM L TypeRef := do
  let _ ← advance
  let tag ← parseTag
  let kind : SymKind := if isUnion then .unionTag else .structTag
  let visible ← visibleTag kind tag
  let ty ← tagType kind tag visible (.agg isUnion tag)
  if ← check .lbrace then
    let _ ← advance
    let fields ← F.members []
    let _ ← expect .rbrace
    F.skipAttributes
    let c ← readTypes fun t => if isUnion then t.sealUnion ty fields else t.sealStruct ty fields
    let _ ← typeCall c
    noteDefinition ⟨kind, tag, visible, ty⟩
    return ty
  else return ty

def members (fields : List FieldNode) : ParseM L (List FieldNode) := do
  if ← atListEnd then return fields
  else
    let base ← specType F
    let fields ← F.memberDeclarators base fields
    let _ ← expect .semicolon
    F.members fields

/-- The width of a bit-field, which has to be a literal. -/
def bitFieldWidth : RawExpr → ℤ
  | .intLit _ v _ => (v.setWidth 32).toInt
  | _ => 0

def memberDeclarators (base : TypeRef) (fields : List FieldNode) :
    ParseM L (List FieldNode) := do
  if ← check .semicolon then
    if (← nodeOf (some base)).body.isAgg then return fields ++ [{ name := none, type := some base }]
    else return fields
  else
    let (dn, type) ← F.declarator (some base)
    let bitWidth ← if ← accept .colon then bitFieldWidth <$> F.expr 10 else pure (-1)
    let fields := fields ++ [{ name := dn.name, type := type, bitWidth := bitWidth }]
    if ← accept .comma then F.memberDeclarators base fields
    else return fields

def parseEnum : ParseM L TypeRef := do
  let _ ← advance
  let tag ← parseTag
  let visible ← visibleTag .enumTag tag
  let ty ← tagType .enumTag tag visible (.enum tag)
  if ← check .lbrace then
    let _ ← advance
    let consts ← F.enumerators 0 []
    let _ ← expect .rbrace
    F.skipAttributes
    let _ ← typeCall (.enumerate ty consts)
    noteDefinition ⟨.enumTag, tag, visible, ty⟩
    return ty
  else return ty

def enumerators (nextVal : BitVec 64) (consts : List (String × ℤ)) :
    ParseM L (List (String × ℤ)) := do
  if ← atListEnd then return consts
  else if ← check .ident then
    let name ← tokIntern (← advance)
    let val ← if ← accept .assign then do
        let e ← F.expr 10
        readTypes fun _ => parserConstEval e
      else pure nextVal
    scopeDefine name .enumConst (some (scalarRef .int))
    let consts := consts ++ [(name, val.toInt)]
    if ← accept .comma then F.enumerators (val + 1) consts
    else return consts
  else
    let t ← peek
    parseError t.line t.col "expected enumerator name"
    let _ ← advance
    F.enumerators nextVal consts

/-- `advance(p); break;` in the loop of `parse_decl_spec`. -/
def takeSpec (ds : DeclSpec) (seenType : Bool) : ParseM L DeclSpec := do
  let _ ← advance
  F.declSpec ds seenType

/-- The labels `sc_conflict` and `dup_type`. -/
def refuseSpec (t : Token) (msg : String) (ds : DeclSpec) (seenType : Bool) :
    ParseM L DeclSpec := do
  parseError t.line t.col msg
  takeSpec F ds seenType

def takeStorage (t : Token) (sc : StorageClass) (ds : DeclSpec) (seenType : Bool) :
    ParseM L DeclSpec :=
  if ds.storage ≠ .none ∧ ds.storage ≠ sc then
    refuseSpec F t "multiple storage classes" ds seenType
  else takeSpec F { ds with storage := sc } seenType

/-- `void`, `_Bool` and `float`, after which there is no other type. -/
def takeLone (t : Token) (f : SpecFlags) (ds : DeclSpec) (seenType : Bool) : ParseM L DeclSpec :=
  if seenType then refuseSpec F t "duplicate type specifier" ds seenType
  else takeSpec F { ds with flags := ds.flags ||| f } true

/-- The specifiers that combine; `busy` is the flag that may not be set yet. -/
def takeFlag (t : Token) (busy f : SpecFlags) (ds : DeclSpec) (seenType : Bool) :
    ParseM L DeclSpec :=
  if ds.flags.has busy then refuseSpec F t "duplicate type specifier" ds seenType
  else takeSpec F { ds with flags := ds.flags ||| f } seenType

/-- A specifier that gives a type of its own, made by `m`. -/
def takeBase (t : Token) (ds : DeclSpec) (seenType : Bool) (m : ParseM L TypeRef) :
    ParseM L DeclSpec := do
  if seenType then refuseSpec F t "duplicate type specifier" ds seenType
  else
    let base ← m
    F.declSpec { ds with base := some base } true

def typeofSpec : ParseM L TypeRef := do
  let _ ← advance
  if ← accept .lparen then F.skipParens 1
  return scalarRef .int

def vaListSpec : ParseM L TypeRef := do
  let ty ← typeCall (.pointer (some (scalarRef .void)) .none)
  let _ ← advance
  return ty

def parseDeclSpec (ds : DeclSpec) (seenType : Bool) : ParseM L DeclSpec := do
  let t ← peek
  match t.kind with
  | .auto => takeStorage F t .auto ds seenType
  | .static => takeStorage F t .static ds seenType
  | .externKw => takeStorage F t .externScope ds seenType
  | .register => takeStorage F t .register ds seenType
  | .typedef => takeStorage F t .typedef ds seenType
  | .inline => takeSpec F ds seenType
  | .const => takeSpec F { ds with qual := ds.qual.merge { isConst := true } } seenType
  | .volatile => takeSpec F { ds with qual := ds.qual.merge { isVolatile := true } } seenType
  | .restrict => takeSpec F { ds with qual := ds.qual.merge { isRestrict := true } } seenType
  | .void => takeLone F t .void ds seenType
  | .bool => takeLone F t .bool ds seenType
  | .char => takeFlag F t .char .char ds seenType
  | .short => takeFlag F t .short .short ds seenType
  | .int => takeFlag F t .int .int ds seenType
  | .long =>
      takeFlag F t .long2 (if ds.flags.has SpecFlags.long then .long2 else .long) ds seenType
  | .float => takeLone F t .float ds seenType
  | .double => takeFlag F t .double .double ds seenType
  | .complex => takeFlag F t .complex .complex ds seenType
  | .imaginary => takeFlag F t .imaginary .imaginary ds seenType
  | .signed => takeFlag F t .signed .signed ds seenType
  | .unsigned => takeFlag F t .unsigned .unsigned ds seenType
  | .struct => takeBase F t ds seenType (parseStructUnion F false)
  | .union => takeBase F t ds seenType (parseStructUnion F true)
  | .enum => takeBase F t ds seenType (parseEnum F)
  | .attribute | .asm | .extension | .nonnull | .noreturn | .nullable =>
      F.skipAttributes
      F.declSpec ds seenType
  | .builtinVaList => takeBase F t ds seenType vaListSpec
  | .typeof => takeBase F t ds seenType (typeofSpec F)
  | .ident =>
      if seenType then return ds
      else
        match ← scopeLookup (← tokIntern t) with
        | some ⟨.typedef, type⟩ => takeSpec F { ds with base := type } true
        | _ => return ds
  | _ => return ds

/-! ### Declarators -/

/-- `count` of an array bound, which has to be a literal. -/
def arrayCount : RawExpr → ℤ
  | .intLit _ v _ => v.toInt
  | _ => 0

/-- A single unnamed parameter of type `void` stands for none. -/
def dropVoid (ps : List ParamNode) : ParseM L (List ParamNode) := do
  match ps with
  | [⟨name, type⟩] =>
      if (← nodeOf type).body = .scalar .void ∧ name = none then return [] else return ps
  | _ => return ps

def suffix (inner : Option TypeRef) : ParseM L (Option TypeRef) := do
  if ← check .lbracket then
    let _ ← advance
    if ← check .rbracket then
      let _ ← advance
      let ty ← typeCall (.arrayUnsized inner)
      F.suffix (some ty)
    else
      let sz ← F.expr 0
      let _ ← expect .rbracket
      let ty ← typeCall (.array inner (arrayCount sz))
      F.suffix (some ty)
  else if ← check .lparen then
    let _ ← advance
    let (ps, variadic) ← if ← check .rparen then pure ([], false) else F.params []
    let ps ← dropVoid ps
    let _ ← expect .rparen
    let ty ← typeCall (.func inner ps variadic)
    F.suffix (some ty)
  else return inner

def params (ps : List ParamNode) : ParseM L (List ParamNode × Bool) := do
  if ← check .ellipsis then
    let _ ← advance
    return (ps, true)
  else
    let base ← specType F
    let (dn, type) ← F.declarator (some base)
    let ps := ps ++ [⟨dn.name, type⟩]
    if ← accept .comma then F.params ps
    else return (ps, false)

def quals (q : TypeQual) : ParseM L TypeQual := do
  let t ← peek
  match t.kind with
  | .const =>
      let _ ← advance
      F.quals (q.merge { isConst := true })
  | .volatile =>
      let _ ← advance
      F.quals (q.merge { isVolatile := true })
  | .restrict =>
      let _ ← advance
      F.quals (q.merge { isRestrict := true })
  | .attribute | .asm | .nonnull | .nullable =>
      F.skipAttributes
      F.quals q
  | _ => return q

/-- The leading stars, at most 16; `^` counts as one. -/
def stars (qs : List TypeQual) : ParseM L (List TypeQual) := do
  let t ← peek
  if (t.kind = .star ∨ t.kind = .caret) ∧ qs.length < 16 then
    let _ ← advance
    let q ← F.quals .none
    F.stars (qs ++ [q])
  else return qs

/-- The loop that wraps the base: the last star comes first. -/
def wrapStars (base : Option TypeRef) (qs : List TypeQual) : ParseM L (Option TypeRef) :=
  qs.foldrM (fun q inner => some <$> typeCall (.pointer inner q)) base

/-- A declarator in parentheses, the base being what stands around it. -/
def groupDeclarator (starred : Option TypeRef) : ParseM L (DeclName × Option TypeRef) := do
  let _ ← advance
  let (dn, inner) ← F.declarator none
  let _ ← expect .rparen
  let suffixType ← F.suffix starred
  match inner with
  | none => return (dn, suffixType)
  | some r =>
      let _ ← nodeOf inner
      let _ ← typeCall (.fill r suffixType)
      return (dn, inner)

/-- A name, which may be missing, and the suffix. -/
def plainDeclarator (starred : Option TypeRef) : ParseM L (DeclName × Option TypeRef) := do
  if ← check .ident then
    let t ← advance
    let name ← tokIntern t
    let ty ← F.suffix starred
    return ({ name := some name, line := t.line, col := t.col }, ty)
  else
    let ty ← F.suffix starred
    return ({}, ty)

def parseDeclarator (base : Option TypeRef) : ParseM L (DeclName × Option TypeRef) := do
  F.skipAttributes
  let qs ← F.stars []
  F.skipAttributes
  let starred ← wrapStars base qs
  let isGroup := (← check .lparen) && !(← isTypeStart)
  let result ← if isGroup then groupDeclarator F starred else plainDeclarator F starred
  F.skipAttributes
  return result

/-- The type of a type name. -/
def typeName : ParseM L (Option TypeRef) := do
  let base ← specType F
  let (_, ty) ← F.declarator (some base)
  return ty

/-! ### Initializers -/

def parseInitList : ParseM L RawExpr := do
  let lb ← expect .lbrace
  let items ← F.initItems []
  let _ ← expect .rbrace
  return .initList { line := lb.line, col := lb.col } items

/-- An item of a braced list, with its designator. -/
def initItem : ParseM L RawExpr := do
  let t ← peek
  if t.kind = .dot then
    let _ ← advance
    let ft ← expect .ident
    let field ← tokIntern ft
    let _ ← expect .assign
    return .fieldDesig { line := t.line, col := t.col } field (← F.initializer)
  else if t.kind = .lbracket then
    let _ ← advance
    let index ← F.expr 0
    let _ ← expect .rbracket
    let _ ← expect .assign
    return .indexDesig { line := t.line, col := t.col } index (← F.initializer)
  else F.initializer

def initItems (items : List RawExpr) : ParseM L (List RawExpr) := do
  if ← atListEnd then return items
  else
    let item ← initItem F
    if ← accept .comma then F.initItems (items ++ [item])
    else return items ++ [item]

def parseInitializer : ParseM L RawExpr := do
  if ← check .lbrace then parseInitList F else F.expr 20

/-! ### Expressions -/

/-- `sizeof`, which is read already. -/
def parseSizeof (i : RawInfo) : ParseM L RawExpr := do
  if ← check .lparen then
    let _ ← advance
    if ← isTypeStart then
      let ty ← typeName F
      let _ ← expect .rparen
      return .sizeofType i ty
    else
      let inner ← F.expr 0
      let _ ← expect .rparen
      return .sizeofExpr i inner
  else return .sizeofExpr i (← F.expr 140)

/-- A parenthesized expression, a cast or a compound literal; `(` is read already. -/
def parseParen (i : RawInfo) : ParseM L RawExpr := do
  if ← isTypeStart then
    let ty ← typeName F
    let _ ← expect .rparen
    if ← check .lbrace then return .compoundLit i ty (← parseInitList F)
    else return .cast i ty (← F.expr 140)
  else
    let inner ← F.expr 0
    let _ ← expect .rparen
    return inner

def parseAlignof (i : RawInfo) : ParseM L RawExpr := do
  let _ ← expect .lparen
  let ty ← typeName F
  let _ ← expect .rparen
  let n ← readTypes fun t => t.alignof ty
  return .intLit i (BitVec.ofInt 64 n) (intSuffixU ||| intSuffixL)

def nud (t : Token) : ParseM L RawExpr := do
  let i : RawInfo := { line := t.line, col := t.col }
  match t.kind with
  | .intLit => return .intLit i t.intVal t.intSuffix
  | .floatLit => return .floatLit i t.floatVal t.floatSuffix
  | .charLit => return .charLit i t.intVal
  | .strLit => return .strLit i (← tokIntern t)
  | .ident => return .ident i (← tokIntern t)
  | .minus | .bang | .tilde | .amp | .star | .plusplus | .minusminus =>
      return .unop i t.kind (← F.expr 140)
  | .plus => F.expr 140
  | .alignof => parseAlignof F i
  | .sizeof => parseSizeof F i
  | .lparen => parseParen F i
  | _ =>
      parseError t.line t.col ("unexpected token '" ++ (← describe t) ++ "' in expression")
      return .intLit i 0 0

def args (as : List RawExpr) : ParseM L (List RawExpr) := do
  let arg ← F.expr (tokLbp .comma)
  if ← accept .comma then F.args (as ++ [arg])
  else return as ++ [arg]

def led (left : RawExpr) (t : Token) : ParseM L RawExpr := do
  let i : RawInfo := { line := t.line, col := t.col }
  match t.kind with
  | .plus | .minus | .star | .slash | .percent | .amp | .pipe | .caret | .and | .or | .eq | .neq
  | .lt | .le | .gt | .ge | .lshift | .rshift =>
      return .binop i t.kind left (← F.expr (tokLbp t.kind))
  | .assign | .plusAssign | .minusAssign | .starAssign | .slashAssign | .percentAssign
  | .ampAssign | .pipeAssign | .caretAssign | .lshiftAssign | .rshiftAssign =>
      return .assign i t.kind left (← F.expr (tokLbp t.kind - 1))
  | .question =>
      let thenExpr ← F.expr 0
      let _ ← expect .colon
      let elseExpr ← F.expr (tokLbp .question - 1)
      return .ternary i left thenExpr elseExpr
  | .lparen =>
      let as ← if ← check .rparen then pure [] else F.args []
      let _ ← expect .rparen
      return .call i left as
  | .lbracket =>
      let index ← F.expr 0
      let _ ← expect .rbracket
      return .subscript i left index
  | .dot =>
      let ft ← expect .ident
      return .member i left (← tokIntern ft)
  | .arrow =>
      let ft ← expect .ident
      return .memberPtr i left (← tokIntern ft)
  | .plusplus | .minusminus => return .postop i t.kind left
  | .comma => return .comma i left (← F.expr (tokLbp .comma))
  | _ =>
      parseError t.line t.col ("unexpected infix token '" ++ (← describe t) ++ "'")
      return left

def infixes (minBp : ℤ) (left : RawExpr) : ParseM L RawExpr := do
  let op ← peek
  if tokLbp op.kind ≤ minBp then return left
  else
    let _ ← advance
    let left ← led F left op
    F.infixes minBp left

def parseExpr (minBp : ℤ) : ParseM L RawExpr := do
  let t ← advance
  let left ← nud F t
  F.infixes minBp left

/-! ### Statements -/

def skipPragma : ParseM L Unit := do
  let _ ← advance
  if ← accept .lparen then
    if ← check .strLit then
      let _ ← advance
    let _ ← expect .rparen
  let _ ← accept .semicolon

def parseCompound : ParseM L RawStmt := do
  let _ ← expect .lbrace
  inNewScope do
    let stmts ← F.statements []
    let _ ← expect .rbrace
    return .compound stmts

def statements (stmts : List RawStmt) : ParseM L (List RawStmt) := do
  if ← atListEnd then return stmts
  else
    let s ← F.statement
    F.statements (stmts ++ [s])

/-- Declared types of their own: `struct foo {};` or `enum bar {};`. -/
def typeDecl (base : Option TypeRef) : ParseM L (List RawDecl) := do
  match base with
  | none => return []
  | some r =>
      match (← nodeOf base).body with
      | .agg _ _ => return [.agg r]
      | .enum _ => return [.enum r]
      | _ => return []

/-- The enumeration that a list of declarators starts with. -/
def enumDecl (base : Option TypeRef) : ParseM L (List RawDecl) := do
  match base with
  | none => return []
  | some r =>
      match (← nodeOf base).body with
      | .enum e => return if e.consts = [] then [] else [.enum r]
      | _ => return []

def parseDeclList (ds : DeclSpec) (topLevel : Bool) : ParseM L (List RawDecl × Option RawFunc) := do
  let loc ← peek
  let base ← resolveTypeSpec ds loc
  let base ← qualifySpec ds base
  if ← check .semicolon then
    let _ ← advance
    return (← typeDecl ds.base, none)
  else
    let decls ← enumDecl ds.base
    F.declarators ds topLevel base decls

/-- `while (match(p, TOK_COMMA))` and what follows the loop. -/
def nextDeclarator (ds : DeclSpec) (topLevel : Bool) (base : TypeRef) (decls : List RawDecl) :
    ParseM L (List RawDecl × Option RawFunc) := do
  if ← accept .comma then F.declarators ds topLevel base decls
  else
    let _ ← expect .semicolon
    return (decls, none)

/-- The `AST_PARAM_DECL` of a parameter, which is defined if it has a name. -/
def paramDecl (dn : DeclName) (fp : ParamNode) : ParseM L RawParam := do
  match fp.name with
  | some name => scopeDefine name .var fp.type
  | none => pure ()
  return { node := ← newNode, line := dn.line, col := dn.col, name := fp.name, paramType := fp.type }

/-- A function whose body begins. -/
def parseFunc (ds : DeclSpec) (dn : DeclName) (name : String) (type : Option TypeRef)
    (ps : List ParamNode) : ParseM L RawFunc := do
  let node ← newNode
  let (params, body) ← inNewScope do
    let params ← ps.mapM (paramDecl dn)
    let body ← parseCompound F
    return (params, body)
  scopeDefine name .func type
  return { node := node, line := dn.line, col := dn.col, name := name, funcType := type,
           params := params, body := body, storage := ds.storage }

/-- The parameters of a function type. -/
def funcParams (type : Option TypeRef) : ParseM L (Option (List ParamNode)) := do
  match type with
  | none => return none
  | some _ =>
      match (← nodeOf type).body with
      | .func _ ps _ => return some ps
      | _ => return none

def varDecl (ds : DeclSpec) (dn : DeclName) (name : String) (type : Option TypeRef) :
    ParseM L RawDecl := do
  let node ← newNode
  let init ← if ← accept .assign then some <$> parseInitializer F else pure none
  scopeDefine name .var type
  return .var { node := node, line := dn.line, col := dn.col, name := name, declType := type,
                init := init, storage := ds.storage }

def declarators (ds : DeclSpec) (topLevel : Bool) (base : TypeRef) (decls : List RawDecl) :
    ParseM L (List RawDecl × Option RawFunc) := do
  let (dn, type) ← F.declarator (some base)
  match dn.name with
  | none =>
      -- `continue` goes on to the condition of the loop, which asks for another comma
      if ← accept .comma then nextDeclarator F ds topLevel base decls
      else
        let _ ← expect .semicolon
        return (decls, none)
  | some name =>
      if ds.storage = .typedef then
        scopeDefine name .typedef type
        nextDeclarator F ds topLevel base (decls ++ [.typedef name type])
      else
        let ps ← if topLevel then funcParams type else pure none
        let opens ← check .lbrace
        match ps, opens with
        | some ps, true =>
            let f ← parseFunc F ds dn name type ps
            return (decls, some f)
        | _, _ =>
            let d ← varDecl F ds dn name type
            nextDeclarator F ds topLevel base (decls ++ [d])

/-- A declaration where a statement can stand. -/
def declStmt : ParseM L RawStmt := do
  let ds ← F.declSpec {} false
  let (decls, _) ← parseDeclList F ds false
  return .decl decls

/-- `( expr )`. -/
def parenExpr : ParseM L RawExpr := do
  let _ ← expect .lparen
  let e ← F.expr 0
  let _ ← expect .rparen
  return e

/-- The first clause of `for`, with its semicolon. -/
def forInit : ParseM L (Option RawStmt) := do
  if ← check .semicolon then
    let _ ← advance
    return none
  else if ← isTypeStart then
    let d ← declStmt F
    return some d
  else
    let e ← F.expr 0
    let _ ← expect .semicolon
    return some (.expr e)

/-- An expression, unless the token that ends it comes first. -/
def exprBefore (k : TokenKind) : ParseM L (Option RawExpr) := do
  if ← check k then return none
  else
    let e ← F.expr 0
    return some e

def parseFor (t : Token) : ParseM L RawStmt := do
  let _ ← advance
  let _ ← expect .lparen
  let init ← forInit F
  let cond ← exprBefore F .semicolon
  let _ ← expect .semicolon
  let incr ← exprBefore F .rparen
  let _ ← expect .rparen
  let body ← inLoop F.statement
  return .for t.line t.col init cond incr body

/-- The statement of a label in a `switch`; it may be missing. -/
def caseBody : ParseM L RawStmt := do
  let t ← peek
  if t.kind ≠ .case ∧ t.kind ≠ .default ∧ t.kind ≠ .rbrace then F.statement
  else return .compound []

/-- A label, or an expression that starts with the identifier `t`. -/
def identStmt (t : Token) : ParseM L RawStmt := do
  let _ ← advance
  let name ← tokIntern t
  if ← check .colon then
    let _ ← advance
    return .label t.line t.col name (← F.statement)
  else
    -- the loop of `parse_expr`, repeated in the source
    let e ← F.infixes 0 (.ident { line := t.line, col := t.col } name)
    let _ ← expect .semicolon
    return .expr e

/-- A statement that does not begin with a declaration. -/
def plainStmt (t : Token) : ParseM L RawStmt := do
  match t.kind with
  | .lbrace => parseCompound F
  | .ifKw =>
      let _ ← advance
      let cond ← parenExpr F
      let thenStmt ← F.statement
      let elseStmt ← if ← accept .elseKw then some <$> F.statement else pure none
      return .ifElse t.line t.col cond thenStmt elseStmt
  | .while =>
      let _ ← advance
      let cond ← parenExpr F
      let body ← inLoop F.statement
      return .while t.line t.col cond body
  | .doKw =>
      let _ ← advance
      let body ← inLoop F.statement
      let _ ← expect .while
      let cond ← parenExpr F
      let _ ← expect .semicolon
      return .doWhile t.line t.col cond body
  | .forKw => parseFor F t
  | .return =>
      let _ ← advance
      let e ← exprBefore F .semicolon
      let _ ← expect .semicolon
      return .ret t.line t.col e
  | .break =>
      let _ ← advance
      let p ← get
      if p.loopDepth = 0 ∧ p.switchDepth = 0 then
        parseError t.line t.col "'break' outside loop or switch"
      let _ ← expect .semicolon
      return .break t.line t.col
  | .continue =>
      let _ ← advance
      if (← get).loopDepth = 0 then parseError t.line t.col "'continue' outside loop"
      let _ ← expect .semicolon
      return .continue t.line t.col
  | .goto =>
      let _ ← advance
      let lt ← expect .ident
      let _ ← expect .semicolon
      return .goto t.line t.col (← tokIntern lt)
  | .switch =>
      let _ ← advance
      let e ← parenExpr F
      let body ← inSwitch F.statement
      return .switch t.line t.col e body
  | .case =>
      let _ ← advance
      let node ← newNode
      let e ← F.expr 0
      let _ ← expect .colon
      return .case node t.line t.col e (← caseBody F)
  | .default =>
      let _ ← advance
      let _ ← expect .colon
      let node ← newNode
      return .default node t.line t.col (← caseBody F)
  | .semicolon =>
      let _ ← advance
      return .compound []
  | .ident => identStmt F t
  | _ =>
      let e ← F.expr 0
      let _ ← expect .semicolon
      return .expr e

def parseStatement : ParseM L RawStmt := do
  let t ← peek
  if t.kind = .pragma then
    skipPragma
    return .compound []
  else if ← isTypeStart then declStmt F
  else plainStmt F t

/-! ### Translation units -/

def topDecls (unit : RawUnit) : ParseM L RawUnit := do
  let t ← peek
  if t.kind = .eof then return unit
  else if t.kind = .pragma then
    skipPragma
    F.topDecls unit
  else if ← isTypeStart then
    let ds ← F.declSpec {} false
    let (decls, func) ← parseDeclList F ds true
    F.topDecls (unit ++ decls.map .decl ++ func.toList.map .func)
  else
    parseError t.line t.col ("expected a declaration, got '" ++ (← describe t) ++ "'")
    let _ ← advance
    F.topDecls unit

end

/-! ### The knot -/

section

variable {L : Type} [TokenSource L]

/-- No function comes to an end. -/
def ParseFns.stuck : ParseFns L where
  skipAttributes := throw .fuel
  skipParens _ := throw .fuel
  declSpec _ _ := throw .fuel
  members _ := throw .fuel
  memberDeclarators _ _ := throw .fuel
  enumerators _ _ := throw .fuel
  suffix _ := throw .fuel
  params _ := throw .fuel
  quals _ := throw .fuel
  stars _ := throw .fuel
  declarator _ := throw .fuel
  initItems _ := throw .fuel
  initializer := throw .fuel
  expr _ := throw .fuel
  infixes _ _ := throw .fuel
  args _ := throw .fuel
  statement := throw .fuel
  statements _ := throw .fuel
  declarators _ _ _ _ := throw .fuel
  topDecls _ := throw .fuel

/-- The functions one call deeper. -/
def ParseFns.deeper (F : ParseFns L) : ParseFns L where
  skipAttributes := TinyC.skipAttributes F
  skipParens := TinyC.skipParens F
  declSpec := parseDeclSpec F
  members := TinyC.members F
  memberDeclarators := TinyC.memberDeclarators F
  enumerators := TinyC.enumerators F
  suffix := TinyC.suffix F
  params := TinyC.params F
  quals := TinyC.quals F
  stars := TinyC.stars F
  declarator := parseDeclarator F
  initItems := TinyC.initItems F
  initializer := parseInitializer F
  expr := parseExpr F
  infixes := TinyC.infixes F
  args := TinyC.args F
  statement := parseStatement F
  statements := TinyC.statements F
  declarators := TinyC.declarators F
  topDecls := TinyC.topDecls F

/-- The parser, with at most `n` calls open at a time. -/
def parsers : ℕ → ParseFns L
  | 0 => .stuck
  | n + 1 => (parsers n).deeper

/-- `parser_parse`. -/
def parserParse (n : ℕ) : ParseM L RawUnit := (parsers n).topDecls []

end

end TinyC
