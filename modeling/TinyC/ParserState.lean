import TinyC.Lexer
import TinyC.ParseTree
import TinyC.Scope

/-!
# The state of the parser

The parser takes its tokens from a source and works on the type table and two chains of scopes.
The helpers below are the only ones that touch the state.
-/

namespace TinyC

/-- Where tokens come from, and where diagnostics go. -/
class TokenSource (L : Type) where
  /-- `lexer_peek`. -/
  peek : L → Token × L
  /-- `lexer_next`. -/
  next : L → Token × L
  strings : L → StringTable
  /-- `token_describe`, the text of a token being in the buffer. -/
  describe : L → Token → String
  /-- `diag_emit`. -/
  emit : L → Diag → L

inductive SymKind where
  | var | func | typedef | enumConst | structTag | unionTag | enumTag
  deriving DecidableEq, Repr

structure Symbol where
  kind : SymKind
  type : Option TypeRef
  deriving DecidableEq, Repr

def scopeBuckets : ℕ := 64

/-- The definition of a struct, union or enum type. -/
structure TagDefinition where
  kind : SymKind
  tag : Option String
  /-- The type of this kind that the tag stood for. -/
  visible : Option TypeRef
  type : TypeRef
  deriving DecidableEq, Repr

structure Parser (L : Type) where
  lexer : L
  types : TypeTable
  /-- The chain for ordinary identifiers. -/
  scope : ScopeChain Symbol
  tagScope : ScopeChain Symbol
  nErrors : ℕ := 0
  loopDepth : ℕ := 0
  switchDepth : ℕ := 0
  /-- The number of the next node that is compared by address. -/
  nextNode : ℕ := 0
  /-- A history variable, which nothing reads: the types defined so far. -/
  definitions : List TagDefinition := []

def parserInit {L : Type} (lexer : L) (types : TypeTable) : Parser L where
  lexer := lexer
  types := types
  scope := ScopeChain.push []
  tagScope := ScopeChain.push []

/-- A part of the parser: it ends with a value, or does not end. -/
abbrev ParseM (L : Type) := StateT (Parser L) (Except Stuck)

/-- The text of `token_kind_name`. -/
def tokenKindName : TokenKind → String
  | .intLit => "INT_LIT"
  | .floatLit => "FLOAT_LIT"
  | .charLit => "CHAR_LIT"
  | .strLit => "STR_LIT"
  | .ident => "IDENT"
  | .auto => "auto"
  | .break => "break"
  | .case => "case"
  | .char => "char"
  | .const => "const"
  | .continue => "continue"
  | .default => "default"
  | .doKw => "do"
  | .double => "double"
  | .elseKw => "else"
  | .enum => "enum"
  | .externKw => "extern"
  | .float => "float"
  | .forKw => "for"
  | .goto => "goto"
  | .ifKw => "if"
  | .inline => "inline"
  | .int => "int"
  | .long => "long"
  | .register => "register"
  | .restrict => "restrict"
  | .return => "return"
  | .short => "short"
  | .signed => "signed"
  | .sizeof => "sizeof"
  | .static => "static"
  | .struct => "struct"
  | .switch => "switch"
  | .typedef => "typedef"
  | .union => "union"
  | .unsigned => "unsigned"
  | .void => "void"
  | .volatile => "volatile"
  | .while => "while"
  | .bool => "_Bool"
  | .complex => "_Complex"
  | .imaginary => "_Imaginary"
  | .pragma => "_Pragma"
  | .attribute => "__attribute__"
  | .asm => "__asm__"
  | .builtinVaList => "__builtin_va_list"
  | .extension => "__extension__"
  | .typeof => "__typeof__"
  | .nonnull => "_Nonnull"
  | .noreturn => "_Noreturn"
  | .nullable => "_Nullable"
  | .plus => "+"
  | .minus => "-"
  | .star => "*"
  | .slash => "/"
  | .percent => "%"
  | .amp => "&"
  | .pipe => "|"
  | .caret => "^"
  | .tilde => "~"
  | .bang => "!"
  | .and => "&&"
  | .or => "||"
  | .lt => "<"
  | .gt => ">"
  | .le => "<="
  | .ge => ">="
  | .eq => "=="
  | .neq => "!="
  | .lshift => "<<"
  | .rshift => ">>"
  | .assign => "="
  | .plusAssign => "+="
  | .minusAssign => "-="
  | .starAssign => "*="
  | .slashAssign => "/="
  | .percentAssign => "%="
  | .ampAssign => "&="
  | .pipeAssign => "|="
  | .caretAssign => "^="
  | .lshiftAssign => "<<="
  | .rshiftAssign => ">>="
  | .plusplus => "++"
  | .minusminus => "--"
  | .arrow => "->"
  | .dot => "."
  | .question => "?"
  | .colon => ":"
  | .lparen => "("
  | .rparen => ")"
  | .lbrace => "\x7b"
  | .rbrace => "\x7d"
  | .lbracket => "["
  | .rbracket => "]"
  | .semicolon => ";"
  | .comma => ","
  | .ellipsis => "..."
  | .hash => "#"
  | .eof => "EOF"
  | .error => "ERROR"
  -- the table has no entry for `TOK_ALIGNOF`
  | .alignof => "UNKNOWN"

/-- An interned string; a missing one is taken for the empty one, which names nothing. -/
def internedText (st : StringTable) (i : ℕ) : String :=
  String.ofList (((strtabGet st i).getD []).map fun b => Char.ofNat b.toNat)

section

variable {L α : Type} [TokenSource L]

/-! ### Tokens -/

def peek : ParseM L Token := modifyGet fun p =>
  ((TokenSource.peek p.lexer).1, { p with lexer := (TokenSource.peek p.lexer).2 })

def advance : ParseM L Token := modifyGet fun p =>
  ((TokenSource.next p.lexer).1, { p with lexer := (TokenSource.next p.lexer).2 })

/-- `diag_emit` of an error, and `p->n_errors++`. -/
def parseError (line col : ℤ) (msg : String) : ParseM L Unit := modify fun p =>
  { p with lexer := TokenSource.emit p.lexer ⟨true, line, col, msg⟩, nErrors := p.nErrors + 1 }

def describe (t : Token) : ParseM L String := do return TokenSource.describe (← get).lexer t

def check (k : TokenKind) : ParseM L Bool := do return (← peek).kind = k

/-- `match`. -/
def accept (k : TokenKind) : ParseM L Bool := do
  if (← peek).kind = k then
    let _ ← advance
    return true
  else return false

def expect (k : TokenKind) : ParseM L Token := do
  let t ← peek
  if t.kind = k then advance
  else
    parseError t.line t.col
      ("expected '" ++ tokenKindName k ++ "', got '" ++ (← describe t) ++ "'")
    if t.kind ≠ .eof then
      let _ ← advance
    return { kind := k, start := 0, len := 0, line := t.line, col := t.col }

/-- `tok_intern`. -/
def tokIntern (t : Token) : ParseM L String := do
  return internedText (TokenSource.strings (← get).lexer) t.strIdx

/-- The loops over a braced list go on until `}` or the end. -/
def atListEnd : ParseM L Bool := do
  let t ← peek
  return t.kind = .rbrace ∨ t.kind = .eof

/-! ### Types -/

def typeCall (c : TypeCall) : ParseM L TypeRef := modifyGet fun p =>
  ((p.types.call c).1, { p with types := (p.types.call c).2 })

/-- Dereferences a `Type *`. -/
def nodeOf (r : Option TypeRef) : ParseM L TypeNode := do
  match (← get).types.node? r with
  | some n => return n
  | none => throw .null

def readTypes (f : TypeTable → Except Stuck α) : ParseM L α := do
  match f (← get).types with
  | .ok a => return a
  | .error e => throw e

def noteDefinition (d : TagDefinition) : ParseM L Unit :=
  modify fun p => { p with definitions := p.definitions ++ [d] }

/-! ### Scopes -/

/-- `scope_define_in` the current scope. -/
def scopeDefine (name : String) (kind : SymKind) (type : Option TypeRef) : ParseM L Unit :=
  modify fun p => { p with scope := p.scope.define scopeBuckets name ⟨kind, type⟩ }

def tagDefine (name : String) (kind : SymKind) (type : TypeRef) : ParseM L Unit :=
  modify fun p => { p with tagScope := p.tagScope.define scopeBuckets name ⟨kind, some type⟩ }

/-- `scope_lookup_chain`. -/
def scopeLookup (name : String) : ParseM L (Option Symbol) := do
  return (← get).scope.lookup scopeBuckets name

def tagLookup (name : String) : ParseM L (Option Symbol) := do
  return (← get).tagScope.lookup scopeBuckets name

/-- Runs `m` in a scope of its own and goes back to the saved ones. -/
def inNewScope (m : ParseM L α) : ParseM L α := do
  let saved ← get
  modify fun p => { p with scope := p.scope.push, tagScope := p.tagScope.push }
  let a ← m
  modify fun p => { p with scope := saved.scope, tagScope := saved.tagScope }
  return a

/-! ### Depths and node numbers -/

def inLoop (m : ParseM L α) : ParseM L α := do
  modify fun p => { p with loopDepth := p.loopDepth + 1 }
  let a ← m
  modify fun p => { p with loopDepth := p.loopDepth - 1 }
  return a

def inSwitch (m : ParseM L α) : ParseM L α := do
  modify fun p => { p with switchDepth := p.switchDepth + 1 }
  let a ← m
  modify fun p => { p with switchDepth := p.switchDepth - 1 }
  return a

/-- The address of a new node. -/
def newNode : ParseM L ℕ := modifyGet fun p => (p.nextNode, { p with nextNode := p.nextNode + 1 })

end

end TinyC
