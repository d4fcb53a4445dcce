import TinyC.Ir

/-!
# Token kinds and the operators they stand for
-/

namespace TinyC

/-- `TokenKind`, without its count. A keyword that is a Lean keyword ends in `Kw`. -/
inductive TokenKind where
  | intLit | floatLit | charLit | strLit
  | ident
  | auto | break | case | char | const | continue | default | doKw | double | elseKw | enum
  | externKw | float | forKw | goto | ifKw | inline | int | long | register | restrict | return
  | short | signed | sizeof | static | struct | switch | typedef | union | unsigned | void
  | volatile | while | bool | complex | imaginary | pragma | alignof
  | attribute | asm | builtinVaList | extension | nonnull | noreturn | nullable | typeof
  | plus | minus | star | slash | percent
  | amp | pipe | caret | tilde
  | bang | and | or
  | lt | gt | le | ge | eq | neq
  | lshift | rshift
  | assign | plusAssign | minusAssign | starAssign | slashAssign | percentAssign | ampAssign
  | pipeAssign | caretAssign | lshiftAssign | rshiftAssign
  | plusplus | minusminus
  | arrow | dot
  | question | colon
  | lparen | rparen | lbrace | rbrace | lbracket | rbracket
  | semicolon | comma | ellipsis | hash
  | eof | error
  deriving DecidableEq, Repr

def tokToIrBinop : TokenKind → IROp
  | .plus => .add
  | .minus => .sub
  | .star => .mul
  | .slash => .div
  | .percent => .mod
  | .amp => .and
  | .pipe => .or
  | .caret => .xor
  | .lshift => .shl
  | .rshift => .shr
  | .eq => .eq
  | .neq => .ne
  | .lt => .lt
  | .le => .le
  | .gt => .gt
  | .ge => .ge
  | _ => .add

/-- The arithmetic operator of a compound assignment. -/
def compoundBase : TokenKind → TokenKind
  | .plusAssign => .plus
  | .minusAssign => .minus
  | .starAssign => .star
  | .slashAssign => .slash
  | .percentAssign => .percent
  | .ampAssign => .amp
  | .pipeAssign => .pipe
  | .caretAssign => .caret
  | .lshiftAssign => .lshift
  | .rshiftAssign => .rshift
  | _ => .plus

end TinyC
