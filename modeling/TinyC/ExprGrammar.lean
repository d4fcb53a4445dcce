import TinyC.ParserRuns

/-!
# The grammar of expressions

The productions of C99 6.5, over the tokens that a parser has before it, with the trees that the
parser builds. What stands in a type name or between braces is left to the parser.
-/

namespace TinyC

inductive ExprCat where
  | expression
  | assignment
  | conditional
  | logicalOr
  | logicalAnd
  | inclusiveOr
  | exclusiveOr
  | andExpr
  | equality
  | relational
  | shift
  | additive
  | multiplicative
  | castExpr
  | unaryExpr
  | postfixExpr
  | primaryExpr
  deriving DecidableEq, Repr

namespace ExprCat

/-- The category that each one contains, up to the primary expressions. -/
def tighter : ExprCat → ExprCat
  | expression => assignment
  | assignment => conditional
  | conditional => logicalOr
  | logicalOr => logicalAnd
  | logicalAnd => inclusiveOr
  | inclusiveOr => exclusiveOr
  | exclusiveOr => andExpr
  | andExpr => equality
  | equality => relational
  | relational => shift
  | shift => additive
  | additive => multiplicative
  | multiplicative => castExpr
  | castExpr => unaryExpr
  | unaryExpr => postfixExpr
  | postfixExpr | primaryExpr => primaryExpr

end ExprCat

/-- The category of the expressions with a binary operator on top. -/
def binaryCat : TokenKind → Option ExprCat
  | .or => some .logicalOr
  | .and => some .logicalAnd
  | .pipe => some .inclusiveOr
  | .caret => some .exclusiveOr
  | .amp => some .andExpr
  | .eq | .neq => some .equality
  | .lt | .le | .gt | .ge => some .relational
  | .lshift | .rshift => some .shift
  | .plus | .minus => some .additive
  | .star | .slash | .percent => some .multiplicative
  | _ => none

def isAssignOp : TokenKind → Bool
  | .assign | .plusAssign | .minusAssign | .starAssign | .slashAssign | .percentAssign
  | .ampAssign | .pipeAssign | .caretAssign | .lshiftAssign | .rshiftAssign => true
  | _ => false

/-- The unary operators, `+` apart, for which there is no node. -/
def isUnaryOp : TokenKind → Bool
  | .amp | .star | .minus | .tilde | .bang => true
  | _ => false

/-- `++` or `--`. -/
def isStepOp : TokenKind → Bool
  | .plusplus | .minusminus => true
  | _ => false

def Token.info (t : Token) : RawInfo := { line := t.line, col := t.col }

section

variable {L : Type} [TokenSource L]

/-- A type name stands before `q`, in which the parser finds no error. -/
def TypeName (p : Parser L) (ty : Option TypeRef) (q : Parser L) : Prop :=
  Ends (fun F => typeName F) p.look ty q ∧ q.nErrors = p.nErrors

/-- A list in braces stands before `q`, in which the parser finds no error. -/
def BracedList (p : Parser L) (e : RawExpr) (q : Parser L) : Prop :=
  Ends (fun F => parseInitList F) p.look e q ∧ q.nErrors = p.nErrors

mutual

/-- From `p` on, the tokens before `q` are an expression of the category, with the tree `e`.

In C99 what follows `sizeof` is a unary expression. An operand in parentheses that has postfix
operators after it is left out, unless it is taken `asRead`: then they apply to the `sizeof`. A
compound literal after `sizeof` is left out. -/
inductive Derives (asRead : Prop) : ExprCat → Parser L → RawExpr → Parser L → Prop
  | up {c p e q} : Derives asRead c.tighter p e q → Derives asRead c p e q
  | comma {p l q r s} : Derives asRead .expression p l q → q.kind = .comma →
      Derives asRead .assignment q.skip r s →
      Derives asRead .expression p (.comma q.token.info l r) s
  | assign {p l q r s} : Derives asRead .unaryExpr p l q → isAssignOp q.kind = true →
      Derives asRead .assignment q.skip r s →
      Derives asRead .assignment p (.assign q.token.info q.kind l r) s
  | ternary {p c q t r e s} : Derives asRead .logicalOr p c q → q.kind = .question →
      Derives asRead .expression q.skip t r → r.kind = .colon →
      Derives asRead .conditional r.skip e s →
      Derives asRead .conditional p (.ternary q.token.info c t e) s
  | binop {c p l q r s} : Derives asRead c p l q → binaryCat q.kind = some c →
      Derives asRead c.tighter q.skip r s →
      Derives asRead c p (.binop q.token.info q.kind l r) s
  | cast {p ty q e r} : p.kind = .lparen → p.skip.startsType = true → TypeName p.skip ty q →
      q.kind = .rparen → Derives asRead .castExpr q.skip e r →
      Derives asRead .castExpr p (.cast p.token.info ty e) r
  | unop {p e q} : isUnaryOp p.kind = true → Derives asRead .castExpr p.skip e q →
      Derives asRead .unaryExpr p (.unop p.token.info p.kind e) q
  | plus {p e q} : p.kind = .plus → Derives asRead .castExpr p.skip e q →
      Derives asRead .unaryExpr p e q
  | step {p e q} : isStepOp p.kind = true → Derives asRead .unaryExpr p.skip e q →
      Derives asRead .unaryExpr p (.unop p.token.info p.kind e) q
  | sizeofUnary {p e q} : p.kind = .sizeof → p.skip.kind ≠ .lparen →
      Derives asRead .unaryExpr p.skip e q →
      Derives asRead .unaryExpr p (.sizeofExpr p.token.info e) q
  | sizeofParen {p e q} : p.kind = .sizeof → p.skip.kind = .lparen →
      p.skip.skip.startsType = false → Derives asRead .expression p.skip.skip e q →
      q.kind = .rparen → Derives asRead .unaryExpr p (.sizeofExpr p.token.info e) q.skip
  | sizeofRead {p e q} : asRead → p.kind = .sizeof → p.skip.kind = .lparen →
      p.skip.skip.startsType = false → Derives asRead .expression p.skip.skip e q →
      q.kind = .rparen → Derives asRead .postfixExpr p (.sizeofExpr p.token.info e) q.skip
  | sizeofType {p ty q} : p.kind = .sizeof → p.skip.kind = .lparen →
      p.skip.skip.startsType = true → TypeName p.skip.skip ty q → q.kind = .rparen →
      Derives asRead .unaryExpr p (.sizeofType p.token.info ty) q.skip
  | subscript {p b q x r} : Derives asRead .postfixExpr p b q → q.kind = .lbracket →
      Derives asRead .expression q.skip x r → r.kind = .rbracket →
      Derives asRead .postfixExpr p (.subscript q.token.info b x) r.skip
  | callNone {p f q} : Derives asRead .postfixExpr p f q → q.kind = .lparen →
      q.skip.kind = .rparen → Derives asRead .postfixExpr p (.call q.token.info f []) q.skip.skip
  | call {p f q as r} : Derives asRead .postfixExpr p f q → q.kind = .lparen →
      DerivesArgs asRead q.skip as r → r.kind = .rparen →
      Derives asRead .postfixExpr p (.call q.token.info f as) r.skip
  | member {p b q} : Derives asRead .postfixExpr p b q → q.kind = .dot → q.skip.kind = .ident →
      Derives asRead .postfixExpr p
        (.member q.token.info b (q.skip.skip.textOf q.skip.token)) q.skip.skip
  | memberPtr {p b q} : Derives asRead .postfixExpr p b q → q.kind = .arrow →
      q.skip.kind = .ident → Derives asRead .postfixExpr p
        (.memberPtr q.token.info b (q.skip.skip.textOf q.skip.token)) q.skip.skip
  | postop {p b q} : Derives asRead .postfixExpr p b q → isStepOp q.kind = true →
      Derives asRead .postfixExpr p (.postop q.token.info q.kind b) q.skip
  | compoundLit {p ty q il r} : p.kind = .lparen → p.skip.startsType = true →
      TypeName p.skip ty q → q.kind = .rparen → q.skip.kind = .lbrace →
      BracedList q.skip il r → Derives asRead .postfixExpr p (.compoundLit p.token.info ty il) r
  | ident {p} : p.kind = .ident →
      Derives asRead .primaryExpr p (.ident p.token.info (p.skip.textOf p.token)) p.skip
  | intLit {p} : p.kind = .intLit →
      Derives asRead .primaryExpr p (.intLit p.token.info p.token.intVal p.token.intSuffix) p.skip
  | floatLit {p} : p.kind = .floatLit → Derives asRead .primaryExpr p
      (.floatLit p.token.info p.token.floatVal p.token.floatSuffix) p.skip
  | charLit {p} : p.kind = .charLit →
      Derives asRead .primaryExpr p (.charLit p.token.info p.token.intVal) p.skip
  | strLit {p} : p.kind = .strLit →
      Derives asRead .primaryExpr p (.strLit p.token.info (p.skip.textOf p.token)) p.skip
  | paren {p e q} : p.kind = .lparen → p.skip.startsType = false →
      Derives asRead .expression p.skip e q → q.kind = .rparen →
      Derives asRead .primaryExpr p e q.skip

/-- Arguments, with commas between them. -/
inductive DerivesArgs (asRead : Prop) : Parser L → List RawExpr → Parser L → Prop
  | one {p a q} : Derives asRead .assignment p a q → DerivesArgs asRead p [a] q
  | cons {p a q as r} : Derives asRead .assignment p a q → q.kind = .comma →
      DerivesArgs asRead q.skip as r → DerivesArgs asRead p (a :: as) r

end

theorem Derives.ups {asRead : Prop} {p q : Parser L} {e : RawExpr} (n : ℕ) {c : ExprCat}
    (h : Derives asRead (ExprCat.tighter^[n] c) p e q) : Derives asRead c p e q := by
  induction n generalizing c with
  | zero => exact h
  | succ n ih => exact .up (ih h)

mutual

/-- There is no error in a derived expression. -/
theorem Derives.nErrors_eq {c : ExprCat} {p q : Parser L} {e : RawExpr} :
    Derives asRead c p e q → q.nErrors = p.nErrors
  | .up h => h.nErrors_eq
  | .comma hl _ hr => hr.nErrors_eq.trans hl.nErrors_eq
  | .assign hl _ hr => hr.nErrors_eq.trans hl.nErrors_eq
  | .ternary hc _ ht _ he => he.nErrors_eq.trans (ht.nErrors_eq.trans hc.nErrors_eq)
  | .binop hl _ hr => hr.nErrors_eq.trans hl.nErrors_eq
  | .cast _ _ hty _ he => he.nErrors_eq.trans hty.2
  | .unop _ h => h.nErrors_eq
  | .plus _ h => h.nErrors_eq
  | .step _ h => h.nErrors_eq
  | .sizeofUnary _ _ h => h.nErrors_eq
  | .sizeofParen _ _ _ h _ => h.nErrors_eq
  | .sizeofRead _ _ _ _ h _ => h.nErrors_eq
  | .sizeofType _ _ _ hty _ => hty.2
  | .subscript hl _ hx _ => hx.nErrors_eq.trans hl.nErrors_eq
  | .callNone hl _ _ => hl.nErrors_eq
  | .call hl _ has _ => has.nErrors_eq.trans hl.nErrors_eq
  | .member hl _ _ => hl.nErrors_eq
  | .memberPtr hl _ _ => hl.nErrors_eq
  | .postop hl _ => hl.nErrors_eq
  | .compoundLit _ _ hty _ _ hil => hil.2.trans hty.2
  | .ident _ => rfl
  | .intLit _ => rfl
  | .floatLit _ => rfl
  | .charLit _ => rfl
  | .strLit _ => rfl
  | .paren _ _ h _ => h.nErrors_eq

theorem DerivesArgs.nErrors_eq {p q : Parser L} {as : List RawExpr} :
    DerivesArgs asRead p as q → q.nErrors = p.nErrors
  | .one h => h.nErrors_eq
  | .cons h _ hrest => hrest.nErrors_eq.trans h.nErrors_eq

end

/-- The tokens that begin an expression. -/
def startsExpr : TokenKind → Bool
  | .ident | .intLit | .floatLit | .charLit | .strLit | .lparen | .sizeof | .plus | .amp | .star
  | .minus | .tilde | .bang | .plusplus | .minusminus => true
  | _ => false

/-- The tokens after which an expression goes on. -/
def continuesExpr (k : TokenKind) : Bool :=
  (binaryCat k).isSome || isAssignOp k || isStepOp k ||
    k ∈ [TokenKind.comma, .question, .lparen, .lbracket, .dot, .arrow]

end

end TinyC
