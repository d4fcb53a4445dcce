import TinyC.Types
import TinyC.Token

/-!
# Abstract syntax

One constructor per `ASTNodeKind`, with the members of the union it uses. Children that
are linked through `next` are lists, children that may be missing are options. Nodes that
are compared by address keep a number that stands for it.
-/

namespace TinyC

inductive StorageClass where
  | none | auto | static | externScope | register | typedef
  deriving DecidableEq, Repr

/-- The members every node has. The type is missing until sema has seen the node. -/
structure Info where
  line : ℤ := 0
  col : ℤ := 0
  type : Option CType := none
  deriving DecidableEq, Repr

inductive Expr where
  | intLit (i : Info) (val : BitVec 64) (suffix : ℕ)
  | floatLit (i : Info) (val : BitVec 64) (suffix : Char)
  | charLit (i : Info) (val : BitVec 64)
  | strLit (i : Info) (str : String)
  | ident (i : Info) (name : String)
  | unop (i : Info) (op : TokenKind) (operand : Expr)
  /-- `AST_POSTFIX`. -/
  | postop (i : Info) (op : TokenKind) (operand : Expr)
  | binop (i : Info) (op : TokenKind) (left right : Expr)
  | assign (i : Info) (op : TokenKind) (left right : Expr)
  | ternary (i : Info) (cond thenExpr elseExpr : Expr)
  | call (i : Info) (func : Expr) (args : List Expr)
  | subscript (i : Info) (base index : Expr)
  | member (i : Info) (base : Expr) (field : String)
  | memberPtr (i : Info) (base : Expr) (field : String)
  | cast (i : Info) (castType : CType) (expr : Expr)
  | sizeofExpr (i : Info) (expr : Expr)
  | sizeofType (i : Info) (sizeofType : CType)
  | comma (i : Info) (left right : Expr)
  | initList (i : Info) (items : List Expr)
  /-- `AST_DESIGNATOR` with `is_field`. -/
  | fieldDesig (i : Info) (field : String) (value : Expr)
  | indexDesig (i : Info) (index value : Expr)
  | compoundLit (i : Info) (litType : CType) (init : Expr)
  deriving Repr

namespace Expr

def info : Expr → Info
  | intLit i _ _ | floatLit i _ _ | charLit i _ | strLit i _ | ident i _ | unop i _ _
  | postop i _ _ | binop i _ _ _ | assign i _ _ _ | ternary i _ _ _ | call i _ _
  | subscript i _ _ | member i _ _ | memberPtr i _ _ | cast i _ _ | sizeofExpr i _
  | sizeofType i _ | comma i _ _ | initList i _ | fieldDesig i _ _ | indexDesig i _ _
  | compoundLit i _ _ => i

def type (e : Expr) : Option CType := e.info.type

/-- `node->type ? node->type : type_int()`. -/
def typeOrInt (e : Expr) : CType := e.type.getD typeInt

def isInitList : Expr → Bool
  | initList _ _ => true
  | _ => false

end Expr

structure VarDecl where
  node : ℕ := 0
  line : ℤ := 0
  col : ℤ := 0
  name : String
  declType : Option CType
  init : Option Expr := none
  storage : StorageClass := .none
  deriving Repr

inductive Decl where
  | var (v : VarDecl)
  | typedef (name : String) (aliased : Option CType)
  /-- `AST_STRUCT_DECL`. -/
  | agg (theType : CType)
  | enum (theType : CType)
  deriving Repr

inductive Stmt where
  | compound (stmts : List Stmt)
  | expr (e : Option Expr)
  | decl (ds : List Decl)
  | ifElse (line col : ℤ) (cond : Expr) (thenStmt : Stmt) (elseStmt : Option Stmt)
  | while (line col : ℤ) (cond : Expr) (body : Stmt)
  | doWhile (line col : ℤ) (cond : Expr) (body : Stmt)
  | for (line col : ℤ) (init : Option Stmt) (cond incr : Option Expr) (body : Stmt)
  | ret (line col : ℤ) (e : Option Expr)
  | break (line col : ℤ)
  | continue (line col : ℤ)
  | goto (line col : ℤ) (label : String)
  | label (line col : ℤ) (label : String) (stmt : Stmt)
  | switch (line col : ℤ) (e : Expr) (body : Stmt)
  | case (node : ℕ) (line col : ℤ) (e : Expr) (stmt : Stmt)
  | default (node : ℕ) (line col : ℤ) (stmt : Stmt)
  deriving Repr

structure ParamDecl where
  node : ℕ := 0
  line : ℤ := 0
  col : ℤ := 0
  name : Option String
  paramType : Option CType
  deriving Repr

structure FuncDef where
  node : ℕ := 0
  line : ℤ := 0
  col : ℤ := 0
  name : String
  funcType : Option CType
  params : List ParamDecl
  body : Stmt
  storage : StorageClass := .none
  deriving Repr

inductive TopDecl where
  | func (f : FuncDef)
  | decl (d : Decl)
  deriving Repr

abbrev TranslationUnit := List TopDecl

end TinyC
