import TinyC.Ast
import TinyC.TypeTable

/-!
# What the parser builds

The syntax trees of the parser and of sema. They are those of irgen, but a type is still a
reference into the type table.
-/

namespace TinyC

/-- The members every node has. The type is missing until sema has seen the node. -/
structure RawInfo where
  line : ℤ := 0
  col : ℤ := 0
  type : Option TypeRef := none
  deriving DecidableEq, Repr

inductive RawExpr where
  | intLit (i : RawInfo) (val : BitVec 64) (suffix : ℕ)
  | floatLit (i : RawInfo) (val : BitVec 64) (suffix : BitVec 8)
  | charLit (i : RawInfo) (val : BitVec 64)
  | strLit (i : RawInfo) (str : String)
  | ident (i : RawInfo) (name : String)
  | unop (i : RawInfo) (op : TokenKind) (operand : RawExpr)
  /-- `AST_POSTFIX`. -/
  | postop (i : RawInfo) (op : TokenKind) (operand : RawExpr)
  | binop (i : RawInfo) (op : TokenKind) (left right : RawExpr)
  | assign (i : RawInfo) (op : TokenKind) (left right : RawExpr)
  | ternary (i : RawInfo) (cond thenExpr elseExpr : RawExpr)
  | call (i : RawInfo) (func : RawExpr) (args : List RawExpr)
  | subscript (i : RawInfo) (base index : RawExpr)
  | member (i : RawInfo) (base : RawExpr) (field : String)
  | memberPtr (i : RawInfo) (base : RawExpr) (field : String)
  | cast (i : RawInfo) (castType : Option TypeRef) (expr : RawExpr)
  | sizeofExpr (i : RawInfo) (expr : RawExpr)
  | sizeofType (i : RawInfo) (sizeofType : Option TypeRef)
  | comma (i : RawInfo) (left right : RawExpr)
  | initList (i : RawInfo) (items : List RawExpr)
  /-- `AST_DESIGNATOR` with `is_field`. -/
  | fieldDesig (i : RawInfo) (field : String) (value : RawExpr)
  | indexDesig (i : RawInfo) (index value : RawExpr)
  | compoundLit (i : RawInfo) (litType : Option TypeRef) (init : RawExpr)
  deriving Repr

namespace RawExpr

def info : RawExpr → RawInfo
  | intLit i _ _ | floatLit i _ _ | charLit i _ | strLit i _ | ident i _ | unop i _ _
  | postop i _ _ | binop i _ _ _ | assign i _ _ _ | ternary i _ _ _ | call i _ _
  | subscript i _ _ | member i _ _ | memberPtr i _ _ | cast i _ _ | sizeofExpr i _
  | sizeofType i _ | comma i _ _ | initList i _ | fieldDesig i _ _ | indexDesig i _ _
  | compoundLit i _ _ => i

def type (e : RawExpr) : Option TypeRef := e.info.type

end RawExpr

structure RawVar where
  node : ℕ := 0
  line : ℤ := 0
  col : ℤ := 0
  name : String
  declType : Option TypeRef
  init : Option RawExpr := none
  storage : StorageClass := .none
  deriving Repr

inductive RawDecl where
  | var (v : RawVar)
  | typedef (name : String) (aliased : Option TypeRef)
  /-- `AST_STRUCT_DECL`. -/
  | agg (theType : TypeRef)
  | enum (theType : TypeRef)
  deriving Repr

inductive RawStmt where
  | compound (stmts : List RawStmt)
  | expr (e : RawExpr)
  | decl (ds : List RawDecl)
  | ifElse (line col : ℤ) (cond : RawExpr) (thenStmt : RawStmt) (elseStmt : Option RawStmt)
  | while (line col : ℤ) (cond : RawExpr) (body : RawStmt)
  | doWhile (line col : ℤ) (cond : RawExpr) (body : RawStmt)
  | for (line col : ℤ) (init : Option RawStmt) (cond incr : Option RawExpr) (body : RawStmt)
  | ret (line col : ℤ) (e : Option RawExpr)
  | break (line col : ℤ)
  | continue (line col : ℤ)
  | goto (line col : ℤ) (label : String)
  | label (line col : ℤ) (label : String) (stmt : RawStmt)
  | switch (line col : ℤ) (e : RawExpr) (body : RawStmt)
  | case (node : ℕ) (line col : ℤ) (e : RawExpr) (stmt : RawStmt)
  | default (node : ℕ) (line col : ℤ) (stmt : RawStmt)
  deriving Repr

structure RawParam where
  node : ℕ := 0
  line : ℤ := 0
  col : ℤ := 0
  name : Option String
  paramType : Option TypeRef
  deriving Repr

structure RawFunc where
  node : ℕ := 0
  line : ℤ := 0
  col : ℤ := 0
  name : String
  funcType : Option TypeRef
  params : List RawParam
  body : RawStmt
  storage : StorageClass := .none
  deriving Repr

inductive RawTop where
  | func (f : RawFunc)
  | decl (d : RawDecl)
  deriving Repr

abbrev RawUnit := List RawTop

end TinyC
