import TinyC.IrGenStmt
import TinyC.IrMachine

/-!
# Structured control flow

The meaning of the statements and of the operators `&&`, `||` and `?:` over primitive
expressions and declarations, whose own meaning is left open. A run also lists the primitives
it evaluates, in order.
-/

namespace TinyC

/-- A primitive: an expression for its value, one returned as an aggregate, and the
declarations of a statement. -/
inductive Prim where
  | value (e : Expr)
  | aggregate (e : Expr)
  | decls (ds : List Decl)

def genPrim (Γ : TypeEnv) : Prim → Gen IRValue
  | .value e => genExpr Γ e
  | .aggregate e => genAggregateExprAddr Γ e
  | .decls ds => do
      genDecls Γ ds
      return irvNone

/-- The world and the primitives evaluated so far. -/
structure Observed (W : Type) where
  world : W
  trace : List Prim

/-- What primitives do in an environment, and how declarations change it. -/
structure PrimSem (W V Env : Type) where
  eval : Prim → Env → W → V × W
  declare : List Decl → Env → Env
  isTrue : V → Bool
  ofBool : Bool → V

inductive Outcome (V : Type) where
  | normal
  | brk
  | cnt
  | ret (v : Option V)
  /-- The fuel did not last. -/
  | timeout

namespace PrimSem

variable {W V Env : Type} (D : PrimSem W V Env)

abbrev Run (W α : Type) := StateM (Observed W) α

def evalPrim (p : Prim) (ρ : Env) : Run W V := fun o =>
  let r := D.eval p ρ o.world
  (r.1, ⟨r.2, o.trace ++ [p]⟩)

def evalExpr : Expr → Env → Run W V
  | .binop i op l r, ρ =>
      if op = .and then do
        if D.isTrue (← evalExpr l ρ) then return D.ofBool (D.isTrue (← evalExpr r ρ))
        else return D.ofBool false
      else if op = .or then do
        if D.isTrue (← evalExpr l ρ) then return D.ofBool true
        else return D.ofBool (D.isTrue (← evalExpr r ρ))
      else D.evalPrim (.value (.binop i op l r)) ρ
  | .ternary _ c t e, ρ => do
      if D.isTrue (← evalExpr c ρ) then evalExpr t ρ else evalExpr e ρ
  | e, ρ => D.evalPrim (.value e) ρ

def isComposite : Expr → Bool
  | .binop _ op _ _ => op = .and || op = .or
  | .ternary _ _ _ _ => true
  | _ => false

/-- The value of a returned expression; `agg` tells whether it is returned as an aggregate. -/
def evalReturned (agg : Expr → Bool) (e : Expr) (ρ : Env) : Run W V :=
  if agg e && !isComposite e then D.evalPrim (.aggregate e) ρ else D.evalExpr e ρ

def evalTest (c : Option Expr) (ρ : Env) : Run W Bool :=
  match c with
  | some c => do return D.isTrue (← D.evalExpr c ρ)
  | none => return true

def evalEffect (e : Option Expr) (ρ : Env) : Run W Unit :=
  match e with
  | some e => do
      let _ ← D.evalExpr e ρ
      return
  | none => return

/-- What comes after a statement, `rest` being what follows its normal end. -/
def afterStmt (rest : Run W (Outcome V)) : Outcome V → Run W (Outcome V)
  | .normal => rest
  | out => return out

/-- What a loop does after its body; `rest` is what it goes on with. -/
def afterBody (rest : Run W (Outcome V)) : Outcome V → Run W (Outcome V)
  | .brk => return .normal
  | .ret v => return .ret v
  | .timeout => return .timeout
  | .normal | .cnt => rest

/-- A loop that tests before its body; each round takes one unit of fuel. -/
def execLoop (test : Run W Bool) (body : ℕ → Run W (Outcome V)) (incr : Run W Unit) :
    ℕ → Run W (Outcome V)
  | 0 => return .timeout
  | n + 1 => do
      if ← test then
        let out ← body n
        afterBody (do incr; execLoop test body incr n) out
      else return .normal

/-- A loop that tests after its body. -/
def execDoLoop (test : Run W Bool) (body : ℕ → Run W (Outcome V)) : ℕ → Run W (Outcome V)
  | 0 => return .timeout
  | n + 1 => do
      let out ← body n
      afterBody (do if ← test then execDoLoop test body n else return .normal) out

/-- The environment after a statement. -/
def envAfter (s : Stmt) (ρ : Env) : Env :=
  match s with
  | .decl ds => D.declare ds ρ
  | _ => ρ

def envAfterOpt (s : Option Stmt) (ρ : Env) : Env :=
  match s with
  | some s => D.envAfter s ρ
  | none => ρ

mutual

/-- The run of a statement with a bound on the rounds of its loops; `agg` is as for returned
expressions. -/
def exec (agg : Expr → Bool) : Stmt → Env → ℕ → Run W (Outcome V)
  | .compound ss, ρ, n => execs agg ss ρ n
  | .expr e, ρ, _ => do
      D.evalEffect e ρ
      return .normal
  | .decl ds, ρ, _ => do
      let _ ← D.evalPrim (.decls ds) ρ
      return .normal
  | .ifElse _ _ c t e, ρ, n => do
      if D.isTrue (← D.evalExpr c ρ) then exec agg t ρ n else execOpt agg e ρ n
  | .while _ _ c b, ρ, n =>
      execLoop (D.evalTest (some c) ρ) (exec agg b ρ) (return) n
  | .doWhile _ _ c b, ρ, n => execDoLoop (D.evalTest (some c) ρ) (exec agg b ρ) n
  | .for _ _ init c incr b, ρ, n => do
      let out ← execOpt agg init ρ n
      let ρ' := D.envAfterOpt init ρ
      afterStmt (execLoop (D.evalTest c ρ') (exec agg b ρ') (D.evalEffect incr ρ') n) out
  | .ret _ _ (some e), ρ, _ => do return .ret (some (← D.evalReturned agg e ρ))
  | .ret _ _ none, _, _ => return .ret none
  | .break _ _, _, _ => return .brk
  | .continue _ _, _, _ => return .cnt
  | _, _, _ => return .normal

def execs (agg : Expr → Bool) : List Stmt → Env → ℕ → Run W (Outcome V)
  | [], _, _ => return .normal
  | s :: ss, ρ, n => do
      let out ← exec agg s ρ n
      afterStmt (execs agg ss (D.envAfter s ρ) n) out

def execOpt (agg : Expr → Bool) : Option Stmt → Env → ℕ → Run W (Outcome V)
  | none, _, _ => return .normal
  | some s, ρ, n => exec agg s ρ n

end

/-- The exit an outcome of a whole body is, if it is one. -/
def exitOf : Outcome V → Option (IrExit V)
  | .normal => some .fallThrough
  | .ret v => some (.ret v)
  | _ => none

/-- The body comes to its end with exit `x` in the observed state `o'`. -/
def Halts (agg : Expr → Bool) (s : Stmt) (ρ : Env) (o : Observed W) (x : IrExit V) (o' : Observed W) :
    Prop :=
  ∃ n out, D.exec agg s ρ n o = (out, o') ∧ exitOf out = some x

def Diverges (agg : Expr → Bool) (s : Stmt) (ρ : Env) (o : Observed W) : Prop :=
  ∀ n, (D.exec agg s ρ n o).1 = .timeout

end PrimSem

/-! ### Bodies built from these -/

/-- A returned expression is returned as an aggregate by a function of such a type. -/
def returnsAggregate (ft : Option CType) (e : Expr) : Bool :=
  isAggregateType (some (returnType ft e.typeOrInt))

/-- An expression made of primitives that satisfy `S` by `&&`, `||` and `?:`. -/
inductive ComposedOf (S : Prim → Prop) : Expr → Prop where
  | prim {e : Expr} (hp : PrimSem.isComposite e = false) (h : S (.value e)) : ComposedOf S e
  | logical {i : Info} {op : TokenKind} {l r : Expr} (hop : op = .and ∨ op = .or)
      (hl : ComposedOf S l) (hr : ComposedOf S r) : ComposedOf S (.binop i op l r)
  | ternary {i : Info} {c t e : Expr} (hc : ComposedOf S c) (ht : ComposedOf S t)
      (he : ComposedOf S e) : ComposedOf S (.ternary i c t e)

/-- The same for a returned expression. -/
def ReturnedOf (S : Prim → Prop) (agg : Expr → Bool) (e : Expr) : Prop :=
  if agg e && !PrimSem.isComposite e then S (.aggregate e) else ComposedOf S e

/-- A statement made of such expressions. `inLoop` allows `break` and `continue`, `item` allows
a declaration. -/
inductive Structured (S : Prim → Prop) (agg : Expr → Bool) : (inLoop item : Bool) → Stmt → Prop where
  | compound {l i : Bool} {ss : List Stmt} (h : ∀ s ∈ ss, Structured S agg l true s) :
      Structured S agg l i (.compound ss)
  | expr {l i : Bool} {e : Option Expr} (h : ∀ x ∈ e, ComposedOf S x) :
      Structured S agg l i (.expr e)
  | decl {l : Bool} {ds : List Decl} (h : S (.decls ds)) : Structured S agg l true (.decl ds)
  | ifElse {l i : Bool} {ln cl : ℤ} {c : Expr} {t : Stmt} {e : Option Stmt} (hc : ComposedOf S c)
      (ht : Structured S agg l false t) (he : ∀ s ∈ e, Structured S agg l false s) :
      Structured S agg l i (.ifElse ln cl c t e)
  | while {l i : Bool} {ln cl : ℤ} {c : Expr} {b : Stmt} (hc : ComposedOf S c)
      (hb : Structured S agg true false b) : Structured S agg l i (.while ln cl c b)
  | doWhile {l i : Bool} {ln cl : ℤ} {c : Expr} {b : Stmt} (hc : ComposedOf S c)
      (hb : Structured S agg true false b) : Structured S agg l i (.doWhile ln cl c b)
  | for {l i : Bool} {ln cl : ℤ} {init : Option Stmt} {c incr : Option Expr} {b : Stmt}
      (hi : ∀ s ∈ init, Structured S agg false true s) (hc : ∀ x ∈ c, ComposedOf S x)
      (hn : ∀ x ∈ incr, ComposedOf S x) (hb : Structured S agg true false b) :
      Structured S agg l i (.for ln cl init c incr b)
  | ret {l i : Bool} {ln cl : ℤ} {e : Option Expr} (h : ∀ x ∈ e, ReturnedOf S agg x) :
      Structured S agg l i (.ret ln cl e)
  | break {i : Bool} {ln cl : ℤ} : Structured S agg true i (.break ln cl)
  | continue {i : Bool} {ln cl : ℤ} : Structured S agg true i (.continue ln cl)

end TinyC
