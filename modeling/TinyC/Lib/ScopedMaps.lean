import Mathlib.Logic.Function.Basic
import Mathlib.Data.List.Basic

/-!
# Nested scopes as a stack of maps

What a chain of scopes is for: each open scope is a map, and a name means what the innermost map
that has it says.
-/

namespace ScopedMaps

variable {κ α : Type}

/-- The maps of the open scopes, the innermost first. -/
abbrev Stack (κ α : Type) := List (κ → Option α)

inductive Op (κ α : Type) where
  | push
  /-- Back to the scope that was current before the last push but `k`. -/
  | restore (k : ℕ)
  | define (key : κ) (a : α)
  | lookup (key : κ)

/-- The name that an operation is about. -/
def Op.key? : Op κ α → Option κ
  | .define key _ | .lookup key => some key
  | _ => none

def push (m : Stack κ α) : Stack κ α := (fun _ => none) :: m

/-- There is nothing to restore in the outermost scope. -/
def restore (k : ℕ) (m : Stack κ α) : Stack κ α := if k + 1 < m.length then m.drop (k + 1) else m

def define [DecidableEq κ] (key : κ) (a : α) : Stack κ α → Stack κ α
  | [] => []
  | f :: m => Function.update f key (some a) :: m

def lookup (m : Stack κ α) (key : κ) : Option α := m.findSome? fun f => f key

/-- An operation, and what a lookup finds. -/
def step [DecidableEq κ] (m : Stack κ α) : Op κ α → Stack κ α × Option (Option α)
  | .push => (push m, none)
  | .restore k => (restore k m, none)
  | .define key a => (define key a m, none)
  | .lookup key => (m, some (lookup m key))

/-- What the lookups of a sequence of operations find. -/
def run [DecidableEq κ] (m : Stack κ α) : List (Op κ α) → List (Option α)
  | [] => []
  | op :: ops => (step m op).2.toList ++ run (step m op).1 ops

end ScopedMaps
