/-
The version of this library.
-/

namespace Planar

/-- The version of this library. -/
def version : String := "2.0.1"

end Planar
