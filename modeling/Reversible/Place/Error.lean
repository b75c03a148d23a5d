import Reversible.Place.Path
import Reversible.Shape.Environment

/-! # Why a place cannot be reached -/

namespace Reversible

/-- Why a resource path or a memory path leads nowhere. -/
inductive PlaceError where
  | type (error : TypeError)
  | unknown (path : ResourcePath)
  | notALeaf (path : ResourcePath)
  | notAReference (path : MemoryPath)
  | notARecord (path : MemoryPath) (member : Name)
  | unknownMember (path : MemoryPath) (member : Name)
deriving DecidableEq, Repr

def PlaceError.message : PlaceError → String
  | type error => error.message
  | unknown path => "no resource `" ++ path.render ++ "` in this routine"
  | notALeaf path => "resource `" ++ path.render ++ "` is a structure, not a single value"
  | notAReference path => "`" ++ path.render ++ "` is not a reference and cannot be dereferenced"
  | notARecord path member =>
    "`" ++ path.render ++ "` is not a structure, so it has no member `" ++ member ++ "`"
  | unknownMember path member => "`" ++ path.render ++ "` has no member `" ++ member ++ "`"

end Reversible
