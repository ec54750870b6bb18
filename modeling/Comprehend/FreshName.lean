/-! Names that do not repeat within one text: a stem and a running number. -/
namespace Comprehend

/-- The names that were given out, the last one first. -/
structure NameSource where
  given : List String := []

namespace NameSource

def fresh (source : NameSource) (stem : String) : String × NameSource :=
  let name := stem ++ toString (source.given.length + 1)
  (name, ⟨name :: source.given⟩)

def freshAll (source : NameSource) : List String → List String
  | [] => []
  | stem :: stems => (source.fresh stem).1 :: (source.fresh stem).2.freshAll stems

end NameSource

end Comprehend
