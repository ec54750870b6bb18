import Comprehend.Comprehension.Json
import Comprehend.Options.Basic

/-! Options as JSON. -/
namespace Comprehend

open Json

namespace TypeInfo

def toJson (t : TypeInfo) : Json :=
  .obj [("__type__", .str "TypeInfo"), ("element_type", .str t.element), ("key_type", .str t.key),
    ("value_type", .str t.value)]

def ofJson? (v : Json) : Option TypeInfo := do
  let ms ← v.asObject?
  return {
    element := ← withDefault "int" asString? "element_type" ms
    key := ← withDefault "int" asString? "key_type" ms
    value := ← withDefault "int" asString? "value_type" ms }

end TypeInfo

namespace OptionValue

def toJson : OptionValue → Json
  | .bool b => .bool b
  | .str s => .str s
  | .types t => t.toJson

def ofJson? : Json → Option OptionValue
  | .bool b => some (.bool b)
  | .str s => some (.str s)
  | v => if v.isSolid then (TypeInfo.ofJson? v).map .types else none

end OptionValue

namespace Options

def toJson (o : Options) : Json :=
  .obj (o.entries.map fun e => (e.1, e.2.toJson))

def ofJson? (v : Json) : Option Options := do
  let entries ← (← v.asObject?).mapM fun m => (OptionValue.ofJson? m.2).map (m.1, ·)
  return .ofList entries

end Options

end Comprehend
