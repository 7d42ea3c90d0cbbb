import Stencil.Config
import Stencil.Text.Classes
import Stencil.Yaml.Node

/-!
Settings from a YAML document. What it does not mention keeps its default.
-/

namespace Stencil

private def contentType? : String → Option ContentType
  | "html" => some .html
  | "plain" => some .plain
  | _ => none

namespace Config

-- One more than the greatest capacity.
def capacityBound : Nat := UInt64.size

private def set? (c : Config) : String × Yaml.Node → Option Config
  | ("content_type", node) => do return { c with contentType := ← contentType? (← node.text?) }
  | ("trim_control_lines", node) => do return { c with trimControlLines := ← node.bool? }
  | ("extension", node) => do return { c with extension := ← node.text? }
  | ("output_capacity", node) => do
    return { c with outputCapacity := ← node.natural? capacityBound }
  | _ => none

private def ofNode? (node : Yaml.Node) : Option Config := do
  let fields ← node.fields? ["content_type", "trim_control_lines", "extension", "output_capacity"]
  fields.foldlM set? .default

def read (s : String) : Except ConfigError Config :=
  if (Text.trim s).isEmpty then .ok .default
  else ((Yaml.Node.parse? s).bind ofNode?).elim (.error .malformed) .ok

end Config

end Stencil
