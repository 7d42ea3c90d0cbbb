import Stencil.Proofs.Program.Layout
import Stencil.Proofs.Registry.Reachable
import Stencil.Proofs.Text.Utf8

/-!
The two modes of output, side by side. Byte mode does what text mode does, and writes the encoded
form of what text mode writes.
-/

namespace Stencil

variable {ρ ω ω' : Type} {contentType : ContentType}

end Stencil
