import Stencil.Config.Reading
import Stencil.Directory.Files
import Stencil.Model.Sample
import Stencil.Number.Reading
import Stencil.Proofs.Bytewise.Literals
import Stencil.Proofs.Bytewise.Parser
import Stencil.Proofs.Directory.Targets
import Stencil.Proofs.Expr.Bookkeeping
import Stencil.Proofs.Expr.Termination
import Stencil.Proofs.Markup.ControlLines
import Stencil.Proofs.Meaning.Integers
import Stencil.Proofs.Modes
import Stencil.Proofs.Output.Log
import Stencil.Proofs.Program.Positions
import Stencil.Proofs.Program.Safety
import Stencil.Proofs.Registry.Appending
import Stencil.Proofs.Registry.Escaping
import Stencil.Proofs.Registry.Laziness
import Stencil.Proofs.Registry.LinkCache
import Stencil.Proofs.Registry.Recursion
import Stencil.Proofs.Render.Calculation
import Stencil.Proofs.Render.Comparison
import Stencil.Proofs.Soundness.Defaults
import Stencil.Proofs.Soundness.Mismatch
import Stencil.Proofs.Template.FirstFault
import Stencil.Proofs.Template.Nesting
import Stencil.Proofs.Template.Numbering
import Stencil.Proofs.Template.RawBlocks
import Stencil.Proofs.Typing.Extension
import Stencil.Proofs.Typing.Known
import Stencil.Proofs.Typing.ListLiterals
import Stencil.Proofs.Typing.SourceOrder
