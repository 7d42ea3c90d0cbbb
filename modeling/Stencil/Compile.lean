import Stencil.Program.Generate
import Stencil.Render.Error
import Stencil.Source.Error
import Stencil.Source.Loading
import Stencil.Template.Parser
import Stencil.Typing.Error
import Stencil.Typing.Template

/-!
From source to program, without a registry, and the failures on the way from the name of a template
to its output.
-/

namespace Stencil

inductive Failure where
  | load (e : LoadError)
  | parse (template : String) (e : SyntaxError)
  | types (template : String) (errors : List TypeError)
  | render (e : RenderError)
deriving DecidableEq

def Failure.message : Failure → String
  | load e => e.message
  | parse template e => s!"syntax error in template '{template}': {e.message}"
  | types template errors =>
    s!"type errors in template '{template}':\n" ++ TypeError.messages errors
  | render e => e.message

-- A template with its name and the text it was read from.
structure NamedTemplate where
  name : String
  source : String
  template : Template

namespace NamedTemplate

def parse (name source : String) (trimLines : Bool) : Except Failure NamedTemplate :=
  match Template.parse source trimLines with
  | .ok template => .ok ⟨name, source, template⟩
  | .error e => .error (.parse name e)

def check (t : NamedTemplate) (context : CheckContext) : Except Failure CheckedTemplate :=
  (t.template.bind context t.source).mapError (.types t.name)

-- Inclusions are checked, but the program alone cannot execute them.
def compile (t : NamedTemplate) (context : CheckContext) (mode : Mode) : Except Failure Program :=
  (t.check context).map (·.program t.name mode)

def schema (t : NamedTemplate) (oracle : Oracle) : Except Failure Schema :=
  (t.template.schema oracle t.source).mapError (.types t.name)

end NamedTemplate

-- No record types, and nothing to include.
def CheckContext.bare : CheckContext := ⟨Declarations.empty.oracle, fun _ => none⟩

-- Compiles a template that stands alone and has no name.
def compileInline (source : String) (mode : Mode) : Except Failure Program := do
  (← NamedTemplate.parse "<inline>" source true).compile .bare mode

end Stencil
