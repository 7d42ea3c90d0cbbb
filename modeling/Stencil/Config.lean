import Stencil.Output.Mode

/-!
Settings that all templates of a registry share, and the faults of documents that settings or
declarations are read from.
-/

namespace Stencil

structure Config where
  contentType : ContentType
  -- Lines that hold a lone control tag leave no text behind.
  trimControlLines : Bool
  -- The extension of template files.
  extension : String
  -- The size that outputs are first given room for.
  outputCapacity : Nat
deriving DecidableEq

def Config.default : Config where
  contentType := .html
  trimControlLines := true
  extension := ".kiln"
  outputCapacity := 1024

-- Faults of a document with settings or with declarations.
inductive ConfigError where
  -- not well formed, or not of the shape that is expected
  | malformed
  -- the text of a type that is none
  | invalidType (record member text : String)
  -- a type that names a record that is nowhere declared
  | undeclaredType (record member name : String)
deriving DecidableEq

def ConfigError.message : ConfigError → String
  | malformed => "malformed document"
  | invalidType record member text => s!"invalid type '{text}' for '{record}.{member}'"
  | undeclaredType record member name =>
    s!"'{record}.{member}' refers to undeclared type '{name}'"

end Stencil
