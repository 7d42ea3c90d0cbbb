import Stencil.Text.Utf8

/-!
What a program writes to, how it treats the values it writes, and the form of its fixed text.
-/

namespace Stencil

inductive Mode where
  | text
  | bytes
deriving DecidableEq, Inhabited

def Mode.name : Mode → String
  | text => "text"
  | bytes => "bytes"

inductive ContentType where
  -- The five characters of markup are escaped.
  | html
  -- Nothing is escaped.
  | plain
deriving DecidableEq, Inhabited

-- The fixed text of a compiled template, in the form in which its mode writes it.
inductive StaticText where
  | text (s : String)
  | encoded (bytes : List UInt8)
deriving DecidableEq

namespace StaticText

-- In byte mode, text is encoded when a template is compiled and not when it is rendered.
def ofString : Mode → String → StaticText
  | .text, s => text s
  | .bytes, s => encoded (Text.encode s)

def byteLength : StaticText → Nat
  | text s => s.utf8ByteSize
  | encoded bytes => bytes.length

def isEncoded : StaticText → Bool
  | text _ => false
  | encoded _ => true

end StaticText

end Stencil
