import Stencil.Output.Mode
import Stencil.Render.Error
import Stencil.Text.Markup

/-!
Sinks: where output is collected. A text sink holds text, a byte sink holds its UTF-8 form.
-/

namespace Stencil

-- What is appended to a sink: fixed text, or the text form of a value, to be escaped or not.
inductive Piece where
  | literal (t : StaticText)
  | escaped (s : String)
  | raw (s : String)
deriving DecidableEq

-- The text form of a value as it appears under a content type.
def ContentType.treat : ContentType → String → String
  | html, s => Text.escapeMarkup s
  | plain, s => s

-- The same in the pieces in which it is pushed.
def ContentType.pieces : ContentType → String → List String
  | html, s => Text.escapePieces s
  | plain, s => [s]

def Piece.text (contentType : ContentType) : Piece → String
  | literal (.text s) => s
  | literal (.encoded bytes) => Text.decodeLossy bytes
  | escaped s => contentType.treat s
  | raw s => s

def Piece.bytes (contentType : ContentType) : Piece → List UInt8
  | literal (.text s) => Text.encode s
  | literal (.encoded bytes) => bytes
  | escaped s => (contentType.pieces s).flatMap Text.encode
  | raw s => Text.encode s

structure TextSink where
  contentType : ContentType
  content : String
deriving DecidableEq

structure ByteSink where
  contentType : ContentType
  content : List UInt8
deriving DecidableEq

inductive Sink where
  | text (sink : TextSink)
  | bytes (sink : ByteSink)
deriving DecidableEq

-- What is done with a sink: fixed text is appended, or the text form of a value, to be escaped or
-- not, or the content is written out.
inductive Sink.Step (ρ : Type) where
  | literal (t : StaticText)
  | escaped (v : Value ρ)
  | raw (v : Value ρ)
  | flush

-- Does a step with a sink, given how it is appended to and how it is written out. Gives the bytes
-- that are written. Whether a value has a text form is found out before anything is appended.
def Sink.Step.perform {ρ σ : Type} (append : σ → Piece → σ) (writeOut : σ → List UInt8 × σ) :
    Sink.Step ρ → ExceptT RenderError (StateM σ) (List UInt8)
  | literal t => do
    modify (append · (.literal t))
    return []
  | escaped v => do
    let text ← ExceptT.mk (pure v.shown)
    modify (append · (.escaped text))
    return []
  | raw v => do
    let text ← ExceptT.mk (pure v.shown)
    modify (append · (.raw text))
    return []
  | flush => modifyGet writeOut

namespace TextSink

def append (s : TextSink) (p : Piece) : TextSink :=
  { s with content := s.content ++ p.text s.contentType }

-- A text sink keeps its text.
def flush (s : TextSink) : List UInt8 × TextSink := (Text.encode s.content, s)

def perform {ρ : Type} (step : Sink.Step ρ) : ExceptT RenderError (StateM TextSink) (List UInt8) :=
  step.perform append flush

end TextSink

namespace ByteSink

def append (s : ByteSink) (p : Piece) : ByteSink :=
  { s with content := s.content ++ p.bytes s.contentType }

-- A byte sink is emptied, so that nothing is written twice.
def flush (s : ByteSink) : List UInt8 × ByteSink := (s.content, { s with content := [] })

def perform {ρ : Type} (step : Sink.Step ρ) : ExceptT RenderError (StateM ByteSink) (List UInt8) :=
  step.perform append flush

end ByteSink

namespace Sink

def empty (mode : Mode) (contentType : ContentType) : Sink :=
  match mode with
  | .text => text ⟨contentType, ""⟩
  | .bytes => bytes ⟨contentType, []⟩

def mode : Sink → Mode
  | text _ => .text
  | bytes _ => .bytes

def append : Sink → Piece → Sink
  | text s, p => text (s.append p)
  | bytes s, p => bytes (s.append p)

-- Appends pieces in order.
def appendAll : Sink → List Piece → Sink
  | text s, pieces =>
    text { s with content := s.content ++ String.join (pieces.map (·.text s.contentType)) }
  | bytes s, pieces =>
    bytes { s with content := s.content ++ pieces.flatMap (·.bytes s.contentType) }

variable {ρ : Type}

-- A step with the sink that this one is.
def perform (step : Step ρ) : ExceptT RenderError (StateM Sink) (List UInt8) := ExceptT.mk fun
  | text s =>
    let (written, s) := (TextSink.perform step).run s
    (written, text s)
  | bytes s =>
    let (written, s) := (ByteSink.perform step).run s
    (written, bytes s)

-- The sink after a step, if it can be done.
def after (s : Sink) (step : Step ρ) : Except RenderError Sink :=
  let (written, s) := (perform step).run s
  written.map fun _ => s

def appendLiteral (s : Sink) (t : StaticText) : Sink := s.append (.literal t)

def appendEscaped (s : Sink) (v : Value ρ) : Except RenderError Sink := s.after (.escaped v)

def appendRaw (s : Sink) (v : Value ρ) : Except RenderError Sink := s.after (.raw v)

def flush : Sink → List UInt8 × Sink
  | text s =>
    let (written, s) := s.flush
    (written, text s)
  | bytes s =>
    let (written, s) := s.flush
    (written, bytes s)

def toBytes : Sink → List UInt8
  | text s => Text.encode s.content
  | bytes s => s.content

def toText : Sink → String
  | text s => s.content
  | bytes s => Text.decodeLossy s.content

end Sink

end Stencil
