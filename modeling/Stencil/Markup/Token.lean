import Stencil.Source.Span

/-!
The pieces that a template source is cut into.
-/

namespace Stencil.Markup

inductive Tag where
  -- `@if(condition)`
  | condition (test : Slice)
  -- `@elseif(condition)`
  | elseCondition (test : Slice)
  -- `@else`
  | otherwise
  -- `@end`, `@endif` or `@endfor`
  | close
  -- `@for(header)`
  | loop (header : Slice)
  -- `@param declaration`, up to the end of its line
  | param (declaration : Slice)
  -- `@template.target(args)`
  | inclusion (target : String) (args : Slice)
  -- `<%-- ... --%>`
  | comment
deriving DecidableEq

-- Tags that only steer, and so leave no line behind where they stand alone on one.
def Tag.isControl : Tag → Bool
  | param _ | inclusion _ _ => false
  | _ => true

inductive Token where
  | text (slice : Slice)
  | interpolation (raw : Bool) (inner : Slice) (span : Span)
  | tag (tag : Tag) (span : Span)
deriving DecidableEq

end Stencil.Markup
