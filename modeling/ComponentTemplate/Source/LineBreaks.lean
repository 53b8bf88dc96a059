import ComponentTemplate.Source.Position

/-!
# Line breaks of a source text

The layout of the output follows the source in one respect: whether the author broke the
line between two places. All such questions are answered from the byte offsets of the line
feeds.
-/

namespace ComponentTemplate

def lineFeedsFrom : Nat → List Char → List Nat
  | _, [] => []
  | offset, c :: cs =>
    let rest := lineFeedsFrom (offset + c.utf8Size) cs
    if c = '\n' then offset :: rest else rest

/-- **The line breaks of a source text**: its size in bytes and the offsets of its line
feeds. -/
structure LineBreaks where
  size : Nat
  offsets : List Nat
  deriving Repr

/-- The line breaks of a source. -/
def LineBreaks.ofSource (source : List Char) : LineBreaks :=
  ⟨byteLength source, lineFeedsFrom 0 source⟩

/-- Whether at least `count` line feeds stand from the offset `start` up to the offset
`stop`. The answer is negative for offsets that bound no region of the text. -/
def LineBreaks.atLeast (breaks : LineBreaks) (count start stop : Nat) : Bool :=
  start ≤ stop && stop ≤ breaks.size &&
    count ≤ breaks.offsets.countP fun offset => start ≤ offset && offset < stop

end ComponentTemplate
