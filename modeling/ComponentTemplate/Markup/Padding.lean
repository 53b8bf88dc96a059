import ComponentTemplate.Text.Blank

/-!
# Padding of texts

Of the blanks around a text only their class is kept: none, a space, a line break or a blank
line. Everything else about the blanks between nodes is decided anew.
-/

namespace ComponentTemplate

/-- **The class of the blanks on one side of a text.** -/
inductive Padding where
  | none
  | space
  | newline
  | blankLine
  deriving DecidableEq, Repr

def Padding.text : Padding → String
  | none => ""
  | space => " "
  | newline => "\n"
  | blankLine => "\n\n"

/-- **A node among its siblings**: a text, or anything else. -/
inductive Sibling (α : Type) where
  | text (data : List Char)
  | node (value : α)
  deriving DecidableEq, Repr

/-- **A sibling whose blanks are classified**: the core of a text with the padding on its two
sides, or anything else. -/
inductive Padded (α : Type) where
  | text (leading : Padding) (data : List Char) (trailing : Padding)
  | node (value : α)
  deriving DecidableEq, Repr

def lineFeeds (cs : List Char) : Nat :=
  cs.count '\n'

/-- The padding that blanks stand for. A blank line counts as one only if it is `wide`, and
blanks without a line feed only if they are `inner`. -/
def Padding.of (wide inner : Bool) (blanks : List Char) : Padding :=
  if 2 ≤ lineFeeds blanks && wide then .blankLine
  else if 1 ≤ lineFeeds blanks then .newline
  else if !blanks.isEmpty && inner then .space
  else .none

/-- **The core of a text and its padding.** Blanks at the ends of a sequence of siblings
become at most a line break; a text of blanks only has no trailing padding. -/
def padText (first last : Bool) (raw : List Char) : List Char × Padding × Padding :=
  let data := Text.trim raw
  let leading := Padding.of (!(data.isEmpty && last)) (!first) (Text.blankStart raw)
  let trailing :=
    if data.isEmpty then .none else Padding.of (!last) (!last) (Text.blankEnd raw)
  (data, leading, trailing)

namespace Sibling

variable {α : Type}

def isBlank : Sibling α → Bool
  | text data => Text.isBlankText data
  | node _ => false

/-- A sibling with its blanks classified, by its place among the others. With `trim` the
blanks at the ends of the sequence are dropped. -/
def pad (trim first last : Bool) : Sibling α → Padded α
  | node value => .node value
  | text raw =>
    let raw := if trim && first then Text.trimStart raw else raw
    let raw := if trim && last then Text.trimEnd raw else raw
    let (data, leading, trailing) := padText first last raw
    .text leading data trailing

/-- Siblings with their blanks classified, where the list goes on to the end of the
sequence. -/
def padFrom (trim first : Bool) : List (Sibling α) → List (Padded α)
  | [] => []
  | sibling :: rest => sibling.pad trim first rest.isEmpty :: padFrom trim false rest

def dropBlankEnds (siblings : List (Sibling α)) : List (Sibling α) :=
  ((siblings.dropWhile isBlank).reverse.dropWhile isBlank).reverse

/-- **A sequence of siblings with their blanks classified.** A sequence of blank texts
becomes empty. With `trim`, as for a whole document, the blanks at both ends are dropped. -/
def reconcile (trim : Bool) (siblings : List (Sibling α)) : List (Padded α) :=
  if siblings.all isBlank then []
  else padFrom trim true (if trim then dropBlankEnds siblings else siblings)

end Sibling

end ComponentTemplate
