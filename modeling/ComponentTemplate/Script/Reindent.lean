import ComponentTemplate.Text.Blank
import ComponentTemplate.Text.Lines

/-!
# Re-indenting foreign scripts

The code of a script element in another language is kept as written. Only its indentation
is normalised, so that it can be indented anew with the element.
-/

namespace ComponentTemplate

def commonStart : List Char → List Char → List Char
  | a :: as, b :: bs => if a = b then a :: commonStart as bs else []
  | _, _ => []

/-- The longest common start of all texts of a list; nothing for an empty list. -/
def commonStartAll : List (List Char) → List Char
  | [] => []
  | text :: texts => texts.foldl commonStart text

/-- A text without a given start, or the text itself if it does not start so. -/
def dropStart (start text : List Char) : List Char :=
  if start.isPrefixOf text then text.drop start.length else text

def dropEmptyEnds (lines : List (List Char)) : List (List Char) :=
  ((lines.dropWhile List.isEmpty).reverse.dropWhile List.isEmpty).reverse

/-- **Code without base indentation**: lines lose the blanks at their ends and the common
indentation of all lines that are not blank, and blank lines at both ends are dropped. -/
def reindent (code : List Char) : List Char :=
  let lines := (Text.lines code).map Text.trimEnd
  let filled := lines.filter (!·.isEmpty)
  let common := commonStartAll (filled.map Text.blankStart)
  Text.unlines ((dropEmptyEnds lines).map (dropStart common))

end ComponentTemplate
