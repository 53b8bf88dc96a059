import ComponentTemplate.Diagnostic
import ComponentTemplate.Source.Cursor
import ComponentTemplate.Stylesheet.Basic
import ComponentTemplate.Text.Split

/-!
# Reading stylesheets

A node that is no comment starts with a prelude: the text up to a brace or a semicolon that
stands outside strings and parentheses. What stopped the prelude tells rules, at-rules and
declarations apart.
-/

namespace ComponentTemplate

/-- **What ends a prelude.** -/
inductive PreludeStop where
  | block
  | semicolon
  | close
  | finish
  deriving DecidableEq, Repr

def PreludeStop.passed : PreludeStop → Nat
  | .block | .semicolon => 1
  | .close | .finish => 0

/-- **The end of a prelude**: its length and what ends it; `none` when the text ends inside a
string. `quote` is the quote of the string that is open, `parens` the number of open
parentheses. -/
def preludeEnd : (quote : Option Char) → (parens : Nat) → List Char → Option (Nat × PreludeStop)
  | none, _, [] => some (0, .finish)
  | some _, _, [] => none
  | some quote, parens, '\\' :: _ :: cs =>
    (preludeEnd (some quote) parens cs).map fun (n, stop) => (n + 2, stop)
  | some quote, parens, c :: cs =>
    (preludeEnd (if c = quote then none else some quote) parens cs).map
      fun (n, stop) => (n + 1, stop)
  | none, parens, c :: cs =>
    if parens = 0 ∧ c = '{' then some (0, .block)
    else if parens = 0 ∧ c = ';' then some (0, .semicolon)
    else if parens = 0 ∧ c = '}' then some (0, .close)
    else
      let quote := if c = '"' ∨ c = '\'' then some c else none
      let parens := if c = '(' then parens + 1 else if c = ')' then parens - 1 else parens
      (preludeEnd quote parens cs).map fun (n, stop) => (n + 1, stop)

theorem preludeEnd_pos {c : Char} {cs : List Char} {n : Nat} {stop : PreludeStop}
    (hc : c ≠ '}') (h : preludeEnd none 0 (c :: cs) = some (n, stop)) :
    0 < n + stop.passed := by
  simp only [preludeEnd, true_and, hc, if_false] at h
  split at h
  · cases h; decide
  · split at h
    · cases h; decide
    · simp only [Option.map_eq_some_iff] at h
      obtain ⟨_, _, h⟩ := h
      simp only [Prod.mk.injEq] at h
      omega

/-- **The parts of a text** between the separators that stand outside strings, parentheses
and brackets. -/
def splitTopLevel (separator : Char) :
    (quote : Option Char) → (depth : Nat) → List Char → List (List Char)
  | _, _, [] => [[]]
  | some quote, depth, c :: cs =>
    Text.consFirst c (splitTopLevel separator (if c = quote then none else some quote) depth cs)
  | none, depth, c :: cs =>
    if c = '"' ∨ c = '\'' then Text.consFirst c (splitTopLevel separator (some c) depth cs)
    else if c = '(' ∨ c = '[' then Text.consFirst c (splitTopLevel separator none (depth + 1) cs)
    else if c = ')' ∨ c = ']' then Text.consFirst c (splitTopLevel separator none (depth - 1) cs)
    else if c = separator ∧ depth = 0 then [] :: splitTopLevel separator none depth cs
    else Text.consFirst c (splitTopLevel separator none depth cs)

/-- The selectors of a prelude: its parts between commas, with single spaces, without the
empty ones. -/
def selectorsOf (prelude : List Char) : List String :=
  let parts := (splitTopLevel ',' none 0 prelude).map Text.collapse
  (parts.filter (!·.isEmpty)).map String.ofList

/-- A value without the mark that makes it important, and whether it had that mark. The mark
is looked for after the last exclamation point. -/
def splitImportant (value : List Char) : List Char × Bool :=
  match Text.cutAt? '!' value.reverse with
  | none => (value, false)
  | some (after, before) =>
    if (Text.trim after.reverse).map Char.toLower = "important".toList then
      (Text.trimEnd before.reverse, true)
    else (value, false)

def StyleNode.ofDeclaration? (prelude : List Char) : Option StyleNode := do
  let (property, value) ← Text.cutAt? ':' prelude
  let (value, important) := splitImportant (Text.trim value)
  return .declaration (String.ofList (Text.trim property)) (String.ofList value) important

def isAtNameChar (c : Char) : Bool :=
  c.isAlphanum || c == '-' || c == '_'

namespace StyleGrammar

/-- The prelude at a cursor, without blanks at its ends, and what ended it. A brace that
opens a block and a semicolon are passed, a closing brace is not. -/
def prelude (cur : Cursor) :
    Except Failure (Scanned (cur.remaining + 1) (List Char × PreludeStop)) :=
  match preludeEnd none 0 cur.rest with
  | none => .error ⟨.unterminatedStyleString, cur.toEnd⟩
  | some (n, stop) =>
    .ok ⟨(Text.trim (cur.rest.take n), stop), cur.skip (n + stop.passed), by
      rw [Cursor.remaining_skip]; omega⟩

/-- A prelude takes a character, unless a closing brace stands at the cursor. -/
theorem prelude_lt {cur : Cursor} {c : Char} {cs : List Char}
    {p : Scanned (cur.remaining + 1) (List Char × PreludeStop)} (hrest : cur.rest = c :: cs)
    (hc : c ≠ '}') (h : prelude cur = .ok p) : p.next.remaining < cur.remaining := by
  unfold prelude at h
  split at h
  · cases h
  · rename_i n stop hend
    rw [hrest] at hend
    have hpos := preludeEnd_pos hc hend
    cases h
    have hsize := Cursor.remaining_pos hrest
    show (cur.skip (n + stop.passed)).remaining < cur.remaining
    rw [Cursor.remaining_skip]
    omega

def blockComment (cur : Cursor) (hpos : 0 < cur.remaining) :
    Except Failure (Scanned cur.remaining StyleNode) :=
  match (cur.skip 2).until? "*/" with
  | none => .error ⟨.unterminatedComment, cur.toEnd⟩
  | some text =>
    .ok ⟨.comment (String.ofList (Text.trim text)) false, cur.skip (text.length + 4), by
      rw [Cursor.remaining_skip]; omega⟩

def lineComment (cur : Cursor) (hpos : 0 < cur.remaining) : Scanned cur.remaining StyleNode :=
  let text := (cur.skip 2).run (· ≠ '\n')
  ⟨.comment (String.ofList (Text.trim text)) true, cur.skip (text.length + 2), by
    rw [Cursor.remaining_skip]; omega⟩

mutual

/-- **The nodes at a cursor**, up to the end of the text or, if `nested`, up to and with the
brace that closes a block. -/
def nodes (nested : Bool) (cur : Cursor) :
    Except Failure (Scanned (cur.remaining + 1) (List StyleNode)) := do
  let ⟨found, next, h⟩ ← nodesHere nested cur.skipBlanks
  return ⟨found, next, by have := cur.remaining_skipBlanks_le; omega⟩
termination_by cur.remaining * 4 + 3
decreasing_by have := cur.remaining_skipBlanks_le; omega

def nodesHere (nested : Bool) (cur : Cursor) :
    Except Failure (Scanned (cur.remaining + 1) (List StyleNode)) :=
  match hrest : cur.rest with
  | [] =>
    if nested then .error ⟨.unclosedStyleBlock, cur.here⟩ else .ok ⟨[], cur, by omega⟩
  | c :: cs =>
    if hc : c = '}' then
      if nested then .ok ⟨[], cur.skip 1, by rw [Cursor.remaining_skip]; omega⟩
      else .error ⟨.unexpectedStyleBrace, cur.here⟩
    else if c = ';' then do
      have hpos := Cursor.remaining_pos hrest
      let ⟨rest, next, h⟩ ← nodes nested (cur.skip 1)
      return ⟨rest, next, by rw [Cursor.remaining_skip] at h; omega⟩
    else do
      -- the brace that closes the block stays in place until all nodes before it are read
      let ⟨first, after, h₁⟩ ← node cur c cs hrest hc
      let ⟨rest, next, h₂⟩ ← nodes nested after
      return ⟨first :: rest, next, by omega⟩
termination_by cur.remaining * 4 + 2
decreasing_by
  · rw [Cursor.remaining_skip]; omega
  · omega
  · omega

/-- **The node at a cursor**, where no blank, semicolon or closing brace stands. -/
def node (cur : Cursor) (c : Char) (cs : List Char) (hrest : cur.rest = c :: cs)
    (hc : c ≠ '}') : Except Failure (Scanned cur.remaining StyleNode) :=
  have hpos := Cursor.remaining_pos hrest
  if cur.startsWith "/*" then blockComment cur hpos
  else if cur.startsWith "//" then .ok (lineComment cur hpos)
  else if cur.startsWith "@" then do
    let name := (cur.skip 1).run isAtNameChar
    let ⟨(params, stop), after, h₁⟩ ← prelude (cur.skip (1 + name.length))
    have h₁ : after.remaining < cur.remaining := by
      rw [Cursor.remaining_skip] at h₁; omega
    let params := String.ofList (Text.collapse params)
    if stop = .block then
      let ⟨children, next, h₂⟩ ← nodes true after
      return ⟨.atRule (String.ofList name) params (some children), next, by omega⟩
    else return ⟨.atRule (String.ofList name) params none, after, h₁⟩
  else
    match h : prelude cur with
    | .error failure => .error failure
    | .ok found => do
      have hlt := prelude_lt hrest hc h
      let (text, stop) := found.value
      if stop = .block then
        let ⟨children, next, h₂⟩ ← nodes true found.next
        return ⟨.rule (selectorsOf text) children, next, by omega⟩
      else
        match StyleNode.ofDeclaration? text with
        | some declaration => return ⟨declaration, found.next, hlt⟩
        | none => throw ⟨.declarationColonExpected, cur.spanTo found.next⟩
termination_by cur.remaining * 4

end

end StyleGrammar

def StyleNode.ofCursor (cur : Cursor) : Except Failure (List StyleNode) :=
  (·.value) <$> StyleGrammar.nodes false cur

/-- **The nodes that a region of a text holds.** Places are places in the whole text. -/
def StyleNode.parse (source : String) (span : Span) : Except Diagnostic (List StyleNode) :=
  (StyleNode.ofCursor (.within source.toList span)).mapError (·.toDiagnostic source.toList)

end ComponentTemplate
