import ComponentTemplate.Expr.Parser
import ComponentTemplate.Markup.Basic
import ComponentTemplate.Text.Split

/-!
# Reading attributes
-/

namespace ComponentTemplate

def endsAttributeName (c : Char) : Bool :=
  Text.isBlank c || c == '=' || c == '>' || c == '/' || c == '"' || c == '\''

/-- The characters of an unquoted value at the start of a text: up to a blank or the end of
the tag. -/
def unquotedValue : List Char → List Char
  | [] => []
  | c :: cs =>
    if Text.isBlank c || c == '>' || (c == '/' && cs.head? == some '>') then []
    else c :: unquotedValue cs

/-- The characters of a quoted value at the start of a text: up to the closing quote or a
tag. -/
def quotedText (quote : Char) : List Char → List Char
  | [] => []
  | c :: cs =>
    if c == quote || (c == '{' && cs.head? == some '{') then []
    else c :: quotedText quote cs

/-- **The directive that a name and a value write**, if the name is that of a directive: a
word, a colon, a name, and modifiers after bars. -/
def directiveOf? (span nameSpan : Span) (name : List Char)
    (value : Option (List AttributePart)) : Except Failure (Option Attribute) :=
  match Text.cutAt? ':' name with
  | none => .ok none
  | some (word, rest) =>
    match DirectiveKind.ofWord? (String.ofList word) with
    | none => .ok none
    | some kind =>
      let segments := (Text.splitAtChar '|' rest).map String.ofList
      let name := segments.headD ""
      let modifiers := segments.drop 1
      match value with
      | none =>
        let expr := if kind.impliesName then some (Expr.identifier nameSpan name) else none
        .ok (some (.directive span kind name modifiers expr))
      | some [.tag _ expr] => .ok (some (.directive span kind name modifiers (some expr)))
      | some _ => .error ⟨.directiveValueExpected, nameSpan⟩

namespace MarkupGrammar

/-- A stream that starts after the two characters that open a tag. -/
theorem lt_of_start_tag {cur : Cursor} {st : Stream}
    (h : st.remaining < (cur.skip 2).remaining + 1) : st.remaining < cur.remaining + 1 := by
  rw [Cursor.remaining_skip] at h
  omega

/-- **The expression of an inline tag** at a cursor that stands at its opening braces. -/
def inlineTag (cur : Cursor) : Except Failure (Scanned cur.remaining Expr) := do
  let ⟨_, st, h⟩ ← Stream.start (cur.skip 2)
  let ⟨e, st₁, h₁⟩ ← Grammar.expression st
  let ⟨_, next, h₂⟩ ← st₁.closeInline
  return ⟨e, next, by rw [Cursor.remaining_skip] at h; omega⟩

def quotedParts (opening : Cursor) (quote : Char) (cur : Cursor) :
    Except Failure (Scanned cur.remaining (List AttributePart)) :=
  match hrest : cur.rest with
  | [] => .error ⟨.unterminatedAttributeValue, opening.spanTo cur⟩
  | c :: cs => do
    have hpos := Cursor.remaining_pos hrest
    if cur.startsWith "\x7b\x7b" then
      let ⟨e, after, h₁⟩ ← inlineTag cur
      let ⟨parts, next, h₂⟩ ← quotedParts opening quote after
      return ⟨.tag (cur.spanTo after) e :: parts, next, Shrinks.twice h₁ h₂⟩
    else if c = quote then
      return ⟨[], cur.skip 1, Cursor.remaining_skip_one_lt hpos⟩
    else
      let text := c :: quotedText quote cs
      let ⟨parts, next, h₁⟩ ← quotedParts opening quote (cur.skip text.length)
      return ⟨.text (String.ofList text) :: parts, next, Cursor.lt_of_lt_skip_length h₁⟩
termination_by cur.remaining
decreasing_by
  · omega
  · rw [Cursor.remaining_skip, List.length_cons]; omega

/-- **The value of an attribute**, and whether it is in double quotes. A quoted value without
content has one empty part. -/
def attributeValue (cur : Cursor) :
    Except Failure (Scanned cur.remaining (List AttributePart × Bool)) :=
  match hrest : cur.rest with
  | [] => .error ⟨.attributeValueExpected, cur.here⟩
  | c :: _ => do
    have hpos := Cursor.remaining_pos hrest
    if cur.startsWith "\x7b\x7b" then
      let ⟨e, next, h⟩ ← inlineTag cur
      return ⟨([.tag (cur.spanTo next) e], true), next, h⟩
    else if c = '"' ∨ c = '\'' then
      let ⟨parts, next, h⟩ ← quotedParts cur c (cur.skip 1)
      let parts := if parts.isEmpty then [.text ""] else parts
      return ⟨(parts, c = '"'), next, by rw [Cursor.remaining_skip] at h; omega⟩
    else
      match unquotedValue cur.rest with
      | [] => throw ⟨.attributeValueExpected, cur.here⟩
      | d :: ds =>
        return ⟨([.text (String.ofList (d :: ds))], true), cur.skip (ds.length + 1), by
          rw [Cursor.remaining_skip]; omega⟩

/-- An attribute that is a tag: a spread, or a name that is also the name of its value. -/
def tagAttribute (cur : Cursor) : Except Failure (Scanned cur.remaining Attribute) := do
  let ⟨_, st, h⟩ ← Stream.start (cur.skip 2)
  have h := lt_of_start_tag h
  match ← st.acceptMark "..." with
  | some ⟨_, st₁, h₁⟩ =>
    let ⟨e, st₂, h₂⟩ ← Grammar.expression st₁
    let ⟨_, next, h₃⟩ ← st₂.closeInline
    return ⟨.spread (cur.spanTo next) e, next, Shrinks.thrice_from h h₁ h₂ h₃⟩
  | none =>
    let ⟨e, st₁, h₁⟩ ← Grammar.expression st
    let ⟨_, next, h₂⟩ ← st₁.closeInline
    let span := cur.spanTo next
    match e.identifier? with
    | some name =>
      return ⟨.plain span name (some [.tag span e]) true, next, Shrinks.twice_from h h₁ h₂⟩
    | none => throw ⟨.shorthandExpected, span⟩

/-- The value after the name of an attribute, if an equals sign stands there. Blanks may
stand around the sign. -/
def optionalValue (cur : Cursor) :
    Except Failure (Scanned (cur.remaining + 1) (Option (List AttributePart) × Bool)) := do
  have hblanks := cur.remaining_skipBlanks_le
  if cur.skipBlanks.startsWith "=" then
    let sign := cur.skipBlanks.skip 1
    have hsign : sign.skipBlanks.remaining ≤ cur.remaining := by
      have := sign.remaining_skipBlanks_le
      rw [Cursor.remaining_skip] at this
      omega
    let ⟨(parts, doubleQuotes), next, h⟩ ← attributeValue sign.skipBlanks
    return ⟨(some parts, doubleQuotes), next, by omega⟩
  else return ⟨(none, true), cur, Shrinks.self Cursor.remaining cur⟩

def namedAttribute (cur : Cursor) (hpos : 0 < cur.remaining) :
    Except Failure (Scanned cur.remaining Attribute) :=
  match cur.run (!endsAttributeName ·) with
  | [] => .error ⟨.attributeNameExpected, cur.here⟩
  | c :: cs => do
    let nameEnd := cur.skip (cs.length + 1)
    have hname : nameEnd.remaining < cur.remaining := by rw [Cursor.remaining_skip]; omega
    let ⟨(value, doubleQuotes), next, h⟩ ← optionalValue nameEnd
    let span := cur.spanTo next
    match ← directiveOf? span (cur.spanTo nameEnd) (c :: cs) value with
    | some directive => return ⟨directive, next, by omega⟩
    | none => return ⟨.plain span (String.ofList (c :: cs)) value doubleQuotes, next, by omega⟩

mutual

/-- **The attributes at a cursor** up to and with the end of the opening tag, and whether the
tag closes itself. -/
def attributes (name : String) (cur : Cursor) :
    Except Failure (Scanned cur.remaining (List Attribute × Bool)) := do
  let ⟨found, next, h⟩ ← attributesHere name cur.skipBlanks
  return ⟨found, next, by have := cur.remaining_skipBlanks_le; omega⟩
termination_by cur.remaining * 2 + 1
decreasing_by have := cur.remaining_skipBlanks_le; omega

def attributesHere (name : String) (cur : Cursor) :
    Except Failure (Scanned cur.remaining (List Attribute × Bool)) :=
  match hrest : cur.rest with
  | [] => .error ⟨.unterminatedTag name, cur.here⟩
  | c :: _ => do
    have hpos := Cursor.remaining_pos hrest
    if cur.startsWith "/>" then
      return ⟨([], true), cur.skip 2, by rw [Cursor.remaining_skip]; omega⟩
    else if c = '>' then
      return ⟨([], false), cur.skip 1, by rw [Cursor.remaining_skip]; omega⟩
    else
      let ⟨first, after, h₁⟩ ←
        if cur.startsWith "\x7b\x7b" then tagAttribute cur else namedAttribute cur hpos
      let ⟨(rest, selfClosing), next, h₂⟩ ← attributes name after
      return ⟨(first :: rest, selfClosing), next, by omega⟩
termination_by cur.remaining * 2

end

end MarkupGrammar

end ComponentTemplate
