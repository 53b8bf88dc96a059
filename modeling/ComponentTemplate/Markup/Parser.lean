import ComponentTemplate.Markup.Attribute

/-!
# Reading markup

The content of a component is read node by node. A fragment inside an element or a block
ends at the tag that closes it. Imports and elements with raw text are given as items of
their own, since they mean something else at the top level.
-/

namespace ComponentTemplate

/-- **The surroundings of a node**: the first part of the names of special elements, and
whether the node stands directly in the head of the document. -/
structure MarkupContext where
  special : String
  inHead : Bool := false

/-- A tag that imports a component. -/
structure Import where
  span : Span
  specifier : String
  source : String
  deriving DecidableEq, Repr

/-- **An element whose content is not markup**, with its code. -/
structure RawElement where
  span : Span
  name : String
  attributes : List Attribute
  code : List Char
  codeSpan : Span

/-- An element with raw text as a node: its code, if there is any, is its only child. -/
def RawElement.toNode (element : RawElement) : Node :=
  .element element.span .regular element.name element.attributes
    (if element.code.isEmpty then [] else [.text element.codeSpan (String.ofList element.code)])

/-- **What may stand in the content.** -/
inductive Item where
  | node (node : Node)
  | importTag (tag : Import)
  | raw (element : RawElement)

def Item.nested : Item → Except Failure Node
  | .node value => .ok value
  | .importTag tag => .error ⟨.nestedImport, tag.span⟩
  | .raw element => .ok element.toNode

/-- **The tag that ends a fragment**: the closing tag of an element, or one of several block
tags, the last of which ends the whole block. -/
inductive Ending where
  | closingTag (name : String)
  | blockTag (keywords : List String)

def Ending.matches : Ending → Option String → Bool
  | .blockTag keywords, some keyword => keywords.contains keyword
  | _, _ => false

/-- Whether markup starts with a text: a tag, a block, a comment or an element. -/
def startsMarkup : List Char → Bool
  | '{' :: c :: _ => c == '{' || c == '%'
  | '<' :: c :: _ => c.isAlpha || c == '/' || c == '!'
  | _ => false

def textRun : List Char → List Char
  | [] => []
  | c :: cs => if startsMarkup (c :: cs) then [] else c :: textRun cs

def rawElements : List String :=
  ["script", "style"]

def specialKind? : String → Option ElementKind
  | "self" => some .specialSelf
  | "head" => some .specialHead
  | "element" => some .specialElement
  | "component" => some .specialComponent
  | _ => none

/-- **The kind of an element**, by its name and its surroundings. -/
def elementKind (ctx : MarkupContext) (name : List Char) : Except Cause ElementKind :=
  let parts := Text.cutAt? ':' name
  if (parts.map Prod.fst) = some ctx.special.toList then
    match specialKind? (String.ofList ((parts.map Prod.snd).getD [])) with
    | some kind => .ok kind
    | none => .error (.unknownSpecialElement (String.ofList name))
  else if name.head?.any Char.isUpper then .ok .component
  else if name = "title".toList ∧ ctx.inHead then .ok .title
  else .ok .regular

def isTagNameChar (c : Char) : Bool :=
  !(Text.isBlank c || c == '/' || c == '>')

/-- **An opening tag**: the element that it opens, and whether it closes it too. -/
structure OpeningTag where
  kind : ElementKind
  name : String
  attributes : List Attribute
  selfClosing : Bool

def OpeningTag.isComplete (tag : OpeningTag) : Bool :=
  tag.selfClosing || (tag.kind = .regular && isVoid tag.name)

def OpeningTag.isRaw (tag : OpeningTag) : Bool :=
  tag.kind = .regular && rawElements.contains tag.name

/-- How an awaiting block starts: with content for the time of waiting, or right with one of
its two outcomes. -/
inductive AwaitOpening where
  | pending
  | resolved (value : Option Expr)
  | rejected (error : Option Expr)

namespace MarkupGrammar

def blockKeyword? (cur : Cursor) : Option String :=
  match cur.rest with
  | '{' :: '%' :: cs => some (String.ofList ((Text.trimStart cs).takeWhile isWordChar))
  | _ => none

def openTag (cur : Cursor) : Except Failure (Parsed (cur.remaining + 1) Unit) := do
  let ⟨_, st, h⟩ ← Stream.start (cur.skip 2)
  return ⟨(), st, lt_of_start_tag h⟩

def wordTag (word : String) (cur : Cursor) : Except Failure (Scanned cur.remaining Unit) := do
  let ⟨_, st, h⟩ ← openTag cur
  let ⟨_, st₁, h₁⟩ ← st.expectWord word
  let ⟨_, next, h₂⟩ ← st₁.closeBlock
  return ⟨(), next, Shrinks.twice_from h h₁ h₂⟩

def binding (st : Stream) : Except Failure (Parsed (st.remaining + 1) (Option Expr)) := do
  if st.atMark "%\x7d" then return ⟨none, st, Shrinks.self Stream.remaining st⟩
  let ⟨e, st₁, h₁⟩ ← st.identifierExpr
  return ⟨some e, st₁, Shrinks.loosen h₁⟩

def bindingTag (word : String) (cur : Cursor) :
    Except Failure (Scanned cur.remaining (Option Expr)) := do
  let ⟨_, st, h⟩ ← openTag cur
  let ⟨_, st₁, h₁⟩ ← st.expectWord word
  let ⟨name, st₂, h₂⟩ ← binding st₁
  let ⟨_, next, h₃⟩ ← st₂.closeBlock
  return ⟨name, next, by omega⟩

def awaitOpening (st : Stream) : Except Failure (Scanned st.remaining AwaitOpening) := do
  match ← st.acceptWord "then" with
  | some ⟨_, st₁, h₁⟩ =>
    let ⟨name, st₂, h₂⟩ ← binding st₁
    let ⟨_, next, h₃⟩ ← st₂.closeBlock
    return ⟨.resolved name, next, Shrinks.thrice_between h₁ h₂ h₃⟩
  | none =>
    match ← st.acceptWord "catch" with
    | some ⟨_, st₁, h₁⟩ =>
      let ⟨name, st₂, h₂⟩ ← binding st₁
      let ⟨_, next, h₃⟩ ← st₂.closeBlock
      return ⟨.rejected name, next, Shrinks.thrice_between h₁ h₂ h₃⟩
    | none =>
      let ⟨_, next, h₁⟩ ← st.closeBlock
      return ⟨.pending, next, h₁⟩

/-- The names in the opening tag of a loop: the item, or the index and the item. -/
def loopNames (st : Stream) :
    Except Failure (Parsed st.remaining (Option Expr × Expr)) := do
  let ⟨first, st₁, h₁⟩ ← st.identifierExpr
  match ← st₁.acceptMark "," with
  | none => return ⟨(none, first), st₁, h₁⟩
  | some ⟨_, st₂, h₂⟩ =>
    let ⟨second, st₃, h₃⟩ ← st₂.identifierExpr
    return ⟨(some first, second), st₃, Shrinks.thrice h₁ h₂ h₃⟩

def loopKey (st : Stream) : Except Failure (Parsed (st.remaining + 1) (Option Expr)) := do
  match ← st.acceptMark "#" with
  | none => return ⟨none, st, Shrinks.self Stream.remaining st⟩
  | some ⟨_, st₁, h₁⟩ =>
    let ⟨_, st₂, h₂⟩ ← st₁.expectMark "("
    let ⟨key, st₃, h₃⟩ ← Grammar.expression st₂
    let ⟨_, st₄, h₄⟩ ← st₃.expectMark ")"
    return ⟨some key, st₄, Shrinks.four_loosen h₁ h₂ h₃ h₄⟩

def lastExpression (st : Stream) : Except Failure (Scanned st.remaining Expr) := do
  let ⟨e, st₁, h₁⟩ ← Grammar.expression st
  let ⟨_, next, h₂⟩ ← st₁.closeBlock
  return ⟨e, next, by omega⟩

def importTag (start : Cursor) (st : Stream) : Except Failure (Scanned st.remaining Import) := do
  let ⟨(specifier, _), st₁, h₁⟩ ← st.name
  let ⟨_, st₂, h₂⟩ ← st₁.expectWord "from"
  let ⟨source, st₃, h₃⟩ ← st₂.string
  let ⟨_, next, h₄⟩ ← st₃.closeBlock
  return ⟨⟨start.spanTo next, specifier, source⟩, next, by omega⟩

def variableTag (start : Cursor) (st : Stream) : Except Failure (Scanned st.remaining Node) := do
  let ⟨e, st₁, h₁⟩ ← Grammar.expression st
  if e.isAssignment then
    let ⟨_, next, h₂⟩ ← st₁.closeBlock
    return ⟨.variableTag (start.spanTo next) e, next, by omega⟩
  else throw ⟨.assignmentExpected, e.span⟩

/-- **The inline tag at a cursor**: an expression, or a word after an at sign and an
expression. -/
def inlineNode (cur : Cursor) : Except Failure (Scanned cur.remaining Node) := do
  let ⟨_, st, h⟩ ← openTag cur
  match ← st.acceptMark "@" with
  | none =>
    let ⟨e, st₁, h₁⟩ ← Grammar.expression st
    let ⟨_, next, h₂⟩ ← st₁.closeInline
    return ⟨.expressionTag (cur.spanTo next) e, next, Shrinks.twice_from h h₁ h₂⟩
  | some ⟨_, st₁, h₁⟩ =>
    let ⟨(keyword, keywordSpan), st₂, h₂⟩ ← st₁.name
    let ⟨e, st₃, h₃⟩ ← Grammar.expression st₂
    -- an unknown word is only found to be one after the expression
    let kind ← match keyword with
      | "html" => pure Node.htmlTag
      | "render" => if e.isCall then pure Node.renderTag else throw ⟨.callExpected, e.span⟩
      | keyword => throw ⟨.unknownInlineTag keyword, keywordSpan⟩
    let ⟨_, next, h₄⟩ ← st₃.closeInline
    return ⟨kind (cur.spanTo next) e, next, Shrinks.four_from h h₁ h₂ h₃ h₄⟩

theorem remaining_afterComment_lt {cur : Cursor} {data : List Char} (h : 0 < cur.remaining) :
    (cur.skip (data.length + 7)).remaining < cur.remaining := by
  rw [Cursor.remaining_skip]
  omega

def comment (cur : Cursor) (hpos : 0 < cur.remaining) :
    Except Failure (Scanned cur.remaining Node) :=
  match (cur.skip 4).until? "-->" with
  | none => .error ⟨.unterminatedComment, cur.toEnd⟩
  | some data =>
    let next := cur.skip (data.length + 7)
    .ok ⟨.comment (cur.spanTo next) (String.ofList data), next, remaining_afterComment_lt hpos⟩

/-- **The text at a cursor.** Its first character is text whatever it is. -/
def textNode (cur : Cursor) (hpos : 0 < cur.remaining) : Scanned cur.remaining Node :=
  let data := cur.rest.take 1 ++ textRun (cur.rest.drop 1)
  let next := cur.skip (1 + (textRun (cur.rest.drop 1)).length)
  ⟨.text (cur.spanTo next) (String.ofList data), next, by rw [Cursor.remaining_skip]; omega⟩

theorem lt_of_lt_afterName {cur next : Cursor} {name : List Char}
    (h : next.remaining < (cur.skip (1 + name.length)).remaining) :
    next.remaining < cur.remaining := by
  rw [Cursor.remaining_skip] at h
  omega

def openingTag (ctx : MarkupContext) (cur : Cursor) :
    Except Failure (Scanned cur.remaining OpeningTag) := do
  let name := (cur.skip 1).run isTagNameChar
  let nameEnd := cur.skip (1 + name.length)
  let kind ← (elementKind ctx name).mapError (⟨·, cur.spanTo nameEnd⟩)
  let name := String.ofList name
  let ⟨(found, selfClosing), next, h⟩ ← attributes name nameEnd
  return ⟨⟨kind, name, found, selfClosing⟩, next, lt_of_lt_afterName h⟩

def closingTag (name : String) (cur : Cursor) : Except Failure (Scanned cur.remaining Unit) :=
  let closed := (cur.skip 2).run isTagNameChar
  let after := (cur.skip (2 + closed.length)).skipBlanks
  match hrest : after.rest with
  | '>' :: _ =>
    if closed = name.toList then
      .ok ⟨(), after.skip 1, by
        have hpos := Cursor.remaining_pos hrest
        have hle : after.remaining ≤ _ := Cursor.remaining_skipBlanks_le _
        rw [Cursor.remaining_skip] at hle ⊢
        omega⟩
    else .error ⟨.mismatchedClosingTag name, cur.spanTo after⟩
  | _ => .error ⟨.mismatchedClosingTag name, cur.spanTo after⟩

/-- The content of an element with raw text, up to and with its closing tag: the code and its
region. -/
def rawContent (name : String) (cur : Cursor) :
    Except Failure (Scanned (cur.remaining + 1) (List Char × Span)) :=
  let closing := "</" ++ name ++ ">"
  match cur.until? closing with
  | none => .error ⟨.missingClosingTag name, cur.here⟩
  | some code =>
    .ok ⟨(code, cur.spanTo (cur.skip code.length)),
      cur.skip (code.length + closing.toList.length), by rw [Cursor.remaining_skip]; omega⟩

mutual

/-- **The nodes of a fragment** up to the tag that ends it, which stays unread. -/
def fragment (ctx : MarkupContext) (ending : Ending) (cur : Cursor) :
    Except Failure (Scanned (cur.remaining + 1) (List Node)) :=
  match hrest : cur.rest with
  | [] =>
    match ending with
    | .closingTag name => .error ⟨.missingClosingTag name, cur.here⟩
    | .blockTag keywords => .error ⟨.missingBlockEnd (keywords.getLastD ""), cur.here⟩
  | _ :: _ => do
    if cur.startsWith "</" then
      -- any closing tag ends the content of an element; its name is compared later
      match ending with
      | .closingTag _ => return ⟨[], cur, by omega⟩
      | .blockTag _ => throw ⟨.unexpectedClosingTag, cur.here⟩
    else if ending.matches (blockKeyword? cur) then return ⟨[], cur, by omega⟩
    else
      let ⟨found, after, h₁⟩ ← item ctx cur (Cursor.remaining_pos hrest)
      let first ← found.nested
      let ⟨rest, next, h₂⟩ ← fragment ctx ending after
      return ⟨first.cons rest, next, by omega⟩
termination_by cur.remaining * 8 + 3

/-- **The item at a cursor**: a block tag, an inline tag, a comment, an element or a text. -/
def item (ctx : MarkupContext) (cur : Cursor) (hpos : 0 < cur.remaining) :
    Except Failure (Scanned cur.remaining Item) := do
  if cur.startsWith "\x7b%" then
    blockTag ctx cur
  else if cur.startsWith "\x7b\x7b" then
    return (← inlineNode cur).map .node
  else if cur.startsWith "<!--" then
    return (← comment cur hpos).map .node
  else if cur.startsWith "<" && (cur.rest.drop 1).head?.any Char.isAlpha then
    element ctx cur
  else return (textNode cur hpos).map .node
termination_by cur.remaining * 8 + 2

/-- **The element at a cursor**, with its content. -/
def element (ctx : MarkupContext) (cur : Cursor) : Except Failure (Scanned cur.remaining Item) := do
  let ⟨tag, after, h₁⟩ ← openingTag ctx cur
  if tag.isComplete then
    return ⟨.node (.element (cur.spanTo after) tag.kind tag.name tag.attributes []), after, h₁⟩
  else if tag.isRaw then
    -- the code is not read here: what it means depends on where the element stands
    let ⟨(code, codeSpan), next, h₂⟩ ← rawContent tag.name after
    return ⟨.raw ⟨cur.spanTo next, tag.name, tag.attributes, code, codeSpan⟩, next, by omega⟩
  else
    let inner := { ctx with inHead := tag.kind = .specialHead }
    let ⟨children, close, h₂⟩ ← fragment inner (.closingTag tag.name) after
    let ⟨_, next, h₃⟩ ← closingTag tag.name close
    return ⟨.node (.element (cur.spanTo next) tag.kind tag.name tag.attributes children), next,
      by omega⟩
termination_by cur.remaining * 8 + 1

/-- **The block tag at a cursor**, with the block that it starts. -/
def blockTag (ctx : MarkupContext) (cur : Cursor) : Except Failure (Scanned cur.remaining Item) := do
  let ⟨_, st, h⟩ ← openTag cur
  let ⟨(keyword, keywordSpan), st₁, h₁⟩ ← st.name
  match keyword with
  | "if" =>
    let ⟨test, after, h₂⟩ ← lastExpression st₁
    let ⟨node, next, h₃⟩ ← ifRest ctx cur.offset false test after
    return ⟨.node node, next, by omega⟩
  | "for" =>
    let ⟨(index, name), st₂, h₂⟩ ← loopNames st₁
    let ⟨_, st₃, h₃⟩ ← st₂.expectWord "in"
    let ⟨subject, st₄, h₄⟩ ← Grammar.expression st₃
    let ⟨key, st₅, h₅⟩ ← loopKey st₄
    let ⟨_, after, h₆⟩ ← st₅.closeBlock
    let ⟨body, afterBody, h₇⟩ ← fragment ctx (.blockTag ["else", "endfor"]) after
    let ⟨fallback, close, h₈⟩ ← elseBranch ctx "endfor" afterBody
    let ⟨_, next, h₉⟩ ← wordTag "endfor" close
    return ⟨.node (.forBlock (cur.spanTo next) index name subject key body fallback), next, by
      omega⟩
  | "key" =>
    let ⟨e, after, h₂⟩ ← lastExpression st₁
    let ⟨body, close, h₃⟩ ← fragment ctx (.blockTag ["endkey"]) after
    let ⟨_, next, h₄⟩ ← wordTag "endkey" close
    return ⟨.node (.keyBlock (cur.spanTo next) e body), next, by omega⟩
  | "snippet" =>
    let ⟨(name, _), st₂, h₂⟩ ← st₁.name
    let ⟨_, st₃, h₃⟩ ← st₂.expectMark "("
    let ⟨params, st₄, h₄⟩ ← st₃.params
    let ⟨_, st₅, h₅⟩ ← st₄.expectMark ")"
    let ⟨_, after, h₆⟩ ← st₅.closeBlock
    let ⟨body, close, h₇⟩ ← fragment ctx (.blockTag ["endsnippet"]) after
    let ⟨_, next, h₈⟩ ← wordTag "endsnippet" close
    return ⟨.node (.snippetBlock (cur.spanTo next) name params body), next, by omega⟩
  | "await" =>
    let ⟨e, st₂, h₂⟩ ← Grammar.expression st₁
    let ⟨opening, after, h₃⟩ ← awaitOpening st₂
    let ⟨node, next, h₄⟩ ← awaitRest ctx cur.offset e opening after
    return ⟨.node node, next, by omega⟩
  | "set" =>
    let ⟨node, next, h₂⟩ ← variableTag cur st₁
    return ⟨.node node, next, by omega⟩
  | "import" =>
    let ⟨tag, next, h₂⟩ ← importTag cur st₁
    return ⟨.importTag tag, next, by omega⟩
  | keyword => throw ⟨.unexpectedBlockTag keyword, keywordSpan⟩
termination_by cur.remaining * 8 + 1

/-- The fragment after the word `else`, if it stands at a cursor, up to a closing tag. -/
def elseBranch (ctx : MarkupContext) (close : String) (cur : Cursor) :
    Except Failure (Scanned (cur.remaining + 1) (Option (List Node))) := do
  if blockKeyword? cur = some "else" then
    let ⟨_, after, h₁⟩ ← wordTag "else" cur
    let ⟨nodes, next, h₂⟩ ← fragment ctx (.blockTag [close]) after
    return ⟨some nodes, next, by omega⟩
  else return ⟨none, cur, by omega⟩
termination_by cur.remaining * 8

/-- **The rest of a condition** after its opening tag. The innermost of several branches
passes the closing tag that they share. -/
def ifRest (ctx : MarkupContext) (start : Nat) (isBranch : Bool) (test : Expr) (cur : Cursor) :
    Except Failure (Scanned cur.remaining Node) := do
  let ⟨consequent, after, h₁⟩ ← fragment ctx (.blockTag ["elseif", "else", "endif"]) cur
  if blockKeyword? after = some "elseif" then
    -- the branch starts at its own tag and passes the closing tag
    let ⟨_, st, h₂⟩ ← openTag after
    let ⟨_, st₁, h₃⟩ ← st.expectWord "elseif"
    let ⟨branchTest, inner, h₄⟩ ← lastExpression st₁
    let ⟨branch, next, h₅⟩ ← ifRest ctx after.offset true branchTest inner
    return ⟨.ifBlock ⟨start, next.offset⟩ isBranch test consequent (some [branch]), next, by
      omega⟩
  else
    let ⟨alternate, close, h₂⟩ ← elseBranch ctx "endif" after
    let ⟨_, next, h₃⟩ ← wordTag "endif" close
    return ⟨.ifBlock ⟨start, next.offset⟩ isBranch test consequent alternate, next, by omega⟩
termination_by cur.remaining * 8 + 4

/-- An outcome of waiting, if its tag stands at a cursor: the name it gives, and what to
show. -/
def outcome (ctx : MarkupContext) (word : String) (ending : Ending) (cur : Cursor) :
    Except Failure (Scanned (cur.remaining + 1) (Option Expr × Option (List Node))) := do
  if blockKeyword? cur = some word then
    let ⟨name, after, h₁⟩ ← bindingTag word cur
    let ⟨nodes, next, h₂⟩ ← fragment ctx ending after
    return ⟨(name, some nodes), next, by omega⟩
  else return ⟨(none, none), cur, by omega⟩
termination_by cur.remaining * 8

/-- **The rest of an awaiting block** after its opening tag. -/
def awaitRest (ctx : MarkupContext) (start : Nat) (e : Expr) (opening : AwaitOpening)
    (cur : Cursor) : Except Failure (Scanned cur.remaining Node) := do
  let afterResolved : Ending := .blockTag ["catch", "endawait"]
  let afterRejected : Ending := .blockTag ["endawait"]
  match opening with
  | .rejected error =>
    let ⟨rejected, close, h₁⟩ ← fragment ctx afterRejected cur
    let ⟨_, next, h₂⟩ ← wordTag "endawait" close
    return ⟨.awaitBlock ⟨start, next.offset⟩ e none error none none (some rejected), next, by
      omega⟩
  | .resolved value =>
    let ⟨resolved, after, h₁⟩ ← fragment ctx afterResolved cur
    let ⟨(error, rejected), close, h₂⟩ ← outcome ctx "catch" afterRejected after
    let ⟨_, next, h₃⟩ ← wordTag "endawait" close
    return ⟨.awaitBlock ⟨start, next.offset⟩ e value error none (some resolved) rejected, next,
      by omega⟩
  | .pending =>
    let ⟨pending, after, h₁⟩ ← fragment ctx (.blockTag ["then", "catch", "endawait"]) cur
    let ⟨(value, resolved), afterThen, h₂⟩ ← outcome ctx "then" afterResolved after
    let ⟨(error, rejected), close, h₃⟩ ← outcome ctx "catch" afterRejected afterThen
    let ⟨_, next, h₄⟩ ← wordTag "endawait" close
    return ⟨.awaitBlock ⟨start, next.offset⟩ e value error (some pending) resolved rejected,
      next, by omega⟩
termination_by cur.remaining * 8 + 4

end

end MarkupGrammar

end ComponentTemplate
