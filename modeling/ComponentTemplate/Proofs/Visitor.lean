import Mathlib
import ComponentTemplate.Format

/-!
# The visitor of a component

A document brackets what is indented, so that its writing cannot lose a level. A visitor has no
such brackets: it walks over the tree, keeps the path of what it is inside of, and indents and
dedents by single steps, each behind the conditions of the layout. It fails where it would dedent
below the left margin, leave what it has not entered, or finish at a level or inside of something.
-/

namespace ComponentTemplate

/-- **What is visited.** An expression is visited in the place that it has in what is around
it. -/
inductive Subject where
  | component (component : Component) (sheet : List StyleNode)
  | importTag (tag : Import)
  | fragment (nodes : List Node)
  | text (leading : Padding) (data : List Char) (trailing : Padding)
  | node (node : Node)
  | attr (a : Attribute)
  | expr (slot : Slot) (expr : Expr)
  | property (property : Property)
  | statement (statement : Statement)

/-- **The state of a visitor**: its output, and the path of what it is inside of, the innermost
first. -/
structure Visitor where
  writer : Writer
  path : List Subject

/-- **Steps of a visitor**, which may fail. -/
abbrev Render := StateT Visitor Option Unit

namespace Render

/-- One step of the writer of a visitor. -/
def step (step : Step) : Render := fun v =>
  (v.writer.step? step).map fun writer => ((), { v with writer })

/-- Write a text. -/
def add (text : String) : Render := step (.add text)

/-- Write a line feed. -/
def nl : Render := add "\n"

/-- Go one level in. -/
def indent : Render := step .indent

/-- Go one level out. -/
def dedent : Render := step .dedent

/-- Enter a subject. -/
def enter (subject : Subject) : Render := modify fun v => { v with path := subject :: v.path }

/-- Leave the innermost subject. -/
def leave : Render := fun v =>
  match v.path with
  | [] => none
  | _ :: path => some ((), { v with path })

/-- **Visit a subject**: enter it, do the steps of its kind, and leave it. -/
def visit (subject : Subject) (body : Render) : Render := do
  enter subject
  body
  leave

/-- Steps under a condition. -/
def onlyIf (condition : Bool) (steps : Render) : Render := if condition then steps else pure ()

def each : List Render → Render
  | [] => pure ()
  | first :: rest => do
    first
    each rest

def commaSeparated : List Render → Render
  | [] => pure ()
  | [steps] => steps
  | first :: rest => do
    first
    add ", "
    commaSeparated rest

/-! ## Expressions and statements -/

def expression (slot : Slot) (e : Expr) (body : Render) : Render := do
  onlyIf (needsParens slot e) (add "(")
  body
  onlyIf (needsParens slot e) (add ")")

def visitExpr (slot : Slot) (e : Expr) (body : Render) : Render :=
  visit (.expr slot e) (expression slot e body)

/-- A choice. The level goes up after the test, and down after the alternative. -/
def choice (multiline : Bool) (test consequent alternate : Render) : Render := do
  test
  cond multiline (do indent; nl) (add " ")
  add "? "
  consequent
  cond multiline nl (add " ")
  add ": "
  alternate
  onlyIf multiline dedent

def collection (opening closing : String) (padded multiline : Bool) (entries : List Render) :
    Render :=
  if entries.isEmpty then do
    add opening
    add closing
  else if multiline then do
    add opening
    indent
    each (entries.map fun entry => do nl; entry; add ",")
    dedent
    nl
    add closing
  else do
    add opening
    onlyIf padded (add " ")
    commaSeparated entries
    onlyIf padded (add " ")
    add closing

def key (e : Expr) (body : Render) : Render :=
  match e.bareKey?, e with
  | some name, _ => add name
  | none, .string .. | none, .number .. | none, .identifier .. => body
  | none, e => visitExpr .enclosed e body

def property (e value : Expr) (keyBody valueBody : Render) : Render := do
  key e keyBody
  add ": "
  visitExpr .enclosed value valueBody

end Render

open Render

mutual

/-- **The steps of an expression.** -/
def Expr.render (breaks : Breaks) : Expr → Render
  | .identifier _ name => add name
  | .string _ _ raw => add raw
  | .number _ value _ => add (String.ofList value.text)
  | .boolean _ value => add (if value then "true" else "false")
  | .null _ => add "null"
  | .unary _ op argument => do
    add op.symbol
    onlyIf (op = .not) (add " ")
    visitExpr (.argument op) argument (argument.render breaks)
  | .binary _ op left right => do
    visitExpr (.left op) left (left.render breaks)
    onlyIf (op ≠ .range) (add " ")
    add op.symbol
    onlyIf (op ≠ .range) (add " ")
    visitExpr (.right op) right (right.render breaks)
  | .conditional _ test consequent alternate =>
    choice (breaks 1 test.span.stop consequent.span.start)
      (visitExpr .test test (test.render breaks))
      (visitExpr .enclosed consequent (consequent.render breaks))
      (visitExpr .enclosed alternate (alternate.render breaks))
  | .member _ object property computed optional => do
    visitExpr .head object (object.render breaks)
    onlyIf optional (add "?.")
    onlyIf computed (add "[")
    onlyIf (!computed && !optional) (add ".")
    visitExpr .enclosed property (property.render breaks)
    onlyIf computed (add "]")
  | .call _ callee arguments optional => do
    visitExpr .head callee (callee.render breaks)
    onlyIf optional (add "?.")
    add "("
    commaSeparated (Expr.visits breaks arguments)
    add ")"
  | .filter _ subject name arguments => do
    visitExpr .head subject (subject.render breaks)
    add "|"
    add name
    onlyIf (!arguments.isEmpty) (do
      add "("
      commaSeparated (Expr.visits breaks arguments)
      add ")")
  | .arrow _ params body => do
    add "("
    commaSeparated (Expr.visits breaks params)
    add ") => "
    visitExpr .body body (body.render breaks)
  | .assignment _ op target value => do
    visitExpr .enclosed target (target.render breaks)
    add " "
    add op.symbol
    add " "
    visitExpr .enclosed value (value.render breaks)
  | .update _ op leading argument => do
    onlyIf leading (add op.symbol)
    visitExpr .head argument (argument.render breaks)
    onlyIf (!leading) (add op.symbol)
  | .array span elements =>
    collection "[" "]" false (brokenAfterBracket breaks span elements) (Expr.visits breaks elements)
  | .object span properties =>
    collection "\x7b" "\x7d" true (brokenAfterBracket breaks span (properties.map Property.key))
      (Property.visits breaks properties)

def Expr.visits (breaks : Breaks) : List Expr → List Render
  | [] => []
  | e :: es => visitExpr .enclosed e (e.render breaks) :: Expr.visits breaks es

def Property.visits (breaks : Breaks) : List Property → List Render
  | [] => []
  | .mk key value :: ps =>
    visit (.property (.mk key value))
      (property key value (key.render breaks) (value.render breaks)) :: Property.visits breaks ps

end

mutual

/-- **The steps of a statement.** -/
def Statement.render (breaks : Breaks) : Statement → Render
  | .expression _ e => do
    visitExpr .enclosed e (e.render breaks)
    add ";"
  | .block _ body => do
    add "\x7b"
    onlyIf (!body.isEmpty) (do
      indent
      Statement.renderLines breaks body
      dedent
      nl)
    add "\x7d"

def Statement.renderLines (breaks : Breaks) : List Statement → Render
  | [] => pure ()
  | statement :: rest => do
    nl
    visit (.statement statement) (statement.render breaks)
    Statement.renderLines breaks rest

end

/-! ## Stylesheets -/

namespace Render

def selectors : List String → Render
  | [] => pure ()
  | [selector] => add selector
  | selector :: rest => do
    add selector
    add ","
    nl
    selectors rest

def styleBlock (nodes : Render) : Render := do
  add " \x7b"
  nl
  indent
  nodes
  dedent
  add "\x7d"

end Render

mutual

/-- **The steps of a node of a stylesheet.** -/
def StyleNode.render : StyleNode → Render
  | .rule selectors nodes => do
    Render.selectors selectors
    styleBlock (StyleNode.renderBlock nodes)
  | .declaration property value important => do
    add (property ++ ": " ++ value)
    onlyIf important (add " !important")
    add ";"
  | .atRule name params nodes => do
    add "@"
    add name
    onlyIf (params ≠ "") (do
      add " "
      add params)
    match nodes with
    | some nodes => styleBlock (StyleNode.renderBlock nodes)
    | none => add ";"
  | .comment text inline => do
    add (if inline then "// " else "/* ")
    add text
    onlyIf (!inline) (add " */")

def StyleNode.renderBlock : List StyleNode → Render
  | [] => pure ()
  | [node] => do
    node.render
    nl
  | node :: next :: rest => do
    node.render
    nl
    onlyIf (node.wantsBlankLine next) nl
    StyleNode.renderBlock (next :: rest)

end

/-- The steps of the nodes of a stylesheet after another node. -/
def StyleNode.renderAfter (previous : StyleNode) : List StyleNode → Render
  | [] => pure ()
  | node :: rest => do
    nl
    onlyIf (previous.wantsBlankLine node) nl
    node.render
    node.renderAfter rest

/-- **The steps of the nodes of a stylesheet.** -/
def StyleNode.renderSheet : List StyleNode → Render
  | [] => pure ()
  | node :: rest => do
    node.render
    node.renderAfter rest

/-! ## Attributes -/

namespace Render

/-- An expression between double braces. The level goes up before it and down after it if the tag
is on several lines. -/
def expressionTag (breaks : Breaks) (start : Nat) (e : Expr) : Render := do
  let multiline := breaks 1 (start + 2) e.span.start
  add "\x7b\x7b"
  cond multiline (do nl; indent) (add " ")
  visitExpr .enclosed e (e.render breaks)
  cond multiline (do dedent; nl) (add " ")
  add "\x7d\x7d"

def attributePart (breaks : Breaks) : AttributePart → Render
  | .text data => add data
  | .tag span e => expressionTag breaks span.start e

def plainAttribute (breaks : Breaks) (name : String) (doubleQuotes : Bool) :
    Option (List AttributePart) → Render
  | none => add name
  | some parts =>
    if AttributePart.variableName? parts = some name then do
      add "\x7b\x7b "
      add name
      add " \x7d\x7d"
    else do
      add name
      add "="
      onlyIf (!AttributePart.isSingleTag parts) (add (AttributePart.quote doubleQuotes parts))
      each (parts.map (attributePart breaks))
      onlyIf (!AttributePart.isSingleTag parts) (add (AttributePart.quote doubleQuotes parts))

def directive (breaks : Breaks) (kind : DirectiveKind) (name : String) (modifiers : List String)
    (value : Option Expr) : Render := do
  add (kind.word ++ ":")
  add name
  each (modifiers.map fun modifier => do add "|"; add modifier)
  match value with
  | none => pure ()
  | some e =>
    onlyIf (!(kind.impliesName && e.identifier? = some name)) (do
      add "=\x7b\x7b "
      visitExpr .enclosed e (e.render breaks)
      add " \x7d\x7d")

end Render

/-- **The steps of an attribute.** -/
def Attribute.render (breaks : Breaks) : Attribute → Render
  | .plain _ name value doubleQuotes => plainAttribute breaks name doubleQuotes value
  | .spread _ e => do
    add "\x7b\x7b ..."
    visitExpr .enclosed e (e.render breaks)
    add " \x7d\x7d"
  | .directive _ kind name modifiers value => Render.directive breaks kind name modifiers value

namespace Render

def visitAttribute (breaks : Breaks) (a : Attribute) : Render := visit (.attr a) (a.render breaks)

def attributeList (breaks : Breaks) (wrap : Bool) (previous : Option Attribute) :
    List Attribute → Render
  | [] => pure ()
  | current :: rest => do
    let blank := previous.any fun p => breaks 2 p.span.stop current.span.start
    add (if wrap then if blank then "\n\n" else "\n" else " ")
    visitAttribute breaks current
    attributeList breaks wrap (some current) rest

/-- The attributes of an element. The level goes up before them and down after them if they are on
lines of their own. -/
def attributes (breaks : Breaks) (start : Nat) (name : String) (found : List Attribute) : Render := do
  let wrap := wrapsAttributes breaks start name found
  onlyIf wrap indent
  attributeList breaks wrap none found
  onlyIf wrap (do dedent; nl)

/-! ## Nodes -/

def text (leading : Padding) (data : List Char) (trailing : Padding) : Render := do
  add leading.text
  add (String.ofList data)
  add trailing.text

/-- A padded sibling: a text is visited as such, and anything else is a visit already. -/
def padded : Padded Render → Render
  | .text leading data trailing => visit (.text leading data trailing) (text leading data trailing)
  | .node steps => steps

def fragment (siblings : List (Sibling Render)) : Render :=
  let cleaned := Sibling.reconcile false siblings
  if cleaned.isEmpty then pure ()
  else do
    indent
    each (cleaned.map padded)
    dedent

def visitFragment (nodes : List Node) (siblings : List (Sibling Render)) : Render :=
  visit (.fragment nodes) (fragment siblings)

/-- The code of a foreign script: its formatted lines, indented unless it is blank. -/
def scriptBody (script : String → String) (code : String) : Render :=
  if Text.isBlankText code.toList then pure ()
  else do
    nl
    indent
    each ((Text.lines (script code).toList).map fun line => do add (String.ofList line); nl)
    dedent

def content (p : Printing) (code : Option String) (children : List Node)
    (siblings : List (Sibling Render)) : Render :=
  match code with
  | some code => scriptBody p.script code
  | none => visitFragment children siblings

def regularElement (p : Printing) (start : Nat) (name : String) (found : List Attribute)
    (children : List Node) (siblings : List (Sibling Render)) : Render := do
  add ("<" ++ name)
  attributes p.breaks start name found
  if isVoid name then do
    onlyIf (!wrapsAttributes p.breaks start name found) (add " ")
    add "/>"
  else do
    add ">"
    content p (scriptCode? name children) children siblings
    add ("</" ++ name ++ ">")

def titleElement (p : Printing) (start : Nat) (found : List Attribute) (children : List Node)
    (siblings : List (Sibling Render)) : Render := do
  add "<title"
  attributes p.breaks start "title" found
  add ">"
  visitFragment children siblings
  add "</title>"

def elementLike (p : Printing) (start : Nat) (name : String) (found : List Attribute)
    (siblings : List (Sibling Render)) : Render := do
  add ("<" ++ name)
  attributes p.breaks start name found
  if Sibling.isEmptyFragment siblings then do
    onlyIf (!wrapsAttributes p.breaks start name found) (add " ")
    add "/>"
  else do
    add ">"
    fragment siblings
    add ("</" ++ name ++ ">")

def element (p : Printing) (start : Nat) (kind : ElementKind) (name : String)
    (found : List Attribute) (children : List Node) (siblings : List (Sibling Render)) : Render :=
  match kind with
  | .regular => regularElement p start name found children siblings
  | .title => titleElement p start found children siblings
  | _ => elementLike p start name found siblings

def binding (breaks : Breaks) : Option Expr → Render
  | none => pure ()
  | some e => do
    add " "
    visitExpr .enclosed e (e.render breaks)

def outcomeHead (breaks : Breaks) (word : String) (name : Option Expr) : Render := do
  add word
  binding breaks name
  add " %\x7d"

def outcome (breaks : Breaks) (word : String) (name : Option Expr) :
    Option (List Node × List (Sibling Render)) → Render
  | none => pure ()
  | some (nodes, siblings) => onlyIf (!Sibling.isEmptyFragment siblings) (do
    outcomeHead breaks ("\x7b% " ++ word) name
    visitFragment nodes siblings)

/-- What follows the value of an awaiting block. Its first outcome may be in the opening tag. -/
def outcomes (breaks : Breaks) (value error : Option Expr) :
    (pending resolved rejected : Option (List Node × List (Sibling Render))) → Render
  | some (nodes, siblings), resolved, rejected => do
    add " %\x7d"
    visitFragment nodes siblings
    outcome breaks "then" value resolved
    outcome breaks "catch" error rejected
  | none, some (nodes, siblings), rejected => do
    outcomeHead breaks " then" value
    visitFragment nodes siblings
    outcome breaks "catch" error rejected
  | none, none, some (nodes, siblings) => do
    outcomeHead breaks " catch" error
    visitFragment nodes siblings
  | none, none, none => add " %\x7d"

def loopHead (breaks : Breaks) (index : Option Expr) (name subject : Expr) (key : Option Expr) :
    Render := do
  add "\x7b% for "
  (match index with
  | none => pure ()
  | some e => do
    visitExpr .enclosed e (e.render breaks)
    add ", ")
  visitExpr .enclosed name (name.render breaks)
  add " in "
  visitExpr .enclosed subject (subject.render breaks)
  (match key with
  | none => pure ()
  | some e => do
    add " #("
    visitExpr .enclosed e (e.render breaks)
    add ")")
  add " %\x7d"

def tag (breaks : Breaks) (opening : String) (e : Expr) (closing : String) : Render := do
  add opening
  visitExpr .enclosed e (e.render breaks)
  add closing

def elseBranch (nodes : Render) : Render := do
  add "\x7b% else %\x7d"
  nodes

def ifBlock (breaks : Breaks) (isBranch : Bool) (test : Expr) (consequent alternate : Render) :
    Render := do
  tag breaks (if isBranch then "\x7b% elseif " else "\x7b% if ") test " %\x7d"
  consequent
  alternate
  onlyIf (!isBranch) (add "\x7b% endif %\x7d")

def forBlock (breaks : Breaks) (index : Option Expr) (name subject : Expr) (key : Option Expr)
    (body fallback : Render) : Render := do
  loopHead breaks index name subject key
  body
  fallback
  add "\x7b% endfor %\x7d"

def keyBlock (breaks : Breaks) (e : Expr) (body : Render) : Render := do
  tag breaks "\x7b% key " e " %\x7d"
  body
  add "\x7b% endkey %\x7d"

def snippetBlock (breaks : Breaks) (name : String) (params : List Expr) (body : Render) :
    Render := do
  add ("\x7b% snippet " ++ name ++ "(")
  commaSeparated (Expr.visits breaks params)
  add ") %\x7d"
  body
  add "\x7b% endsnippet %\x7d"

def awaitBlock (breaks : Breaks) (e : Expr) (outcomes : Render) : Render := do
  add "\x7b% await "
  visitExpr .enclosed e (e.render breaks)
  outcomes
  add "\x7b% endawait %\x7d"

end Render

mutual

/-- **The steps of a node.** -/
def Node.render (p : Printing) : Node → Render
  | .text _ data => add data
  | .comment _ data => add ("<!-- " ++ String.ofList (Text.trim data.toList) ++ " -->")
  | .element span kind name attributes children =>
    Render.element p span.start kind name attributes children (Node.visits p children)
  | .expressionTag span e => Render.expressionTag p.breaks span.start e
  | .htmlTag _ e => Render.tag p.breaks "\x7b\x7b @html " e " \x7d\x7d"
  | .renderTag _ e => Render.tag p.breaks "\x7b\x7b @render " e " \x7d\x7d"
  | .variableTag _ e => Render.tag p.breaks "\x7b% set " e " %\x7d"
  | .ifBlock _ isBranch test consequent alternate =>
    Render.ifBlock p.breaks isBranch test (visitFragment consequent (Node.visits p consequent))
      (match alternate with
      | none => pure ()
      | some nodes =>
        if isSingleBranch nodes then Node.visitAll p nodes
        else Render.elseBranch (visitFragment nodes (Node.visits p nodes)))
  | .forBlock _ index name subject key body fallback =>
    Render.forBlock p.breaks index name subject key (visitFragment body (Node.visits p body))
      (match fallback with
      | none => pure ()
      | some nodes => Render.elseBranch (visitFragment nodes (Node.visits p nodes)))
  | .keyBlock _ e body => Render.keyBlock p.breaks e (visitFragment body (Node.visits p body))
  | .snippetBlock _ name params body =>
    Render.snippetBlock p.breaks name params (visitFragment body (Node.visits p body))
  | .awaitBlock _ e value error pending resolved rejected =>
    Render.awaitBlock p.breaks e (outcomes p.breaks value error
      (match pending with | none => none | some nodes => some (nodes, Node.visits p nodes))
      (match resolved with | none => none | some nodes => some (nodes, Node.visits p nodes))
      (match rejected with | none => none | some nodes => some (nodes, Node.visits p nodes)))

def Node.visits (p : Printing) : List Node → List (Sibling Render)
  | [] => []
  | .text _ data :: rest => .text data.toList :: Node.visits p rest
  | node :: rest => .node (visit (.node node) (node.render p)) :: Node.visits p rest

def Node.visitAll (p : Printing) : List Node → Render
  | [] => pure ()
  | node :: rest => do
    visit (.node node) (node.render p)
    Node.visitAll p rest

end

/-! ## Components -/

def Import.render (tag : Import) : Render :=
  add ("\x7b% import " ++ tag.specifier ++ " from \"" ++ escapeQuotes tag.source ++ "\" %\x7d")

namespace Render

def imports (tags : List Import) : Render :=
  each (tags.map fun tag => do
    visit (.importTag tag) tag.render
    nl)

def script (breaks : Breaks) (block : ScriptBlock) : Render := do
  add "<script lang=\"zs\">"
  onlyIf (!block.body.isEmpty) (do
    indent
    Statement.renderLines breaks block.body
    dedent
    nl)
  add "</script>"

def style (breaks : Breaks) (block : StyleBlock) (sheet : List StyleNode) : Render := do
  add "<style"
  attributeList breaks false none block.attributes
  add ">"
  onlyIf (!sheet.isEmpty) (do
    nl
    indent
    StyleNode.renderSheet sheet
    dedent
    nl)
  add "</style>"

end Render

/-- **The steps of a component**: its imports, its script, its nodes and its style. -/
def Component.render (p : Printing) (component : Component) (sheet : List StyleNode) : Render := do
  let cleaned := Sibling.reconcile true (Node.visits p component.nodes)
  let hasImports := !component.imports.isEmpty
  Render.imports component.imports
  (match component.script with
  | none => pure ()
  | some block => do
    Render.script p.breaks block
    onlyIf (!cleaned.isEmpty) (Render.add "\n\n"))
  onlyIf (!cleaned.isEmpty) (do
    onlyIf (hasImports && !component.script.isSome) nl
    each (cleaned.map padded))
  (match component.style with
  | none => pure ()
  | some block => do
    Render.add (if !cleaned.isEmpty || component.script.isSome then "\n\n"
      else if hasImports then "\n" else "")
    Render.style p.breaks block sheet)

/-- **The steps of a subject**, by its kind. -/
def Subject.render (p : Printing) : Subject → Render
  | .component c sheet => c.render p sheet
  | .importTag tag => tag.render
  | .fragment nodes => Render.fragment (Node.visits p nodes)
  | .text leading data trailing => Render.text leading data trailing
  | .node n => n.render p
  | .attr a => a.render p.breaks
  | .expr slot e => expression slot e (e.render p.breaks)
  | .property (.mk key value) =>
    Render.property key value (key.render p.breaks) (value.render p.breaks)
  | .statement s => s.render p.breaks

/-- **Visit a subject**, of any kind. -/
def Subject.visit (p : Printing) (subject : Subject) : Render :=
  Render.visit subject (subject.render p)

/-- The text of a visitor that is done. This fails at a level above the left margin, and inside of
anything. -/
def Visitor.finish? (v : Visitor) : Option String :=
  if v.writer.level = 0 ∧ v.path.isEmpty then some v.writer.output else none

/-- **The text of a component**, written by a visitor. -/
def Component.visited? (p : Printing) (unit : String) (component : Component)
    (sheet : List StyleNode) : Option String := do
  let ((), v) ← (Subject.component component sheet).visit p ⟨.start unit, []⟩
  v.finish?

end ComponentTemplate
