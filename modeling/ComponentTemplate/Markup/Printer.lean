import ComponentTemplate.Expr.Printer
import ComponentTemplate.Markup.Basic
import ComponentTemplate.Markup.Padding
import ComponentTemplate.Text.Lines

/-!
# Printing markup

The content of elements and blocks is indented by one level. Between nodes, blanks are kept
by their class only; the attributes of an element are on lines of their own if the author
broke the line before the first one.
-/

namespace ComponentTemplate

/-- **What printing depends on besides the tree**: the line breaks of the source, and how
foreign scripts are formatted. -/
structure Printing where
  breaks : Breaks
  script : String → String

/-- An expression between double braces, on lines of its own if the source breaks the line
after the opening braces. -/
def tagDoc (breaks : Breaks) (start : Nat) (e : Expr) : Doc :=
  if breaks 1 (start + 2) e.span.start then
    "\x7b\x7b" ++ Doc.line ++ .nest (e.doc breaks) ++ Doc.line ++ "\x7d\x7d"
  else "\x7b\x7b " ++ e.doc breaks ++ " \x7d\x7d"

/-! ## Attributes -/

namespace AttributePart

def hasChar (c : Char) : AttributePart → Bool
  | text data => data.toList.contains c
  | tag .. => false

def isSingleTag : List AttributePart → Bool
  | [tag ..] => true
  | _ => false

def isSingleText : List AttributePart → Bool
  | [text _] => true
  | _ => false

def variableName? : List AttributePart → Option String
  | [tag _ e] => e.identifier?
  | _ => none

/-- **The quote that is put around a value**: a double quote, unless the value has double
quotes and no single quotes, or was in single quotes and has double quotes or tags. -/
def quote (doubleQuotes : Bool) (parts : List AttributePart) : String :=
  let hasDouble := parts.any (hasChar '"')
  let hasSingle := parts.any (hasChar '\'')
  if hasDouble && !hasSingle then "'"
  else if doubleQuotes || (isSingleText parts && !hasDouble) then "\""
  else "'"

def doc (breaks : Breaks) : AttributePart → Doc
  | text data => data
  | tag span e => tagDoc breaks span.start e

end AttributePart

/-- A plain attribute as a document: only its name if it has no value, a tag if its value is
the variable of its name, and quotes around any value but a single tag. -/
def plainDoc (breaks : Breaks) (name : String) (value : Option (List AttributePart))
    (doubleQuotes : Bool) : Doc :=
  match value with
  | none => name
  | some parts =>
    if AttributePart.variableName? parts = some name then "\x7b\x7b " ++ name ++ " \x7d\x7d"
    else
      let quote := Doc.onlyIf (!AttributePart.isSingleTag parts)
        (AttributePart.quote doubleQuotes parts)
      name ++ "=" ++ quote ++ .concat (parts.map (·.doc breaks)) ++ quote

/-- A directive as a document. A value that is implied by the name is left out. -/
def directiveDoc (breaks : Breaks) (kind : DirectiveKind) (name : String)
    (modifiers : List String) (expr : Option Expr) : Doc :=
  .text (kind.word ++ ":") ++ name ++
    .concat (modifiers.map fun modifier => "|" ++ .text modifier) ++
    .ofOption (fun e => .onlyIf (!(kind.impliesName && e.identifier? = some name))
      ("=\x7b\x7b " ++ e.doc breaks ++ " \x7d\x7d")) expr

/-- **An attribute as a document.** -/
def Attribute.doc (breaks : Breaks) : Attribute → Doc
  | .plain _ name value doubleQuotes => plainDoc breaks name value doubleQuotes
  | .spread _ e => "\x7b\x7b ..." ++ e.doc breaks ++ " \x7d\x7d"
  | .directive _ kind name modifiers e => directiveDoc breaks kind name modifiers e

/-- Whether the attributes of an element are on lines of their own: the source breaks the
line between the name of the element and its first attribute. -/
def wrapsAttributes (breaks : Breaks) (start : Nat) (name : String) : List Attribute → Bool
  | [] => false
  | first :: _ => breaks 1 (start + byteLength name.toList + 1) first.span.start

/-- Attributes on lines of their own. A blank line before an attribute is kept. -/
def wrappedAttributes (breaks : Breaks) (previous : Option Attribute) : List Attribute → Doc
  | [] => .empty
  | current :: rest =>
    let blank := previous.any fun p => breaks 2 p.span.stop current.span.start
    .text (if blank then "\n\n" else "\n") ++ current.doc breaks ++
      wrappedAttributes breaks (some current) rest

/-- **The attributes of an element as a document.** -/
def attributesDoc (breaks : Breaks) (start : Nat) (name : String) (attributes : List Attribute) :
    Doc :=
  if wrapsAttributes breaks start name attributes then
    .nest (wrappedAttributes breaks none attributes) ++ Doc.line
  else .concat (attributes.map fun a => " " ++ a.doc breaks)

/-! ## Nodes -/

def Padded.doc : Padded Doc → Doc
  | .text leading data trailing =>
    .text leading.text ++ .text (String.ofList data) ++ .text trailing.text
  | .node doc => doc

def Doc.siblings (padded : List (Padded Doc)) : Doc :=
  .concat (padded.map Padded.doc)

/-- **The content of an element or a block as a document**, indented. -/
def Doc.fragment (siblings : List (Sibling Doc)) : Doc :=
  .nest (.siblings (Sibling.reconcile false siblings))

def Sibling.isEmptyFragment {α : Type} (siblings : List (Sibling α)) : Bool :=
  (Sibling.reconcile false siblings).isEmpty

/-- The code of a foreign script as a document: its formatted lines, indented. -/
def scriptDoc (script : String → String) (code : String) : Doc :=
  .onlyIf (!Text.isBlankText code.toList)
    (Doc.line ++ .nest (.concat ((Text.lines (script code).toList).map fun line =>
      .text (String.ofList line) ++ Doc.line)))

def scriptCode? (name : String) : List Node → Option String
  | .text _ code :: _ => if name = "script" then some code else none
  | _ => none

def isSingleBranch : List Node → Bool
  | [.ifBlock _ isBranch ..] => isBranch
  | _ => false

/-- **An element as a document**, around the documents of its attributes and its content.
Void elements close themselves, and so do special elements and components without content;
unless the attributes are on lines of their own, a space goes before the end of the tag. -/
def elementDoc (p : Printing) (start : Nat) (kind : ElementKind) (name : String)
    (attributes : List Attribute) (code : Option String) (content : List (Sibling Doc)) : Doc :=
  let space := Doc.onlyIf (!wrapsAttributes p.breaks start name attributes) " "
  let opening (name : String) : Doc := .text ("<" ++ name) ++
    attributesDoc p.breaks start name attributes
  let closing (name : String) : Doc := .text ("</" ++ name ++ ">")
  match kind with
  | .regular =>
    if isVoid name then opening name ++ space ++ "/>"
    else
      opening name ++ ">" ++ (code.map (scriptDoc p.script)).getD (.fragment content) ++
        closing name
  | .title => opening "title" ++ ">" ++ .fragment content ++ closing "title"
  | _ =>
    if Sibling.isEmptyFragment content then opening name ++ space ++ "/>"
    else opening name ++ ">" ++ .fragment content ++ closing name

/-- The rest of an opening or middle tag of an awaiting block: a word and perhaps a name. -/
def outcomeTag (breaks : Breaks) (word : String) (name : Option Expr) : Doc :=
  .text word ++ .ofOption (fun e => " " ++ e.doc breaks) name ++ " %\x7d"

def outcomeDoc (breaks : Breaks) (word : String) (name : Option Expr)
    (content : Option (List (Sibling Doc))) : Doc :=
  .ofOption (fun siblings => .onlyIf (!Sibling.isEmptyFragment siblings)
    (outcomeTag breaks ("\x7b% " ++ word) name ++ .fragment siblings)) content

/-- **An awaiting block as a document**, around the documents of its fragments. -/
def awaitDoc (breaks : Breaks) (e : Expr) (value error : Option Expr)
    (pending resolved rejected : Option (List (Sibling Doc))) : Doc :=
  let body : Doc :=
    match pending, resolved, rejected with
    | some pending, resolved, rejected =>
      " %\x7d" ++ .fragment pending ++ outcomeDoc breaks "then" value resolved ++
        outcomeDoc breaks "catch" error rejected
    | none, some resolved, rejected =>
      outcomeTag breaks " then" value ++ .fragment resolved ++
        outcomeDoc breaks "catch" error rejected
    | none, none, some rejected => outcomeTag breaks " catch" error ++ .fragment rejected
    | none, none, none => " %\x7d"
  "\x7b% await " ++ e.doc breaks ++ body ++ "\x7b% endawait %\x7d"

def loopTag (breaks : Breaks) (index : Option Expr) (name subject : Expr) (key : Option Expr) :
    Doc :=
  "\x7b% for " ++ .ofOption (fun e => e.doc breaks ++ ", ") index ++ name.doc breaks ++
    " in " ++ subject.doc breaks ++ .ofOption (fun e => " #(" ++ e.doc breaks ++ ")") key ++
    " %\x7d"

mutual

/-- **A node as a document.** -/
def Node.doc (p : Printing) : Node → Doc
  | .text _ data => data
  | .comment _ data => .text ("<!-- " ++ String.ofList (Text.trim data.toList) ++ " -->")
  | .element span kind name attributes children =>
    elementDoc p span.start kind name attributes (scriptCode? name children)
      (Node.siblings p children)
  | .expressionTag span e => tagDoc p.breaks span.start e
  | .htmlTag _ e => "\x7b\x7b @html " ++ e.doc p.breaks ++ " \x7d\x7d"
  | .renderTag _ e => "\x7b\x7b @render " ++ e.doc p.breaks ++ " \x7d\x7d"
  | .variableTag _ e => "\x7b% set " ++ e.doc p.breaks ++ " %\x7d"
  | .ifBlock _ isBranch test consequent alternate =>
    .text (if isBranch then "\x7b% elseif " else "\x7b% if ") ++ test.doc p.breaks ++ " %\x7d" ++
      .fragment (Node.siblings p consequent) ++
      (match alternate with
      | none => .empty
      | some nodes =>
        if isSingleBranch nodes then Node.plainDocs p nodes
        else "\x7b% else %\x7d" ++ .fragment (Node.siblings p nodes)) ++
      .onlyIf (!isBranch) "\x7b% endif %\x7d"
  | .forBlock _ index name subject key body fallback =>
    loopTag p.breaks index name subject key ++ .fragment (Node.siblings p body) ++
      (match fallback with
      | none => .empty
      | some nodes => "\x7b% else %\x7d" ++ .fragment (Node.siblings p nodes)) ++
      "\x7b% endfor %\x7d"
  | .keyBlock _ e body =>
    "\x7b% key " ++ e.doc p.breaks ++ " %\x7d" ++ .fragment (Node.siblings p body) ++
      "\x7b% endkey %\x7d"
  | .snippetBlock _ name params body =>
    .text ("\x7b% snippet " ++ name ++ "(") ++ .commas (Expr.docs p.breaks params) ++
      ") %\x7d" ++ .fragment (Node.siblings p body) ++ "\x7b% endsnippet %\x7d"
  | .awaitBlock _ e value error pending resolved rejected =>
    awaitDoc p.breaks e value error
      (match pending with | none => none | some nodes => some (Node.siblings p nodes))
      (match resolved with | none => none | some nodes => some (Node.siblings p nodes))
      (match rejected with | none => none | some nodes => some (Node.siblings p nodes))

def Node.siblings (p : Printing) : List Node → List (Sibling Doc)
  | [] => []
  | .text _ data :: rest => .text data.toList :: Node.siblings p rest
  | node :: rest => .node (node.doc p) :: Node.siblings p rest

def Node.plainDocs (p : Printing) : List Node → Doc
  | [] => .empty
  | node :: rest => node.doc p ++ Node.plainDocs p rest

end

end ComponentTemplate
