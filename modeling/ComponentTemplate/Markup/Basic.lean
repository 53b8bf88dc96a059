import ComponentTemplate.Expr.Basic

/-!
# Markup

The content of a component: texts, comments, elements with their attributes, inline tags and
blocks.
-/

namespace ComponentTemplate

/-- **The kinds of elements.** The special ones are told by a name of two parts. -/
inductive ElementKind where
  | regular
  | title
  | component
  | specialSelf
  | specialHead
  | specialElement
  | specialComponent
  deriving DecidableEq, Repr

def voidElements : List String :=
  ["area", "base", "br", "col", "embed", "hr", "img", "input", "link", "meta", "param",
    "source", "track", "wbr"]

/-- Whether a name is that of an element that never has content, in capitals or not. -/
def isVoid (name : String) : Bool :=
  voidElements.contains (String.ofList (name.toList.map Char.toLower))

/-- **A part of the value of an attribute.** -/
inductive AttributePart where
  | text (data : String)
  | tag (span : Span) (expr : Expr)

/-- **The kinds of directives**, each with a word of its own. -/
inductive DirectiveKind where
  | cssClass
  | on
  | use
  | bind
  | transition
  | enter
  | leave
  deriving DecidableEq, Repr

def DirectiveKind.word : DirectiveKind → String
  | .cssClass => "class"
  | .on => "on"
  | .use => "use"
  | .bind => "bind"
  | .transition => "transition"
  | .enter => "in"
  | .leave => "out"

def DirectiveKind.ofWord? : String → Option DirectiveKind
  | "class" => some .cssClass
  | "on" => some .on
  | "use" => some .use
  | "bind" => some .bind
  | "transition" => some .transition
  | "in" => some .enter
  | "out" => some .leave
  | _ => none

theorem DirectiveKind.ofWord?_word (kind : DirectiveKind) :
    DirectiveKind.ofWord? kind.word = some kind := by
  cases kind <;> rfl

/-- Whether a directive without a value stands for the variable of its own name. -/
def DirectiveKind.impliesName : DirectiveKind → Bool
  | .cssClass | .bind => true
  | _ => false

/-- **The attributes of an element.** -/
inductive Attribute where
  /-- A name, with the parts of its value if it has one, and whether the value was in double
  quotes. Unquoted values count as if in double quotes. -/
  | plain (span : Span) (name : String) (value : Option (List AttributePart))
      (doubleQuotes : Bool)
  | spread (span : Span) (expr : Expr)
  | directive (span : Span) (kind : DirectiveKind) (name : String) (modifiers : List String)
      (expr : Option Expr)

def Attribute.span : Attribute → Span
  | plain span .. | spread span .. | directive span .. => span

/-- **The nodes of the content.** -/
inductive Node where
  | text (span : Span) (data : String)
  | comment (span : Span) (data : String)
  | element (span : Span) (kind : ElementKind) (name : String) (attributes : List Attribute)
      (children : List Node)
  | expressionTag (span : Span) (expr : Expr)
  | htmlTag (span : Span) (expr : Expr)
  | renderTag (span : Span) (expr : Expr)
  | variableTag (span : Span) (expr : Expr)
  /-- A condition. One that is a further branch of another condition is its only
  alternative. -/
  | ifBlock (span : Span) (isBranch : Bool) (test : Expr) (consequent : List Node)
      (alternate : Option (List Node))
  | forBlock (span : Span) (index : Option Expr) (item : Expr) (subject : Expr)
      (key : Option Expr) (body : List Node) (fallback : Option (List Node))
  | keyBlock (span : Span) (expr : Expr) (body : List Node)
  | snippetBlock (span : Span) (name : String) (params : List Expr) (body : List Node)
  /-- A value to wait for: what to show while waiting, with the value, and after an error.
  Without the first, one of the other two stands in the opening tag. -/
  | awaitBlock (span : Span) (expr : Expr) (value error : Option Expr)
      (pending resolved rejected : Option (List Node))

def Node.span : Node → Span
  | text span .. | comment span .. | element span .. | expressionTag span .. | htmlTag span ..
  | renderTag span .. | variableTag span .. | ifBlock span .. | forBlock span ..
  | keyBlock span .. | snippetBlock span .. | awaitBlock span .. => span

/-- **Put a node before others.** A text before a text is joined to it. -/
def Node.cons : Node → List Node → List Node
  | .text span data, .text span' data' :: rest =>
    .text (span.merge span') (data ++ data') :: rest
  | node, nodes => node :: nodes

end ComponentTemplate
