import ComponentTemplate.Markup.Parser
import ComponentTemplate.Script.Basic

/-!
# Components

A component is a document at the top level: its content, with its imports, its script and
its style set apart.
-/

namespace ComponentTemplate

/-- The script of a component. -/
structure ScriptBlock where
  span : Span
  body : List Statement

/-- The style of a component. -/
structure StyleBlock where
  span : Span
  attributes : List Attribute
  code : String
  codeSpan : Span

/-- **A component.** -/
structure Component where
  imports : List Import
  script : Option ScriptBlock
  nodes : List Node
  style : Option StyleBlock

def Component.empty : Component :=
  ⟨[], none, [], none⟩

def Attribute.givesScriptLanguage : Attribute → Bool
  | .plain _ "lang" (some [.text language]) _ => language = "zs"
  | _ => false

def RawElement.isComponentScript (element : RawElement) : Bool :=
  element.name = "script" && element.attributes.any Attribute.givesScriptLanguage

def RawElement.isStyle (element : RawElement) : Bool :=
  element.name = "style"

def RawElement.cursor (element : RawElement) : Cursor :=
  ⟨element.codeSpan.start, element.code⟩

def RawElement.toStyle (element : RawElement) : StyleBlock :=
  ⟨element.span, element.attributes, String.ofList element.code, element.codeSpan⟩

end ComponentTemplate
