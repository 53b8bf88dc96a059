import ComponentTemplate.Component.Basic
import ComponentTemplate.Script.Parser
import ComponentTemplate.Stylesheet.Parser

/-!
# Reading components

At the top level imports, the script and the style are set apart from the content, wherever
they stand. Texts on their two sides become one text.
-/

namespace ComponentTemplate

/-- The first part of the names of special elements, unless another one is chosen. -/
def defaultSpecialTag : String :=
  "zvelte"

/-- **The parts of a component** at the top level. -/
inductive Part where
  | node (node : Node)
  | importTag (tag : Import)
  | script (block : ScriptBlock)
  | style (block : StyleBlock)

def Part.isScript : Part → Bool
  | script _ => true
  | _ => false

def Part.isStyle : Part → Bool
  | style _ => true
  | _ => false

/-- **What an item is at the top level.** A component has at most one script and one style;
`hasScript` and `hasStyle` tell whether they stand before the item. -/
def Item.topLevel (hasScript hasStyle : Bool) : Item → Except Failure Part
  | .node value => .ok (.node value)
  | .importTag tag => .ok (.importTag tag)
  | .raw element =>
    if element.isComponentScript then
      if hasScript then .error ⟨.repeatedScript, element.span⟩
      else do
        let body ← Statement.ofCursor element.cursor
        return .script ⟨element.span, body⟩
    else if element.isStyle then
      if hasStyle then .error ⟨.repeatedStyle, element.span⟩
      else .ok (.style element.toStyle)
    else .ok (.node element.toNode)

namespace Component

/-- **A component with one more part** before all others. -/
def add (component : Component) : Part → Component
  | .node node => { component with nodes := node.cons component.nodes }
  | .importTag tag => { component with imports := tag :: component.imports }
  | .script block => { component with script := some block }
  | .style block => { component with style := some block }

/-- **The component that follows a cursor.** `hasScript` and `hasStyle` tell whether a script
and a style stand before the cursor. -/
def ofCursor (ctx : MarkupContext) (hasScript hasStyle : Bool) (cur : Cursor) :
    Except Failure Component :=
  match hrest : cur.rest with
  | [] => .ok .empty
  | _ :: _ => do
    if cur.startsWith "</" then throw ⟨.unexpectedClosingTag, cur.here⟩
    let ⟨item, next, _⟩ ← MarkupGrammar.item ctx cur (Cursor.remaining_pos hrest)
    let part ← item.topLevel hasScript hasStyle
    let later ← ofCursor ctx (hasScript || part.isScript) (hasStyle || part.isStyle) next
    return later.add part
termination_by cur.remaining

def ofChars (special : String) (source : List Char) : Except Failure Component :=
  ofCursor { special } false false (.ofSource source)

/-- **The component that a text writes.** -/
def parse (source : String) (special : String) : Except Diagnostic Component :=
  (ofChars special source.toList).mapError (·.toDiagnostic source.toList)

/-- The nodes of the style of a component, read from the source; none if it has no style. -/
def stylesheet (component : Component) (source : List Char) :
    Except Failure (List StyleNode) :=
  match component.style with
  | none => .ok []
  | some block => StyleNode.ofCursor (.within source block.codeSpan)

end Component

end ComponentTemplate
