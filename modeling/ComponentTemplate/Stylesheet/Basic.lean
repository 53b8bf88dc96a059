/-!
# Stylesheets

The structure of a stylesheet as far as its layout needs it. The text of selectors and
values is kept as written.
-/

namespace ComponentTemplate

/-- **The nodes of a stylesheet.** -/
inductive StyleNode where
  | rule (selectors : List String) (nodes : List StyleNode)
  | declaration (property value : String) (important : Bool)
  | atRule (name params : String) (nodes : Option (List StyleNode))
  /-- A comment up to the end of the line, if `inline`, or up to its closing mark. -/
  | comment (text : String) (inline : Bool)

def StyleNode.sameKind : StyleNode → StyleNode → Bool
  | rule .., rule .. => true
  | declaration .., declaration .. => true
  | atRule .., atRule .. => true
  | comment .., comment .. => true
  | _, _ => false

def StyleNode.isRule : StyleNode → Bool
  | rule .. => true
  | _ => false

end ComponentTemplate
