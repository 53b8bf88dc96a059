import ComponentTemplate.Layout.Doc
import ComponentTemplate.Stylesheet.Basic

/-!
# Printing stylesheets

Every node is on a line of its own, and every selector of a rule too. A blank line goes
before every rule and wherever the kind of node changes.
-/

namespace ComponentTemplate

/-- **Whether a blank line goes between two nodes.** -/
def StyleNode.wantsBlankLine (previous next : StyleNode) : Bool :=
  next.isRule || !next.sameKind previous

/-- The selectors of a rule, each on a line of its own. -/
def selectorsDoc (selectors : List String) : Doc :=
  .separated ("," ++ Doc.line) (selectors.map Doc.text)

/-- A block around nodes. -/
def Doc.styleBlock (nodes : Doc) : Doc :=
  " \x7b" ++ Doc.line ++ .nest nodes ++ "\x7d"

mutual

/-- **A node of a stylesheet as a document.** -/
def StyleNode.doc : StyleNode → Doc
  | .rule selectors nodes => selectorsDoc selectors ++ .styleBlock (StyleNode.blockDoc nodes)
  | .declaration property value important =>
    .text (property ++ ": " ++ value) ++ .onlyIf important " !important" ++ ";"
  | .atRule name params nodes =>
    "@" ++ name ++ .onlyIf (params ≠ "") (" " ++ params) ++
      match nodes with
      | some nodes => .styleBlock (StyleNode.blockDoc nodes)
      | none => ";"
  | .comment text inline => if inline then "// " ++ text else "/* " ++ text ++ " */"

/-- The nodes of a block, each with a line feed after it, and with a blank line before the next one
where one is wanted. -/
def StyleNode.blockDoc : List StyleNode → Doc
  | [] => .empty
  | [node] => node.doc ++ Doc.line
  | node :: next :: rest =>
    node.doc ++ Doc.line ++ .onlyIf (node.wantsBlankLine next) Doc.line ++
      StyleNode.blockDoc (next :: rest)

end

/-- The nodes of a stylesheet after another node. Each is written after a line feed, and looks back
at the node before it for a blank line. -/
def StyleNode.sheetDocAfter (previous : StyleNode) : List StyleNode → Doc
  | [] => .empty
  | node :: rest =>
    Doc.line ++ .onlyIf (previous.wantsBlankLine node) Doc.line ++ node.doc ++
      node.sheetDocAfter rest

/-- **The nodes of a stylesheet**, with a line feed between any two of them. -/
def StyleNode.sheetDoc : List StyleNode → Doc
  | [] => .empty
  | node :: rest => node.doc ++ node.sheetDocAfter rest

end ComponentTemplate
