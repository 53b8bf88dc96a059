import ComponentTemplate.Component.Basic
import ComponentTemplate.Markup.Printer
import ComponentTemplate.Script.Printer
import ComponentTemplate.Stylesheet.Printer

/-!
# Printing components

The imports come first, one to a line, then the script, the content and the style, with
blank lines between them.
-/

namespace ComponentTemplate

def escapeQuotes (text : String) : String :=
  String.ofList (text.toList.flatMap fun c => if c = '"' then ['\\', '"'] else [c])

def Import.doc (tag : Import) : Doc :=
  .text ("\x7b% import " ++ tag.specifier ++ " from \"" ++ escapeQuotes tag.source ++
    "\" %\x7d")

def ScriptBlock.doc (breaks : Breaks) (block : ScriptBlock) : Doc :=
  "<script lang=\"zs\">" ++
    .onlyIf (!block.body.isEmpty) (.nest (Statement.linesDoc breaks block.body) ++ Doc.line) ++
    "</script>"

def StyleBlock.doc (breaks : Breaks) (block : StyleBlock) (sheet : List StyleNode) : Doc :=
  "<style" ++ .concat (block.attributes.map fun a => " " ++ a.doc breaks) ++ ">" ++
    .onlyIf (!sheet.isEmpty) (Doc.line ++ .nest (StyleNode.sheetDoc sheet) ++ Doc.line) ++
    "</style>"

/-- **A component as a document**, with the nodes of its style. -/
def Component.doc (p : Printing) (component : Component) (sheet : List StyleNode) : Doc :=
  let body := Sibling.reconcile true (Node.siblings p component.nodes)
  let hasBody := !body.isEmpty
  let hasImports := !component.imports.isEmpty
  let hasScript := component.script.isSome
  -- every import ends its line, so one line feed more makes a blank line
  .concat (component.imports.map fun tag => tag.doc ++ Doc.line) ++
    .ofOption (ScriptBlock.doc p.breaks) component.script ++
    .onlyIf (hasScript && hasBody) "\n\n" ++
    .onlyIf (hasBody && hasImports && !hasScript) Doc.line ++
    .siblings body ++
    .ofOption (fun block =>
      .text (if hasBody || hasScript then "\n\n" else if hasImports then "\n" else "") ++
        block.doc p.breaks sheet) component.style

end ComponentTemplate
