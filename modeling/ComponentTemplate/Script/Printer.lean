import ComponentTemplate.Expr.Printer
import ComponentTemplate.Script.Basic

/-!
# Printing scripts
-/

namespace ComponentTemplate

mutual

/-- **A statement as a document**: an expression with a semicolon, or a block with each
statement on a line of its own. -/
def Statement.doc (breaks : Breaks) : Statement → Doc
  | .expression _ expr => expr.doc breaks ++ ";"
  | .block _ body =>
    "\x7b" ++ .onlyIf (!body.isEmpty) (.nest (Statement.linesDoc breaks body) ++ Doc.line) ++
      "\x7d"

def Statement.linesDoc (breaks : Breaks) : List Statement → Doc
  | [] => .empty
  | statement :: rest => Doc.line ++ statement.doc breaks ++ Statement.linesDoc breaks rest

end

end ComponentTemplate
