import ComponentTemplate.Expr.Basic

/-!
# Scripts

The script of a component is a list of statements.
-/

namespace ComponentTemplate

/-- **Statements.** -/
inductive Statement where
  | expression (span : Span) (expr : Expr)
  | block (span : Span) (body : List Statement)

def Statement.span : Statement → Span
  | expression span _ => span
  | block span _ => span

end ComponentTemplate
