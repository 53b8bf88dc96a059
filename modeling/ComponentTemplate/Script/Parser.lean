import ComponentTemplate.Expr.Parser
import ComponentTemplate.Script.Basic

/-!
# Reading scripts
-/

namespace ComponentTemplate

namespace Grammar

mutual

/-- **The statements at a stream**, up to the end of the input or, if `nested`, up to the
closing brace of a block, which stays unread. Semicolons without a statement are passed. -/
def statements (nested : Bool) (st : Stream) :
    Except Failure (Parsed (st.remaining + 1) (List Statement)) := do
  if st.atFinish then
    if nested then throw (st.unexpected (.literal "\x7d"))
    return ⟨[], st, by omega⟩
  if nested && st.atMark "\x7d" then return ⟨[], st, by omega⟩
  match ← st.acceptMark ";" with
  | some ⟨_, st₁, h₁⟩ =>
    let ⟨body, st₂, h₂⟩ ← statements nested st₁
    return ⟨body, st₂, by omega⟩
  | none =>
    let ⟨first, st₁, h₁⟩ ← statement st
    let ⟨rest, st₂, h₂⟩ ← statements nested st₁
    return ⟨first :: rest, st₂, by omega⟩
termination_by st.remaining * 2 + 1

/-- **The statement at a stream**: a block, or an expression with a semicolon after it. The
semicolon may be left out before a closing brace and at the end of the input. -/
def statement (st : Stream) : Except Failure (Parsed st.remaining Statement) := do
  let start := st.current.span.start
  match ← st.acceptMark "\x7b" with
  | some ⟨_, st₁, h₁⟩ =>
    let ⟨body, st₂, h₂⟩ ← statements true st₁
    let ⟨_, st₃, h₃⟩ ← st₂.expectMark "\x7d"
    return ⟨.block ⟨start, st₃.lastStop⟩ body, st₃, by omega⟩
  | none =>
    let ⟨e, st₁, h₁⟩ ← expression st
    match ← st₁.acceptMark ";" with
    | some ⟨_, st₂, h₂⟩ => return ⟨.expression ⟨start, st₂.lastStop⟩ e, st₂, by omega⟩
    | none =>
      if st₁.atMark "\x7d" || st₁.atFinish then
        return ⟨.expression ⟨start, st₁.lastStop⟩ e, st₁, h₁⟩
      else throw (st₁.unexpected (.literal ";"))
termination_by st.remaining * 2

end

end Grammar

def Statement.ofCursor (cur : Cursor) : Except Failure (List Statement) := do
  let ⟨_, st, _⟩ ← Stream.start cur
  let ⟨body, _, _⟩ ← Grammar.statements false st
  return body

/-- **The statements that a region of a text holds.** Places are places in the whole
text. -/
def Statement.parse (source : String) (span : Span) : Except Diagnostic (List Statement) :=
  (Statement.ofCursor (.within source.toList span)).mapError (·.toDiagnostic source.toList)

end ComponentTemplate
