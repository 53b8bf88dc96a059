import ComponentTemplate.Expr.Basic
import ComponentTemplate.Token.Stream

/-!
# Reading expressions

Expressions are read by descent through the levels of the grammar: assignments and arrow
functions, choices, binary operators by their tiers, unary operators, the suffixes of calls
and members, and primary expressions. Each function takes at least one token, which is the
reason why all of them end.
-/

namespace ComponentTemplate

namespace Stream

def arrowMarkAt (cur : Cursor) : Except Failure Bool := do
  let (t, _) ← Token.read cur
  return t.lexeme = .mark "=>"

/-- Whether the rest of a list of parameters, its closing parenthesis and the mark of an
arrow function follow. A name may follow when `wanted`, a comma otherwise. -/
def paramsAhead (wanted : Bool) (cur : Cursor) : Except Failure Bool :=
  match _h : Token.read cur with
  | .error failure => .error failure
  | .ok (t, after) =>
    match _ht : t.lexeme with
    | .word text =>
      if wanted && !reserved.contains text then paramsAhead false after else .ok false
    | .mark "," => if wanted then .ok false else paramsAhead true after
    | .mark ")" => arrowMarkAt after
    | _ => .ok false
termination_by cur.remaining
decreasing_by
  all_goals exact Token.read_remaining_lt _h (by simp [_ht])

/-- **Whether an arrow function stands at a stream**: a word, or parameters in parentheses,
before the mark of an arrow function. -/
def atArrow (st : Stream) : Except Failure Bool :=
  match st.current.lexeme with
  | .word _ => arrowMarkAt st.after
  | .mark "(" => paramsAhead true st.after
  | _ => .ok false

/-- **The binary operator at a stream**, if there is one. The word `not` is one only before
the word `in`. -/
def operator? (st : Stream) : Except Failure (Option BinaryOp) :=
  if st.current.lexeme = .word "not" then do
    let t ← st.peek
    return if t.lexeme = .word "in" then some (.isIn true) else none
  else .ok (BinaryOp.ofLexeme? st.current.lexeme)

theorem ne_finish_of_operator {st : Stream} {op : BinaryOp}
    (h : st.operator? = .ok (some op)) : st.current.lexeme ≠ .finish := by
  unfold operator? at h
  split at h
  · rename_i hnot
    simp [hnot]
  · exact BinaryOp.ne_finish (Except.ok.inj h)

theorem ne_finish_of_update {st : Stream} {lexeme : Lexeme} {op : UpdateOp}
    (h : st.current.lexeme = lexeme) (hop : UpdateOp.ofLexeme? lexeme = some op) :
    st.current.lexeme ≠ .finish := by
  rw [h]
  exact UpdateOp.ne_finish hop

/-- Pass the tokens of the binary operator at a stream. A type test is negated by a word
after it. -/
def passOperator (st : Stream) (op : BinaryOp) (h : st.current.lexeme ≠ .finish) :
    Except Failure (Parsed st.remaining BinaryOp) := do
  let ⟨_, st₁, h₁⟩ ← st.next h
  match op with
  | .isIn true =>
    let ⟨_, st₂, h₂⟩ ← st₁.expectWord "in"
    return ⟨.isIn true, st₂, by omega⟩
  | .is _ =>
    match ← st₁.acceptWord "not" with
    | some ⟨_, st₂, h₂⟩ => return ⟨.is true, st₂, by omega⟩
    | none => return ⟨.is false, st₁, h₁⟩
  | op => return ⟨op, st₁, h₁⟩

def identifierExpr (st : Stream) : Except Failure (Parsed st.remaining Expr) := do
  let ⟨(name, span), st₁, h₁⟩ ← st.identifier
  return ⟨.identifier span name, st₁, h₁⟩

/-- Any word as an identifier. Names of members and keys may be reserved words. -/
def nameExpr (st : Stream) : Except Failure (Parsed st.remaining Expr) := do
  let ⟨(name, span), st₁, h₁⟩ ← st.name
  return ⟨.identifier span name, st₁, h₁⟩

/-- Identifiers with commas between them, up to a closing parenthesis, which stays unread.
A comma may follow the last one. -/
def params (st : Stream) : Except Failure (Parsed (st.remaining + 1) (List Expr)) := do
  if st.atMark ")" then return ⟨[], st, by omega⟩
  let ⟨param, st₁, h₁⟩ ← st.identifierExpr
  match ← st₁.acceptMark "," with
  | none => return ⟨[param], st₁, by omega⟩
  | some ⟨_, st₂, h₂⟩ =>
    let ⟨rest, st₃, h₃⟩ ← st₂.params
    return ⟨param :: rest, st₃, by omega⟩
termination_by st.remaining

end Stream

namespace Grammar

/-- The parameters of an arrow function: one identifier, or any number in parentheses. -/
def arrowParams (st : Stream) : Except Failure (Parsed st.remaining (List Expr)) := do
  match ← st.acceptMark "(" with
  | some ⟨_, st₁, h₁⟩ =>
    let ⟨params, st₂, h₂⟩ ← st₁.params
    let ⟨_, st₃, h₃⟩ ← st₂.expectMark ")"
    return ⟨params, st₃, by omega⟩
  | none =>
    let ⟨param, st₁, h₁⟩ ← st.identifierExpr
    return ⟨[param], st₁, h₁⟩

/-- A literal number or string at a stream, which is also what an object's key may be. -/
def literal? (st : Stream) : Option (Except Failure (Parsed st.remaining Expr)) :=
  match h : st.current.lexeme with
  | .number raw => some do
    let ⟨t, st₁, h₁⟩ ← st.next (by simp [h])
    return ⟨.number t.span (.ofLiteral raw.toList) raw, st₁, h₁⟩
  | .quoted raw => some do
    let ⟨t, st₁, h₁⟩ ← st.next (Stream.ne_finish_of_quoted h)
    return ⟨.string t.span (String.ofList (unquote raw.toList)) raw, st₁, h₁⟩
  | _ => none

def key (st : Stream) : Except Failure (Parsed st.remaining Expr) :=
  match st.current.lexeme with
  | .word _ => st.nameExpr
  | _ => (literal? st).getD (.error (st.unexpected .propertyName))

def wordPrimary (st : Stream) (text : String) (h : st.current.lexeme = .word text) :
    Except Failure (Parsed st.remaining Expr) :=
  match text with
  | "true" => do
    let ⟨t, st₁, h₁⟩ ← st.next (by simp [h])
    return ⟨.boolean t.span true, st₁, h₁⟩
  | "false" => do
    let ⟨t, st₁, h₁⟩ ← st.next (by simp [h])
    return ⟨.boolean t.span false, st₁, h₁⟩
  | "null" => do
    let ⟨t, st₁, h₁⟩ ← st.next (by simp [h])
    return ⟨.null t.span, st₁, h₁⟩
  | _ => st.identifierExpr

mutual

/-- **The expression at a stream**: an arrow function, an assignment or a choice. -/
def expression (st : Stream) : Except Failure (Parsed st.remaining Expr) := do
  if ← st.atArrow then
    -- parameters look like an expression, so this is decided before anything is read
    let ⟨params, st₁, h₁⟩ ← arrowParams st
    let ⟨_, st₂, h₂⟩ ← st₁.expectMark "=>"
    let ⟨body, st₃, h₃⟩ ← expression st₂
    return ⟨.arrow ⟨st.current.span.start, st₃.lastStop⟩ params body, st₃, by omega⟩
  else
    let ⟨left, st₁, h₁⟩ ← choice st
    match h : AssignmentOp.ofLexeme? st₁.current.lexeme with
    | none => return ⟨left, st₁, h₁⟩
    | some op =>
      if left.isAssignable then
        -- assignments group from the right
        let ⟨_, st₂, h₂⟩ ← st₁.next (AssignmentOp.ne_finish h)
        let ⟨right, st₃, h₃⟩ ← expression st₂
        return ⟨.assignment (left.span.merge right.span) op left right, st₃, by omega⟩
      else throw ⟨.invalidAssignmentTarget, left.span⟩
termination_by st.remaining * 8 + 6

/-- A choice between two expressions, or an expression of binary operators. -/
def choice (st : Stream) : Except Failure (Parsed st.remaining Expr) := do
  let ⟨test, st₁, h₁⟩ ← binary 0 st
  match ← st₁.acceptMark "?" with
  | none => return ⟨test, st₁, h₁⟩
  | some ⟨_, st₂, h₂⟩ =>
    let ⟨consequent, st₃, h₃⟩ ← expression st₂
    let ⟨_, st₄, h₄⟩ ← st₃.expectMark ":"
    let ⟨alternate, st₅, h₅⟩ ← expression st₄
    return ⟨.conditional (test.span.merge alternate.span) test consequent alternate, st₅, by
      omega⟩
termination_by st.remaining * 8 + 5

/-- **An expression of binary operators** of at least a given tier. -/
def binary (tier : Nat) (st : Stream) : Except Failure (Parsed st.remaining Expr) := do
  let ⟨left, st₁, h₁⟩ ← unary st
  let ⟨e, st₂, h₂⟩ ← binaryRest tier left st₁
  return ⟨e, st₂, by omega⟩
termination_by st.remaining * 8 + 4

/-- The operators and operands after a first operand. Each right operand takes the operators
that bind more strongly, so that operators of one tier group from the left. -/
def binaryRest (tier : Nat) (left : Expr) (st : Stream) :
    Except Failure (Parsed (st.remaining + 1) Expr) :=
  match h : st.operator? with
  | .error failure => .error failure
  | .ok none => .ok ⟨left, st, by omega⟩
  | .ok (some op) =>
    if op.tier < tier then .ok ⟨left, st, by omega⟩
    else do
      -- the right operand leaves the operators of this tier to the next round
      let ⟨op, st₁, h₁⟩ ← st.passOperator op (Stream.ne_finish_of_operator h)
      let ⟨right, st₂, h₂⟩ ← binary (op.tier + 1) st₁
      let ⟨e, st₃, h₃⟩ ←
        binaryRest tier (.binary (left.span.merge right.span) op left right) st₂
      return ⟨e, st₃, by omega⟩
termination_by st.remaining * 8

/-- An expression with any number of unary operators, or with a leading update operator. -/
def unary (st : Stream) : Except Failure (Parsed st.remaining Expr) :=
  match h : UnaryOp.ofLexeme? st.current.lexeme with
  | some op => do
    let ⟨_, st₁, h₁⟩ ← st.next (UnaryOp.ne_finish h)
    let ⟨argument, st₂, h₂⟩ ← unary st₁
    return ⟨.unary ⟨st.current.span.start, st₂.lastStop⟩ op argument, st₂, by omega⟩
  | none =>
    match h : UpdateOp.ofLexeme? st.current.lexeme with
    | some op => do
      let ⟨_, st₁, h₁⟩ ← st.next (UpdateOp.ne_finish h)
      let ⟨argument, st₂, h₂⟩ ← suffixed st₁
      return ⟨.update ⟨st.current.span.start, st₂.lastStop⟩ op true argument, st₂, by omega⟩
    | none => suffixed st
termination_by st.remaining * 8 + 3

def suffixed (st : Stream) : Except Failure (Parsed st.remaining Expr) := do
  let ⟨e, st₁, h₁⟩ ← primary st
  let ⟨e, st₂, h₂⟩ ← suffixes st.current.span.start e st₁
  return ⟨e, st₂, by omega⟩
termination_by st.remaining * 8 + 2

/-- **The suffixes of an expression**: members, calls and filters, and at the very end an
update operator. -/
def suffixes (start : Nat) (e : Expr) (st : Stream) :
    Except Failure (Parsed (st.remaining + 1) Expr) :=
  match h : st.current.lexeme with
  | .mark "." => do
    let ⟨_, st₁, h₁⟩ ← st.next (Stream.ne_finish_of_mark h)
    let ⟨property, st₂, h₂⟩ ← st₁.nameExpr
    let ⟨e, st₃, h₃⟩ ←
      suffixes start (.member ⟨start, st₂.lastStop⟩ e property false false) st₂
    return ⟨e, st₃, Shrinks.twice_then h₁ h₂ h₃⟩
  | .mark "?." => do
    let ⟨_, st₁, h₁⟩ ← st.next (Stream.ne_finish_of_mark h)
    let ⟨e, st₂, h₂⟩ ← optionalSuffix start e st₁
    let ⟨e, st₃, h₃⟩ ← suffixes start e st₂
    return ⟨e, st₃, Shrinks.twice_then h₁ h₂ h₃⟩
  | .mark "[" => do
    let ⟨_, st₁, h₁⟩ ← st.next (Stream.ne_finish_of_mark h)
    let ⟨property, st₂, h₂⟩ ← expression st₁
    let ⟨_, st₃, h₃⟩ ← st₂.expectMark "]"
    let ⟨e, st₄, h₄⟩ ←
      suffixes start (.member ⟨start, st₃.lastStop⟩ e property true false) st₃
    return ⟨e, st₄, Shrinks.thrice_then h₁ h₂ h₃ h₄⟩
  | .mark "(" => do
    let ⟨_, st₁, h₁⟩ ← st.next (Stream.ne_finish_of_mark h)
    let ⟨arguments, st₂, h₂⟩ ← elements ")" st₁
    let ⟨e, st₃, h₃⟩ ← suffixes start (.call ⟨start, st₂.lastStop⟩ e arguments false) st₂
    return ⟨e, st₃, Shrinks.twice_then h₁ h₂ h₃⟩
  | .mark "|" => do
    let ⟨_, st₁, h₁⟩ ← st.next (Stream.ne_finish_of_mark h)
    let ⟨(name, _), st₂, h₂⟩ ← st₁.name
    match ← st₂.acceptMark "(" with
    | none =>
      let ⟨e, st₃, h₃⟩ ← suffixes start (.filter ⟨start, st₂.lastStop⟩ e name []) st₂
      return ⟨e, st₃, Shrinks.twice_then h₁ h₂ h₃⟩
    | some ⟨_, st₃, h₃⟩ =>
      let ⟨arguments, st₄, h₄⟩ ← elements ")" st₃
      let ⟨e, st₅, h₅⟩ ←
        suffixes start (.filter ⟨start, st₄.lastStop⟩ e name arguments) st₄
      return ⟨e, st₅, Shrinks.four_then h₁ h₂ h₃ h₄ h₅⟩
  | lexeme =>
    match hop : UpdateOp.ofLexeme? lexeme with
    | some op => do
      -- nothing may follow an update operator
      let ⟨_, st₁, h₁⟩ ← st.next (Stream.ne_finish_of_update h hop)
      return ⟨.update ⟨start, st₁.lastStop⟩ op false e, st₁, Shrinks.loosen h₁⟩
    | none => .ok ⟨e, st, Shrinks.self Stream.remaining st⟩
termination_by st.remaining * 8

/-- What may follow the mark of an optional access: arguments, a computed member or a
name. -/
def optionalSuffix (start : Nat) (e : Expr) (st : Stream) :
    Except Failure (Parsed st.remaining Expr) :=
  match h : st.current.lexeme with
  | .mark "(" => do
    let ⟨_, st₁, h₁⟩ ← st.next (by simp [h])
    let ⟨arguments, st₂, h₂⟩ ← elements ")" st₁
    return ⟨.call ⟨start, st₂.lastStop⟩ e arguments true, st₂, by omega⟩
  | .mark "[" => do
    let ⟨_, st₁, h₁⟩ ← st.next (by simp [h])
    let ⟨property, st₂, h₂⟩ ← expression st₁
    let ⟨_, st₃, h₃⟩ ← st₂.expectMark "]"
    return ⟨.member ⟨start, st₃.lastStop⟩ e property true true, st₃, by omega⟩
  | _ => do
    let ⟨property, st₁, h₁⟩ ← st.nameExpr
    return ⟨.member ⟨start, st₁.lastStop⟩ e property false true, st₁, h₁⟩
termination_by st.remaining * 8

/-- **A primary expression**: a literal, a word, a list, an object, or any expression in
parentheses, which leave no trace in the tree. -/
def primary (st : Stream) : Except Failure (Parsed st.remaining Expr) :=
  match h : st.current.lexeme with
  | .word text => wordPrimary st text h
  | .mark "(" => do
    let ⟨_, st₁, h₁⟩ ← st.next (by simp [h])
    let ⟨e, st₂, h₂⟩ ← expression st₁
    let ⟨_, st₃, h₃⟩ ← st₂.expectMark ")"
    return ⟨e, st₃, by omega⟩
  | .mark "[" => do
    let ⟨t, st₁, h₁⟩ ← st.next (by simp [h])
    let ⟨items, st₂, h₂⟩ ← elements "]" st₁
    return ⟨.array ⟨t.span.start, st₂.lastStop⟩ items, st₂, by omega⟩
  | .mark "\x7b" => do
    let ⟨t, st₁, h₁⟩ ← st.next (by simp [h])
    let ⟨entries, st₂, h₂⟩ ← properties st₁
    let ⟨_, st₃, h₃⟩ ← st₂.expectMark "\x7d"
    return ⟨.object ⟨t.span.start, st₃.lastStop⟩ entries, st₃, by omega⟩
  | _ => (literal? st).getD (.error (st.unexpected .expression))
termination_by st.remaining * 8 + 1

/-- **Expressions with commas between them**, up to and with a closing mark. A comma may
follow the last one. -/
def elements (close : String) (st : Stream) :
    Except Failure (Parsed st.remaining (List Expr)) := do
  match ← st.acceptMark close with
  | some ⟨_, st₁, h₁⟩ => return ⟨[], st₁, h₁⟩
  | none =>
    let ⟨e, st₁, h₁⟩ ← expression st
    match ← st₁.acceptMark "," with
    | none =>
      let ⟨_, st₂, h₂⟩ ← st₁.expectMark close
      return ⟨[e], st₂, by omega⟩
    | some ⟨_, st₂, h₂⟩ =>
      let ⟨es, st₃, h₃⟩ ← elements close st₂
      return ⟨e :: es, st₃, by omega⟩
termination_by st.remaining * 8 + 7

/-- The entries of an object with commas between them, up to its closing brace, which stays
unread. -/
def properties (st : Stream) : Except Failure (Parsed (st.remaining + 1) (List Property)) := do
  if st.atMark "\x7d" then return ⟨[], st, by omega⟩
  let ⟨key, st₁, h₁⟩ ← key st
  let ⟨_, st₂, h₂⟩ ← st₁.expectMark ":"
  let ⟨value, st₃, h₃⟩ ← expression st₂
  match ← st₃.acceptMark "," with
  | none => return ⟨[.mk key value], st₃, by omega⟩
  | some ⟨_, st₄, h₄⟩ =>
    let ⟨rest, st₅, h₅⟩ ← properties st₄
    return ⟨.mk key value :: rest, st₅, by omega⟩
termination_by st.remaining * 8

end

end Grammar

def Expr.ofChars (source : List Char) : Except Failure Expr := do
  let ⟨_, st, _⟩ ← Stream.start (Cursor.ofSource source)
  let ⟨e, st₁, _⟩ ← Grammar.expression st
  if st₁.atFinish then return e else throw (st₁.unexpected .endOfExpression)

/-- **The expression that a text writes.** The whole text has to be read. -/
def Expr.parse (source : String) : Except Diagnostic Expr :=
  (Expr.ofChars source.toList).mapError (·.toDiagnostic source.toList)

end ComponentTemplate
