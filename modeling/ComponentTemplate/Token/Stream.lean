import ComponentTemplate.Token.Scan

/-!
# Token streams

A stream reads tokens on demand: it holds the current token and the cursor after it, and
never reads further than asked. What follows a tag is thus not read as tokens.
-/

namespace ComponentTemplate

/-- **A stream of tokens**: the current token, the place after it, and the offset where the
token before it ended. -/
structure Stream where
  current : Token
  after : Cursor
  lastStop : Nat
  deriving Repr

namespace Stream

/-- A measure of what is left: zero at the end of the input, and otherwise one more than the
number of characters after the current token. -/
def remaining (st : Stream) : Nat :=
  match st.current.lexeme with
  | .finish => 0
  | _ => st.after.remaining + 1

theorem remaining_of_ne {st : Stream} (h : st.current.lexeme ≠ .finish) :
    st.remaining = st.after.remaining + 1 := by
  unfold remaining
  split
  · contradiction
  · rfl

theorem ne_finish_of_mark {st : Stream} {text : String} (h : st.current.lexeme = .mark text) :
    st.current.lexeme ≠ .finish := by
  simp [h]

theorem ne_finish_of_quoted {st : Stream} {raw : String} (h : st.current.lexeme = .quoted raw) :
    st.current.lexeme ≠ .finish := by
  simp [h]

end Stream

abbrev Parsed (bound : Nat) (α : Type) : Type :=
  Progress Stream Stream.remaining bound α

namespace Stream

theorem remaining_read_lt {cur after : Cursor} {t : Token} {stop : Nat}
    (h : Token.read cur = .ok (t, after)) :
    (Stream.mk t after stop).remaining < cur.remaining + 1 := by
  by_cases ht : t.lexeme = .finish
  · simp [remaining, ht]
  · rw [remaining_of_ne ht]
    exact Nat.succ_lt_succ (Token.read_remaining_lt h ht)

/-- **The stream of the tokens after a cursor.** -/
def start (cur : Cursor) : Except Failure (Parsed (cur.remaining + 1) Unit) :=
  match h : Token.read cur with
  | .ok (t, after) => .ok ⟨(), ⟨t, after, cur.offset⟩, remaining_read_lt h⟩
  | .error failure => .error failure

/-- **Pass the current token**, which is not the end of the input. -/
def next (st : Stream) (h : st.current.lexeme ≠ .finish) :
    Except Failure (Parsed st.remaining Token) :=
  match hread : Token.read st.after with
  | .ok (t, after) =>
    .ok ⟨st.current, ⟨t, after, st.current.span.stop⟩, by
      rw [remaining_of_ne h]; exact remaining_read_lt hread⟩
  | .error failure => .error failure

def peek (st : Stream) : Except Failure Token :=
  Prod.fst <$> Token.read st.after

def unexpected (st : Stream) (expected : Expected) : Failure :=
  ⟨.unexpectedToken expected st.current.lexeme.text?, st.current.span⟩

def atMark (st : Stream) (text : String) : Bool :=
  st.current.lexeme = .mark text

def atFinish (st : Stream) : Bool :=
  st.current.lexeme = .finish

def acceptMark (st : Stream) (text : String) :
    Except Failure (Option (Parsed st.remaining Token)) :=
  if h : st.current.lexeme = .mark text then some <$> st.next (by simp [h]) else .ok none

def acceptWord (st : Stream) (text : String) :
    Except Failure (Option (Parsed st.remaining Token)) :=
  if h : st.current.lexeme = .word text then some <$> st.next (by simp [h]) else .ok none

def expectMark (st : Stream) (text : String) : Except Failure (Parsed st.remaining Token) :=
  if h : st.current.lexeme = .mark text then st.next (by simp [h])
  else .error (st.unexpected (.literal text))

def expectWord (st : Stream) (text : String) : Except Failure (Parsed st.remaining Token) :=
  if h : st.current.lexeme = .word text then st.next (by simp [h])
  else .error (st.unexpected (.literal text))

def name (st : Stream) : Except Failure (Parsed st.remaining (String × Span)) :=
  match h : st.current.lexeme with
  | .word text => do
    let passed ← st.next (by simp [h])
    return passed.map fun t => (text, t.span)
  | _ => .error (st.unexpected .identifier)

def identifier (st : Stream) : Except Failure (Parsed st.remaining (String × Span)) :=
  match h : st.current.lexeme with
  | .word text =>
    if text ∈ reserved then .error (st.unexpected .identifier)
    else do
      let passed ← st.next (by simp [h])
      return passed.map fun t => (text, t.span)
  | _ => .error (st.unexpected .identifier)

def string (st : Stream) : Except Failure (Parsed st.remaining String) :=
  match h : st.current.lexeme with
  | .quoted raw => do
    let passed ← st.next (ne_finish_of_quoted h)
    return passed.map fun _ => String.ofList (unquote raw.toList)
  | _ => .error (st.unexpected .string)

/-- **The end of an inline tag**: two adjacent closing braces, the first of which is the
current token. Gives the place after them. -/
def closeInline (st : Stream) : Except Failure (Scanned st.remaining Unit) :=
  if h : st.current.lexeme = .mark "\x7d" ∧ st.after.rest.head? = some '}' then
    .ok ⟨(), st.after.skip 1, by
      rw [remaining_of_ne (by simp [h.1]), Cursor.remaining_skip]
      omega⟩
  else .error (st.unexpected (.literal "\x7d\x7d"))

/-- **The end of a block tag**, which is the current token. Gives the place after it. -/
def closeBlock (st : Stream) : Except Failure (Scanned st.remaining Unit) :=
  if h : st.current.lexeme = .mark "%\x7d" then
    .ok ⟨(), st.after, by rw [remaining_of_ne (by simp [h])]; omega⟩
  else .error (st.unexpected (.literal "%\x7d"))

end Stream

end ComponentTemplate
