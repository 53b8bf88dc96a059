/-!
# Places in a source text

A source text is measured in bytes of its UTF-8 form: a span is a pair of byte offsets. For
a reader the same places are given as lines and columns.
-/

namespace ComponentTemplate

def byteLength : List Char → Nat
  | [] => 0
  | c :: cs => c.utf8Size + byteLength cs

@[simp]
theorem byteLength_nil : byteLength [] = 0 := rfl

@[simp]
theorem byteLength_cons (c : Char) (cs : List Char) :
    byteLength (c :: cs) = c.utf8Size + byteLength cs := rfl

@[simp]
theorem byteLength_append (cs ds : List Char) :
    byteLength (cs ++ ds) = byteLength cs + byteLength ds := by
  induction cs with
  | nil => simp
  | cons c cs ih => simp [ih, Nat.add_assoc]

/-- **A region of the source text**, from the byte offset `start` up to the byte offset
`stop`. -/
structure Span where
  start : Nat
  stop : Nat
  deriving DecidableEq, Repr, Inhabited

def Span.merge (a b : Span) : Span :=
  ⟨min a.start b.start, max a.stop b.stop⟩

/-- **A place for a reader**: a line and a column, both counted from zero. -/
structure Position where
  line : Nat
  column : Nat
  deriving DecidableEq, Repr, Inhabited

/-- The position after a character that stands at a given position: a line feed starts a
new line, any other character takes one column. -/
def Position.next (p : Position) (c : Char) : Position :=
  if c = '\n' then ⟨p.line + 1, 0⟩ else ⟨p.line, p.column + 1⟩

/-- The characters before an offset. -/
def charsBefore : Nat → List Char → List Char
  | 0, _ => []
  | _, [] => []
  | n + 1, c :: cs => c :: charsBefore (n + 1 - c.utf8Size) cs

theorem charsBefore_append (cs ds : List Char) : charsBefore (byteLength cs) (cs ++ ds) = cs := by
  induction cs with
  | nil => cases ds <;> rfl
  | cons c cs ih =>
    have hpos := c.utf8Size_pos
    obtain ⟨n, hn⟩ : ∃ n, byteLength (c :: cs) = n + 1 := ⟨byteLength (c :: cs) - 1, by
      rw [byteLength_cons]
      omega⟩
    have hrest : n + 1 - c.utf8Size = byteLength cs := by
      rw [byteLength_cons] at hn
      omega
    rw [hn, List.cons_append, charsBefore, hrest, ih]

/-- **The position of a byte offset**: where the characters that start before it end. An
offset inside a character has the position after that character, and an offset past the end
that of the end. -/
def Position.ofOffset (source : List Char) (offset : Nat) : Position :=
  (charsBefore offset source).foldl Position.next ⟨0, 0⟩

structure Range where
  start : Position
  stop : Position
  deriving DecidableEq, Repr, Inhabited

def Range.ofSpan (source : List Char) (span : Span) : Range :=
  ⟨Position.ofOffset source span.start, Position.ofOffset source span.stop⟩

def Range.ofDocument (source : List Char) : Range :=
  Range.ofSpan source ⟨0, byteLength source⟩

end ComponentTemplate
