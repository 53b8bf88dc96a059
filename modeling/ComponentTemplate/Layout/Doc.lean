import ComponentTemplate.Layout.Writer

/-!
# Documents

A document says what is to be written and which part of it is indented, without the
indentation itself. Writing a document leaves the level of indentation as it was.
-/

namespace ComponentTemplate

/-- **The line breaks of the source, as a layout asks for them**: whether at least `count`
line breaks stand between two offsets. -/
abbrev Breaks := (count start stop : Nat) → Bool

/-- **A document**: nothing, a text, one document after another, or an indented document. -/
inductive Doc where
  | empty
  | text (text : String)
  | append (first second : Doc)
  | nest (doc : Doc)
  deriving Repr, Inhabited

namespace Doc

instance : Append Doc := ⟨append⟩

instance : Coe String Doc := ⟨text⟩

def line : Doc :=
  "\n"

def onlyIf (condition : Bool) (doc : Doc) : Doc :=
  if condition then doc else empty

def ofOption {α : Type} (f : α → Doc) : Option α → Doc
  | none => empty
  | some a => f a

def concat (docs : List Doc) : Doc :=
  docs.foldr append empty

def separated (separator : Doc) : List Doc → Doc
  | [] => empty
  | [doc] => doc
  | doc :: docs => doc ++ (separator ++ separated separator docs)

def commas (docs : List Doc) : Doc :=
  separated ", " docs

/-- **Write a document.** The level of indentation is the same before and after. -/
def write : Doc → Writer → Writer
  | empty, w => w
  | text s, w => w.add s.toList
  | append a b, w => b.write (a.write w)
  | nest d, w => { d.write w.indent with level := w.level }

/-- **The text of a document**, for a given unit of indentation. -/
def render (unit : String) (doc : Doc) : String :=
  (doc.write (Writer.start unit)).output

@[simp]
theorem level_write (d : Doc) (w : Writer) : (d.write w).level = w.level := by
  induction d generalizing w with
  | empty => rfl
  | text s => simp [write]
  | append a b iha ihb => simp [write, iha, ihb]
  | nest d _ => rfl

@[simp]
theorem unit_write (d : Doc) (w : Writer) : (d.write w).unit = w.unit := by
  induction d generalizing w with
  | empty => rfl
  | text s => simp [write]
  | append a b iha ihb => simp [write, iha, ihb]
  | nest d ih => simp [write, ih, Writer.indent]

end Doc

end ComponentTemplate
