import ComponentTemplate.Source.Position

/-!
# Tokens

The inside of a tag is read as a sequence of tokens: words, numbers, quoted strings and
marks.
-/

namespace ComponentTemplate

/-- **The kinds of token**, each with the text it is written with. The end of the input is a
token of its own. -/
inductive Lexeme where
  | word (text : String)
  | number (text : String)
  | quoted (text : String)
  | mark (text : String)
  | finish
  deriving DecidableEq, Repr

def Lexeme.text? : Lexeme → Option String
  | .word text => some text
  | .number text => some text
  | .quoted text => some text
  | .mark text => some text
  | .finish => none

/-- **A token and its place** in the source. -/
structure Token where
  lexeme : Lexeme
  span : Span
  deriving DecidableEq, Repr

/-- **The marks**, such that no mark stands before a longer one that it begins. -/
def marks : List String :=
  ["...", "?.", "??", "=>", "==", "!=", "<=", ">=", "+=", "-=", "*=", "/=", "~=", "||", "&&",
    "++", "--", "..", "%\x7d", "(", ")", "[", "]", "\x7b", "\x7d", ",", ";", ":", ".", "?",
    "=", "<", ">", "+", "-", "*", "/", "%", "~", "|", "!", "#", "@"]

theorem length_pos_of_mem_marks : ∀ mark ∈ marks, 0 < mark.toList.length := by
  decide

def isWordStart (c : Char) : Bool :=
  c.isAlpha || c == '_' || c == '$'

def isWordChar (c : Char) : Bool :=
  c.isAlphanum || c == '_' || c == '$'

theorem isWordChar_of_isWordStart {c : Char} (h : isWordStart c = true) :
    isWordChar c = true := by
  simp only [isWordStart, isWordChar, Char.isAlphanum, Bool.or_eq_true] at h ⊢
  rcases h with (h | h) | h <;> simp [h]

def isName : List Char → Bool
  | [] => false
  | c :: cs => isWordStart c && cs.all isWordChar

def reserved : List String :=
  ["and", "or", "not", "in", "is", "true", "false", "null"]

def unescape : Char → Char
  | 'n' => '\n'
  | 't' => '\t'
  | 'r' => '\r'
  | c => c

/-- The text that the inside of a quoted string stands for. A backslash at its end stands
for itself. -/
def decodeEscapes : List Char → List Char
  | [] => []
  | ['\\'] => ['\\']
  | '\\' :: c :: cs => unescape c :: decodeEscapes cs
  | c :: cs => c :: decodeEscapes cs

/-- **The text that a quoted string stands for**: what stands between its quotes, with its
escapes decoded. -/
def unquote (raw : List Char) : List Char :=
  decodeEscapes (raw.drop 1).dropLast

end ComponentTemplate
