import ComponentTemplate.Token.Basic

/-!
# Operators

The operators of expressions, how they are written, and how strongly they bind.
-/

namespace ComponentTemplate

inductive UnaryOp where
  | not
  | minus
  | plus
  deriving DecidableEq, Repr

/-- **The operators written between two operands.** Type tests and membership tests may be
negated. -/
inductive BinaryOp where
  | or
  | pipePipe
  | nullish
  | and
  | ampAmp
  | equal
  | notEqual
  | less
  | greater
  | lessEqual
  | greaterEqual
  | is (negated : Bool)
  | isIn (negated : Bool)
  | range
  | concat
  | add
  | sub
  | mul
  | div
  | rem
  deriving DecidableEq, Repr

inductive AssignmentOp where
  | assign
  | add
  | sub
  | mul
  | div
  | concat
  deriving DecidableEq, Repr

inductive UpdateOp where
  | increment
  | decrement
  deriving DecidableEq, Repr

/-- **The binding strength** of a binary operator, weakest first. Operators of one tier
group from the left. -/
def BinaryOp.tier : BinaryOp → Nat
  | .or | .pipePipe | .nullish => 0
  | .and | .ampAmp => 1
  | .equal | .notEqual | .less | .greater | .lessEqual | .greaterEqual => 2
  | .is _ | .isIn _ => 2
  | .range => 3
  | .concat => 4
  | .add | .sub => 5
  | .mul | .div | .rem => 6

def UnaryOp.symbol : UnaryOp → String
  | .not => "not"
  | .minus => "-"
  | .plus => "+"

def BinaryOp.symbol : BinaryOp → String
  | .or => "or"
  | .pipePipe => "||"
  | .nullish => "??"
  | .and => "and"
  | .ampAmp => "&&"
  | .equal => "=="
  | .notEqual => "!="
  | .less => "<"
  | .greater => ">"
  | .lessEqual => "<="
  | .greaterEqual => ">="
  | .is false => "is"
  | .is true => "is not"
  | .isIn false => "in"
  | .isIn true => "not in"
  | .range => ".."
  | .concat => "~"
  | .add => "+"
  | .sub => "-"
  | .mul => "*"
  | .div => "/"
  | .rem => "%"

def AssignmentOp.symbol : AssignmentOp → String
  | .assign => "="
  | .add => "+="
  | .sub => "-="
  | .mul => "*="
  | .div => "/="
  | .concat => "~="

def UpdateOp.symbol : UpdateOp → String
  | .increment => "++"
  | .decrement => "--"

def UnaryOp.ofLexeme? : Lexeme → Option UnaryOp
  | .word "not" => some .not
  | .mark "-" => some .minus
  | .mark "+" => some .plus
  | _ => none

/-- The binary operator that a token starts. The negated tests take a second token. -/
def BinaryOp.ofLexeme? : Lexeme → Option BinaryOp
  | .word "or" => some .or
  | .word "and" => some .and
  | .word "in" => some (.isIn false)
  | .word "is" => some (.is false)
  | .mark "||" => some .pipePipe
  | .mark "&&" => some .ampAmp
  | .mark "??" => some .nullish
  | .mark "==" => some .equal
  | .mark "!=" => some .notEqual
  | .mark "<" => some .less
  | .mark ">" => some .greater
  | .mark "<=" => some .lessEqual
  | .mark ">=" => some .greaterEqual
  | .mark ".." => some .range
  | .mark "~" => some .concat
  | .mark "+" => some .add
  | .mark "-" => some .sub
  | .mark "*" => some .mul
  | .mark "/" => some .div
  | .mark "%" => some .rem
  | _ => none

def AssignmentOp.ofLexeme? : Lexeme → Option AssignmentOp
  | .mark "=" => some .assign
  | .mark "+=" => some .add
  | .mark "-=" => some .sub
  | .mark "*=" => some .mul
  | .mark "/=" => some .div
  | .mark "~=" => some .concat
  | _ => none

def UpdateOp.ofLexeme? : Lexeme → Option UpdateOp
  | .mark "++" => some .increment
  | .mark "--" => some .decrement
  | _ => none

theorem UnaryOp.ne_finish {l : Lexeme} {op : UnaryOp} (h : UnaryOp.ofLexeme? l = some op) :
    l ≠ .finish := by
  rintro rfl
  simp [UnaryOp.ofLexeme?] at h

theorem BinaryOp.ne_finish {l : Lexeme} {op : BinaryOp} (h : BinaryOp.ofLexeme? l = some op) :
    l ≠ .finish := by
  rintro rfl
  simp [BinaryOp.ofLexeme?] at h

theorem AssignmentOp.ne_finish {l : Lexeme} {op : AssignmentOp}
    (h : AssignmentOp.ofLexeme? l = some op) : l ≠ .finish := by
  rintro rfl
  simp [AssignmentOp.ofLexeme?] at h

theorem UpdateOp.ne_finish {l : Lexeme} {op : UpdateOp} (h : UpdateOp.ofLexeme? l = some op) :
    l ≠ .finish := by
  rintro rfl
  simp [UpdateOp.ofLexeme?] at h

end ComponentTemplate
