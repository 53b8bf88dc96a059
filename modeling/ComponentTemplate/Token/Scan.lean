import ComponentTemplate.Diagnostic
import ComponentTemplate.Source.Cursor
import ComponentTemplate.Token.Basic

/-!
# Reading one token

The next token at a cursor is found by its first character after the blanks. Words and
numbers reach as far as they can, a quoted string ends at its closing quote, and of the
marks the longest one is taken.
-/

namespace ComponentTemplate

def digitRun (cs : List Char) : Nat :=
  (cs.takeWhile Char.isDigit).length

def startsWithDigit : List Char → Bool
  | [] => false
  | c :: _ => c.isDigit

/-- Whether a text starts with a number: with a digit, or with a point and a digit. -/
def startsNumber : List Char → Bool
  | [] => false
  | c :: cs => c.isDigit || (c == '.' && startsWithDigit cs)

/-- The length of a point and digits at the start of a text; a point without digits is none
of a number. -/
def fractionLength : List Char → Nat
  | '.' :: cs => if startsWithDigit cs then 1 + digitRun cs else 0
  | _ => 0

/-- **The length of the number** at the start of a text: digits and at most one fraction. -/
def numberLength (cs : List Char) : Nat :=
  digitRun cs + fractionLength (cs.drop (digitRun cs))

theorem digitRun_cons_pos {c : Char} {cs : List Char} (h : c.isDigit = true) :
    0 < digitRun (c :: cs) := by
  simp [digitRun, h]

theorem numberLength_pos {cs : List Char} (h : startsNumber cs = true) :
    0 < numberLength cs := by
  match cs with
  | c :: cs =>
    by_cases hc : c.isDigit = true
    · exact Nat.add_pos_left (digitRun_cons_pos hc) _
    · simp only [startsNumber, hc, Bool.false_or, Bool.and_eq_true, beq_iff_eq] at h
      have hzero : digitRun ('.' :: cs) = 0 := rfl
      simp only [h.1, numberLength, hzero, List.drop_zero, fractionLength, h.2, if_true]
      omega

/-- **The length of a quoted string** after its opening quote, up to and with the first
closing quote that no backslash escapes; `none` when there is no such quote. -/
def quotedLength? (quote : Char) : List Char → Option Nat
  | [] => none
  | ['\\'] => none
  | '\\' :: _ :: cs => (quotedLength? quote cs).map (· + 2)
  | c :: cs => if c = quote then some 1 else (quotedLength? quote cs).map (· + 1)

/-- **The mark** at the start of a text. A question mark and a point before a digit are two
tokens, a choice and a number. -/
def markAt? (cs : List Char) : Option String :=
  marks.find? fun mark =>
    mark.toList.isPrefixOf cs && !(mark == "?." && startsWithDigit (cs.drop 2))

/-- The token that takes `n` characters at a cursor, and the place after it. -/
def Token.take (kind : String → Lexeme) (start : Cursor) (n : Nat) : Token × Cursor :=
  (⟨kind (String.ofList (start.rest.take n)), start.spanTo (start.skip n)⟩, start.skip n)

def Token.readAt (start : Cursor) : Except Failure (Token × Cursor) :=
  match start.rest with
  | [] => .ok (⟨.finish, start.spanTo start⟩, start)
  | c :: cs =>
    if isWordStart c then
      .ok (Token.take .word start ((c :: cs).takeWhile isWordChar).length)
    else if startsNumber (c :: cs) then
      .ok (Token.take .number start (numberLength (c :: cs)))
    else if c == '"' || c == '\'' then
      match quotedLength? c cs with
      | some n => .ok (Token.take .quoted start (1 + n))
      | none => .error ⟨.unterminatedString, start.toEnd⟩
    else
      match markAt? (c :: cs) with
      | some mark => .ok (Token.take .mark start mark.toList.length)
      | none => .error ⟨.unexpectedCharacter c, start.here⟩

/-- **The token at a cursor**, after any blanks, and the place after it. -/
def Token.read (cur : Cursor) : Except Failure (Token × Cursor) :=
  Token.readAt cur.skipBlanks

theorem Token.take_remaining_lt {kind : String → Lexeme} {start after : Cursor} {n : Nat}
    {t : Token} {c : Char} {cs : List Char} (hrest : start.rest = c :: cs) (hn : 0 < n)
    (h : Token.take kind start n = (t, after)) : after.remaining < start.remaining := by
  obtain ⟨-, rfl⟩ := Prod.mk.inj h
  have hpos := Cursor.remaining_pos hrest
  rw [Cursor.remaining_skip]
  omega

theorem Token.readAt_remaining_lt {start after : Cursor} {t : Token}
    (h : Token.readAt start = .ok (t, after)) (ht : t.lexeme ≠ .finish) :
    after.remaining < start.remaining := by
  unfold Token.readAt at h
  split at h
  · simp only [Except.ok.injEq, Prod.mk.injEq] at h
    exact absurd (by rw [← h.1]) ht
  · rename_i c cs hrest
    split at h
    · rename_i hword
      refine Token.take_remaining_lt hrest ?_ (Except.ok.inj h)
      simp [isWordChar_of_isWordStart hword]
    · split at h
      · rename_i hnumber
        exact Token.take_remaining_lt hrest (numberLength_pos hnumber) (Except.ok.inj h)
      · split at h
        · split at h
          · exact Token.take_remaining_lt hrest (by omega) (Except.ok.inj h)
          · cases h
        · split at h
          · rename_i mark hmark
            exact Token.take_remaining_lt hrest
              (length_pos_of_mem_marks mark (List.mem_of_find?_eq_some hmark)) (Except.ok.inj h)
          · cases h

/-- **Every token but the end of the input takes a character.** -/
theorem Token.read_remaining_lt {cur after : Cursor} {t : Token}
    (h : Token.read cur = .ok (t, after)) (ht : t.lexeme ≠ .finish) :
    after.remaining < cur.remaining :=
  Nat.lt_of_lt_of_le (Token.readAt_remaining_lt h ht) cur.remaining_skipBlanks_le

end ComponentTemplate
