import ComponentTemplate.Source.Position
import ComponentTemplate.Text.Blank

/-!
# Cursors

A cursor is a place in a source text together with the characters that follow it. Reading
moves a cursor forward and never back, so the number of characters that remain is the
measure by which every reading loop ends.
-/

namespace ComponentTemplate

/-- **A place in a source text**: its byte offset and the characters that follow. -/
structure Cursor where
  offset : Nat
  rest : List Char
  deriving Repr, DecidableEq, Inhabited

/-- **Progress**: a value read, and a state whose size is below a bound. The bound is the
size before reading, or one more when nothing need be read. -/
structure Progress (σ : Type) (size : σ → Nat) (bound : Nat) (α : Type) where
  value : α
  next : σ
  lt : size next < bound

namespace Progress

variable {σ : Type} {size : σ → Nat} {bound : Nat} {α β : Type}

def map (f : α → β) (p : Progress σ size bound α) : Progress σ size bound β :=
  ⟨f p.value, p.next, p.lt⟩

end Progress

/-! Sizes along a row of states, each of which was read from the one before it. A state that
nothing need be read for is below its bound by one only. -/

namespace Shrinks

variable {α β γ δ ε ζ : Type} {p : α → Nat} {q : β → Nat} {r : γ → Nat} {s : δ → Nat}
  {t : ε → Nat} {u : ζ → Nat} {a : α} {b : β} {c : γ} {d : δ} {e : ε} {f : ζ}

theorem self (p : α → Nat) (a : α) : p a < p a + 1 := Nat.lt_succ_self _

theorem loosen (h : q b < p a) : q b < p a + 1 := Nat.lt_succ_of_lt h

theorem twice (h : q b < p a) (h₁ : r c < q b) : r c < p a := Nat.lt_trans h₁ h

theorem thrice (h : q b < p a) (h₁ : r c < q b) (h₂ : s d < r c) : s d < p a := by omega

theorem four_loosen (h : q b < p a) (h₁ : r c < q b) (h₂ : s d < r c) (h₃ : t e < s d) :
    t e < p a + 1 := by
  omega

theorem twice_then (h : q b < p a) (h₁ : r c < q b) (h₂ : s d < r c + 1) : s d < p a + 1 := by
  omega

theorem thrice_then (h : q b < p a) (h₁ : r c < q b) (h₂ : s d < r c) (h₃ : t e < s d + 1) :
    t e < p a + 1 := by
  omega

theorem four_then (h : q b < p a) (h₁ : r c < q b) (h₂ : s d < r c) (h₃ : t e < s d)
    (h₄ : u f < t e + 1) : u f < p a + 1 := by
  omega

theorem thrice_between (h : q b < p a) (h₁ : r c < q b + 1) (h₂ : s d < r c) : s d < p a := by
  omega

theorem twice_from (h : q b < p a + 1) (h₁ : r c < q b) (h₂ : s d < r c) : s d < p a := by omega

theorem thrice_from (h : q b < p a + 1) (h₁ : r c < q b) (h₂ : s d < r c) (h₃ : t e < s d) :
    t e < p a := by
  omega

theorem four_from (h : q b < p a + 1) (h₁ : r c < q b) (h₂ : s d < r c) (h₃ : t e < s d)
    (h₄ : u f < t e) : u f < p a := by
  omega

end Shrinks

namespace Cursor

def ofSource (source : List Char) : Cursor :=
  ⟨0, source⟩

/-- **The place where a region starts**, with the text up to its end. -/
def within (source : List Char) (span : Span) : Cursor :=
  ⟨span.start, (charsBefore span.stop source).drop (charsBefore span.start source).length⟩

/-- The region of a part of a text is the part. -/
theorem within_append (before part after : List Char) :
    within (before ++ (part ++ after)) ⟨byteLength before, byteLength before + byteLength part⟩ =
      ⟨byteLength before, part⟩ := by
  have hstop := charsBefore_append (before ++ part) after
  rw [byteLength_append, List.append_assoc] at hstop
  simp [within, hstop, charsBefore_append]

theorem within_all (cs : List Char) : within cs ⟨0, byteLength cs⟩ = ⟨0, cs⟩ := by
  simpa using within_append [] cs []

/-- How many characters are left. -/
def remaining (cur : Cursor) : Nat :=
  cur.rest.length

theorem remaining_pos {cur : Cursor} {c : Char} {cs : List Char} (h : cur.rest = c :: cs) :
    0 < cur.remaining := by
  simp [remaining, h]

def skip (cur : Cursor) (n : Nat) : Cursor :=
  ⟨cur.offset + byteLength (cur.rest.take n), cur.rest.drop n⟩

@[simp]
theorem rest_skip (cur : Cursor) (n : Nat) : (cur.skip n).rest = cur.rest.drop n := rfl

@[simp]
theorem remaining_skip (cur : Cursor) (n : Nat) :
    (cur.skip n).remaining = cur.remaining - n := by
  simp [remaining]

theorem remaining_skip_one_lt {cur : Cursor} (h : 0 < cur.remaining) :
    (cur.skip 1).remaining < cur.remaining := by
  rw [remaining_skip]
  omega

theorem lt_of_lt_skip_length {cur next : Cursor} {text : List Char}
    (h : next.remaining < (cur.skip text.length).remaining) : next.remaining < cur.remaining := by
  rw [remaining_skip] at h
  omega

theorem skip_skip (cur : Cursor) (m n : Nat) : (cur.skip m).skip n = cur.skip (m + n) := by
  simp [skip, List.take_add, Nat.add_assoc]

/-- The place after a text that stands at a cursor. -/
theorem skip_append (offset : Nat) (cs rest : List Char) :
    (⟨offset, cs ++ rest⟩ : Cursor).skip cs.length = ⟨offset + byteLength cs, rest⟩ := by
  simp [skip]

def spanTo (cur : Cursor) (stop : Cursor) : Span :=
  ⟨cur.offset, stop.offset⟩

def here (cur : Cursor) : Span :=
  cur.spanTo (cur.skip 1)

def toEnd (cur : Cursor) : Span :=
  ⟨cur.offset, cur.offset + byteLength cur.rest⟩

def startsWith (cur : Cursor) (text : String) : Bool :=
  text.toList.isPrefixOf cur.rest

/-- **The longest run** of characters of a class at a cursor. -/
def run (cur : Cursor) (p : Char → Bool) : List Char :=
  cur.rest.takeWhile p

/-- Pass the longest run of given characters. -/
def skipRun (cur : Cursor) (p : Char → Bool) : Cursor :=
  cur.skip (cur.run p).length

@[simp]
theorem rest_skipRun (cur : Cursor) (p : Char → Bool) :
    (cur.skipRun p).rest = cur.rest.dropWhile p := by
  have h := congrArg (List.drop (cur.run p).length)
    (List.takeWhile_append_dropWhile (p := p) (l := cur.rest))
  rw [run, List.drop_left] at h
  rw [skipRun, rest_skip, run, ← h]

theorem remaining_skipRun_le (cur : Cursor) (p : Char → Bool) :
    (cur.skipRun p).remaining ≤ cur.remaining := by
  simp [skipRun]

def skipBlanks (cur : Cursor) : Cursor :=
  cur.skipRun Text.isBlank

theorem remaining_skipBlanks_le (cur : Cursor) : cur.skipBlanks.remaining ≤ cur.remaining :=
  cur.remaining_skipRun_le _

end Cursor

def beforeText? (text : List Char) : List Char → Option (List Char)
  | [] => if text.isEmpty then some [] else none
  | c :: cs =>
    if text.isPrefixOf (c :: cs) then some []
    else (beforeText? text cs).map (c :: ·)

theorem exists_append_of_beforeText? {text cs before : List Char}
    (h : beforeText? text cs = some before) : ∃ after, cs = before ++ (text ++ after) := by
  induction cs generalizing before with
  | nil =>
    rw [beforeText?] at h
    split at h
    · rename_i hnil
      cases h
      exact ⟨[], by simpa using hnil⟩
    · cases h
  | cons c cs ih =>
    rw [beforeText?] at h
    split at h
    · rename_i hstart
      cases h
      obtain ⟨after, hafter⟩ := List.isPrefixOf_iff_prefix.mp hstart
      exact ⟨after, hafter.symm⟩
    · obtain ⟨rest, hrest, rfl⟩ := Option.map_eq_some_iff.mp h
      obtain ⟨after, rfl⟩ := ih hrest
      exact ⟨after, rfl⟩

/-- A text does not occur before its first occurrence. -/
theorem not_isInfix_of_beforeText? {text cs before : List Char} (hne : text ≠ [])
    (h : beforeText? text cs = some before) : ¬ text <:+: before := by
  induction cs generalizing before with
  | nil => simp [beforeText?, hne] at h
  | cons c cs ih =>
    rw [beforeText?] at h
    split at h
    · cases h
      simpa using hne
    · rename_i hstart
      obtain ⟨rest, hrest, rfl⟩ := Option.map_eq_some_iff.mp h
      rw [List.infix_cons_iff]
      rintro (hhead | htail)
      · obtain ⟨after, rfl⟩ := exists_append_of_beforeText? hrest
        refine hstart (List.isPrefixOf_iff_prefix.mpr ?_)
        exact hhead.trans (List.prefix_append (c :: rest) _)
      · exact ih hrest htail

/-- A text is found after a character that it does not hold, unless it occurs before. -/
theorem beforeText?_append {text before rest : List Char} {c : Char} (hne : text ≠ [])
    (hbefore : ¬ text <:+: before) (hc : c ∉ text) :
    beforeText? text (before ++ c :: (text ++ rest)) = some (before ++ [c]) := by
  induction before with
  | nil =>
    obtain ⟨d, ds, rfl⟩ := List.exists_cons_of_ne_nil hne
    have hstart : ¬ (d :: ds).isPrefixOf (c :: (d :: ds ++ rest)) = true := by
      intro h
      exact hc (by simp [(List.cons_prefix_cons.mp (List.isPrefixOf_iff_prefix.mp h)).1])
    have hfound : (d :: ds).isPrefixOf (d :: (ds ++ rest)) = true :=
      List.isPrefixOf_iff_prefix.mpr ⟨rest, rfl⟩
    simp only [List.nil_append, beforeText?, hstart, Bool.false_eq_true, if_false]
    simp only [List.cons_append, beforeText?, hfound, if_true, Option.map_some]
  | cons d before ih =>
    have hstart : ¬ text.isPrefixOf (d :: (before ++ c :: (text ++ rest))) = true := by
      intro h
      -- an occurrence that reaches the character holds it
      have hword : d :: before ++ [c] <+: d :: (before ++ c :: (text ++ rest)) :=
        ⟨text ++ rest, by simp⟩
      rcases List.prefix_or_prefix_of_prefix (List.isPrefixOf_iff_prefix.mp h) hword with h | h
      · rcases List.prefix_concat_iff.mp h with rfl | h
        · exact hc (by simp)
        · exact hbefore h.isInfix
      · exact hc (h.subset (by simp))
    rw [List.cons_append, beforeText?, if_neg hstart, ih fun h => hbefore (List.infix_cons h)]
    rfl

/-- The characters before the first occurrence of a text at or after a cursor. -/
def Cursor.until? (cur : Cursor) (text : String) : Option (List Char) :=
  beforeText? text.toList cur.rest

/-- A value read at a place, and the place after it. -/
abbrev Scanned (bound : Nat) (α : Type) : Type :=
  Progress Cursor Cursor.remaining bound α

end ComponentTemplate
