/-!
# Lines of a text
-/

namespace ComponentTemplate.Text

/-- A line that a line feed ended, without the carriage return that may stand before it. -/
def dropReturn (line : List Char) : List Char :=
  if line.getLast? = some '\r' then line.dropLast else line

/-- The characters up to the first line feed, and what follows it; `none` when the text
has no line feed. -/
def cutLine : List Char → List Char × Option (List Char)
  | [] => ([], none)
  | c :: cs =>
    if c = '\n' then ([], some cs)
    else
      let (line, rest) := cutLine cs
      (c :: line, rest)

theorem cutLine_shorter {cs line rest : List Char} (h : cutLine cs = (line, some rest)) :
    rest.length < cs.length := by
  induction cs generalizing line with
  | nil => simp [cutLine] at h
  | cons c cs ih =>
    by_cases hc : c = '\n'
    · simp only [cutLine, hc, if_true, Prod.mk.injEq, Option.some.injEq] at h
      simp [h.2]
    · simp only [cutLine, hc, if_false, Prod.mk.injEq] at h
      have := @ih (cutLine cs).1 (by rw [← h.2])
      simp only [List.length_cons]
      omega

/-- **The lines of a text.** A line ends at a line feed, and a carriage return right before
the line feed belongs to the end. Text after the last line feed is a line of its own, kept
as it stands, unless it is empty. -/
def lines (cs : List Char) : List (List Char) :=
  match _h : cutLine cs with
  | (line, some rest) => dropReturn line :: lines rest
  | ([], none) => []
  | (line, none) => [line]
termination_by cs.length
decreasing_by exact cutLine_shorter _h

def unlines (ls : List (List Char)) : List Char :=
  ['\n'].intercalate ls

end ComponentTemplate.Text
