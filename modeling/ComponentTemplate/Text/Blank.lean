/-!
# Blank characters

The blank characters of a text, and the operations that drop, keep or collapse them. All of
them act on lists of characters, so that a text is the concatenation of its blank ends and
its core.
-/

namespace ComponentTemplate.Text

/-- **Blank characters**: the twenty-five characters with the Unicode property
`White_Space`. -/
def isBlank (c : Char) : Bool :=
  let n := c.toNat
  (9 ≤ n && n ≤ 13) || n == 32 || n == 0x85 || n == 0xA0 || n == 0x1680 ||
    (0x2000 ≤ n && n ≤ 0x200A) || n == 0x2028 || n == 0x2029 || n == 0x202F ||
    n == 0x205F || n == 0x3000

def trimStart (cs : List Char) : List Char :=
  cs.dropWhile isBlank

def blankStart (cs : List Char) : List Char :=
  cs.takeWhile isBlank

def trimEnd (cs : List Char) : List Char :=
  (trimStart cs.reverse).reverse

def blankEnd (cs : List Char) : List Char :=
  (blankStart cs.reverse).reverse

def trim (cs : List Char) : List Char :=
  trimEnd (trimStart cs)

theorem blankStart_append_trimStart (cs : List Char) : blankStart cs ++ trimStart cs = cs :=
  List.takeWhile_append_dropWhile

theorem trimEnd_append_blankEnd (cs : List Char) : trimEnd cs ++ blankEnd cs = cs := by
  rw [trimEnd, blankEnd, ← List.reverse_append, blankStart_append_trimStart,
    List.reverse_reverse]

theorem length_trimStart_le (cs : List Char) : (trimStart cs).length ≤ cs.length :=
  (List.dropWhile_suffix _).length_le

def isBlankText (cs : List Char) : Bool :=
  cs.all isBlank

/-- **The words of a text**: its longest runs without blanks, in order. -/
def words (cs : List Char) : List (List Char) :=
  match _h : trimStart cs with
  | [] => []
  | c :: rest =>
    (c :: rest.takeWhile (!isBlank ·)) :: words (rest.dropWhile (!isBlank ·))
termination_by cs.length
decreasing_by
  have h₁ := length_trimStart_le cs
  have h₂ := (List.dropWhile_suffix (l := rest) (!isBlank ·)).length_le
  simp only [_h, List.length_cons] at h₁
  omega

def collapse (cs : List Char) : List Char :=
  [' '].intercalate (words cs)

end ComponentTemplate.Text
