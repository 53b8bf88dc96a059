/-!
# Cutting texts
-/

namespace ComponentTemplate.Text

/-- The text before and after the first occurrence of a character, if it occurs. -/
def cutAt? (c : Char) (cs : List Char) : Option (List Char × List Char) :=
  match cs.dropWhile (· ≠ c) with
  | [] => none
  | _ :: after => some (cs.takeWhile (· ≠ c), after)

/-- A text is cut where the character occurs first. -/
theorem cutAt?_eq_some_iff {c : Char} {cs before after : List Char} :
    cutAt? c cs = some (before, after) ↔ cs = before ++ c :: after ∧ c ∉ before := by
  constructor
  · intro h
    unfold cutAt? at h
    split at h
    · cases h
    · rename_i d rest hdrop
      cases h
      have hd : d = c := by
        have hhead := List.head?_dropWhile_not (· ≠ c) cs
        rw [hdrop] at hhead
        simpa using hhead
      subst hd
      refine ⟨?_, fun hmem => ?_⟩
      · rw [← hdrop, List.takeWhile_append_dropWhile]
      · have hall := List.all_takeWhile (p := (· ≠ d)) (l := cs)
        simpa using List.all_eq_true.mp hall d hmem
  · rintro ⟨rfl, hc⟩
    have hall : ∀ d ∈ before, decide (d ≠ c) = true := fun d hd =>
      decide_eq_true fun h => hc (h ▸ hd)
    simp only [cutAt?, List.dropWhile_append_of_pos hall, List.takeWhile_append_of_pos hall]
    simp

def consFirst (c : Char) : List (List Char) → List (List Char)
  | [] => [[c]]
  | text :: texts => (c :: text) :: texts

/-- **The texts between the occurrences of a character.** -/
def splitAtChar (separator : Char) : List Char → List (List Char)
  | [] => [[]]
  | c :: cs =>
    if c = separator then [] :: splitAtChar separator cs
    else consFirst c (splitAtChar separator cs)

end ComponentTemplate.Text
