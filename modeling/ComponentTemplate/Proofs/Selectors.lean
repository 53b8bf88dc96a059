import ComponentTemplate.Proofs.Preludes

/-!
# Selector lists

The selectors of a rule are the parts of its prelude between commas, collapsed, without the
blank ones. A selector list that is written with other blanks between its selectors has the
same selectors, and leaves the scan of a prelude in the same state.
-/

namespace ComponentTemplate

open Text

def selectorParts (parts : List (List Char)) : List (List Char) :=
  (parts.map collapse).filter (!·.isEmpty)

lemma selectorsOf_eq (prelude : List Char) :
    selectorsOf prelude = (selectorParts (splitTopLevel ',' none 0 prelude)).map String.ofList :=
  rfl

lemma selectorParts_cons (part : List Char) (parts : List (List Char)) :
    selectorParts (part :: parts) =
      if Blank part then selectorParts parts else collapse part :: selectorParts parts := by
  split
  · rename_i hblank
    simp [selectorParts, collapse_of_blank hblank]
  · rename_i hblank
    have hne : collapse part ≠ [] := fun h => hblank (collapse_eq_nil_iff.mp h)
    simp [selectorParts, hne]

/-! ## The state after a list -/

/-- The state in which texts with commas between them leave the scan of a prelude. -/
def preludeStates (s : Option Char × Nat) (parts : List (List Char)) : Option (Option Char × Nat) :=
  parts.foldlM (fun s part => preludeState s.1 s.2 part) s

lemma preludeStates_cons (s : Option Char × Nat) (part : List Char) (parts : List (List Char)) :
    preludeStates s (part :: parts) =
      (preludeState s.1 s.2 part).bind fun s => preludeStates s parts :=
  List.foldlM_cons

variable {cs blanks : List Char} {s : Option Char × Nat} {selectors parts : List (List Char)}
  {quote : Option Char} {depth : Nat}

lemma Splits.preludeState_eq (h : Splits quote depth cs parts) (hs : IsQuote s.1) :
    preludeState s.1 s.2 cs = preludeStates s parts := by
  induction h generalizing s with
  | last _ =>
    rw [preludeStates_cons]
    cases preludeState s.1 s.2 _ <;> rfl
  | cons _ _ ih =>
    rw [preludeStates_cons, preludeState_append hs _ _ (by decide)]
    cases hstate : preludeState s.1 s.2 _ with
    | none => rfl
    | some s' => exact ih (hs.preludeState hstate)

lemma preludeStates_selectorParts (parts : List (List Char)) (hs : IsQuote s.1) :
    preludeStates s (selectorParts parts) = preludeStates s parts := by
  induction parts generalizing s with
  | nil => rfl
  | cons part parts ih =>
    rw [selectorParts_cons, preludeStates_cons]
    split
    · rename_i hblank
      have hstate : preludeState s.1 s.2 (part ++ []) = preludeState s.1 s.2 [] :=
        preludeState_blank hs hblank []
      rw [List.append_nil] at hstate
      rw [hstate, ih hs, preludeState]
      rfl
    · rw [preludeStates_cons, preludeState_collapse hs]
      cases hstate : preludeState s.1 s.2 part with
      | none => rfl
      | some s' => exact ih (hs.preludeState hstate)

/-! ## Lists of selectors -/

/-- **Selectors that are told apart by commas**: no string and no bracket is open where a
selector ends, the last one apart. -/
def SelectorList : List (List Char) → Prop
  | [] => True
  | [selector] => (splitState none 0 selector).isSome
  | selector :: next :: rest =>
    splitState none 0 selector = some (none, 0) ∧ SelectorList (next :: rest)

lemma SelectorList.cons (h : splitState none 0 selector = some (none, 0))
    (hrest : SelectorList rest) : SelectorList (selector :: rest) := by
  cases rest with
  | nil => simp [SelectorList, h]
  | cons next rest => exact ⟨h, hrest⟩

lemma Splits.selectorList (h : Splits none 0 cs parts) : SelectorList (selectorParts parts) := by
  generalize hquote : (none : Option Char) = quote at h
  generalize hdepth : 0 = depth at h
  induction h with
  | @last _ _ cs s h =>
    obtain rfl := hquote
    obtain rfl := hdepth
    by_cases hblank : Blank cs
    · rw [selectorParts_cons, if_pos hblank]
      trivial
    · rw [selectorParts_cons, if_neg hblank]
      show (splitState none 0 (collapse cs)).isSome = true
      rw [splitState_collapse isQuote_none, h]
      rfl
  | @cons _ _ cs _ _ h hrest ih =>
    obtain rfl := hquote
    obtain rfl := hdepth
    by_cases hblank : Blank cs
    · rw [selectorParts_cons, if_pos hblank]
      exact ih rfl rfl
    · rw [selectorParts_cons, if_neg hblank]
      refine .cons ?_ (ih rfl rfl)
      rw [splitState_collapse isQuote_none, h]

/-- **A text lists selectors**: commas stand between them, and blanks before and after. -/
inductive Enlists : List (List Char) → List Char → Prop
  | nil {blanks : List Char} (h : Blank blanks) : Enlists [] blanks
  | last {before after selector : List Char} (hbefore : Blank before) (hafter : Blank after) :
      Enlists [selector] (before ++ (selector ++ after))
  | cons {before selector after next cs : List Char} {rest : List (List Char)}
      (hbefore : Blank before) (hafter : Blank after) (hrest : Enlists (next :: rest) cs) :
      Enlists (selector :: next :: rest) ((before ++ (selector ++ after)) ++ ',' :: cs)

lemma Enlists.blank_append (h : Enlists selectors cs) (hblanks : Blank blanks) :
    Enlists selectors (blanks ++ cs) := by
  cases h with
  | nil h => exact .nil (hblanks.append h)
  | last hbefore hafter =>
    rw [← List.append_assoc]
    exact .last (hblanks.append hbefore) hafter
  | cons hbefore hafter hrest =>
    rw [← List.append_assoc, ← List.append_assoc]
    exact .cons (hblanks.append hbefore) hafter hrest

lemma Enlists.append_blank (h : Enlists selectors cs) (hblanks : Blank blanks) :
    Enlists selectors (cs ++ blanks) := by
  induction h with
  | nil h => exact .nil (h.append hblanks)
  | last hbefore hafter =>
    rw [List.append_assoc, List.append_assoc]
    exact .last hbefore (hafter.append hblanks)
  | cons hbefore hafter _ ih =>
    rw [List.append_assoc, List.cons_append]
    exact .cons hbefore hafter ih

lemma splitState_append_blank (hquote : IsQuote quote) (hbefore : Blank before)
    (hafter : Blank after) (cs : List Char) :
    splitState quote depth (before ++ (cs ++ after)) = splitState quote depth cs := by
  rw [← splitState_solid hquote, solid_append, solid_append, solid_of_blank hbefore,
    solid_of_blank hafter, List.nil_append, List.append_nil, splitState_solid hquote]

lemma Enlists.exists_splits (h : Enlists selectors cs) (hlist : SelectorList selectors)
    (hcollapsed : ∀ selector ∈ selectors, selector ≠ [] ∧ collapse selector = selector) :
    ∃ parts, Splits none 0 cs parts ∧ selectorParts parts = selectors := by
  have hpart {before after selector : List Char} (hbefore : Blank before) (hafter : Blank after)
      (h : selector ≠ [] ∧ collapse selector = selector) :
      ¬ Blank (before ++ (selector ++ after)) ∧
        collapse (before ++ (selector ++ after)) = selector := by
    have hcollapse : collapse (before ++ (selector ++ after)) = selector := by
      rw [collapse_append_left hbefore, collapse_append_right hafter, h.2]
    refine ⟨fun hblank => h.1 ?_, hcollapse⟩
    rw [← hcollapse, collapse_of_blank hblank]
  induction h with
  | @nil blanks h =>
    have hstate : splitState none 0 (blanks ++ ([] ++ [])) = splitState none 0 [] :=
      splitState_append_blank isQuote_none h .nil []
    rw [List.append_nil, List.append_nil] at hstate
    refine ⟨[blanks], .last hstate, ?_⟩
    rw [selectorParts_cons, if_pos h]
    rfl
  | @last before after selector hbefore hafter =>
    obtain ⟨s, hs⟩ := Option.isSome_iff_exists.mp hlist
    obtain ⟨hblank, hcollapse⟩ := hpart hbefore hafter (hcollapsed selector (by simp))
    refine ⟨_, .last ((splitState_append_blank isQuote_none hbefore hafter _).trans hs), ?_⟩
    rw [selectorParts_cons, if_neg hblank, hcollapse]
    rfl
  | @cons before selector after next cs rest hbefore hafter _ ih =>
    obtain ⟨parts, hsplits, hparts⟩ := ih hlist.2 fun s hs =>
      hcollapsed s (List.mem_cons_of_mem _ hs)
    obtain ⟨hblank, hcollapse⟩ := hpart hbefore hafter (hcollapsed selector (by simp))
    have hstate := (splitState_append_blank isQuote_none hbefore hafter selector).trans hlist.1
    refine ⟨_, .cons hstate hsplits, ?_⟩
    rw [selectorParts_cons, if_neg hblank, hcollapse, hparts]

/-- **A text that lists selectors leaves the scan as the selectors do.** -/
theorem Enlists.preludeState_eq (h : Enlists selectors cs) (hs : IsQuote s.1) :
    preludeState s.1 s.2 cs = preludeStates s selectors := by
  induction h generalizing s with
  | @nil blanks h =>
    have hstate : preludeState s.1 s.2 (blanks ++ []) = preludeState s.1 s.2 [] :=
      preludeState_blank hs h []
    rwa [List.append_nil] at hstate
  | last hbefore hafter =>
    rw [preludeState_blank hs hbefore, preludeState_append_blank hs hafter, preludeStates_cons]
    cases preludeState s.1 s.2 _ <;> rfl
  | cons hbefore hafter _ ih =>
    rw [preludeState_append hs _ _ (by decide), preludeState_blank hs hbefore,
      preludeState_append_blank hs hafter, preludeStates_cons]
    cases hstate : preludeState s.1 s.2 _ with
    | none => rfl
    | some s' => exact ih (hs.preludeState hstate)

/-! ## Blanks at the ends of a list -/

section Ends

variable {quote : Option Char} {depth : Nat} {cs before after : List Char}
  {parts : List (List Char)}

lemma Splits.exists_append_blank (h : Splits quote depth cs parts) (hquote : IsQuote quote)
    (hafter : Blank after) :
    ∃ parts', Splits quote depth (cs ++ after) parts' ∧
      parts'.map collapse = parts.map collapse := by
  induction h with
  | @last quote depth cs s h =>
    have hstate : splitState quote depth ([] ++ (cs ++ after)) = splitState quote depth cs :=
      splitState_append_blank hquote .nil hafter cs
    exact ⟨[cs ++ after], .last (hstate.trans h), by simp [collapse_append_right hafter]⟩
  | @cons quote depth cs ds parts h _ ih =>
    obtain ⟨parts', hsplits, hparts⟩ := ih isQuote_none
    refine ⟨cs :: parts', ?_, by simp [hparts]⟩
    rw [List.append_assoc, List.cons_append]
    exact .cons h hsplits

lemma Splits.exists_blank_append (h : Splits quote depth cs parts) (hquote : IsQuote quote)
    (hbefore : Blank before) :
    ∃ parts', Splits quote depth (before ++ cs) parts' ∧
      parts'.map collapse = parts.map collapse := by
  have hstate (cs : List Char) : splitState quote depth (before ++ cs) =
      splitState quote depth cs := by
    simpa using splitState_append_blank hquote hbefore .nil cs
  cases h with
  | last h =>
    exact ⟨[before ++ cs], .last ((hstate cs).trans h), by simp [collapse_append_left hbefore]⟩
  | @cons _ _ cs ds parts h hrest =>
    refine ⟨(before ++ cs) :: parts, ?_, by simp [collapse_append_left hbefore]⟩
    rw [← List.append_assoc]
    exact .cons ((hstate cs).trans h) hrest

end Ends

/-- **The selectors of a prelude do not depend on the blanks at its ends.** -/
theorem selectorsOf_trim (cs : List Char) : selectorsOf (trim cs) = selectorsOf cs := by
  obtain ⟨before, after, hbefore, hafter, hcs⟩ := exists_trim_eq cs
  obtain ⟨parts, hsplits, hparts⟩ :=
    (splits_splitTopLevel (trim cs)).exists_append_blank isQuote_none hafter
  obtain ⟨parts', hsplits', hparts'⟩ := hsplits.exists_blank_append isQuote_none hbefore
  rw [← hcs] at hsplits'
  rw [selectorsOf_eq, selectorsOf_eq, hsplits'.splitTopLevel_eq, selectorParts, selectorParts,
    hparts', hparts]

lemma Enlists.selectorsOf_trim_eq (h : Enlists selectors cs) (hlist : SelectorList selectors)
    (hcollapsed : ∀ selector ∈ selectors, selector ≠ [] ∧ collapse selector = selector) :
    selectorsOf (trim cs) = selectors.map String.ofList := by
  obtain ⟨parts, hsplits, hparts⟩ := h.exists_splits hlist hcollapsed
  rw [selectorsOf_trim, selectorsOf_eq, hsplits.splitTopLevel_eq, hparts]

end ComponentTemplate
