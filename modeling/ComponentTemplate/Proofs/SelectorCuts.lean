import ComponentTemplate.Format
import ComponentTemplate.Proofs.Preludes

/-!
# Where selector lists are cut

The scan of a prelude honours backslashes in strings, and the cut of a selector list at its commas
does not. Both carry the quote of the string that is open through the text, so they agree up to the
first string that escapes its own quote, and may differ on every comma after it.
-/

namespace ComponentTemplate

open Text List

/-! ## What is open -/

/-- The quote of the string that is open, and the number of open parentheses and brackets. -/
abbrev CutState := Option Char × Nat

namespace CutState

/-- **One character more**, without regard to escapes. -/
def step : CutState → Char → CutState
  | (some q, depth), c => (if c = q then none else some q, depth)
  | (none, depth), c =>
    if c = '"' ∨ c = '\'' then (some c, depth)
    else if c = '(' ∨ c = '[' then (none, depth + 1)
    else if c = ')' ∨ c = ']' then (none, depth - 1)
    else (none, depth)

def plain (s : CutState) (cs : List Char) : CutState := cs.foldl step s

lemma fst_step_none (depth : Nat) (c : Char) :
    (step (none, depth) c).1 = if c = '"' ∨ c = '\'' then some c else none := by
  simp only [step]
  split
  · rfl
  · split
    · rfl
    · split <;> rfl

end CutState

/-- **What is open in the scan of a prelude**: the quote of a string, and whether a backslash in it
has just been read, which escapes what follows; and the number of parentheses and brackets. -/
structure ScanState where
  string : Option (Char × Bool)
  depth : Nat
  deriving DecidableEq

namespace ScanState

def start : ScanState := ⟨none, 0⟩

/-- What the cuts know of a state. -/
def cut (s : ScanState) : CutState := (s.string.map Prod.fst, s.depth)

def ofCut (s : CutState) : ScanState := ⟨s.1.map (·, false), s.2⟩

lemma cut_ofCut (s : CutState) : (ofCut s).cut = s := by obtain ⟨_ | q, depth⟩ := s <;> rfl

/-- **One character more** of a prelude. -/
def step : ScanState → Char → ScanState
  | ⟨some (q, true), depth⟩, _ => ⟨some (q, false), depth⟩
  | ⟨some (q, false), depth⟩, c =>
    if c = '\\' then ⟨some (q, true), depth⟩
    else ⟨if c = q then none else some (q, false), depth⟩
  | ⟨none, depth⟩, c => ofCut (CutState.step (none, depth) c)

def after (s : ScanState) (cs : List Char) : ScanState := cs.foldl step s

/-- A string holds an escaped quote of its own. -/
def escapesQuote : ScanState → List Char → Bool
  | _, [] => false
  | s, c :: cs => s.string == some (c, true) || escapesQuote (s.step c) cs

variable {s : ScanState} {before rest cs : List Char}

lemma isQuote_step (hs : IsQuote s.cut.1) (c : Char) : IsQuote (s.step c).cut.1 := by
  obtain ⟨_ | ⟨q, _ | _⟩, depth⟩ := s
  · rw [step, cut_ofCut, CutState.fst_step_none]
    exact isQuote_opened c
  · have hclosed := hs.closed c
    grind [step, cut]
  · exact hs

lemma plain_cut (hs : IsQuote s.cut.1) (h : s.escapesQuote (before ++ rest) = false) :
    s.cut.plain before = (s.after before).cut := by
  induction before generalizing s with
  | nil => rfl
  | cons c cs ih =>
    rw [cons_append, escapesQuote, Bool.or_eq_false_iff] at h
    have hstep : s.cut.step c = (s.step c).cut := by
      obtain ⟨_ | ⟨q, _ | _⟩, depth⟩ := s
      · rw [step, cut_ofCut]
        rfl
      · have hne : '\\' ≠ q := by rcases hs q rfl with rfl | rfl <;> decide
        grind [step, cut, CutState.step]
      · grind [step, cut, CutState.step]
    rw [CutState.plain, foldl_cons, hstep]
    exact ih (isQuote_step hs c) h.2

lemma quote_after {quote quote' : Option Char} {parens parens' : Nat} (hquote : IsQuote quote)
    (depth : Nat) (h : preludeState quote parens cs = some (quote', parens')) :
    ((ofCut (quote, depth)).after cs).cut.1 = quote' := by
  fun_induction preludeState quote parens cs generalizing depth with
  | case1 quote parens =>
    cases h
    exact congrArg Prod.fst (cut_ofCut _)
  | case2 q parens c cs ih => simpa [after, ofCut, step] using ih hquote depth h
  | case3 q parens c cs hcs ih =>
    by_cases hc : c = '\\'
    · cases cs with
      | nil =>
        have hne : '\\' ≠ q := by rcases hquote q rfl with rfl | rfl <;> decide
        rw [hc, if_neg hne, preludeState] at h
        cases h
        simp [after, ofCut, step, cut, hc]
      | cons d cs => exact absurd rfl (hcs d cs hc)
    · have hrest := ih (hquote.closed c) depth h
      grind [after, ofCut, step]
  | case4 => cases h
  | case5 parens c cs hstop quote' parens' ih =>
    have hrest := ih (isQuote_opened c) (CutState.step (none, depth) c).2 h
    rw [show quote' = _ from (CutState.fst_step_none depth c).symm] at hrest
    exact hrest

end ScanState

variable {before rest : List Char}

lemma isSome_preludeState_of_append {quote : Option Char} {parens : Nat}
    (h : (preludeState quote parens (before ++ rest)).isSome) :
    (preludeState quote parens before).isSome := by
  fun_induction preludeState quote parens before with
  | case1 => rfl
  | case2 q parens c cs ih => exact ih (by rwa [cons_append, cons_append, preludeState] at h)
  | case3 q parens c cs hcs ih =>
    cases cs with
    | nil => simp [preludeState]
    | cons d cs =>
      refine ih ?_
      rwa [cons_append, cons_append, preludeState] at h
      intro _ _ hc _
      exact hcs d cs hc rfl
  | case4 parens c cs hstop => simp [preludeState, hstop] at h
  | case5 parens c cs hstop quote' parens' ih =>
    exact ih (by rwa [cons_append, preludeState, if_neg hstop] at h)

/-! ## Cuts -/

/-- **A text cut at the commas before which a condition holds**, after a text that was seen. -/
def cutAt (outside : List Char → Bool) : (seen : List Char) → List Char → List (List Char)
  | _, [] => [[]]
  | seen, c :: cs =>
    if c = ',' ∧ outside seen then [] :: cutAt outside (seen ++ [c]) cs
    else consFirst c (cutAt outside (seen ++ [c]) cs)

section Cuts

variable {outside outside' : List Char → Bool}

lemma cutAt_ne_nil (outside : List Char → Bool) (seen cs : List Char) :
    cutAt outside seen cs ≠ [] := by
  cases cs with
  | nil => simp [cutAt]
  | cons c cs =>
    rw [cutAt]
    split
    · simp
    · unfold consFirst
      split <;> simp

lemma intercalate_cutAt (seen cs : List Char) : [','].intercalate (cutAt outside seen cs) = cs := by
  induction cs generalizing seen with
  | nil => rfl
  | cons c cs ih =>
    have hrest := ih (seen ++ [c])
    obtain ⟨part, parts, hparts⟩ :=
      exists_cons_of_ne_nil (cutAt_ne_nil outside (seen ++ [c]) cs)
    rw [cutAt]
    rw [hparts] at hrest ⊢
    split
    · rename_i hc
      rw [intercalate_cons_cons, hrest, hc.1]
      rfl
    · rw [consFirst]
      cases parts <;> simpa using hrest

lemma cutAt_eq_iff (seen cs : List Char) :
    cutAt outside seen cs = cutAt outside' seen cs ↔
      ∀ before after, cs = before ++ ',' :: after →
        outside (seen ++ before) = outside' (seen ++ before) := by
  induction cs generalizing seen with
  | nil => simp [cutAt]
  | cons c cs ih =>
    obtain ⟨part, parts, hparts⟩ :=
      exists_cons_of_ne_nil (cutAt_ne_nil outside (seen ++ [c]) cs)
    obtain ⟨part', parts', hparts'⟩ :=
      exists_cons_of_ne_nil (cutAt_ne_nil outside' (seen ++ [c]) cs)
    have hrest : (∀ before after, c :: cs = before ++ ',' :: after →
        outside (seen ++ before) = outside' (seen ++ before)) ↔
        (c = ',' → outside seen = outside' seen) ∧
          cutAt outside (seen ++ [c]) cs = cutAt outside' (seen ++ [c]) cs := by
      rw [ih]
      constructor
      · intro h
        refine ⟨fun hc => by simpa using h [] cs (by rw [hc]; rfl), fun before after hcs => ?_⟩
        simpa using h (c :: before) after (by rw [hcs]; rfl)
      · rintro ⟨hc, h⟩ before after hcs
        cases before with
        | nil =>
          cases hcs
          simpa using hc rfl
        | cons d before =>
          cases hcs
          simpa using h before after rfl
    rw [hrest, cutAt, cutAt, hparts, hparts']
    by_cases hc : c = ','
    · cases outside seen <;> cases outside' seen <;> simp [hc, consFirst]
    · simp [hc, consFirst]

end Cuts

/-- Cuts that know no escapes end outside of strings. -/
def isPlainlyOutside (cs : List Char) : Bool := CutState.plain (none, 0) cs = (none, 0)

/-- **Whether a text ends outside of strings**, as the scan of a prelude reads them, and of
parentheses and brackets. -/
def isOutside (cs : List Char) : Bool := ScanState.start.after cs = .start

/-- **A selector list is cut where nothing is open, without regard to escapes.** -/
theorem splitTopLevel_eq_cutAt (s : CutState) (seen cs : List Char)
    (hs : CutState.plain (none, 0) seen = s) :
    splitTopLevel ',' s.1 s.2 cs = cutAt isPlainlyOutside seen cs := by
  induction cs generalizing s seen with
  | nil => rw [splitTopLevel, cutAt]
  | cons c cs ih =>
    have hnext : CutState.plain (none, 0) (seen ++ [c]) = s.step c := by
      rw [CutState.plain, foldl_append]
      exact congrArg (CutState.step · c) hs
    have hrest := ih _ (seen ++ [c]) hnext
    obtain ⟨quote, depth⟩ := s
    rw [cutAt, ← hrest, isPlainlyOutside, hs]
    cases quote with
    | some q => simp [splitTopLevel, CutState.step]
    | none =>
      rw [splitTopLevel]
      grind [CutState.step]

/-- **Where the cut of a selector list agrees with the scan of its prelude.** For a prelude that is
scanned up to the block of a rule: joining the parts with commas gives it back, and it is cut at the
commas where nothing is open if backslashes escape nothing. These are the commas outside of the
strings of the scan, and outside of parentheses and brackets, exactly if no comma is open in one
reading only; and they are if no string escapes its own quote. -/
theorem splitTopLevel_agrees_iff {cs : List Char} {n : Nat}
    (h : preludeEnd none 0 cs = some (n, .block)) :
    let text := trim (cs.take n)
    let parts := splitTopLevel ',' none 0 text
    [','].intercalate parts = text ∧ parts = cutAt isPlainlyOutside [] text ∧
    (parts = cutAt isOutside [] text ↔ ∀ before after, text = before ++ ',' :: after →
      isPlainlyOutside before = isOutside before) ∧
    (ScanState.start.escapesQuote text = false → parts = cutAt isOutside [] text) ∧
    ∀ before after, text = before ++ after → ∃ quote parens,
      preludeState none 0 before = some (quote, parens) ∧
        (ScanState.start.after before).cut.1 = quote := by
  intro text parts
  have hparts : parts = cutAt isPlainlyOutside [] text := splitTopLevel_eq_cutAt (none, 0) [] text rfl
  have hiff : parts = cutAt isOutside [] text ↔ ∀ before after, text = before ++ ',' :: after →
      isPlainlyOutside before = isOutside before := by
    rw [hparts]
    exact cutAt_eq_iff [] text
  refine ⟨by rw [hparts, intercalate_cutAt], hparts, hiff, fun hescapes => hiff.mpr ?_, ?_⟩
  · intro before after htext
    rw [htext] at hescapes
    have hcut := @ScanState.plain_cut .start before _ isQuote_none hescapes
    rw [isPlainlyOutside, isOutside, decide_eq_decide]
    rw [show CutState.plain (none, 0) before = _ from hcut]
    obtain ⟨string, depth⟩ := ScanState.start.after before
    simp [ScanState.cut, ScanState.start]
  · intro before after htext
    obtain ⟨parens', hstate, -⟩ := state_of_preludeEnd h
    rw [← preludeState_trim isQuote_none] at hstate
    have hsome : (preludeState none 0 (before ++ after)).isSome := by
      rw [← htext]
      exact Option.isSome_of_eq_some hstate
    obtain ⟨⟨quote, parens⟩, hbefore⟩ :=
      Option.isSome_iff_exists.mp (isSome_preludeState_of_append hsome)
    exact ⟨quote, parens, hbefore, ScanState.quote_after isQuote_none 0 hbefore⟩

/-- A list of a string with an escaped backslash and a pseudo-class with a list of its own. -/
theorem splitTopLevel_agrees_iff_list :
    preludeEnd none 0 "[a=\"\\\\,\"], b:is(c, d) \x7b".toList = some (22, .block) ∧
    splitTopLevel ',' none 0 "[a=\"\\\\,\"], b:is(c, d)".toList =
      cutAt isOutside [] "[a=\"\\\\,\"], b:is(c, d)".toList := by
  have h : preludeEnd none 0 "[a=\"\\\\,\"], b:is(c, d) \x7b".toList = some (22, .block) := by
    decide +kernel
  have htext : trim ("[a=\"\\\\,\"], b:is(c, d) \x7b".toList.take 22) =
      "[a=\"\\\\,\"], b:is(c, d)".toList := by decide +kernel
  have hagrees := (splitTopLevel_agrees_iff h).2.2.2.1 (by rw [htext]; decide +kernel)
  rw [htext] at hagrees
  exact ⟨h, hagrees⟩

/-- **A string that escapes its own quote is cut at a comma**, and its two parts are written on two
lines. -/
theorem formatSource_escapedQuote :
    splitTopLevel ',' none 0 "\"a\\\",b\"".toList = ["\"a\\\"".toList, "b\"".toList] ∧
    cutAt isOutside [] "\"a\\\",b\"".toList = ["\"a\\\",b\"".toList] ∧
    (formatSource {} "<style>\"a\\\",b\" \x7b\x7d</style>").toOption =
      some "<style>\n\t\"a\\\",\n\tb\" \x7b\n\t\x7d\n</style>\n" := by
  decide +kernel

end ComponentTemplate
