import ComponentTemplate.Proofs.Blanks
import ComponentTemplate.Stylesheet.Parser

/-!
# Scanning preludes

Where a prelude ends depends on the strings and parentheses that are open, and where a
selector list is cut on strings, parentheses and brackets. Both are states that are carried
through the text, and no blank and no separator changes them. This is why blanks may be added,
dropped and collapsed without moving what ends a prelude or a selector.
-/

namespace ComponentTemplate

open Text
open List (cons_append mem_cons not_mem_nil)

/-! ## The state of a scan -/

/-- **The state in which a text leaves the scan of a prelude**: the quote of the string that is
open and the number of open parentheses; `none` if the prelude ends inside the text. A backslash
at the end of the text escapes nothing yet. -/
def preludeState : (quote : Option Char) → (parens : Nat) → List Char → Option (Option Char × Nat)
  | quote, parens, [] => some (quote, parens)
  | some quote, parens, '\\' :: _ :: cs => preludeState (some quote) parens cs
  | some quote, parens, c :: cs => preludeState (if c = quote then none else some quote) parens cs
  | none, parens, c :: cs =>
    if parens = 0 ∧ (c = '\x7b' ∨ c = ';' ∨ c = '\x7d') then none
    else
      let quote := if c = '"' ∨ c = '\'' then some c else none
      let parens := if c = '(' then parens + 1 else if c = ')' then parens - 1 else parens
      preludeState quote parens cs

def IsQuote (quote : Option Char) : Prop := ∀ c ∈ quote, c = '"' ∨ c = '\''

lemma isQuote_none : IsQuote none := by simp [IsQuote]

lemma isQuote_opened (c : Char) : IsQuote (if c = '"' ∨ c = '\'' then some c else none) := by
  split
  · rename_i hc
    simpa [IsQuote] using hc
  · exact isQuote_none

variable {c q : Char} {cs blanks : List Char} {parens' : Nat} {stop : PreludeStop}

lemma IsQuote.closed (h : IsQuote (some q)) (c : Char) :
    IsQuote (if c = q then none else some q) := by
  split
  · exact isQuote_none
  · exact h

/-- The characters that change no state: neither quotes, nor brackets, nor backslashes, nor
what ends a prelude. -/
def isNeutral (c : Char) : Bool := c ∉ ['"', '\'', '\\', '(', ')', '\x7b', ';', '\x7d']

lemma isNeutral_of_isBlank (h : isBlank c = true) : isNeutral c = true := by
  have hne : ∀ d ∈ ['"', '\'', '\\', '(', ')', '\x7b', ';', '\x7d'], c ≠ d := by
    intro d hd
    rintro rfl
    revert h
    simp only [mem_cons, not_mem_nil, or_false] at hd
    rcases hd with rfl | rfl | rfl | rfl | rfl | rfl | rfl | rfl <;> simp [isBlank]
  exact decide_eq_true_iff.mpr fun hmem => hne c hmem rfl

variable {quote : Option Char} {parens : Nat}

lemma preludeState_escape (q c : Char) (parens : Nat) (cs : List Char) :
    preludeState (some q) parens ('\\' :: c :: cs) = preludeState (some q) parens cs := by
  rw [preludeState]

lemma preludeState_string (q : Char) (parens : Nat) (hc : c ≠ '\\') (cs : List Char) :
    preludeState (some q) parens (c :: cs) =
      preludeState (if c = q then none else some q) parens cs := by
  rw [preludeState]
  intro _ _ h
  exact absurd h hc

lemma ne_backslash_of_state (hquote : IsQuote (some q))
    (hcs : ∀ d ds, c = '\\' → cs = d :: ds → False)
    (h : preludeState (if c = q then none else some q) parens cs = some (none, parens')) :
    c ≠ '\\' := by
  rintro rfl
  cases cs with
  | cons d cs => exact hcs d cs rfl rfl
  | nil =>
    have hq : ('\\' : Char) ≠ q := by rcases hquote q rfl with rfl | rfl <;> decide
    simp [preludeState, hq] at h

lemma IsQuote.preludeState (hquote : IsQuote quote)
    (h : preludeState quote parens cs = some (quote', parens')) : IsQuote quote' := by
  fun_induction ComponentTemplate.preludeState quote parens cs with
  | case1 quote parens =>
    cases h
    exact hquote
  | case2 quote parens c cs ih => exact ih hquote h
  | case3 quote parens c cs hcs ih => exact ih (hquote.closed c) h
  | case4 => cases h
  | case5 parens c cs hstop quote' parens'' ih => exact ih (isQuote_opened c) h

lemma preludeState_neutral (hquote : IsQuote quote) (hc : isNeutral c = true) (cs : List Char) :
    preludeState quote parens (c :: cs) = preludeState quote parens cs := by
  have hne : ∀ d ∈ ['"', '\'', '\\', '(', ')', '\x7b', ';', '\x7d'], c ≠ d := by
    rintro d hd rfl
    exact absurd hd (decide_eq_true_iff.mp hc)
  simp only [mem_cons, not_mem_nil, or_false, forall_eq_or_imp, forall_eq] at hne
  obtain ⟨hdouble, hsingle, hbackslash, hopen, hclose, hblock, hsemicolon, hend⟩ := hne
  cases quote with
  | none =>
    rw [preludeState]
    simp [hdouble, hsingle, hopen, hclose, hblock, hsemicolon, hend]
  | some q =>
    have hq : c ≠ q := by
      rcases hquote q rfl with rfl | rfl
      · exact hdouble
      · exact hsingle
    rw [preludeState_string q parens hbackslash, if_neg hq]

lemma preludeState_of_neutral (hquote : IsQuote quote) (h : ∀ c ∈ cs, isNeutral c = true) :
    preludeState quote parens cs = some (quote, parens) := by
  induction cs with
  | nil => simp [preludeState]
  | cons c cs ih =>
    rw [preludeState_neutral hquote (h c (by simp))]
    exact ih fun d hd => h d (List.mem_cons_of_mem c hd)

/-- **A neutral character between two texts** passes the state of the first one on to the
second one: if the first one ends with a backslash, it is the neutral character that is
escaped. -/
theorem preludeState_append (hquote : IsQuote quote) (cs ds : List Char) (hc : isNeutral c = true) :
    preludeState quote parens (cs ++ c :: ds) =
      (preludeState quote parens cs).bind fun s => preludeState s.1 s.2 ds := by
  fun_induction preludeState quote parens cs with
  | case1 quote parens => exact preludeState_neutral hquote hc ds
  | case2 quote parens d cs ih =>
    rw [cons_append, cons_append, preludeState_escape, ih hquote]
  | case3 q parens d cs hcs ih =>
    by_cases hd : d = '\\'
    · cases cs with
      | cons e cs => exact absurd rfl (hcs e cs hd)
      | nil =>
        have hq : d ≠ q := by rcases hquote q rfl with rfl | rfl <;> simp [hd]
        subst hd
        rw [cons_append, List.nil_append, preludeState_escape, if_neg hq]
        simp [preludeState]
    · rw [cons_append, preludeState_string q parens hd, ih (hquote.closed d)]
  | case4 parens d cs hstop =>
    rw [cons_append, preludeState, if_pos hstop]
    rfl
  | case5 parens d cs hstop quote' parens' ih =>
    rw [cons_append, preludeState, if_neg hstop]
    exact ih (isQuote_opened d)

lemma preludeState_blank (hquote : IsQuote quote) (h : Blank blanks) (cs : List Char) :
    preludeState quote parens (blanks ++ cs) = preludeState quote parens cs := by
  induction blanks with
  | nil => rfl
  | cons c blanks ih =>
    rw [cons_append, preludeState_neutral hquote (isNeutral_of_isBlank (h c (by simp)))]
    exact ih fun d hd => h d (List.mem_cons_of_mem _ hd)

lemma preludeState_append_neutral (hquote : IsQuote quote) (cs : List Char)
    (h : ∀ c ∈ after, isNeutral c = true) :
    preludeState quote parens (cs ++ after) = preludeState quote parens cs := by
  cases after with
  | nil => rw [List.append_nil]
  | cons c after =>
    rw [preludeState_append hquote cs after (h c (by simp))]
    cases hstate : preludeState quote parens cs with
    | none => rfl
    | some s =>
      exact preludeState_of_neutral (hquote.preludeState hstate) fun d hd =>
        h d (List.mem_cons_of_mem c hd)

lemma preludeState_append_blank (hquote : IsQuote quote) (h : Blank blanks) (cs : List Char) :
    preludeState quote parens (cs ++ blanks) = preludeState quote parens cs :=
  preludeState_append_neutral hquote cs fun c hc => isNeutral_of_isBlank (h c hc)

lemma preludeState_trim (hquote : IsQuote quote) (cs : List Char) :
    preludeState quote parens (trim cs) = preludeState quote parens cs := by
  obtain ⟨before, after, hbefore, hafter, hcs⟩ := exists_trim_eq cs
  conv_rhs => rw [hcs, preludeState_blank hquote hbefore, preludeState_append_blank hquote hafter]

lemma preludeState_collapse (hquote : IsQuote quote) (cs : List Char) :
    preludeState quote parens (collapse cs) = preludeState quote parens cs := by
  induction cs using wordsInduction generalizing quote parens with
  | blank cs h =>
    have hcs : preludeState quote parens (cs ++ []) = preludeState quote parens [] :=
      preludeState_blank hquote h []
    rw [List.append_nil] at hcs
    rw [collapse_of_blank h, hcs]
  | last before word after hbefore hne hword hafter =>
    rw [collapse_last hbefore hne hword hafter, preludeState_blank hquote hbefore,
      preludeState_append_blank hquote hafter]
  | more before word rest hbefore hne hword hrest hmore ih =>
    rw [collapse_more hbefore hne hword hrest hmore, preludeState_blank hquote hbefore,
      preludeState_append hquote word _ (by decide)]
    cases rest with
    | nil => exact absurd Blank.nil hmore
    | cons c rest =>
      have hc := isNeutral_of_isBlank (hrest c rfl)
      rw [preludeState_append hquote word rest hc]
      cases hstate : preludeState quote parens word with
      | none => rfl
      | some s =>
        have hs := hquote.preludeState hstate
        simp only [Option.bind_some]
        rw [ih hs, preludeState_neutral hs hc]

/-! ## The end of a prelude -/

def PreludeStop.ofChar? : Char → Option PreludeStop
  | '\x7b' => some .block
  | ';' => some .semicolon
  | '\x7d' => some .close
  | _ => none

/-- **A text ends a prelude** when some parentheses are open: it is empty, or none is open and
it starts with what ends preludes. -/
inductive PreludeStop.Ends (parens : Nat) : PreludeStop → List Char → Prop
  | finish : Ends parens .finish []
  | char {stop : PreludeStop} {c : Char} {rest : List Char} (hparens : parens = 0)
      (hc : ofChar? c = some stop) : Ends parens stop (c :: rest)

/-- **A prelude ends where no string is open and what follows ends it.** -/
theorem preludeEnd_of_state (hquote : IsQuote quote)
    (h : preludeState quote parens cs = some (none, parens')) (hstop : stop.Ends parens' rest) :
    preludeEnd quote parens (cs ++ rest) = some (cs.length, stop) := by
  fun_induction preludeState quote parens cs with
  | case1 quote parens =>
    cases h
    cases hstop with
    | finish => rfl
    | @char stop c rest hparens hc =>
      subst hparens
      unfold PreludeStop.ofChar? at hc
      split at hc <;> cases hc <;> rfl
  | case2 q parens c cs ih =>
    rw [cons_append, cons_append, preludeEnd, ih hquote h]
    simp
  | case3 q parens c cs hcs ih =>
    have hc := ne_backslash_of_state hquote hcs h
    rw [cons_append, preludeEnd, ih (hquote.closed c) h]
    · simp
    · intro _ _ h
      exact absurd h hc
  | case4 => cases h
  | case5 parens c cs hgo quote' parens'' ih =>
    have hblock : ¬(parens = 0 ∧ c = '\x7b') := fun h => hgo ⟨h.1, .inl h.2⟩
    have hsemicolon : ¬(parens = 0 ∧ c = ';') := fun h => hgo ⟨h.1, .inr (.inl h.2)⟩
    have hclose : ¬(parens = 0 ∧ c = '\x7d') := fun h => hgo ⟨h.1, .inr (.inr h.2)⟩
    rw [cons_append, preludeEnd, if_neg hblock, if_neg hsemicolon, if_neg hclose]
    show (preludeEnd quote' parens'' (cs ++ rest)).map _ = _
    rw [ih (isQuote_opened c) h]
    simp

/-- **Where a prelude ends, no string is open**, and what follows ends it. -/
theorem state_of_preludeEnd (h : preludeEnd quote parens cs = some (n, stop)) :
    ∃ parens', preludeState quote parens (cs.take n) = some (none, parens') ∧
      stop.Ends parens' (cs.drop n) := by
  fun_induction preludeEnd quote parens cs generalizing n with
  | case1 parens =>
    cases h
    exact ⟨parens, rfl, .finish⟩
  | case2 => cases h
  | case3 q parens c cs ih =>
    obtain ⟨⟨m, stop'⟩, hm, heq⟩ := Option.map_eq_some_iff.mp h
    cases heq
    obtain ⟨parens', hstate, hends⟩ := ih hm
    exact ⟨parens', by simpa [preludeState_escape] using hstate, by simpa using hends⟩
  | case4 q parens c cs hcs ih =>
    obtain ⟨⟨m, stop'⟩, hm, heq⟩ := Option.map_eq_some_iff.mp h
    cases heq
    obtain ⟨parens', hstate, hends⟩ := ih hm
    refine ⟨parens', ?_, by simpa using hends⟩
    rw [List.take_succ_cons, preludeState]
    · exact hstate
    · intro d ds hc hds
      cases cs with
      | nil => simp at hds
      | cons e cs => exact hcs e cs hc rfl
  | case5 parens c cs hc | case6 parens c cs _ hc | case7 parens c cs _ _ hc =>
    cases h
    exact ⟨parens, rfl, .char hc.1 (by rw [hc.2]; rfl)⟩
  | case8 parens c cs hblock hsemicolon hclose quote' parens'' =>
    rename_i ih
    obtain ⟨⟨m, stop'⟩, hm, heq⟩ := Option.map_eq_some_iff.mp h
    cases heq
    obtain ⟨parens', hstate, hends⟩ := ih hm
    have hgo : ¬(parens = 0 ∧ (c = '\x7b' ∨ c = ';' ∨ c = '\x7d')) := by
      rintro ⟨hparens, hc | hc | hc⟩
      · exact hblock ⟨hparens, hc⟩
      · exact hsemicolon ⟨hparens, hc⟩
      · exact hclose ⟨hparens, hc⟩
    refine ⟨parens', ?_, by simpa using hends⟩
    rw [List.take_succ_cons, preludeState, if_neg hgo]
    exact hstate

/-! ## The parts of a selector list -/

/-- The state in which a text leaves the split of a list at its commas: the quote of the string
that is open and the number of open brackets; `none` if the text is split inside. -/
def splitState : (quote : Option Char) → (depth : Nat) → List Char → Option (Option Char × Nat)
  | quote, depth, [] => some (quote, depth)
  | some quote, depth, c :: cs => splitState (if c = quote then none else some quote) depth cs
  | none, depth, c :: cs =>
    if c = '"' ∨ c = '\'' then splitState (some c) depth cs
    else if c = '(' ∨ c = '[' then splitState none (depth + 1) cs
    else if c = ')' ∨ c = ']' then splitState none (depth - 1) cs
    else if c = ',' ∧ depth = 0 then none
    else splitState none depth cs

/-- **The parts of a text between commas**: every comma stands where no string and no bracket is
open, and no such comma stands in a part. -/
inductive Splits : Option Char → Nat → List Char → List (List Char) → Prop
  | last {quote : Option Char} {depth : Nat} {cs : List Char} {s : Option Char × Nat}
      (h : splitState quote depth cs = some s) : Splits quote depth cs [cs]
  | cons {quote : Option Char} {depth : Nat} {cs ds : List Char} {parts : List (List Char)}
      (h : splitState quote depth cs = some (none, 0)) (hrest : Splits none 0 ds parts) :
      Splits quote depth (cs ++ ',' :: ds) (cs :: parts)

section Splits

variable {depth : Nat} {cs : List Char} {c : Char} {parts : List (List Char)}

lemma Splits.consFirst
    (hstep : ∀ cs, splitState quote depth (c :: cs) = splitState quote' depth' cs)
    (h : Splits quote' depth' cs parts) : Splits quote depth (c :: cs) (consFirst c parts) := by
  cases h with
  | last h => exact .last ((hstep _).trans h)
  | cons h hrest => exact .cons ((hstep _).trans h) hrest

lemma splits_splitTopLevel (cs : List Char) :
    Splits quote depth cs (splitTopLevel ',' quote depth cs) := by
  fun_induction splitTopLevel ',' quote depth cs with
  | case1 quote depth => exact .last rfl
  | case2 q depth c cs ih => exact ih.consFirst fun cs => by rw [splitState]
  | case3 depth c cs hquote ih => exact ih.consFirst fun cs => by rw [splitState, if_pos hquote]
  | case4 depth c cs hquote hopen ih =>
    exact ih.consFirst fun cs => by rw [splitState, if_neg hquote, if_pos hopen]
  | case5 depth c cs hquote hopen hclose ih =>
    exact ih.consFirst fun cs => by rw [splitState, if_neg hquote, if_neg hopen, if_pos hclose]
  | case6 depth c cs hquote hopen hclose hcomma ih =>
    obtain ⟨rfl, rfl⟩ := hcomma
    exact Splits.cons (show splitState none 0 [] = some (none, 0) from rfl) ih
  | case7 depth c cs hquote hopen hclose hcomma ih =>
    exact ih.consFirst fun cs => by
      rw [splitState, if_neg hquote, if_neg hopen, if_neg hclose, if_neg hcomma]

lemma splitTopLevel_of_state (h : splitState quote depth cs = some s) :
    splitTopLevel ',' quote depth cs = [cs] := by
  fun_induction splitState quote depth cs with
  | case1 => rfl
  | case2 q depth c cs ih => rw [splitTopLevel, ih h]; rfl
  | case3 depth c cs hquote ih => rw [splitTopLevel, if_pos hquote, ih h]; rfl
  | case4 depth c cs hquote hopen ih => rw [splitTopLevel, if_neg hquote, if_pos hopen, ih h]; rfl
  | case5 depth c cs hquote hopen hclose ih =>
    rw [splitTopLevel, if_neg hquote, if_neg hopen, if_pos hclose, ih h]; rfl
  | case6 => cases h
  | case7 depth c cs hquote hopen hclose hcomma ih =>
    rw [splitTopLevel, if_neg hquote, if_neg hopen, if_neg hclose, if_neg hcomma, ih h]; rfl

lemma splitTopLevel_append (h : splitState quote depth cs = some (none, 0)) (ds : List Char) :
    splitTopLevel ',' quote depth (cs ++ ',' :: ds) = cs :: splitTopLevel ',' none 0 ds := by
  fun_induction splitState quote depth cs with
  | case1 quote depth =>
    cases h
    rw [List.nil_append, splitTopLevel]
    simp
  | case2 q depth c cs ih => rw [cons_append, splitTopLevel, ih h]; rfl
  | case3 depth c cs hquote ih => rw [cons_append, splitTopLevel, if_pos hquote, ih h]; rfl
  | case4 depth c cs hquote hopen ih =>
    rw [cons_append, splitTopLevel, if_neg hquote, if_pos hopen, ih h]; rfl
  | case5 depth c cs hquote hopen hclose ih =>
    rw [cons_append, splitTopLevel, if_neg hquote, if_neg hopen, if_pos hclose, ih h]; rfl
  | case6 => cases h
  | case7 depth c cs hquote hopen hclose hcomma ih =>
    rw [cons_append, splitTopLevel, if_neg hquote, if_neg hopen, if_neg hclose,
      if_neg hcomma, ih h]
    rfl

lemma Splits.splitTopLevel_eq (h : Splits quote depth cs parts) :
    splitTopLevel ',' quote depth cs = parts := by
  induction h with
  | last h => exact splitTopLevel_of_state h
  | cons h _ ih => rw [splitTopLevel_append h, ih]

lemma splitState_blank (hquote : IsQuote quote) (hc : isBlank c = true) (cs : List Char) :
    splitState quote depth (c :: cs) = splitState quote depth cs := by
  have hne : ∀ d ∈ ['"', '\'', '(', ')', '[', ']', ','], c ≠ d := by
    intro d hd
    rintro rfl
    revert hc
    simp only [mem_cons, not_mem_nil, or_false] at hd
    rcases hd with rfl | rfl | rfl | rfl | rfl | rfl | rfl <;> simp [isBlank]
  simp only [mem_cons, not_mem_nil, or_false, forall_eq_or_imp, forall_eq] at hne
  obtain ⟨hdouble, hsingle, hopen, hclose, hopen', hclose', hcomma⟩ := hne
  cases quote with
  | none => simp [splitState, hdouble, hsingle, hopen, hclose, hopen', hclose', hcomma]
  | some q =>
    have hq : c ≠ q := by
      rcases hquote q rfl with rfl | rfl
      · exact hdouble
      · exact hsingle
    rw [splitState, if_neg hq]

lemma splitState_solid (hquote : IsQuote quote) (cs : List Char) :
    splitState quote depth (solid cs) = splitState quote depth cs := by
  induction cs generalizing quote depth with
  | nil => rfl
  | cons c cs ih =>
    by_cases hc : isBlank c = true
    · rw [splitState_blank hquote hc, solid_cons, if_pos hc, ih hquote]
    · rw [solid_cons, if_neg hc]
      cases quote with
      | some q => rw [splitState, splitState, ih (hquote.closed c)]
      | none =>
        rw [splitState, splitState, ih isQuote_none, ih isQuote_none, ih isQuote_none]
        split
        · rename_i hopens
          rw [ih (by simpa [IsQuote] using hopens)]
        · rfl

lemma splitState_collapse (hquote : IsQuote quote) (cs : List Char) :
    splitState quote depth (collapse cs) = splitState quote depth cs := by
  rw [← splitState_solid hquote, solid_collapse, splitState_solid hquote]

end Splits

end ComponentTemplate
