import Mathlib
import ComponentTemplate.Text.Blank

/-!
# Blanks and words

What trimming a text and collapsing its blanks do, stated for texts in parts: a text is its
core between blanks, or words with blanks between them.
-/

namespace ComponentTemplate.Text

open List

variable {cs before after word rest : List Char}

/-- **Texts of blanks only.** -/
def Blank (cs : List Char) : Prop := ∀ c ∈ cs, isBlank c = true

instance (cs : List Char) : Decidable (Blank cs) :=
  inferInstanceAs (Decidable (∀ c ∈ cs, isBlank c = true))

/-- **Texts without blanks at their ends.** -/
structure Trimmed (cs : List Char) : Prop where
  head : ∀ c ∈ cs.head?, isBlank c = false
  last : ∀ c ∈ cs.getLast?, isBlank c = false

lemma Blank.nil : Blank [] := by simp [Blank]

lemma Blank.append (hbefore : Blank before) (hafter : Blank after) : Blank (before ++ after) := by
  intro c hc
  rcases mem_append.mp hc with hc | hc
  · exact hbefore c hc
  · exact hafter c hc

lemma isBlank_space : isBlank ' ' = true := by simp [isBlank]

lemma blank_space : Blank [' '] := by simp [Blank, isBlank_space]

lemma Trimmed.nil : Trimmed [] := ⟨by simp, by simp⟩

lemma Trimmed.reverse (h : Trimmed cs) : Trimmed cs.reverse :=
  ⟨by simpa using h.last, by simpa using h.head⟩

lemma Trimmed.eq_nil (h : Trimmed cs) (hblank : Blank cs) : cs = [] := by
  cases cs with
  | nil => rfl
  | cons c cs =>
    have hc := hblank c (mem_cons_self ..)
    rw [h.head c rfl] at hc
    cases hc

/-! ## Trimming -/

lemma trimStart_append (hbefore : Blank before) (cs : List Char) :
    trimStart (before ++ cs) = trimStart cs := by
  unfold trimStart
  rw [dropWhile_append, dropWhile_eq_nil_iff.mpr hbefore]
  rfl

lemma trimStart_of_head (h : ∀ c ∈ cs.head?, isBlank c = false) : trimStart cs = cs := by
  cases cs with
  | nil => rfl
  | cons c cs => simp [trimStart, h c rfl]

lemma head_trimStart (cs : List Char) : ∀ c ∈ (trimStart cs).head?, isBlank c = false := by
  intro c hc
  have h := head?_dropWhile_not isBlank cs
  rw [trimStart] at hc
  rw [hc] at h
  simpa using h

lemma trimEnd_append (hafter : Blank after) (cs : List Char) :
    trimEnd (cs ++ after) = trimEnd cs := by
  have hreverse : Blank after.reverse := fun c hc => hafter c (mem_reverse.mp hc)
  rw [trimEnd, reverse_append, trimStart_append hreverse, trimEnd]

lemma trimEnd_of_last (h : ∀ c ∈ cs.getLast?, isBlank c = false) : trimEnd cs = cs := by
  rw [trimEnd, trimStart_of_head (by simpa using h), reverse_reverse]

/-- **The core of a text between blanks is the text**, if it is trimmed itself. -/
theorem trim_append (hbefore : Blank before) (hafter : Blank after) (h : Trimmed cs) :
    trim (before ++ (cs ++ after)) = cs := by
  rw [trim, trimStart_append hbefore]
  cases cs with
  | nil =>
    have hnil : trimStart after = [] := dropWhile_eq_nil_iff.mpr hafter
    rw [nil_append, hnil]
    rfl
  | cons c cs =>
    rw [trimStart_of_head (by simpa using h.head), trimEnd_append hafter, trimEnd_of_last h.last]

lemma trim_of_trimmed (h : Trimmed cs) : trim cs = cs := by simpa using trim_append .nil .nil h

lemma exists_trim_eq (cs : List Char) :
    ∃ before after, Blank before ∧ Blank after ∧ cs = before ++ (trim cs ++ after) := by
  refine ⟨blankStart cs, blankEnd (trimStart cs), fun c hc => mem_takeWhile_imp hc, ?_, ?_⟩
  · intro c hc
    exact mem_takeWhile_imp (mem_reverse.mp hc)
  · rw [trim, trimEnd_append_blankEnd, blankStart_append_trimStart]

lemma trimmed_trim (cs : List Char) : Trimmed (trim cs) := by
  have hlast : ∀ c ∈ (trim cs).getLast?, isBlank c = false := by
    intro c hc
    rw [trim, trimEnd, getLast?_reverse] at hc
    exact head_trimStart _ c hc
  refine ⟨fun c hc => ?_, hlast⟩
  -- what is left starts as it did before its end was cut
  have hstart := head_trimStart cs c
  rw [← trimEnd_append_blankEnd (trimStart cs), head?_append] at hstart
  have hhead : (trimEnd (trimStart cs)).head? = some c := hc
  exact hstart (by simp [hhead])

lemma isInfix_trim (cs : List Char) : trim cs <:+: cs := by
  obtain ⟨before, after, -, -, heq⟩ := exists_trim_eq cs
  exact ⟨before, after, by rw [append_assoc]; exact heq.symm⟩

lemma exists_trim_cons (hc : isBlank c = false) (cs : List Char) :
    ∃ cs', trim (c :: cs) = c :: cs' ∧ cs' <+: cs := by
  obtain ⟨before, after, hbefore, hafter, heq⟩ := exists_trim_eq (c :: cs)
  cases before with
  | cons d before =>
    rw [cons_append, cons.injEq] at heq
    exact absurd (hbefore d (by simp)) (by simp [← heq.1, hc])
  | nil =>
    cases htrim : trim (c :: cs) with
    | nil =>
      rw [htrim, nil_append, nil_append] at heq
      exact absurd (hafter c (by simp [← heq])) (by simp [hc])
    | cons d cs' =>
      rw [htrim, nil_append, cons_append, cons.injEq] at heq
      exact ⟨cs', by rw [heq.1], after, heq.2.symm⟩

lemma trim_append_right (hafter : Blank after) (cs : List Char) : trim (cs ++ after) = trim cs := by
  obtain ⟨before, blanks, hbefore, hblanks, heq⟩ := exists_trim_eq cs
  have htrim := trim_append hbefore (hblanks.append hafter) (trimmed_trim cs)
  rwa [← append_assoc, ← append_assoc, append_assoc before, ← heq] at htrim

lemma trim_append_left (hbefore : Blank before) (cs : List Char) :
    trim (before ++ cs) = trim cs := by
  rw [trim, trimStart_append hbefore, trim]

lemma blank_blankStart (cs : List Char) : Blank (blankStart cs) :=
  fun c hc => all_eq_true.mp all_takeWhile c hc

lemma blank_blankEnd (cs : List Char) : Blank (blankEnd cs) :=
  fun c hc => blank_blankStart cs.reverse c (mem_reverse.mp hc)

lemma trim_trimEnd (cs : List Char) : trim (trimEnd cs) = trim cs := by
  rw [← trim_append_right (blank_blankEnd cs), trimEnd_append_blankEnd]

lemma trim_append_of_ne_nil (hafter : Blank after) (h : Trimmed cs) (hne : cs ≠ []) :
    trim (before ++ (cs ++ after)) = trimStart before ++ cs := by
  have htrimmed : Trimmed (trimStart before ++ cs) := by
    refine ⟨fun c hc => ?_, fun c hc => ?_⟩
    · cases hstart : (trimStart before).head? with
      | none => exact h.head c (by simpa [hstart] using hc)
      | some d => exact head_trimStart before c (by simpa [hstart] using hc)
    · rw [getLast?_append_of_ne_nil _ hne] at hc
      exact h.last c hc
  have htrim := trim_append (blank_blankStart before) hafter htrimmed
  rwa [← append_assoc, ← append_assoc, blankStart_append_trimStart,
    append_assoc] at htrim

/-! ## Words -/

lemma words_of_blank (h : Blank cs) : words cs = [] := by
  have hnil : trimStart cs = [] := dropWhile_eq_nil_iff.mpr h
  rw [words]
  split
  · rfl
  · rename_i hcons
    rw [hnil] at hcons
    cases hcons

lemma words_append (hbefore : Blank before) (hne : word ≠ [])
    (hword : ∀ c ∈ word, isBlank c = false) (hrest : ∀ c ∈ rest.head?, isBlank c = true) :
    words (before ++ (word ++ rest)) = word :: words rest := by
  obtain ⟨c, cs, rfl⟩ := exists_cons_of_ne_nil hne
  have hhead : isBlank c = false := hword c (mem_cons_self ..)
  have htrim : trimStart (before ++ ((c :: cs) ++ rest)) = c :: (cs ++ rest) := by
    rw [trimStart_append hbefore, trimStart_of_head (by simpa using hhead), cons_append]
  have htake : (cs ++ rest).takeWhile (!isBlank ·) = cs := by
    have hcs : ∀ d ∈ cs, (!isBlank d) = true := fun d hd => by
      simp [hword d (mem_cons_of_mem _ hd)]
    rw [takeWhile_append_of_pos hcs]
    cases rest with
    | nil => simp
    | cons d rest => simp [hrest d rfl]
  have hdrop : (cs ++ rest).dropWhile (!isBlank ·) = rest := by
    have h := takeWhile_append_dropWhile (p := (!isBlank ·)) (l := cs ++ rest)
    rw [htake] at h
    exact append_cancel_left h
  rw [words]
  split
  · rename_i hnil
    rw [htrim] at hnil
    cases hnil
  · rename_i d ds hcons
    rw [htrim] at hcons
    cases hcons
    rw [htake, hdrop]

/-- **A text is blank, or a word between blanks, or a word before a text that is not blank.** -/
theorem wordsInduction {P : List Char → Prop} (blank : ∀ cs, Blank cs → P cs)
    (last : ∀ before word after, Blank before → word ≠ [] → (∀ c ∈ word, isBlank c = false) →
      Blank after → P (before ++ (word ++ after)))
    (more : ∀ before word rest, Blank before → word ≠ [] → (∀ c ∈ word, isBlank c = false) →
      (∀ c ∈ rest.head?, isBlank c = true) → ¬ Blank rest → P rest → P (before ++ (word ++ rest)))
    (cs : List Char) : P cs := by
  induction hlength : cs.length using Nat.strong_induction_on generalizing cs with
  | _ n ih =>
    subst hlength
    by_cases hblank : Blank cs
    · exact blank cs hblank
    -- the first word, between the blanks before it and what follows
    let start := trimStart cs
    let first := start.takeWhile (!isBlank ·)
    let rest := start.dropWhile (!isBlank ·)
    have hcs : cs = blankStart cs ++ (first ++ rest) := by
      rw [takeWhile_append_dropWhile, blankStart_append_trimStart]
    have hbefore : Blank (blankStart cs) := fun c hc => mem_takeWhile_imp hc
    have hfirst : ∀ c ∈ first, isBlank c = false := fun c hc => by
      simpa using mem_takeWhile_imp hc
    have hrest : ∀ c ∈ rest.head?, isBlank c = true := by
      intro c hc
      have h := head?_dropWhile_not (!isBlank ·) start
      rw [show start.dropWhile (!isBlank ·) = rest from rfl, hc] at h
      simpa using h
    have hne : first ≠ [] := by
      intro hnil
      cases hstart : start with
      | nil => exact hblank (dropWhile_eq_nil_iff.mp hstart)
      | cons c cs' =>
        have hc := head_trimStart cs c (by rw [show trimStart cs = c :: cs' from hstart]; rfl)
        simp [first, hstart, hc] at hnil
    have hlt : rest.length < cs.length := by
      have hpos := length_pos_iff.mpr hne
      have h := congrArg length hcs
      simp only [length_append] at h
      omega
    rw [hcs]
    by_cases hafter : Blank rest
    · exact last _ first rest hbefore hne hfirst hafter
    · exact more _ first rest hbefore hne hfirst hrest hafter (ih rest.length hlt rest rfl)

/-! ## Collapsing -/

lemma collapse_of_blank (h : Blank cs) : collapse cs = [] := by
  rw [collapse, words_of_blank h]
  rfl

lemma head_of_blank (h : Blank after) : ∀ c ∈ after.head?, isBlank c = true :=
  fun c hc => h c (mem_of_mem_head? hc)

lemma collapse_last (hbefore : Blank before) (hne : word ≠ [])
    (hword : ∀ c ∈ word, isBlank c = false) (hafter : Blank after) :
    collapse (before ++ (word ++ after)) = word := by
  rw [collapse, words_append hbefore hne hword (head_of_blank hafter), words_of_blank hafter]
  simp

lemma words_ne_nil (h : ¬ Blank cs) : words cs ≠ [] := by
  induction cs using wordsInduction with
  | blank cs hblank => exact absurd hblank h
  | last before word after hbefore hne hword hafter =>
    simp [words_append hbefore hne hword (head_of_blank hafter)]
  | more before word rest hbefore hne hword hrest _ _ => simp [words_append hbefore hne hword hrest]

lemma collapse_more (hbefore : Blank before) (hne : word ≠ [])
    (hword : ∀ c ∈ word, isBlank c = false) (hrest : ∀ c ∈ rest.head?, isBlank c = true)
    (hmore : ¬ Blank rest) :
    collapse (before ++ (word ++ rest)) = word ++ ' ' :: collapse rest := by
  rw [collapse, words_append hbefore hne hword hrest,
    intercalate_cons_of_ne_nil (words_ne_nil hmore), collapse]
  simp

lemma collapse_eq_nil_iff : collapse cs = [] ↔ Blank cs := by
  refine ⟨fun h => ?_, collapse_of_blank⟩
  induction cs using wordsInduction with
  | blank cs hblank => exact hblank
  | last before word after hbefore hne hword hafter =>
    rw [collapse_last hbefore hne hword hafter] at h
    exact absurd h hne
  | more before word rest hbefore hne hword hrest hmore _ =>
    rw [collapse_more hbefore hne hword hrest hmore] at h
    simp at h

lemma trimmed_collapse (cs : List Char) : Trimmed (collapse cs) := by
  induction cs using wordsInduction with
  | blank cs h => simpa [collapse_of_blank h] using Trimmed.nil
  | last before word after hbefore hne hword hafter =>
    rw [collapse_last hbefore hne hword hafter]
    exact ⟨fun c hc => hword c (mem_of_mem_head? hc),
      fun c hc => hword c (mem_of_mem_getLast? hc)⟩
  | more before word rest hbefore hne hword hrest hmore ih =>
    rw [collapse_more hbefore hne hword hrest hmore]
    refine ⟨fun c hc => ?_, fun c hc => ?_⟩
    · rw [head?_append_of_ne_nil _ hne] at hc
      exact hword c (mem_of_mem_head? hc)
    · have hne' : collapse rest ≠ [] := fun h => hmore (collapse_eq_nil_iff.mp h)
      rw [getLast?_append_of_ne_nil _ (by simp), getLast?_cons_of_ne_nil hne'] at hc
      exact ih.last c hc

lemma collapse_append_left (hbefore : Blank before) (cs : List Char) :
    collapse (before ++ cs) = collapse cs := by
  induction cs using wordsInduction with
  | blank cs h => rw [collapse_of_blank h, collapse_of_blank (hbefore.append h)]
  | last before' word after hbefore' hne hword hafter =>
    rw [collapse_last hbefore' hne hword hafter, ← append_assoc,
      collapse_last (hbefore.append hbefore') hne hword hafter]
  | more before' word rest hbefore' hne hword hrest hmore _ =>
    rw [collapse_more hbefore' hne hword hrest hmore, ← append_assoc,
      collapse_more (hbefore.append hbefore') hne hword hrest hmore]

lemma collapse_append_right (hafter : Blank after) (cs : List Char) :
    collapse (cs ++ after) = collapse cs := by
  induction cs using wordsInduction with
  | blank cs h => rw [collapse_of_blank h, collapse_of_blank (h.append hafter)]
  | last before word after' hbefore hne hword hafter' =>
    rw [collapse_last hbefore hne hword hafter', append_assoc, append_assoc,
      collapse_last hbefore hne hword (hafter'.append hafter)]
  | more before word rest hbefore hne hword hrest hmore ih =>
    have hhead : ∀ c ∈ (rest ++ after).head?, isBlank c = true := by
      cases rest with
      | nil => exact absurd Blank.nil hmore
      | cons c rest => exact hrest
    have hmore' : ¬ Blank (rest ++ after) := fun h =>
      hmore fun c hc => h c (mem_append_left _ hc)
    rw [collapse_more hbefore hne hword hrest hmore, append_assoc, append_assoc,
      collapse_more hbefore hne hword hhead hmore', ih]

lemma collapse_trim (cs : List Char) : collapse (trim cs) = collapse cs := by
  obtain ⟨before, after, hbefore, hafter, hcs⟩ := exists_trim_eq cs
  conv_rhs => rw [hcs]
  rw [collapse_append_left hbefore, collapse_append_right hafter]

lemma collapse_collapse (cs : List Char) : collapse (collapse cs) = collapse cs := by
  induction cs using wordsInduction with
  | blank cs h => rw [collapse_of_blank h, collapse_of_blank .nil]
  | last before word after hbefore hne hword hafter =>
    rw [collapse_last hbefore hne hword hafter]
    simpa using collapse_last .nil hne hword .nil
  | more before word rest hbefore hne hword hrest hmore ih =>
    rw [collapse_more hbefore hne hword hrest hmore]
    have hspace : ∀ c ∈ (' ' :: collapse rest).head?, isBlank c = true := by
      simp only [head?_cons, Option.mem_def, Option.some.injEq, forall_eq']
      decide
    have hmore' : ¬ Blank (' ' :: collapse rest) := by
      intro hblank
      have hnil : collapse rest = [] :=
        (trimmed_collapse rest).eq_nil fun c hc => hblank c (mem_cons_of_mem _ hc)
      exact hmore (collapse_eq_nil_iff.mp hnil)
    have hrest' : collapse (' ' :: collapse rest) = collapse rest :=
      (collapse_append_left (show Blank [' '] by simp [Blank, isBlank]) _).trans ih
    have h := collapse_more .nil hne hword hspace hmore'
    rwa [hrest', nil_append] at h

def solid (cs : List Char) : List Char := cs.filter (!isBlank ·)

lemma solid_cons (c : Char) (cs : List Char) :
    solid (c :: cs) = if isBlank c = true then solid cs else c :: solid cs := by
  cases hc : isBlank c <;> simp [solid, hc]

@[simp]
lemma solid_append (cs ds : List Char) : solid (cs ++ ds) = solid cs ++ solid ds :=
  filter_append ..

@[simp]
lemma solid_of_blank (h : Blank cs) : solid cs = [] :=
  filter_eq_nil_iff.mpr fun c hc => by simp [h c hc]

lemma solid_trim (cs : List Char) : solid (trim cs) = solid cs := by
  obtain ⟨before, after, hbefore, hafter, hcs⟩ := exists_trim_eq cs
  conv_rhs => rw [hcs, solid_append, solid_append, solid_of_blank hbefore, solid_of_blank hafter]
  simp

/-- **Collapsing keeps all characters that are not blank**, in order. -/
theorem solid_collapse (cs : List Char) : solid (collapse cs) = solid cs := by
  induction cs using wordsInduction with
  | blank cs h => rw [collapse_of_blank h, solid_of_blank h, solid_of_blank .nil]
  | last before word after hbefore hne hword hafter =>
    rw [collapse_last hbefore hne hword hafter]
    simp [hbefore, hafter]
  | more before word rest hbefore hne hword hrest hmore ih =>
    rw [collapse_more hbefore hne hword hrest hmore]
    have hspace : Blank [' '] := by simp [Blank, isBlank]
    rw [← singleton_append, solid_append, solid_append, ih]
    simp [hbefore, hspace]

lemma exists_collapse_cons (hc : isBlank c = false) (cs : List Char) :
    ∃ cs', collapse (c :: cs) = c :: cs' ∧ ∀ d ∈ cs'.head?, d = ' ' ∨ cs.head? = some d := by
  let word := cs.takeWhile (!isBlank ·)
  let rest := cs.dropWhile (!isBlank ·)
  have hcs : word ++ rest = cs := takeWhile_append_dropWhile
  have hword : ∀ d ∈ c :: word, isBlank d = false := by
    intro d hd
    rcases mem_cons.mp hd with rfl | hd
    · exact hc
    · simpa using mem_takeWhile_imp hd
  have hhead : ∀ d ∈ word.head?, cs.head? = some d := by
    intro d hd
    rw [← hcs, head?_append, show word.head? = some d from hd]
    rfl
  have heq : c :: cs = [] ++ ((c :: word) ++ rest) := by rw [← hcs]; rfl
  by_cases hafter : Blank rest
  · refine ⟨word, ?_, fun d hd => .inr (hhead d hd)⟩
    rw [heq, collapse_last .nil (cons_ne_nil _ _) hword hafter]
  · have hrest : ∀ d ∈ rest.head?, isBlank d = true := by
      intro d hd
      have h := head?_dropWhile_not (!isBlank ·) cs
      rw [show cs.dropWhile (!isBlank ·) = rest from rfl, hd] at h
      simpa using h
    refine ⟨word ++ ' ' :: collapse rest, ?_, fun d hd => ?_⟩
    · rw [heq, collapse_more .nil (cons_ne_nil _ _) hword hrest hafter]
      rfl
    · cases hw : word with
      | nil =>
        rw [hw] at hd
        exact .inl (Option.some.inj hd).symm
      | cons e word' =>
        rw [hw] at hd hhead
        exact .inr (hhead d hd)

end ComponentTemplate.Text
