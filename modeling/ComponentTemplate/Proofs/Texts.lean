import ComponentTemplate.Proofs.Blanks
import ComponentTemplate.Proofs.MarkupReading

/-!
# Texts between markup

A text ends where an item starts. What a text holds is read as text again wherever it stands, if
it spells no start of an item and the character that follows it completes none.
-/

namespace ComponentTemplate

open Text (Blank Trimmed trim isBlank)

/-! ## Texts that stay texts -/

/-- **No item starts in a text.** -/
def CleanText (cs : List Char) : Prop := ∀ s, s <:+ cs → startsItem s = false

/-- **A text stays a text before a rest**: no item starts in it, whether it ends there or not. -/
def StaysText (cs rest : List Char) : Prop :=
  ∀ s, s ≠ [] → s <:+ cs → startsItem (s ++ rest) = false

def Node.isText : Node → Bool
  | .text .. => true
  | _ => false

variable {s cs ds rest : List Char}

lemma startsItem_append (h : startsItem s = true) (rest : List Char) :
    startsItem (s ++ rest) = true := by
  unfold startsItem at h
  split at h
  · exact h
  · simp only [Bool.or_eq_true, Bool.and_eq_true] at h
    simp only [List.cons_append, startsItem, Bool.or_eq_true, Bool.and_eq_true]
    rcases h with h | ⟨hbang, hdashes⟩
    · exact .inl h
    · obtain ⟨tail, htail⟩ := List.isPrefixOf_iff_prefix.mp hdashes
      exact .inr ⟨hbang, List.isPrefixOf_iff_prefix.mpr ⟨tail ++ rest, by simp [← htail]⟩⟩
  · cases h

lemma startsMarkup_of_startsItem (h : startsItem cs = true) : startsMarkup cs = true := by
  unfold startsItem at h
  split at h
  · exact h
  · simp only [Bool.or_eq_true, Bool.and_eq_true] at h
    simp only [startsMarkup, Bool.or_eq_true]
    exact h.imp_right (·.1)
  · cases h

lemma StaysText.cleanText (h : StaysText cs rest) : CleanText cs := by
  intro s hs
  cases s with
  | nil => rfl
  | cons c s =>
    by_contra hstarts
    have := startsItem_append (Bool.eq_true_of_not_eq_false hstarts) rest
    rw [h _ (List.cons_ne_nil c s) hs] at this
    cases this

lemma CleanText.of_isInfix (h : CleanText cs) (hpart : ds <:+: cs) : CleanText ds := by
  obtain ⟨before, after, rfl⟩ := hpart
  intro s hs
  obtain ⟨start, rfl⟩ := hs
  by_contra hstarts
  have hstarts := startsItem_append (Bool.eq_true_of_not_eq_false hstarts) after
  rw [h (s ++ after) ⟨before ++ start, by simp⟩] at hstarts
  cases hstarts

lemma CleanText.trim (h : CleanText cs) : CleanText (trim cs) := h.of_isInfix (Text.isInfix_trim cs)

def closesText (c : Char) : Bool := isBlank c || c == '{' || c == '<'

variable {c : Char}

lemma closesText_of_startsItem (h : startsItem (c :: cs) = true) : closesText c = true := by
  unfold startsItem at h
  split at h
  · rename_i heq
    cases heq
    rfl
  · rename_i heq
    cases heq
    rfl
  · cases h

lemma isBlank_eq_false_of_isAlpha (h : c.isAlpha = true) : isBlank c = false := by
  rw [← Bool.not_eq_true]
  intro hblank
  have hword := isWordStart_eq_false_of_isWordChar (isWordChar_eq_false_of_isBlank hblank)
  simp [isWordStart, h] at hword

lemma closesText_spec (h : closesText c = true) :
    c.isAlpha = false ∧ c ≠ '/' ∧ c ≠ '!' ∧ c ≠ '-' ∧ c ≠ '%' := by
  simp only [closesText, Bool.or_eq_true, beq_iff_eq] at h
  rcases h with (hblank | rfl) | rfl
  · refine ⟨?_, ?_, ?_, ?_, ?_⟩
    · rw [← Bool.not_eq_true]
      intro halpha
      rw [isBlank_eq_false_of_isAlpha halpha] at hblank
      cases hblank
    all_goals
      rintro rfl
      revert hblank
      decide
  · decide
  · decide

lemma isPrefixOf_dashes_append (hc : c ≠ '-') (cs rest : List Char) :
    "--".toList.isPrefixOf (cs ++ c :: rest) = "--".toList.isPrefixOf cs := by
  have hdash : ('-' == c) = false := by simpa using Ne.symm hc
  match cs with
  | [] => simp [List.isPrefixOf, hdash]
  | [d] => simp [List.isPrefixOf, hdash]
  | d :: e :: cs => simp [List.isPrefixOf]

lemma startsItem_append_eq_false (hne : s ≠ []) (hstarts : startsItem s = false)
    (hbrace : s.getLast? = some '{' → rest.head? ≠ some '{')
    (hrest : ∀ c ∈ rest.head?, closesText c = true) : startsItem (s ++ rest) = false := by
  cases rest with
  | nil => simpa using hstarts
  | cons c rest =>
    obtain ⟨halpha, hslash, hbang, hdash, hpercent⟩ := closesText_spec (hrest c rfl)
    match s, hne with
    | [d], _ =>
      by_cases hd : d = '<'
      · simp [hd, startsItem, halpha, hslash, hbang]
      · by_cases hopen : d = '{'
        · have hc : c ≠ '{' := by simpa [hopen] using hbrace
          simp [hopen, startsItem, hc, hpercent]
        · simp [startsItem, hd, hopen]
    | d :: e :: s, _ =>
      -- the second character decides, but for a comment
      by_cases hd : d = '<'
      · rw [hd, startsItem] at hstarts
        rw [hd, List.cons_append, List.cons_append, startsItem, isPrefixOf_dashes_append hdash,
          hstarts]
      · by_cases hopen : d = '{'
        · rw [hopen] at hstarts ⊢
          exact hstarts
        · simp [startsItem, hd, hopen]

/-- **A text stays a text before blanks and markup**, if no item starts in it and it does not end
with an opening brace before another one. -/
theorem StaysText.of_cleanText (h : CleanText cs)
    (hbrace : cs.getLast? = some '{' → rest.head? ≠ some '{')
    (hrest : ∀ c ∈ rest.head?, closesText c = true) : StaysText cs rest := by
  intro s hne hs
  refine startsItem_append_eq_false hne (h s hs) ?_ hrest
  obtain ⟨before, rfl⟩ := hs
  rwa [List.getLast?_append_of_ne_nil _ hne] at hbrace

lemma startsItem_of_isBlank (h : isBlank c = true) (cs : List Char) :
    startsItem (c :: cs) = false := by
  unfold startsItem
  split
  · rename_i heq
    cases heq
    exact absurd h (by decide)
  · rename_i heq
    cases heq
    exact absurd h (by decide)
  · rfl

lemma StaysText.of_blank (h : Blank cs) : StaysText cs rest := by
  intro s hne hs
  obtain ⟨c, s, rfl⟩ := List.exists_cons_of_ne_nil hne
  exact startsItem_of_isBlank (h c (hs.subset (List.mem_cons_self ..))) _

lemma StaysText.append (hcs : StaysText cs (ds ++ rest)) (hds : StaysText ds rest) :
    StaysText (cs ++ ds) rest := by
  intro s hne hs
  obtain ⟨before, heq⟩ := hs
  rcases List.append_eq_append_iff.mp heq with ⟨s', rfl, rfl⟩ | ⟨_, rfl, rfl⟩
  · by_cases hs' : s' = []
    · exact hds _ hne (by simp [hs'])
    · rw [List.append_assoc]
      exact hcs s' hs' ⟨before, rfl⟩
  · exact hds s hne ⟨_, rfl⟩

lemma StaysText.of_isSuffix (h : StaysText cs rest) (hsuffix : ds <:+ cs) : StaysText ds rest :=
  fun s hne hs => h s hne (hs.trans hsuffix)

/-! ## Reading texts -/

lemma Node.forall_mem_cons {P : Node → Prop} {n : Node} {nodes : List Node}
    (htext : ∀ span data, P (.text span data)) (hn : P n) (hnodes : ∀ m ∈ nodes, P m) :
    ∀ m ∈ n.cons nodes, P m := by
  unfold Node.cons
  split
  · exact List.forall_mem_cons.mpr ⟨htext _ _, (List.forall_mem_cons.mp hnodes).2⟩
  · exact List.forall_mem_cons.mpr ⟨hn, hnodes⟩

namespace MarkupGrammar

lemma textRun_isPrefix (cs : List Char) : textRun cs <+: cs := by
  induction cs with
  | nil => exact List.nil_prefix
  | cons c cs ih =>
    rw [textRun]
    split
    · exact List.nil_prefix
    · exact List.cons_prefix_cons.mpr ⟨rfl, ih⟩

variable {after : List Char} {c : Char} {offset : Nat} {nodes : List Node} {next : Cursor}

lemma startsMarkup_of_textRun (cs : List Char) (hne : s ≠ []) (hs : s <:+ textRun cs)
    (hcs : cs = textRun cs ++ after) : startsMarkup (s ++ after) = false := by
  induction cs with
  | nil => simp [textRun, hne] at hs
  | cons c cs ih =>
    rw [textRun] at hs hcs
    split at hs
    · simp [hne] at hs
    · rename_i hstarts
      rw [if_neg hstarts, List.cons_append, List.cons.injEq] at hcs
      rcases List.suffix_cons_iff.mp hs with rfl | hs
      · rw [List.cons_append, ← hcs.2]
        simpa using hstarts
      · exact ih hs hcs.2

/-- **A text that is read stays a text** before what follows it. -/
theorem staysText_of_textRun (hstarts : startsItem (c :: cs) = false)
    (hcs : cs = textRun cs ++ after) : StaysText (c :: textRun cs) after := by
  intro s hne hs
  rcases List.suffix_cons_iff.mp hs with rfl | hs
  · rwa [List.cons_append, ← hcs]
  · by_contra hitem
    have hmarkup := startsMarkup_of_startsItem (Bool.eq_true_of_not_eq_false hitem)
    rw [startsMarkup_of_textRun cs hne hs hcs] at hmarkup
    cases hmarkup

lemma textRun_append_isPrefix (hrest : rest = [] ∨ startsItem rest = true) (cs : List Char) :
    textRun (cs ++ rest) <+: cs := by
  induction cs with
  | nil =>
    rcases hrest with rfl | hstarts
    · exact List.nil_prefix
    · cases rest with
      | nil => exact List.nil_prefix
      | cons c rest => simp [textRun, startsMarkup_of_startsItem hstarts]
  | cons c cs ih =>
    rw [List.cons_append, textRun]
    split
    · exact List.nil_prefix
    · exact List.cons_prefix_cons.mpr ⟨rfl, ih⟩

variable {ctx : MarkupContext} {ending : Option Ending}

lemma goesOn_of_text (hstarts : startsItem (c :: cs) = false) :
    GoesOn ending ⟨offset, c :: cs⟩ := by
  have hkeyword : blockKeyword? ⟨offset, c :: cs⟩ = none := by
    unfold blockKeyword?
    split
    · rename_i heq
      dsimp only at heq
      rw [heq] at hstarts
      cases hstarts
    · rfl
  refine ⟨List.cons_ne_nil c cs, ?_, ?_⟩
  · rw [← Bool.not_eq_true]
    intro hclosing
    obtain ⟨tail, htail⟩ := List.isPrefixOf_iff_prefix.mp hclosing
    dsimp only at htail
    rw [← htail] at hstarts
    cases hstarts
  · intro e _
    rw [hkeyword]
    cases e <;> rfl

lemma cons_text_of_head (hnodes : ∀ n ∈ nodes.head?, n.isText = false) :
    Node.cons (.text span data) nodes = .text span data :: nodes := by
  cases nodes with
  | nil => rfl
  | cons n nodes =>
    have hn := hnodes n rfl
    cases n
    case text => cases hn
    all_goals rfl

lemma derives_cons {n : Node} {cur after : Cursor} (hgoes : GoesOn ending cur)
    (hitem : Derives (.item ctx (.node n)) cur after)
    (hnodes : Derives (.sequence ctx ending nodes) after next) :
    Derives (.sequence ctx ending (n.cons nodes)) cur next := by
  refine .cons hgoes hitem ?_ hnodes
  cases ending <;> rfl

lemma derives_textRun (hstarts : startsItem (c :: (run ++ after)) = false)
    (hrun : textRun (run ++ after) = run) :
    Derives (.item ctx (.node (.text ⟨offset, offset + byteLength (c :: run)⟩
      (String.ofList (c :: run))))) ⟨offset, c :: (run ++ after)⟩
        ⟨offset + byteLength (c :: run), after⟩ := by
  have hskip := Cursor.skip_append offset (c :: run) after
  rw [List.length_cons, Nat.add_comm, List.cons_append] at hskip
  have hitem : Derives (.item ctx _) ⟨offset, c :: (run ++ after)⟩ _ := .text rfl hstarts
  rwa [hrun, hskip] at hitem

@[elab_as_elim]
lemma staysText_runs (hrest : rest = [] ∨ startsItem rest = true)
    {motive : List Char → Prop}
    (last : ∀ c run, startsItem (c :: (run ++ rest)) = false → textRun (run ++ rest) = run →
      motive (c :: run))
    (more : ∀ c run later, startsItem (c :: (run ++ (later ++ rest))) = false → textRun (run ++
      (later ++ rest)) = run → motive later → motive (c :: run ++ later))
    (hne : cs ≠ []) (hstays : StaysText cs rest) : motive cs := by
  induction hlength : cs.length using Nat.strong_induction_on generalizing cs with
  | _ length ih =>
    subst hlength
    obtain ⟨c, cs, rfl⟩ := List.exists_cons_of_ne_nil hne
    have hstarts : startsItem (c :: (cs ++ rest)) = false := hstays _ hne List.suffix_rfl
    obtain ⟨later, hlater⟩ := textRun_append_isPrefix hrest cs
    generalize hrun : textRun (cs ++ rest) = run at hlater
    subst hlater
    rw [List.append_assoc] at hstarts hrun
    by_cases hlater : later = []
    · subst hlater
      rw [List.append_nil]
      exact last c run hstarts hrun
    · have hsuffix : later <:+ c :: (run ++ later) := ⟨c :: run, rfl⟩
      have hshort : later.length < (c :: (run ++ later)).length := by simp
      exact more c run later hstarts hrun
        (ih later.length hshort hlater (hstays.of_isSuffix hsuffix) rfl)

/-- **A text that stays one is read** before what follows it, as one text. -/
theorem derives_text (hrest : rest = [] ∨ startsItem rest = true)
    (hnodes : ∀ n ∈ nodes.head?, n.isText = false) (hne : cs ≠ []) (hstays : StaysText cs rest)
    (h : Derives (.sequence ctx ending nodes) ⟨offset + byteLength cs, rest⟩ next) :
    ∃ span, Derives (.sequence ctx ending (.text span (String.ofList cs) :: nodes))
      ⟨offset, cs ++ rest⟩ next := by
  revert offset
  change ∀ offset : Nat, _ → _
  refine staysText_runs hrest ?_ ?_ hne hstays
  · intro c run hstarts hrun offset h
    have hcons := derives_cons (goesOn_of_text hstarts) (derives_textRun hstarts hrun) h
    rw [cons_text_of_head hnodes] at hcons
    exact ⟨_, hcons⟩
  · intro c run later hstarts hrun ih offset h
    rw [byteLength_append, ← Nat.add_assoc] at h
    obtain ⟨span, hlater⟩ := ih _ h
    have hcons := derives_cons (goesOn_of_text hstarts) (derives_textRun hstarts hrun) hlater
    rw [Node.cons, ← String.ofList_append] at hcons
    rw [List.append_assoc]
    exact ⟨_, hcons⟩

end MarkupGrammar

end ComponentTemplate
