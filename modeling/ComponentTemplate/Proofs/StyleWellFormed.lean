import ComponentTemplate.Proofs.Selectors
import ComponentTemplate.Proofs.Spelling
import ComponentTemplate.Proofs.StyleDerivation

/-!
# Well-formed stylesheets

What holds of the nodes that are read from a text whose preludes are tidy: their texts have no
blanks at their ends and none of the marks that would end them, and the strings and the
parentheses that they open are closed.
-/

namespace ComponentTemplate

open StyleNode Text

open Text (Blank Trimmed collapse trim isBlank)

/-! ## Tidy preludes -/

def LeadsWithBlank (text : List Char) : Prop :=
  ∃ first rest, splitTopLevel ',' none 0 text = first :: rest ∧ Blank first ∧
    ∃ part ∈ rest, ¬ Blank part

namespace StyleGrammar

/-- **The preludes from a place on are tidy**: none of them reaches the end of the text with an
open parenthesis, and none that opens the block of a rule leads with a blank selector. -/
structure TidyPreludes (start : Cursor) : Prop where
  closed : ∀ isAt place, ScansPrelude start isAt place →
    ∀ parens, preludeState none 0 place.rest ≠ some (none, parens + 1)
  leads : ∀ place, ScansPrelude start false place → ∀ text next,
    Gives (prelude place) (text, .block) next → ¬ LeadsWithBlank text

lemma skipBlanks_of_head {cur : Cursor} (h : ∀ c ∈ cur.rest.head?, isBlank c = false) :
    cur.skipBlanks = cur := by
  obtain ⟨offset, rest⟩ := cur
  simpa using skipBlanks_append (Blank.nil) h offset

lemma head_skipBlanks (cur : Cursor) : ∀ c ∈ cur.skipBlanks.rest.head?, isBlank c = false := by
  rw [Cursor.skipBlanks, Cursor.rest_skipRun]
  exact head_trimStart cur.rest

variable {cur next : Cursor}

lemma TidyPreludes.of_goesOn (h : TidyPreludes cur) (hgoes : GoesOn cur next) : TidyPreludes next :=
  ⟨fun isAt place hscans => h.closed isAt place (hscans.head hgoes),
    fun place hscans => h.leads place (hscans.head hgoes)⟩

lemma skipBlanks_skipBlanks (cur : Cursor) : cur.skipBlanks.skipBlanks = cur.skipBlanks :=
  skipBlanks_of_head (head_skipBlanks cur)

lemma GoesOn.of_skipBlanks (h : GoesOn cur.skipBlanks next) : GoesOn cur next := by
  cases h with
  | semicolon hsemicolon =>
    rw [skipBlanks_skipBlanks] at hsemicolon ⊢
    exact .semicolon hsemicolon
  | block hplace hprelude =>
    rw [preludeAt?, skipBlanks_skipBlanks] at hplace
    exact .block hplace hprelude
  | node hnode =>
    rw [skipBlanks_skipBlanks] at hnode
    exact .node hnode

lemma ScansPrelude.of_skipBlanks (h : ScansPrelude cur.skipBlanks isAt place) :
    ScansPrelude cur isAt place := by
  obtain ⟨there, hgoes, hplace⟩ := h
  rcases Relation.ReflTransGen.cases_head hgoes with rfl | ⟨mid, hfirst, hgoes⟩
  · refine ⟨cur, .refl, ?_⟩
    rwa [preludeAt?, skipBlanks_skipBlanks] at hplace
  · exact .head hfirst.of_skipBlanks ⟨there, hgoes, hplace⟩

lemma TidyPreludes.skipBlanks (h : TidyPreludes cur) : TidyPreludes cur.skipBlanks :=
  ⟨fun isAt place hscans => h.closed isAt place hscans.of_skipBlanks,
    fun place hscans => h.leads place hscans.of_skipBlanks⟩

end StyleGrammar

variable {cs cs' : List Char} {n : Nat}

lemma closed_of_preludeEnd (hend : preludeEnd none 0 cs = some (n, stop))
    (hclosed : ∀ parens, preludeState none 0 cs ≠ some (none, parens + 1)) :
    preludeState none 0 (cs.take n) = some (none, 0) := by
  obtain ⟨parens, hstate, hends⟩ := state_of_preludeEnd hend
  generalize hdrop : cs.drop n = rest at hends
  cases hends with
  | char hparens _ => rw [hstate, hparens]
  | finish =>
    -- the whole text was scanned
    have htake : cs.take n = cs := List.take_of_length_le (List.drop_eq_nil_iff.mp hdrop)
    rw [htake] at hstate ⊢
    cases parens with
    | zero => exact hstate
    | succ parens => exact absurd hstate (hclosed parens)

lemma closed_of_block (hend : preludeEnd none 0 cs = some (n, .block)) :
    preludeState none 0 (cs.take n) = some (none, 0) := by
  obtain ⟨parens, hstate, hends⟩ := state_of_preludeEnd hend
  generalize cs.drop n = rest at hends
  cases hends with
  | char hparens _ => rw [hstate, hparens]

/-! ## The texts of nodes -/

/-- **The selectors of a rule.** -/
structure IsSelectorList (selectors : List (List Char)) : Prop where
  list : SelectorList selectors
  collapsed : ∀ selector ∈ selectors, selector ≠ [] ∧ collapse selector = selector
  closed : preludeStates (none, 0) selectors = some (none, 0)
  plain : ∀ selector ∈ selectors.head?, startsPlain selector = true

/-- **The property and the value of a declaration**, which leave some parentheses open. -/
structure IsDeclaration (property value : List Char) (important : Bool) (parens : Nat) : Prop where
  trimmedProperty : Trimmed property
  trimmedValue : Trimmed value
  colon : ':' ∉ property
  state : preludeState none 0 (property ++ ':' :: value) = some (none, parens)
  plain : startsPlain (property ++ [':']) = true
  unmarked : important = false → splitImportant value = (value, false)

/-- **The name and the parameters of an at-rule**, which leave some parentheses open. -/
structure IsAtHead (name params : List Char) (parens : Nat) : Prop where
  nameChars : ∀ c ∈ name, isAtNameChar c = true
  collapsed : collapse params = params
  state : preludeState none 0 params = some (none, parens)

/-- **The text of a comment**, up to the end of its line if `inline`. -/
structure IsComment (text : List Char) (inline : Bool) : Prop where
  trimmed : Trimmed text
  unended : if inline then '\n' ∉ text else ¬ ['*', '/'] <:+: text

lemma startsPlain_cons (h : startsPlain (c :: cs) = true)
    (hhead : ∀ d ∈ cs'.head?, (d ≠ '*' ∧ d ≠ '/') ∨ cs.head? = some d) :
    startsPlain (c :: cs') = true := by
  cases cs' with
  | nil => grind [startsPlain]
  | cons d cs' =>
    rcases hhead d rfl with ⟨hstar, hslash⟩ | hhead
    · grind [startsPlain]
    · simpa [startsPlain, hhead] using h

lemma head?_eq_of_isPrefix (h : cs' <+: cs) (hd : cs'.head? = some d) : cs.head? = some d := by
  obtain ⟨after, rfl⟩ := h
  rw [List.head?_append, hd]
  rfl

section Plain

variable {c : Char} {cs text : List Char}

lemma isSelectorList_of_closed (hclosed : preludeState none 0 text = some (none, 0))
    (hplain : ∀ selector ∈ (selectorParts (splitTopLevel ',' none 0 text)).head?,
      startsPlain selector = true) :
    IsSelectorList (selectorParts (splitTopLevel ',' none 0 text)) := by
  have hsplits : Splits none 0 text (splitTopLevel ',' none 0 text) := splits_splitTopLevel text
  refine ⟨hsplits.selectorList, ?_, ?_, hplain⟩
  · intro selector hselector
    obtain ⟨hmap, hne⟩ := List.mem_filter.mp hselector
    obtain ⟨part, -, rfl⟩ := List.mem_map.mp hmap
    exact ⟨by simpa using hne, collapse_collapse part⟩
  · rw [preludeStates_selectorParts _ isQuote_none, ← hsplits.preludeState_eq isQuote_none]
    exact hclosed

lemma startsPlain_of_isPrefix (hplain : startsPlain (c :: cs) = true)
    (hc : isBlank c = false) (htext : text <+: c :: cs) (hleads : ¬ LeadsWithBlank text) :
    ∀ selector ∈ (selectorParts (splitTopLevel ',' none 0 text)).head?,
      startsPlain selector = true := by
  have hsplits : Splits none 0 text (splitTopLevel ',' none 0 text) := splits_splitTopLevel text
  intro selector hselector
  obtain ⟨first, rest, hparts, hfirst⟩ : ∃ first rest,
      splitTopLevel ',' none 0 text = first :: rest ∧ first <+: text := by
    generalize hsome : splitTopLevel ',' none 0 text = parts at hsplits
    cases hsplits with
    | last _ => exact ⟨_, _, rfl, List.prefix_rfl⟩
    | cons _ _ => exact ⟨_, _, rfl, List.prefix_append _ _⟩
  rw [hparts, selectorParts_cons] at hselector
  split at hselector
  · -- no selector is left after a blank first one
    rename_i hblank
    have hrest : selectorParts rest = [] := by
      refine List.filter_eq_nil_iff.mpr fun selector hmem => ?_
      obtain ⟨part, hpart, rfl⟩ := List.mem_map.mp hmem
      have hpart : Blank part := by
        by_contra hpart'
        exact hleads ⟨first, rest, hparts, hblank, part, hpart, hpart'⟩
      simp [collapse_of_blank hpart]
    rw [hrest] at hselector
    cases hselector
  · rename_i hblank
    cases hselector
    -- the first selector starts where the prelude does
    cases first with
    | nil => exact absurd Blank.nil hblank
    | cons d tail =>
      obtain ⟨rfl, htail⟩ := List.cons_prefix_cons.mp (hfirst.trans htext)
      obtain ⟨selector, hselector, hhead⟩ := exists_collapse_cons hc tail
      rw [hselector]
      refine startsPlain_cons hplain fun e he => ?_
      rcases hhead e he with rfl | he
      · exact .inl (by decide)
      · exact .inr (head?_eq_of_isPrefix htail he)

lemma splitImportant_cases (value : List Char) : splitImportant value = (value, false) ∨
    ∃ before after, value = before ++ '!' :: after ∧
      (trim after).map Char.toLower = "important".toList ∧
      splitImportant value = (trimEnd before, true) := by
  unfold splitImportant
  split
  · exact .inl rfl
  · rename_i after before hcut
    obtain ⟨hvalue, -⟩ := cutAt?_eq_some_iff.mp hcut
    split
    · rename_i hmark
      refine .inr ⟨before.reverse, after.reverse, ?_, hmark, rfl⟩
      have := congrArg List.reverse hvalue
      simpa using this
    · exact .inl rfl

lemma isNeutral_of_important (h : (trim after).map Char.toLower = "important".toList) :
    ∀ c ∈ after, isNeutral c = true := by
  obtain ⟨blanks, blanks', hblanks, hblanks', heq⟩ := exists_trim_eq after
  intro c hc
  rw [heq] at hc
  simp only [List.mem_append] at hc
  rcases hc with hc | hc | hc
  · exact isNeutral_of_isBlank (hblanks c hc)
  · have hlower : c.toLower ∈ "important".toList := h ▸ List.mem_map_of_mem hc
    refine decide_eq_true fun hmem => ?_
    fin_cases hmem <;> simp [Char.toLower] at hlower
  · exact isNeutral_of_isBlank (hblanks' c hc)

lemma ofDeclaration?_eq_some_iff :
    ofDeclaration? text = some found ↔ ∃ property value value' important,
      text = property ++ ':' :: value ∧ ':' ∉ property ∧
      splitImportant (trim value) = (value', important) ∧
      found = .declaration (String.ofList (trim property)) (String.ofList value') important := by
  unfold ofDeclaration?
  cases hcut : cutAt? ':' text with
  | none =>
    simp only [Option.bind_eq_bind, Option.bind_none, reduceCtorEq, false_iff]
    rintro ⟨property, value, _, _, htext, hcolon, -⟩
    rw [cutAt?_eq_some_iff.mpr ⟨htext, hcolon⟩] at hcut
    cases hcut
  | some cut =>
    obtain ⟨property, value⟩ := cut
    obtain ⟨htext, hcolon⟩ := cutAt?_eq_some_iff.mp hcut
    constructor
    · intro h
      cases h
      exact ⟨property, value, _, _, htext, hcolon, rfl, rfl⟩
    · rintro ⟨property', value', value'', important, htext', hcolon', hsplit, rfl⟩
      rw [cutAt?_eq_some_iff.mpr ⟨htext', hcolon'⟩] at hcut
      cases hcut
      simp [hsplit]

variable {property value value' : List Char} {important : Bool}

lemma preludeState_declaration (hstate : preludeState none 0 (property ++ ':' :: value) = some s)
    (hsplit : splitImportant (trim value) = (value', important)) :
    preludeState none 0 (trim property ++ ':' :: value') = some s := by
  have hneutral : isNeutral ':' = true := by decide
  rw [preludeState_append isQuote_none _ _ hneutral, preludeState_trim isQuote_none]
  rw [preludeState_append isQuote_none _ _ hneutral] at hstate
  cases hproperty : preludeState none 0 property with
  | none => simp [hproperty] at hstate
  | some before =>
    have hquote := isQuote_none.preludeState hproperty
    rw [hproperty, Option.bind_some, ← preludeState_trim hquote] at hstate
    rw [Option.bind_some]
    rcases splitImportant_cases (trim value) with hunmarked | ⟨first, after, hvalue, hmark, hmarked⟩
    · rw [hunmarked] at hsplit
      cases hsplit
      exact hstate
    · -- what follows the value changes no state
      rw [hmarked] at hsplit
      cases hsplit
      rw [hvalue, preludeState_append_neutral hquote first (List.forall_mem_cons.mpr
        ⟨by decide, isNeutral_of_important hmark⟩)] at hstate
      rwa [← trimEnd_append_blankEnd first,
        preludeState_append_blank hquote (blank_blankEnd first)] at hstate

lemma startsPlain_property (hplain : startsPlain (c :: cs) = true) (hc : isBlank c = false)
    (htext : property ++ ':' :: value <+: c :: cs) :
    startsPlain (trim property ++ [':']) = true := by
  cases property with
  | nil => decide
  | cons d tail =>
    obtain ⟨rfl, htail⟩ := List.cons_prefix_cons.mp htext
    obtain ⟨property, hproperty, hstart⟩ := exists_trim_cons hc tail
    rw [hproperty]
    refine startsPlain_cons hplain fun e he => ?_
    cases property with
    | nil =>
      obtain rfl : ':' = e := by simpa using he
      exact .inl (by decide)
    | cons e' property =>
      exact .inr (head?_eq_of_isPrefix (hstart.trans ((List.prefix_append _ _).trans htail)) he)

lemma isDeclaration_of_isPrefix (hplain : startsPlain (c :: cs) = true) (hc : isBlank c = false)
    (htext : property ++ ':' :: value <+: c :: cs) (hcolon : ':' ∉ property)
    (hstate : preludeState none 0 (property ++ ':' :: value) = some (none, parens))
    (hsplit : splitImportant (trim value) = (value', important)) :
    IsDeclaration (trim property) value' important parens := by
  have hstate' := preludeState_declaration hstate hsplit
  have hplain' := startsPlain_property hplain hc htext
  have hcolon' : ':' ∉ trim property := fun h => hcolon ((isInfix_trim property).subset h)
  rcases splitImportant_cases (trim value) with hunmarked | ⟨before, after, hvalue, -, hmarked⟩
  · rw [hunmarked] at hsplit
    cases hsplit
    exact ⟨trimmed_trim property, trimmed_trim value, hcolon', hstate', hplain',
      fun _ => hunmarked⟩
  · rw [hmarked] at hsplit
    cases hsplit
    -- what is before the mark starts as the value does
    have hbefore : trimEnd before = trim before := by
      have hhead : ∀ d ∈ before.head?, isBlank d = false := fun d hd =>
        (trimmed_trim value).head d (hvalue ▸ head?_eq_of_isPrefix (List.prefix_append _ _) hd)
      rw [trim, trimStart_of_head hhead]
    rw [hbefore] at hstate' ⊢
    exact ⟨trimmed_trim property, trimmed_trim before, hcolon', hstate', hplain', by simp⟩

end Plain

/-! ## Nodes -/

mutual

/-- **A well-formed node**: its texts are those of a node of its kind, at every depth. -/
def StyleNode.WellFormed : StyleNode → Prop
  | .rule selectors nodes =>
    IsSelectorList (selectors.map String.toList) ∧ AllWellFormed nodes
  | .declaration property value important => IsDeclaration property.toList value.toList important 0
  | .atRule name params none => IsAtHead name.toList params.toList 0
  | .atRule name params (some nodes) =>
    IsAtHead name.toList params.toList 0 ∧ AllWellFormed nodes
  | .comment text inline => IsComment text.toList inline

def StyleNode.AllWellFormed : List StyleNode → Prop
  | [] => True
  | node :: rest => node.WellFormed ∧ AllWellFormed rest

end

namespace StyleGrammar

def Phrase.WellFormed : Phrase → Prop
  | .nodes _ found => AllWellFormed found
  | .node n => n.WellFormed

variable {cs text : List Char} {n parens : Nat} {cur : Cursor}

lemma isComment_of_beforeText? (htext : beforeText? ['*', '/'] cs = some text) :
    IsComment (String.ofList (trim text)).toList false := by
  refine ⟨by simpa using trimmed_trim text, ?_⟩
  have hunended := not_isInfix_of_beforeText? (by simp) htext
  simpa using fun h => hunended (List.IsInfix.trans h (isInfix_trim text))

lemma isComment_of_takeWhile (cs : List Char) :
    IsComment (String.ofList (trim (cs.takeWhile (· ≠ '\n')))).toList true := by
  refine ⟨by simpa using trimmed_trim _, ?_⟩
  have hunended : '\n' ∉ cs.takeWhile (· ≠ '\n') := fun h => by simpa using List.mem_takeWhile_imp h
  simpa using fun h => hunended ((isInfix_trim _).subset h)

lemma isAtHead_of_prelude
    (hstate : preludeState none 0 ((cs.dropWhile isAtNameChar).take n) = some (none, parens)) :
    IsAtHead (cs.takeWhile isAtNameChar)
      (collapse (trim ((cs.dropWhile isAtNameChar).take n))) parens := by
  refine ⟨fun c hc => List.mem_takeWhile_imp hc, collapse_collapse _, ?_⟩
  rwa [preludeState_collapse isQuote_none, preludeState_trim isQuote_none]

lemma preludeAt?_of_at (hopen : cur.rest = '@' :: cs) :
    preludeAt? cur = some (true, cur.skip (1 + (cs.takeWhile isAtNameChar).length)) := by
  have hskip : cur.skipBlanks = cur := skipBlanks_of_head (by simp [hopen, isBlank])
  obtain ⟨hname, -⟩ := atName_eq hopen
  rw [preludeAt?, hskip, if_pos (by simp [Cursor.startsWith, hopen]), hname]

lemma preludeAt?_of_startsPlain (hskip : cur.skipBlanks = cur)
    (hplain : startsPlain cur.rest = true) : preludeAt? cur = some (false, cur) := by
  obtain ⟨c, cs, hrest⟩ := exists_cons_of_startsPlain hplain
  obtain ⟨-, -, -, hat⟩ := (startsPlain_iff hrest).mp hplain
  rw [preludeAt?, hskip, if_neg (by simp [hat]), if_pos hplain]

lemma isPrefix_trim_take (hc : isBlank c = false) (cs : List Char) (n : Nat) :
    trim ((c :: cs).take n) <+: c :: cs := by
  cases n with
  | zero => exact List.nil_prefix
  | succ n =>
    obtain ⟨text, htext, hstart⟩ := exists_trim_cons hc (cs.take n)
    rw [List.take_succ_cons, htext]
    exact List.cons_prefix_cons.mpr ⟨rfl, hstart.trans (List.take_prefix n cs)⟩

lemma isSelectorList_of_prelude (hstate : preludeState none 0 text = some (none, 0))
    (hplain : ∀ selector ∈ (selectorsOf (trim text)).head?, startsPlain selector.toList = true) :
    IsSelectorList ((selectorsOf (trim text)).map String.toList) := by
  have hchars : String.toList ∘ String.ofList = id := funext fun _ => String.toList_ofList
  rw [selectorsOf_eq] at hplain ⊢
  rw [List.map_map, hchars, List.map_id]
  refine isSelectorList_of_closed (by rwa [preludeState_trim isQuote_none]) fun selector hselector => ?_
  have hhead := hplain (String.ofList selector) (by
    rw [List.head?_map]
    exact Option.mem_map_of_mem _ hselector)
  rwa [String.toList_ofList] at hhead

lemma isDeclaration_of_prelude (hskip : cur.skipBlanks = cur)
    (hplain : startsPlain cur.rest = true)
    (hstate : preludeState none 0 (cur.rest.take n) = some (none, parens))
    (hfound : ofDeclaration? (trim (cur.rest.take n)) = some found) :
    ∃ property value important, found = .declaration property value important ∧
      IsDeclaration property.toList value.toList important parens := by
  obtain ⟨c, cs, hrest⟩ := exists_cons_of_startsPlain hplain
  have hc : isBlank c = false := head_skipBlanks cur c (by rw [hskip, hrest]; rfl)
  obtain ⟨property, value, value', important, htext, hcolon, hsplit, rfl⟩ :=
    ofDeclaration?_eq_some_iff.mp hfound
  rw [hrest] at hplain hstate htext
  have hstart := isPrefix_trim_take hc cs n
  rw [htext] at hstart
  rw [← preludeState_trim isQuote_none, htext] at hstate
  exact ⟨_, _, important, rfl,
    by simpa using isDeclaration_of_isPrefix hplain hc hstart hcolon hstate hsplit⟩

lemma startsPlain_of_leads (hskip : cur.skipBlanks = cur) (hplain : startsPlain cur.rest = true)
    (hleads : ¬ LeadsWithBlank (trim (cur.rest.take n))) :
    ∀ selector ∈ (selectorsOf (trim (cur.rest.take n))).head?,
      startsPlain selector.toList = true := by
  obtain ⟨c, cs, hrest⟩ := exists_cons_of_startsPlain hplain
  have hc : isBlank c = false := head_skipBlanks cur c (by rw [hskip, hrest]; rfl)
  rw [hrest] at hplain hleads ⊢
  intro selector hselector
  rw [selectorsOf_eq, List.head?_map] at hselector
  obtain ⟨chars, hchars, rfl⟩ := Option.mem_map.mp hselector
  rw [String.toList_ofList]
  exact startsPlain_of_isPrefix hplain hc (isPrefix_trim_take hc cs n) hleads chars hchars

lemma wellFormed_of_derives {phrase : Phrase} {next : Cursor} (h : Derives phrase cur next)
    (htidy : TidyPreludes cur) (hnode : ∀ n, phrase = .node n → cur.skipBlanks = cur) :
    phrase.WellFormed := by
  induction h with
  | done _ => trivial
  | close _ => trivial
  | semicolon hsemicolon _ ih => exact ih (htidy.of_goesOn (.semicolon hsemicolon)) nofun
  | @cons cur after next nested first rest hfirst _ ihfirst ihrest =>
    refine ⟨ihfirst htidy.skipBlanks fun _ _ => skipBlanks_of_head (head_skipBlanks cur), ?_⟩
    exact ihrest (htidy.of_goesOn (.node (reads_of_derives hfirst))) nofun
  | blockComment _ htext => exact isComment_of_beforeText? htext
  | lineComment _ => exact isComment_of_takeWhile _
  | @atStatement cur cs n stop hopen hend hstop =>
    have hclosed := htidy.closed _ _ ⟨cur, .refl, preludeAt?_of_at hopen⟩
    obtain ⟨hname, hskip⟩ := atName_eq hopen
    rw [← hname, hskip] at hclosed
    simpa [Phrase.WellFormed, WellFormed] using
      isAtHead_of_prelude (closed_of_preludeEnd hend hclosed)
  | @atBlock cur next cs n children hopen hend _ ih =>
    have hplace := preludeAt?_of_at hopen
    obtain ⟨hname, hskip⟩ := atName_eq hopen
    rw [hname] at hskip
    have hend' : preludeEnd none 0 (cur.skip (1 + (cs.takeWhile isAtNameChar).length)).rest =
        some (n, .block) := hskip ▸ hend
    have hprelude := gives_prelude hend'
    rw [Cursor.skip_skip] at hprelude
    refine ⟨by simpa using isAtHead_of_prelude (closed_of_block hend), ?_⟩
    exact ih (htidy.of_goesOn (.block hplace hprelude)) nofun
  | @rule cur next n children hplain hend _ ih =>
    have hskip := hnode _ rfl
    have hplace := preludeAt?_of_startsPlain hskip hplain
    have hprelude := gives_prelude hend
    have hleads := htidy.leads _ ⟨cur, .refl, hplace⟩ _ _ hprelude
    exact ⟨isSelectorList_of_prelude (closed_of_block hend) (startsPlain_of_leads hskip hplain hleads),
      ih (htidy.of_goesOn (.block hplace hprelude)) nofun⟩
  | @declaration cur n stop found hplain hend hstop hfound =>
    have hskip := hnode _ rfl
    have hplace := preludeAt?_of_startsPlain hskip hplain
    have hclosed := closed_of_preludeEnd hend (htidy.closed _ _ ⟨cur, .refl, hplace⟩)
    obtain ⟨property, value, important, rfl, hdeclaration⟩ :=
      isDeclaration_of_prelude hskip hplain hclosed hfound
    exact hdeclaration

end StyleGrammar

end ComponentTemplate
