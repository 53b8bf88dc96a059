import ComponentTemplate.Format
import ComponentTemplate.Proofs.StyleRoundTrip

/-!
# The last statement of a stylesheet

The end of the code ends the last declaration or at-rule of a stylesheet without a semicolon, and
it does so inside parentheses too. The printed statement has a semicolon, which ends it only where
no parenthesis is open: otherwise the semicolon is part of the statement when it is read again, and
another one is printed after it.
-/

namespace ComponentTemplate

open StyleNode Doc

open Text (Blank Trimmed solid solid_append solid_collapse solid_of_blank solid_trim trim isBlank)
open StyleGrammar

/-! ## Statements that are closed -/

mutual

/-- **Whether the rules in a node start as rules**, at every depth: the first selector of a rule,
which is the start of its text, is neither that of a comment nor that of an at-rule. -/
def StyleNode.leadsPlain : StyleNode → Bool
  | .rule selectors nodes =>
    selectors.head?.all (startsPlain ·.toList) && allLeadPlain nodes
  | .atRule _ _ (some nodes) => allLeadPlain nodes
  | _ => true

def StyleNode.allLeadPlain : List StyleNode → Bool
  | [] => true
  | node :: rest => node.leadsPlain && allLeadPlain rest

end

/-- **Whether a statement closes the parentheses that it opens.** -/
def StyleNode.isClosed : StyleNode → Bool
  | .declaration property value _ =>
    preludeState none 0 (property.toList ++ ':' :: value.toList) = some (none, 0)
  | .atRule _ params none => preludeState none 0 params.toList = some (none, 0)
  | _ => true

def StyleNode.IsOpen : StyleNode → Prop
  | .declaration property value important =>
    ∃ parens, IsDeclaration property.toList value.toList important (parens + 1)
  | .atRule name params none => ∃ parens, IsAtHead name.toList params.toList (parens + 1)
  | _ => False

variable {n : StyleNode}

lemma StyleNode.WellFormed.isClosed (h : n.WellFormed) : n.isClosed = true := by
  cases n with
  | rule selectors nodes => rfl
  | declaration property value important => simpa [isClosed] using h.state
  | atRule name params nodes =>
    cases nodes with
    | none => simpa [isClosed] using IsAtHead.state h
    | some nodes => rfl
  | comment text inline => rfl

lemma StyleNode.AllWellFormed.mem {nodes : List StyleNode} (h : AllWellFormed nodes)
    (hmem : n ∈ nodes) : n.WellFormed := by
  induction nodes with
  | nil => cases hmem
  | cons node nodes ih =>
    rcases List.mem_cons.mp hmem with rfl | hmem
    · exact h.1
    · exact ih h.2 hmem

lemma StyleNode.IsOpen.isClosed_eq_false (h : n.IsOpen) : n.isClosed = false := by
  match n, h with
  | .declaration _ _ _, ⟨_, h⟩ => simp [isClosed, h.state]
  | .atRule _ _ none, ⟨_, h⟩ => simp [isClosed, h.state]

namespace StyleGrammar

def Phrase.LeadsPlain : Phrase → Prop
  | .nodes _ found => allLeadPlain found = true
  | .node n => n.leadsPlain = true

/-- **What a phrase is**: well-formed, but for a last statement at the end of the text. -/
def Phrase.IsSound (next : Cursor) : Phrase → Prop
  | .nodes nested found => AllWellFormed found ∨ nested = false ∧
      ∃ first last, found = first ++ [last] ∧ AllWellFormed first ∧ last.IsOpen
  | .node n => n.WellFormed ∨ n.IsOpen ∧ next.rest = []

variable {cur next : Cursor}

lemma Derives.eq_nil_of_rest (h : Derives (.nodes nested found) cur next) (hend : cur.rest = []) :
    nested = false ∧ found = [] := by
  have hskip : cur.skipBlanks.rest = [] := by
    rw [skipBlanks_of_head (by simp [hend])]
    exact hend
  cases h with
  | done _ => exact ⟨rfl, rfl⟩
  | close hclose => simp [hskip] at hclose
  | semicolon hsemicolon _ => simp [hskip] at hsemicolon
  | cons hfirst _ => cases hfirst <;> simp_all [startsPlain]

lemma rest_skip_of_ends {parens n : Nat} {stop : PreludeStop}
    (h : stop.Ends (parens + 1) (cur.rest.drop n)) : (cur.skip (n + stop.passed)).rest = [] := by
  rw [Cursor.skip, ← List.drop_drop]
  generalize cur.rest.drop n = rest at h
  cases h with
  | finish => rfl
  | char hparens _ => cases hparens

lemma isSound_of_derives {phrase : Phrase} (h : Derives phrase cur next)
    (hleads : phrase.LeadsPlain) (hnode : ∀ n, phrase = .node n → cur.skipBlanks = cur) :
    phrase.IsSound next := by
  induction h with
  | done _ | close _ => exact .inl trivial
  | semicolon _ _ ih => exact ih hleads (by simp)
  | @cons cur after next nested first rest hfirst hrest ihfirst ihrest =>
    obtain ⟨hfirstLeads, hrestLeads⟩ : first.leadsPlain = true ∧ allLeadPlain rest = true := by
      simpa [Phrase.LeadsPlain, allLeadPlain] using hleads
    rcases ihfirst hfirstLeads fun _ _ => skipBlanks_of_head (head_skipBlanks cur) with
      hfirst | ⟨hopen, hend⟩
    · rcases ihrest hrestLeads (by simp) with hrest | ⟨hnested, before, last, rfl, hbefore, hlast⟩
      · exact .inl ⟨hfirst, hrest⟩
      · exact .inr ⟨hnested, first :: before, last, rfl, ⟨hfirst, hbefore⟩, hlast⟩
    · obtain ⟨hnested, rfl⟩ := hrest.eq_nil_of_rest hend
      exact .inr ⟨hnested, [], first, rfl, trivial, hopen⟩
  | blockComment _ htext => exact .inl (isComment_of_beforeText? htext)
  | lineComment _ => exact .inl (isComment_of_takeWhile _)
  | @atStatement cur cs n stop hopen hend hstop =>
    obtain ⟨parens, hstate, hends⟩ := state_of_preludeEnd hend
    have hhead := isAtHead_of_prelude hstate
    cases parens with
    | zero => exact .inl (by simpa [WellFormed] using hhead)
    | succ parens =>
      obtain ⟨hname, hskip⟩ := atName_eq hopen
      rw [hname] at hskip
      rw [← hskip] at hends
      rw [← Cursor.skip_skip]
      exact .inr ⟨⟨parens, by simpa using hhead⟩, rest_skip_of_ends hends⟩
  | @atBlock cur next cs n children hopen hend _ ih =>
    rcases ih hleads (by simp) with hchildren | ⟨hnested, -⟩
    · exact .inl ⟨by simpa using isAtHead_of_prelude (closed_of_block hend), hchildren⟩
    · cases hnested
  | @rule cur next n children hplain hend _ ih =>
    obtain ⟨hselectors, hchildrenLeads⟩ : (∀ selector ∈ (selectorsOf (trim (cur.rest.take n))).head?,
        startsPlain selector.toList = true) ∧ allLeadPlain children = true := by
      simpa [Phrase.LeadsPlain, leadsPlain, Option.all_eq_true] using hleads
    rcases ih hchildrenLeads (by simp) with hchildren | ⟨hnested, -⟩
    · exact .inl ⟨isSelectorList_of_prelude (closed_of_block hend) hselectors, hchildren⟩
    · cases hnested
  | @declaration cur n stop found hplain hend hstop hfound =>
    obtain ⟨parens, hstate, hends⟩ := state_of_preludeEnd hend
    obtain ⟨property, value, important, rfl, hdeclaration⟩ :=
      isDeclaration_of_prelude (hnode _ rfl) hplain hstate hfound
    cases parens with
    | zero => exact .inl hdeclaration
    | succ parens => exact .inr ⟨⟨parens, hdeclaration⟩, rest_skip_of_ends hends⟩

end StyleGrammar

/-! ## Semicolons that are read again -/

lemma solid_semicolon : solid [';'] = [';'] := by decide

namespace Doc

lemma writes_solid (d : Doc) : d.Writes fun cs => solid cs = solid d.chars := by
  induction d with
  | empty => exact writes_empty.mono (by rintro _ rfl; rfl)
  | text s =>
    refine (writes_text s).mono ?_
    rintro _ ⟨blanks, hblanks, rfl⟩
    simp [solid_of_blank hblanks, chars]
  | append a b iha ihb =>
    refine (iha.append ihb).mono ?_
    rintro _ ⟨cs, cs', rfl, hcs, hcs'⟩
    simp [hcs, hcs', chars]
  | nest d ih => exact ih.nest

lemma solid_renderAt (d : Doc) (hunit : ∀ c ∈ unit.toList, isBlank c = true) (level : Nat) :
    solid (d.renderAt unit level).toList = solid d.chars := by
  obtain ⟨cs, hwritten, hsolid⟩ := d.writes_solid ⟨unit.toList, level, []⟩ hunit
  rw [renderAt, Writer.output, String.toList_ofList, hwritten]
  simpa using hsolid

end Doc

lemma StyleNode.solid_sheetDoc (nodes : List StyleNode) :
    solid (sheetDoc nodes).chars = nodes.flatMap fun n => solid n.doc.chars := by
  have hline : solid line.chars = [] := by decide
  have hgap (condition : Bool) : solid (onlyIf condition line).chars = [] := by
    cases condition
    · rfl
    · exact hline
  have hafter (previous : StyleNode) (rest : List StyleNode) :
      solid (previous.sheetDocAfter rest).chars = rest.flatMap fun n => solid n.doc.chars := by
    induction rest generalizing previous with
    | nil => rfl
    | cons node rest ih =>
      rw [sheetDocAfter, chars_append, chars_append, chars_append, solid_append, solid_append,
        solid_append, hline, hgap, ih, List.nil_append, List.nil_append]
      rfl
  cases nodes with
  | nil => rfl
  | cons node rest =>
    rw [sheetDoc, chars_append, solid_append, hafter]
    rfl

variable {parens : Nat}

lemma preludeState_append_semicolon (hquote : IsQuote quote)
    (h : preludeState quote parens cs = some (none, parens' + 1)) :
    preludeState quote parens (cs ++ [';']) = some (none, parens' + 1) := by
  fun_induction preludeState quote parens cs with
  | case1 quote parens =>
    cases h
    rfl
  | case2 quote parens c cs ih => exact ih hquote h
  | case3 q parens c cs hcs ih =>
    have hc := ne_backslash_of_state hquote hcs h
    rw [List.cons_append, preludeState_string q parens hc]
    exact ih (hquote.closed c) h
  | case4 => cases h
  | case5 parens c cs hstop quote' parens'' ih =>
    rw [List.cons_append, preludeState, if_neg hstop]
    exact ih (isQuote_opened c) h

lemma trim_semicolon (rest : List Char) : trim (rest ++ [';']) = Text.trimStart rest ++ [';'] := by
  have hsemicolon : Trimmed [';'] := ⟨by simp [isBlank], by simp [isBlank]⟩
  have htrim : trim (rest ++ ([';'] ++ [])) = Text.trimStart rest ++ [';'] :=
    Text.trim_append_of_ne_nil .nil hsemicolon (by simp)
  simpa using htrim

lemma splitImportant_semicolon (before : List Char) :
    splitImportant (before ++ [';']) = (before ++ [';'], false) := by
  rcases splitImportant_cases (before ++ [';']) with hunmarked | ⟨first, after, heq, hmark, -⟩
  · exact hunmarked
  · have hlast := congrArg List.getLast? heq
    rw [List.getLast?_concat, List.getLast?_append_of_ne_nil _ (by simp)] at hlast
    have hmem : ';' ∈ after := by simpa using List.mem_of_getLast? hlast.symm
    have hneutral := isNeutral_of_important hmark ';' hmem
    simp [isNeutral] at hneutral

lemma ofDeclaration?_semicolon (htrimmed : Trimmed property) (hcolon : ':' ∉ property)
    (rest : List Char) :
    ofDeclaration? (trim (property ++ ':' :: (rest ++ [';']))) =
      some (.declaration (String.ofList property) (String.ofList (trim (rest ++ [';']))) false) := by
  rw [trim_declaration htrimmed]
  refine ofDeclaration?_eq_some_iff.mpr
    ⟨_, _, trim (rest ++ [';']), false, rfl, hcolon, ?_, by rw [Text.trim_of_trimmed htrimmed]⟩
  rw [Text.trim_trimEnd, trim_semicolon, splitImportant_semicolon]

lemma solid_atStatement (name params : String) :
    solid (atRule name params none).doc.chars =
      solid ('@' :: name.toList) ++ (solid params.toList ++ [';']) := by
  have hparams : solid (onlyIf (params ≠ "") (" " ++ params)).chars = solid params.toList := by
    by_cases hempty : params = ""
    · subst hempty
      rfl
    · rw [onlyIf, if_pos (by simpa using hempty)]
      rfl
  rw [doc, chars_append, chars_append, solid_append, solid_append, hparams,
    List.append_assoc]
  rfl

lemma solid_declaration (property value : String) (important : Bool) :
    solid (declaration property value important).doc.chars = solid property.toList ++
      (':' :: (solid value.toList ++ (solid (onlyIf important " !important").chars ++ [';']))) := by
  have htext : solid (text (property ++ ": " ++ value)).chars =
      solid property.toList ++ ':' :: solid value.toList := by
    simp [chars, solid, isBlank]
  rw [doc, chars_append, chars_append, solid_append, solid_append, htext]
  simp [chars, solid, isBlank]

lemma IsMark.solid_eq (h : IsMark important mark) :
    solid mark = solid (onlyIf important " !important").chars := by
  cases important with
  | false =>
    obtain rfl : mark = [] := h
    rfl
  | true =>
    obtain ⟨blanks, hblanks, rfl⟩ : ∃ blanks, Blank blanks ∧ mark = blanks ++ " !important".toList :=
      h
    simp [solid_of_blank hblanks, onlyIf, chars]

lemma IsApart.solid_eq (h : IsApart params head) : solid head = solid params := by
  obtain ⟨before, after, hbefore, hafter, rfl, -⟩ := h
  simp [solid_of_blank hbefore, solid_of_blank hafter]

/-- **A statement that takes in its semicolon** when its text is read again. -/
def StyleNode.TakesIn (n n' : StyleNode) : Prop := solid n'.doc.chars = solid n.doc.chars ++ [';']

lemma StyleNode.IsOpen.writes_doc (h : n.IsOpen) :
    n.doc.Writes fun cs => ∃ n', n.TakesIn n' ∧ (Phrase.nodes false [n']).Opens cs [] := by
  match n, h with
  | .declaration property value important, ⟨parens, h⟩ =>
    refine (writes_declarationText property value important).mono ?_
    rintro _ ⟨blanks, mark, after, hblanks, hmark, hafter, rfl⟩
    have htext : (property.toList ++ ": ".toList ++ value.toList) ++ (mark ++ (after ++ [';'])) =
        property.toList ++ ':' :: (' ' :: (value.toList ++ (mark ++ after)) ++ [';']) := by
      simp
    have hstate := preludeState_append_semicolon isQuote_none
      (h.preludeState_append (hmark.neutral_append hafter))
    have hfound := ofDeclaration?_semicolon h.trimmedProperty h.colon
      (' ' :: (value.toList ++ (mark ++ after)))
    rw [List.append_assoc, List.cons_append] at hstate
    have hopens := opens_declaration (by rw [List.append_nil]; exact h.startsPlain_append _) hstate
      .finish nofun hfound
    rw [List.append_nil] at hopens
    rw [htext]
    refine ⟨_, ?_, opens_cons hblanks (h.head_append _) hopens (opens_done .nil)⟩
    have hrest : solid (' ' :: (value.toList ++ (mark ++ after)) ++ [';']) = solid value.toList ++
        (solid (onlyIf important " !important").chars ++ [';']) := by
      rw [← List.singleton_append, solid_append, solid_append, solid_append, solid_append,
        solid_of_blank Text.blank_space, hmark.solid_eq, solid_of_blank hafter]
      simp [solid_semicolon]
    rw [TakesIn, solid_declaration, solid_declaration, String.toList_ofList,
      String.toList_ofList, solid_trim, hrest]
    simp [onlyIf, chars, solid]
  | .atRule name params none, ⟨parens, h⟩ =>
    refine (writes_atStatementText name params).mono ?_
    rintro _ ⟨blanks, head, after, hblanks, hhead, hafter, rfl⟩
    have hapart := hhead.append_blank hafter
    have hstate := preludeState_append_semicolon isQuote_none (hapart.preludeState_eq h)
    have hend : ∀ c ∈ ((head ++ after ++ [';']) ++ []).head?, isAtNameChar c = false := by
      rw [List.append_nil]
      exact hapart.head_append rfl []
    have hopens := opens_atStatement h.nameChars hend hstate .finish nofun
    simp only [List.append_nil, List.append_assoc] at hopens
    refine ⟨_, ?_, opens_cons hblanks (by simp [isBlank]) hopens (opens_done .nil)⟩
    rw [TakesIn, solid_atStatement, solid_atStatement]
    simp [solid_collapse, solid_trim, hhead.solid_eq, solid_of_blank hafter, solid_semicolon]

/-- **When printing a stylesheet again changes nothing.** A stylesheet whose rules start as rules
is read again once it is printed, and then printed as the same text if and only if its last
statement closes the parentheses that it opens. -/
theorem StyleNode.renderAt_again_iff {source : String} {span : Span} {sheet : List StyleNode}
    (hparse : parse source span = .ok sheet) (hleads : allLeadPlain sheet = true)
    {unit : String} (hunit : ∀ c ∈ unit.toList, isBlank c = true) (level : Nat) :
    ∃ again, parse ((sheetDoc sheet).renderAt unit level)
      ⟨0, byteLength ((sheetDoc sheet).renderAt unit level).toList⟩ = .ok again ∧
      ((sheetDoc again).renderAt unit level = (sheetDoc sheet).renderAt unit level ↔
        sheet.getLast?.all isClosed = true) := by
  obtain ⟨next, hderives⟩ := parse_eq_ok_iff.mp hparse
  rcases isSound_of_derives hderives hleads nofun with hwell | ⟨-, first, last, rfl, hfirst, hopen⟩
  · refine ⟨sheet, parse_renderAt_of_allWellFormed hwell hunit level, iff_of_true rfl ?_⟩
    cases hlast : sheet.getLast? with
    | none => rfl
    | some last => exact (AllWellFormed.mem hwell (List.mem_of_getLast? hlast)).isClosed
  · have hwrites : (sheetDoc (first ++ [last])).Writes fun cs => ∃ again,
        (∃ last', last.TakesIn last' ∧ again = first ++ [last']) ∧
          (Phrase.nodes false again).Opens cs [] := by
      refine (writes_sheetDoc_append hopen.writes_doc first hfirst).mono ?_
      rintro cs ⟨last', htakes, hopens⟩
      exact ⟨_, ⟨last', htakes, rfl⟩, hopens⟩
    obtain ⟨_, ⟨last', htakes, rfl⟩, hagain⟩ := exists_parse_of_writes hwrites hunit level
    refine ⟨_, hagain, iff_of_false (fun heq => ?_) ?_⟩
    · have hsolid := congrArg (fun text : String => solid text.toList) heq
      simp only [solid_renderAt _ hunit, solid_sheetDoc, List.flatMap_append,
        List.flatMap_singleton] at hsolid
      rw [htakes] at hsolid
      simp at hsolid
    · simp [hopen.isClosed_eq_false]

/-- An at-rule that leaves a parenthesis open, after a rule. -/
theorem StyleNode.renderAt_again_iff_url :
    let sheet := [rule ["a"] [], .atRule "import" "url(" none]
    let printed := (sheetDoc sheet).renderAt "\t" 1
    parse "a\x7b\x7d@import url(" ⟨0, 15⟩ = .ok sheet ∧
      allLeadPlain sheet = true ∧
      ∃ again, parse printed ⟨0, byteLength printed.toList⟩ = .ok again ∧
        ((sheetDoc again).renderAt "\t" 1 = printed ↔
          sheet.getLast?.all isClosed = true) := by
  intro sheet printed
  have hparse : parse "a\x7b\x7d@import url(" ⟨0, 15⟩ = .ok sheet := by cbv
  have hleads : allLeadPlain sheet = true := by decide
  exact ⟨hparse, hleads, renderAt_again_iff hparse hleads (by simp [isBlank]) 1⟩

/-- **The semicolon of an open statement is taken in**, and another one is printed. -/
theorem StyleNode.formatSource_openStatement :
    (formatSource {} "<style>@import url(</style>").toOption =
        some "<style>\n\t@import url(;\n</style>\n" ∧
      (formatSource {} "<style>\n\t@import url(;\n</style>\n").toOption =
        some "<style>\n\t@import url(;;\n</style>\n" := by
  decide +kernel

end ComponentTemplate
