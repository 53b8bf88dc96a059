import ComponentTemplate.Proofs.AttributeTexts
import ComponentTemplate.Proofs.LastTexts

/-!
# Lists of attributes

The attributes of an element are printed on lines of their own if the source breaks the line before
the first of them, and a blank line between two of them is kept. These decisions are taken from the
gaps between attributes in the source, and the gaps of the output lead to the same ones.
-/

namespace ComponentTemplate

open MarkupGrammar Doc Text
open List (Forall₂ append_assoc forall_mem_cons map_cons mem_cons mem_cons_self)

/-! ## Opening tags in a component -/

/-- **The opening tag of an element is read in a source**: its attributes stand after its name. -/
def Node.OpensIn (source : List Char) : Node → Prop
  | .element span kind name attributes _ =>
    ∃ ctx selfClosing, ∃ after next : Cursor, IsElementName ctx kind name ∧ after.IsIn source ∧
      after.offset = span.start + byteLength name.toList + 1 ∧
      Gives (MarkupGrammar.attributes name after) (attributes, selfClosing) next
  | _ => True

section Places

variable {source : List Char} {ctx : MarkupContext} {cur next : Cursor}

lemma opensIn_of_gives (hrest : cur.rest = '<' :: c :: cs) (hc : c.isAlpha = true)
    (h : Gives (openingTag ctx cur) tag next) (hcur : cur.IsIn source) (stop : Cursor)
    (children : List Node) :
    (Node.element (cur.spanTo stop) tag.kind tag.name tag.attributes children).OpensIn source := by
  obtain ⟨-, hname, hattributes⟩ := (gives_openingTag_iff rfl).mp h
  have hopen : cur.Reads ['<'] (cur.skip 1) := Cursor.reads_of_rest hrest
  have hread := hopen.trans ((cur.skip 1).reads_skipRun isTagNameChar)
  rw [Cursor.skipRun, Cursor.skip_skip] at hread
  refine ⟨ctx, tag.selfClosing, _, next, isElementName_of_gives hrest hc h,
    hcur.trans hread.reaches, ?_, hattributes⟩
  rw [hread.offset_eq, hname, String.toList_ofList, byteLength_append, Nat.add_comm (byteLength _),
    ← Nat.add_assoc]
  rfl

variable {n : Node} {nodes : List Node} {component : Component}

lemma opensIn_of_derives_item (h : Derives (.item ctx found) cur next) (hcur : cur.IsIn source)
    (hn : found = .node n ∨ ∃ element, found = .raw element ∧ n = element.toNode) :
    n.OpensIn source := by
  rcases hn with rfl | ⟨element, rfl, rfl⟩
  · cases h with
    | inlineTag _ htag => cases htag <;> trivial
    | complete hrest hc htag _ | element hrest hc htag _ _ _ _ =>
      exact opensIn_of_gives hrest hc htag hcur _ _
    | _ => trivial
  · cases h with
    | raw hrest hc htag _ hraw _ =>
      have hopens := opensIn_of_gives hrest hc htag hcur next
      have hregular := (Bool.and_eq_true_iff.mp hraw).1
      rw [of_decide_eq_true hregular] at hopens
      exact hopens _

lemma opensIn_of_derives (h : Derives (.sequence ctx ending nodes) cur next)
    (hcur : cur.IsIn source) : ∀ n ∈ nodes, n.OpensIn source := by
  refine Derives.sequence_induction (motive := fun nodes cur =>
    cur.IsIn source → ∀ n ∈ nodes, n.OpensIn source) ?stop ?cons h hcur
  case stop => simp
  case cons =>
    intro found first rest cur after _ hitem hfirst _ ih hcur
    have hopens := opensIn_of_derives_item hitem hcur hfirst.eq_node_or_raw
    exact Node.forall_mem_cons (fun _ _ => trivial) hopens (ih (hcur.trans hitem.reaches))

lemma Component.Derives.opensIn (h : Component.Derives ctx hasScript hasStyle component cur next)
    (hcur : cur.IsIn source) : ∀ n ∈ component.nodes, n.OpensIn source := by
  induction h with
  | stop _ => simp [Component.empty]
  | cons _ hitem hpart _ ih =>
    have hlater := ih (hcur.trans hitem.reaches)
    cases hpart with
    | node n =>
      have hopens := opensIn_of_derives_item hitem hcur (.inl rfl)
      exact Node.forall_mem_cons (fun _ _ => trivial) hopens hlater
    | raw _ _ =>
      have hopens := opensIn_of_derives_item hitem hcur (.inr ⟨_, rfl, rfl⟩)
      exact Node.forall_mem_cons (fun _ _ => trivial) hopens hlater
    | _ => exact hlater

lemma Component.Derives.opensIn_setApart
    (h : Component.Derives ctx hasScript hasStyle component cur next) (hcur : cur.IsIn source) :
    (∀ block ∈ component.style,
        (Node.element block.span .regular "style" block.attributes []).OpensIn source) ∧
      ∀ block ∈ component.script, ∃ attributes,
        (Node.element block.span .regular "script" attributes []).OpensIn source := by
  induction h with
  | stop _ => simp [Component.empty]
  | cons _ hitem hpart _ ih =>
    have hlater := ih (hcur.trans hitem.reaches)
    cases hpart with
    | @style element _ hstyle _ =>
      have hopens := opensIn_of_derives_item hitem hcur (.inr ⟨element, rfl, rfl⟩)
      have hname : element.name = "style" := of_decide_eq_true hstyle
      refine ⟨?_, hlater.2⟩
      rintro _ ⟨⟩
      exact hname ▸ hopens
    | @script element _ hscript _ _ =>
      have hopens := opensIn_of_derives_item hitem hcur (.inr ⟨element, rfl, rfl⟩)
      have hname : element.name = "script" :=
        of_decide_eq_true (Bool.and_eq_true_iff.mp hscript).1
      refine ⟨hlater.1, ?_⟩
      rintro _ ⟨⟩
      exact ⟨element.attributes, hname ▸ hopens⟩
    | _ => exact hlater

/-- **The opening tags of all elements of a component are read in its source**, at every depth. -/
theorem Component.opensIn_of_mem {source special : String}
    (hparse : Component.parse source special = .ok component)
    (hnodes : nodes ∈ component.nodes :: Node.fragmentsIn component.nodes) (hn : n ∈ nodes) :
    n.OpensIn source.toList := by
  obtain ⟨next, hderives⟩ := ofChars_eq_ok_iff.mp (parse_eq_ok_iff.mp hparse)
  have hstart := Cursor.isIn_ofSource source.toList
  rcases mem_cons.mp hnodes with rfl | hnodes
  · exact hderives.opensIn hstart n hn
  · obtain ⟨_, _, start, _, hreaches, hfragment⟩ :=
      hderives.readAsFragment nodes hnodes (List.ne_nil_of_mem hn)
    exact opensIn_of_derives hfragment (hstart.trans hreaches) n hn

end Places

/-! ## Gaps between attributes -/

/-- **The gaps before attributes**: the texts of the source before the first of them, from a place
on, and between any two. -/
def Attribute.gaps (source : List Char) : Nat → List Attribute → List (List Char)
  | _, [] => []
  | stop, a :: rest => textBetween source stop a.span.start :: gaps source a.span.stop rest

/-- **The line breaks that are printed in gaps.** All attributes are on lines of their own if the
line breaks in the first gap, and then more than one line break in a later gap becomes a blank
line. -/
def gapFeeds : List (List Char) → List Nat
  | [] => []
  | first :: others =>
    if '\n' ∈ first then 1 :: others.map fun gap => if 2 ≤ gap.count '\n' then 2 else 1
    else 0 :: others.map fun _ => 0

/-- How many line feeds stand before each attribute, if they are wrapped. -/
def feedsAfter (breaks : Breaks) : Option Attribute → List Attribute → List Nat
  | _, [] => []
  | previous, a :: rest =>
    (if previous.any fun p => breaks 2 p.span.stop a.span.start then 2 else 1) ::
      feedsAfter breaks (some a) rest

/-- **The line breaks that a printer decides on** before the attributes of an element. -/
def attributeFeeds (breaks : Breaks) (start : Nat) (name : String) (attributes : List Attribute) :
    List Nat :=
  if wrapsAttributes breaks start name attributes then feedsAfter breaks none attributes
  else attributes.map fun _ => 0

section Gaps

variable {source part : List Char} {cur next : Cursor} {attributes : List Attribute}
  {selfClosing : Bool}

lemma Attribute.length_gaps (stop : Nat) :
    (Attribute.gaps source stop attributes).length = attributes.length := by
  induction attributes generalizing stop with
  | nil => rfl
  | cons a rest ih => simp [Attribute.gaps, ih]

lemma atLeast_of_reads (hcur : cur.IsIn source) (h : cur.Reads part next) (count : Nat) :
    (LineBreaks.ofSource source).atLeast count cur.offset next.offset =
      decide (count ≤ part.count '\n') := by
  obtain ⟨before, hoffset, hsource⟩ := exists_append_of_reads hcur h
  rw [h.offset_eq, hoffset, hsource, ← append_assoc, LineBreaks.atLeast_ofSource]

lemma atLeast_gap (hcur : cur.IsIn source) (h : ReadsAttribute cur.skipBlanks after a)
    (count : Nat) :
    (LineBreaks.ofSource source).atLeast count cur.offset a.span.start =
      decide (count ≤ (textBetween source cur.offset a.span.start).count '\n') := by
  have hread := cur.reads_skipRun isBlank
  have hstart : a.span.start = cur.skipBlanks.offset := congrArg Span.start h.span_eq
  rw [hstart, Cursor.skipBlanks, atLeast_of_reads hcur hread, textBetween_of_reads hcur hread]

lemma feedsAfter_some (h : ReadsAttributes cur attributes selfClosing next)
    (hcur : cur.IsIn source) (hprevious : previous.span.stop = cur.offset) :
    feedsAfter (LineBreaks.ofSource source).atLeast (some previous) attributes =
      (Attribute.gaps source cur.offset attributes).map fun gap =>
        if 2 ≤ gap.count '\n' then 2 else 1 := by
  induction h generalizing previous with
  | selfClosing _ => rfl
  | close _ => rfl
  | @cons cur after next first rest selfClosing hfirst _ ih =>
    have hstop : first.span.stop = after.offset := congrArg Span.stop hfirst.span_eq
    have hafter := hcur.trans (cur.reaches_skipBlanks.trans hfirst.reaches)
    rw [feedsAfter, Attribute.gaps, map_cons, ih hafter hstop, hstop, Option.any_some,
      hprevious, atLeast_gap hcur hfirst]
    simp

/-- **The line breaks that are decided on** are those that the gaps lead to. -/
theorem attributeFeeds_eq (h : ReadsAttributes cur attributes selfClosing next)
    (hcur : cur.IsIn source) (hoffset : cur.offset = start + byteLength name.toList + 1) :
    attributeFeeds (LineBreaks.ofSource source).atLeast start name attributes =
      gapFeeds (Attribute.gaps source cur.offset attributes) := by
  cases h with
  | selfClosing _ => rfl
  | close _ => rfl
  | @cons _ after _ first rest _ hfirst hrest =>
    have hstop : first.span.stop = after.offset := congrArg Span.stop hfirst.span_eq
    have hafter := hcur.trans (cur.reaches_skipBlanks.trans hfirst.reaches)
    have hwraps : wrapsAttributes (LineBreaks.ofSource source).atLeast start name
        (first :: rest) = decide ('\n' ∈ textBetween source cur.offset first.span.start) := by
      rw [wrapsAttributes, ← hoffset, atLeast_gap hcur hfirst]
      simp [Nat.one_le_iff_ne_zero, List.count_eq_zero]
    rw [attributeFeeds, Attribute.gaps, gapFeeds, hwraps, feedsAfter,
      feedsAfter_some hrest hafter hstop, hstop]
    by_cases hfeed : '\n' ∈ textBetween source cur.offset first.span.start
    · simp [hfeed]
    · simp [hfeed, Attribute.length_gaps]

end Gaps

/-! ## The texts of lists of attributes -/

/-- The blanks before an attribute, with some line feeds. -/
def gapText (unit : String) (level : Nat) : Nat → List Char
  | 0 => [' ']
  | n + 1 => List.replicate (n + 1) '\n' ++ indentationAt unit level

/-- Attributes as a text, with the line feeds before each. -/
def attributesText (breaks : Breaks) (unit : String) (level : Nat) :
    List Nat → List Attribute → List Char
  | feeds :: more, a :: rest =>
    gapText unit level feeds ++
      (a.chars breaks unit level ++ attributesText breaks unit level more rest)
  | _, _ => []

/-- The blanks before the end of a tag. -/
def endBlanks (unit : String) (level : Nat) (wraps closes : Bool) : List Char :=
  if wraps then '\n' :: indentationAt unit level else if closes then [' '] else []

/-- **What an opening tag is printed as.** -/
def openingText (breaks : Breaks) (unit : String) (level : Nat) (name : String) (wraps : Bool)
    (feeds : List Nat) (attributes : List Attribute) (closes : Bool) : List Char :=
  '<' :: (name.toList ++ (attributesText breaks unit (if wraps then level + 1 else level) feeds
    attributes ++ (endBlanks unit level wraps closes ++ tagEnd closes)))

section Texts

variable {breaks : Breaks} {unit : String} {level : Nat} {attributes : List Attribute}

lemma exists_attributesText_eq (hfeeds : feeds.length = attributes.length) (ha : a ∈ attributes)
    (breaks : Breaks) (unit : String) (level : Nat) :
    ∃ before after, attributesText breaks unit level feeds attributes =
      before ++ (a.chars breaks unit level ++ after) := by
  induction attributes generalizing feeds with
  | nil => cases ha
  | cons b others ih =>
    obtain ⟨n, more, rfl⟩ := List.exists_cons_of_length_eq_add_one hfeeds
    rw [attributesText]
    rcases mem_cons.mp ha with rfl | ha
    · exact ⟨_, _, rfl⟩
    · obtain ⟨before, after, heq⟩ := ih (Nat.succ.inj hfeeds) ha
      exact ⟨gapText unit level n ++ (b.chars breaks unit level ++ before), after, by simp [heq]⟩

lemma Doc.GoesOn.nest (h : doc.GoesOn unit (level + 1) cs) :
    (nest doc).GoesOn unit level cs := by
  intro w hunit hlevel hstart
  exact h w.indent hunit (congrArg (· + 1) hlevel) hstart

lemma goesOn_wrappedAttributes
    (h : ∀ a ∈ attributes, (a.doc breaks).Stands unit level (a.chars breaks unit level))
    (previous : Option Attribute) :
    (wrappedAttributes breaks previous attributes).GoesOn unit level
      (attributesText breaks unit level (feedsAfter breaks previous attributes) attributes) := by
  induction attributes generalizing previous with
  | nil => exact goesOn_empty
  | cons a rest ih =>
    obtain ⟨ha, hrest⟩ := forall_mem_cons.mp h
    have hall := ha.append (ih hrest (some a))
    rw [wrappedAttributes, feedsAfter, attributesText]
    split
    · exact (hall.goesOn_text_append "\n\n").congr fun _ => rfl
    · exact (hall.goesOn_text_append "\n").congr fun _ => rfl

lemma goesOn_unwrappedAttributes
    (h : ∀ a ∈ attributes, (a.doc breaks).Stands unit level (a.chars breaks unit level)) :
    (concat (attributes.map fun a => " " ++ a.doc breaks)).GoesOn unit level
      (attributesText breaks unit level (attributes.map fun _ => 0) attributes) := by
  induction attributes with
  | nil => exact goesOn_empty
  | cons a rest ih =>
    obtain ⟨ha, hrest⟩ := forall_mem_cons.mp h
    have hspace : (text " ").GoesOn unit level [' '] := goesOn_text (by decide)
    exact (hspace.append (ha.goesOn.append (ih hrest))).congr fun _ => rfl

lemma goesOn_attributesDoc (closes : Bool)
    (h : ∀ a ∈ attributes, ∀ level, (a.doc breaks).Stands unit level (a.chars breaks unit level)) :
    (attributesDoc breaks start name attributes ++
        (onlyIf (closes && !wrapsAttributes breaks start name attributes) " " ++
          text (String.ofList (tagEnd closes)))).GoesOn unit level
      (attributesText breaks unit
        (if wrapsAttributes breaks start name attributes then level + 1 else level)
        (attributeFeeds breaks start name attributes) attributes ++
        (endBlanks unit level (wrapsAttributes breaks start name attributes) closes ++
          tagEnd closes)) := by
  have hend : (text (String.ofList (tagEnd closes))).Stands unit level (tagEnd closes) := by
    cases closes with
    | true => exact stands_text (c := '/') rfl (by decide) (by decide)
    | false => exact stands_text (c := '>') rfl (by decide) (by decide)
  rw [attributesDoc, attributeFeeds]
  cases wrapsAttributes breaks start name attributes with
  | true =>
    have hlist := (goesOn_wrappedAttributes (fun a ha => h a ha (level + 1)) none).nest
    rw [Bool.not_true, Bool.and_false]
    exact (hlist.append hend.goesOn_line_append).congr fun _ => rfl
  | false =>
    have hlist := goesOn_unwrappedAttributes fun a ha => h a ha level
    have hspace : (text " ").GoesOn unit level [' '] := goesOn_text (by decide)
    rw [Bool.not_false, Bool.and_true]
    exact hlist.append ((hspace.onlyIf closes).append hend.goesOn)

lemma Doc.Stands.exists_write_append (h : opening.Stands unit w.level cs)
    (hunit : w.unit = unit.toList) (rest : Doc) :
    ∃ tail, ((opening ++ rest).write w).written.reverse = w.front ++ (cs ++ tail) := by
  obtain ⟨tail, htail, -⟩ := Doc.exists_written rest (opening.write w) _ rfl rfl rfl
  refine ⟨tail.reverse, ?_⟩
  rw [← append_assoc, ← (h w hunit rfl).1, ← List.reverse_append]
  exact congrArg List.reverse htail

lemma Node.exists_write_element (hname : IsElementName ctx kind name) (p : Printing)
    (h : ∀ a ∈ attributes, ∀ level, (a.doc p.breaks).Stands unit level (a.chars p.breaks unit level))
    (span : Span) (children : List Node) (hunit : w.unit = unit.toList) :
    ∃ tail, (((Node.element span kind name attributes children).doc p).write w).written.reverse =
      w.front ++ (openingText p.breaks unit w.level name
        (wrapsAttributes p.breaks span.start name attributes)
        (attributeFeeds p.breaks span.start name attributes) attributes
        (closesItself kind name (normals children).isEmpty) ++ tail) := by
  have hopening : (Doc.text ("<" ++ name)).Stands unit w.level ('<' :: name.toList) := by
    have hhead : ("<" ++ name).toList = '<' :: name.toList := String.toList_append ..
    have hfeed : '\n' ∉ '<' :: name.toList := by
      rw [mem_cons, not_or]
      exact ⟨by decide, fun hmem => absurd (hname.isTagNameChar _ hmem) (by decide)⟩
    rw [← hhead] at hfeed ⊢
    exact stands_of_not_mem (by simp [hhead]) hfeed
  have htag (closes : Bool) : (Doc.text ("<" ++ name) ++
      (attributesDoc p.breaks span.start name attributes ++
        (Doc.onlyIf (closes && !wrapsAttributes p.breaks span.start name attributes) " " ++
          Doc.text (String.ofList (tagEnd closes))))).Stands unit w.level
      (openingText p.breaks unit w.level name (wrapsAttributes p.breaks span.start name attributes)
        (attributeFeeds p.breaks span.start name attributes) attributes closes) :=
    hopening.append (goesOn_attributesDoc closes h)
  rw [Node.doc_element hname]
  cases closesItself kind name (normals children).isEmpty with
  | true =>
    refine ⟨[], ?_⟩
    rw [List.append_nil]
    exact (htag true w hunit rfl).1
  | false =>
    -- the content and the closing tag go after the opening tag
    exact (htag false).exists_write_append hunit
      (contentDoc p name children ++ Doc.text ("</" ++ name ++ ">"))

end Texts

/-! ## Reading lists of attributes again -/

section Reading

variable {breaks : Breaks} {unit : String} {level : Nat} {a : Attribute}
  {attributes : List Attribute} {rest : List Char}

namespace MarkupGrammar

variable {tag : String} {cur next : Cursor} {found : List Attribute} {selfClosing : Bool}

lemma gives_attributes_cons (hhere : cur.skipBlanks = here) (hrest : here.rest = c :: cs)
    (hc : endsAttributeName c = false) (hfirst : Gives (attributeAt here) first after)
    (hfound : Gives (MarkupGrammar.attributes tag after) (found, selfClosing) next) :
    Gives (MarkupGrammar.attributes tag cur) (first :: found, selfClosing) next := by
  obtain ⟨-, hslash, hend⟩ := endsAttributeName_eq_false hc
  have hself : ¬ here.startsWith "/>" = true := by
    intro h
    obtain ⟨more, hmore⟩ := List.isPrefixOf_iff_prefix.mp h
    rw [hrest] at hmore
    exact hslash (List.cons.inj hmore).1.symm
  have hclose : here.rest.head? ≠ some '>' := by
    rw [hrest]
    exact fun h => hend (Option.some.inj h)
  exact (gives_attributes_iff hhere).mpr (gives_attributesHere_iff.mpr
    (.inr (.inr ⟨hself, hclose, first, found, after, rfl, hfirst, hfound⟩)))

end MarkupGrammar

lemma Attribute.Regular.exists_chars (h : a.Regular) (breaks : Breaks) (unit : String)
    (level : Nat) :
    ∃ c cs, a.chars breaks unit level = c :: cs ∧ endsAttributeName c = false := by
  have hhead {name tail : List Char} (hname : IsAttributeHead name) :
      ∃ c cs, name ++ tail = c :: cs ∧ endsAttributeName c = false := by
    obtain ⟨c, cs, rfl⟩ := List.exists_cons_of_ne_nil hname.ne_nil
    exact ⟨c, cs ++ tail, rfl, hname.goesOn c (mem_cons_self ..)⟩
  rcases a with ⟨span, name, value, doubleQuotes⟩ | ⟨span, e⟩ | ⟨span, kind, name, modifiers, e⟩
  · cases value with
    | none =>
      have hname : IsPlainName name.toList := h
      rw [Attribute.chars, ← List.append_nil name.toList]
      exact hhead hname.toIsAttributeHead
    | some parts =>
      rw [Attribute.chars]
      split
      · exact ⟨_, _, rfl, by decide⟩
      · rename_i hvariable
        exact hhead (h.resolve_left hvariable).1.toIsAttributeHead
  · exact ⟨_, _, rfl, by decide⟩
  · exact hhead h.1

lemma endsName_append (hblanks : Blank blanks)
    (hrest : ∀ c ∈ rest.head?, isBlank c = false ∧ c ≠ '=')
    (hnil : blanks = [] → ∀ c ∈ rest.head?, endsAttributeName c = true) :
    EndsName (blanks ++ rest) := by
  have hdrop : (blanks ++ rest).dropWhile isBlank = rest := by
    rw [List.dropWhile_append_of_pos hblanks]
    cases rest with
    | nil => rfl
    | cons c cs => exact List.dropWhile_cons_of_neg (by simp [(hrest c rfl).1])
  refine ⟨?_, fun hsign => ?_⟩
  · cases blanks with
    | nil => exact hnil rfl
    | cons b blanks => simp [endsAttributeName, hblanks b (mem_cons_self ..)]
  · rw [hdrop] at hsign
    exact (hrest '=' hsign).2 rfl

lemma endsName_of_gives (h : Gives (MarkupGrammar.attributes tag cur) ([], selfClosing) next) :
    EndsName cur.rest := by
  have hhead : ∃ c, (c = '/' ∨ c = '>') ∧ cur.skipBlanks.rest.head? = some c := by
    rcases gives_attributesHere_iff.mp ((gives_attributes_iff rfl).mp h) with
      ⟨hself, -⟩ | ⟨hend, -⟩ | ⟨-, -, _, _, _, hfound, -⟩
    · obtain ⟨more, hmore⟩ := List.isPrefixOf_iff_prefix.mp hself
      exact ⟨'/', .inl rfl, by rw [← hmore]; rfl⟩
    · exact ⟨'>', .inr rfl, hend⟩
    · cases hfound
  rw [Cursor.skipBlanks, Cursor.rest_skipRun] at hhead
  obtain ⟨c, hc, hhead⟩ := hhead
  rw [← cur.rest.takeWhile_append_dropWhile]
  refine endsName_append (fun _ hb => List.mem_takeWhile_imp hb) (fun d hd => ?_) fun _ d hd => ?_
  all_goals
    obtain rfl := Option.some.inj (hhead.symm.trans hd)
    rcases hc with rfl | rfl <;> decide

lemma blank_gapText (hunit : Blank unit.toList) (level feeds : Nat) :
    Blank (gapText unit level feeds) := by
  cases feeds with
  | zero => exact blank_space
  | succ n =>
    refine Blank.append (fun c hc => ?_) (blank_indentationAt hunit level)
    rw [List.eq_of_mem_replicate hc]
    decide

lemma endsName_attributesText (hregular : ∀ a ∈ attributes, a.Regular)
    (hunit : Blank unit.toList) (hrest : EndsName rest) (feeds : List Nat) :
    EndsName (attributesText breaks unit level feeds attributes ++ rest) := by
  unfold attributesText
  split
  · rename_i n more a others
    obtain ⟨c, cs, hcs, hc⟩ := (hregular a (mem_cons_self ..)).exists_chars breaks unit level
    rw [append_assoc, hcs]
    refine endsName_append (blank_gapText hunit level n) ?_ fun hnil => ?_
    · rintro _ ⟨⟩
      refine ⟨(endsAttributeName_eq_false hc).1, ?_⟩
      rintro rfl
      cases hc
    · cases n <;> cases hnil
  · exact hrest

namespace Attribute

/-- **The text of attributes is read as the attributes**, with the indentation that is printed in
their texts, and the gaps between them are the printed ones. -/
theorem exists_gives_attributes (hregular : ∀ a ∈ attributes, a.Regular)
    (hread : ∀ a ∈ attributes, ∀ e ∈ a.written, ∀ level, e.ReadsBack breaks unit level)
    (hunit : Blank unit.toList) (hrest : EndsName rest)
    (hfeeds : feeds.length = attributes.length) (level : Nat) (before : List Char)
    (hend : Gives (MarkupGrammar.attributes tag
        ⟨byteLength before + byteLength (attributesText breaks unit level feeds attributes), rest⟩)
      ([], selfClosing) next) :
    ∃ found, Gives (MarkupGrammar.attributes tag
        ⟨byteLength before, attributesText breaks unit level feeds attributes ++ rest⟩)
        (found, selfClosing) next ∧
      Forall₂ (fun a b => b.bare = (a.indented unit level).bare) attributes found ∧
      gaps (before ++ (attributesText breaks unit level feeds attributes ++ rest))
        (byteLength before) found = feeds.map (gapText unit level) := by
  induction attributes generalizing feeds before with
  | nil =>
    obtain rfl := List.length_eq_zero_iff.mp hfeeds
    exact ⟨[], hend, .nil, rfl⟩
  | cons a others ih =>
    obtain ⟨n, more, rfl⟩ := List.exists_cons_of_length_eq_add_one hfeeds
    obtain ⟨ha, hothers⟩ := forall_mem_cons.mp hregular
    obtain ⟨hreadA, hreadOthers⟩ := forall_mem_cons.mp hread
    rw [attributesText] at hend ⊢
    generalize htext : attributesText breaks unit level more others = text at hend ⊢
    generalize hgap : gapText unit level n = gap at hend ⊢
    have hends : EndsName (text ++ rest) := htext ▸ endsName_attributesText hothers hunit hrest more
    obtain ⟨b, hb, hbare⟩ := exists_gives_attributeAt ha hreadA hunit (fun _ => hends)
      (byteLength before + byteLength gap) level
    obtain ⟨c, cs, hcs, hc⟩ := ha.exists_chars breaks unit level
    generalize a.chars breaks unit level = chars at hb hend hcs ⊢
    -- the others stand after the text of the first
    have hplace : byteLength (before ++ (gap ++ chars)) =
        byteLength before + byteLength gap + byteLength chars := by
      rw [byteLength_append, byteLength_append, Nat.add_assoc]
    obtain ⟨found, hfound, hbares, hgaps⟩ := ih hothers hreadOthers (Nat.succ.inj hfeeds)
      (before ++ (gap ++ chars)) (by
        rw [hplace, htext]
        rwa [byteLength_append, byteLength_append, ← Nat.add_assoc, ← Nat.add_assoc] at hend)
    rw [htext, hplace] at hfound hgaps
    have hblanks : Blank gap := hgap ▸ blank_gapText hunit level n
    have hhere : (⟨byteLength before, gap ++ (chars ++ (text ++ rest))⟩ : Cursor).skipBlanks =
        ⟨byteLength before + byteLength gap, chars ++ (text ++ rest)⟩ := by
      refine @skipBlanks_append gap _ hblanks ?_ _
      rw [hcs]
      rintro _ ⟨⟩
      exact (endsAttributeName_eq_false hc).1
    have hspan := (readsAttribute_of_attributeAt hb).span_eq
    refine ⟨b :: found, ?_, .cons hbare hbares, ?_⟩
    · rw [append_assoc, append_assoc]
      exact gives_attributes_cons hhere (by rw [hcs]; rfl) hc hb hfound
    · have hfirst := Cursor.within_append before gap (chars ++ (text ++ rest))
      rw [gaps, hspan, map_cons, hgap]
      simp only [append_assoc] at hgaps ⊢
      rw [textBetween, Cursor.spanTo, hfirst]
      exact congrArg (gap :: ·) hgaps

end Attribute

lemma blank_endBlanks (hunit : Blank unit.toList) (level : Nat) (wraps closes : Bool) :
    Blank (endBlanks unit level wraps closes) := by
  unfold endBlanks
  split
  · exact forall_mem_cons.mpr ⟨by decide, blank_indentationAt hunit level⟩
  · split
    · exact blank_space
    · exact .nil

lemma head?_any_isTagNameChar (hblanks : Blank blanks)
    (hrest : blanks = [] → rest.head?.any isTagNameChar = false) :
    (blanks ++ rest).head?.any isTagNameChar = false := by
  cases blanks with
  | nil => exact hrest rfl
  | cons b blanks => simp [isTagNameChar, hblanks b (mem_cons_self ..)]

/-- **The text of an opening tag is read as the tag**, wherever it stands. -/
theorem exists_gives_openingTag (hname : IsElementName ctx kind name)
    (hregular : ∀ a ∈ attributes, a.Regular)
    (hread : ∀ a ∈ attributes, ∀ e ∈ a.written, ∀ level, e.ReadsBack breaks unit level)
    (hunit : Blank unit.toList) (level : Nat) (wraps closes : Bool)
    (hfeeds : feeds.length = attributes.length) (front rest : List Char) :
    ∃ found stop,
      Gives (openingTag ctx ⟨byteLength front,
        openingText breaks unit level name wraps feeds attributes closes ++ rest⟩)
        ⟨kind, name, found, closes⟩ ⟨stop, rest⟩ ∧
      Forall₂ (fun a b => b.bare =
        (a.indented unit (if wraps then level + 1 else level)).bare) attributes found ∧
      Attribute.gaps (front ++ (openingText breaks unit level name wraps feeds attributes closes ++
        rest)) (byteLength front + byteLength name.toList + 1) found =
          feeds.map (gapText unit (if wraps then level + 1 else level)) := by
  rw [openingText]
  generalize (if wraps then level + 1 else level) = inner
  have hblanks := blank_endBlanks hunit level wraps closes
  generalize endBlanks unit level wraps closes = blanks at hblanks ⊢
  have hends : EndsName (blanks ++ (tagEnd closes ++ rest)) := by
    refine endsName_append hblanks ?_ fun _ => ?_
    · cases closes <;> (rintro _ ⟨⟩; decide)
    · cases closes <;> (rintro _ ⟨⟩; decide)
  obtain ⟨found, hfound, hbares, hgaps⟩ := Attribute.exists_gives_attributes hregular hread hunit
    hends hfeeds inner (front ++ '<' :: name.toList)
    (gives_attributes_tagEnd name _ hblanks closes rest)
  have hhead : (attributesText breaks unit inner feeds attributes ++
      (blanks ++ tagEnd closes) ++ rest).head?.any isTagNameChar = false := by
    rw [append_assoc, append_assoc]
    cases attributes with
    | nil =>
      obtain rfl := List.length_eq_zero_iff.mp hfeeds
      show (blanks ++ (tagEnd closes ++ rest)).head?.any isTagNameChar = false
      refine head?_any_isTagNameChar hblanks fun _ => ?_
      cases closes <;> rfl
    | cons a others =>
      obtain ⟨n, more, rfl⟩ := List.exists_cons_of_length_eq_add_one hfeeds
      rw [attributesText, append_assoc]
      refine head?_any_isTagNameChar (blank_gapText hunit inner n) fun hnil => ?_
      cases n <;> cases hnil
  have hplace : byteLength (front ++ '<' :: name.toList) =
      byteLength front + byteLength ("<".toList ++ name.toList) := byteLength_append ..
  have hnameEnd : byteLength ("<".toList ++ name.toList) = byteLength name.toList + 1 := by
    rw [byteLength_append, Nat.add_comm]
    rfl
  rw [hplace] at hfound hgaps
  rw [List.cons_append, append_assoc]
  refine ⟨found, _, gives_openingTag_of_attributes hname hhead
    (by rw [append_assoc, append_assoc]; exact hfound), hbares, ?_⟩
  rw [hnameEnd, ← Nat.add_assoc, append_assoc, List.cons_append] at hgaps
  rw [append_assoc, append_assoc]
  exact hgaps

end Reading

end ComponentTemplate
