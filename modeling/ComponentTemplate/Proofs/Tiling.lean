import ComponentTemplate.Proofs.MarkupRegions
import ComponentTemplate.Proofs.MarkupWellFormed

/-!
# Nodes tile the source

The nodes between two tags fill the region between them: each starts where the one before it ends,
the first after the opening tag and the last before the closing one. The further branches of a
condition are the exception, since the last of them ends with the whole block. At the top level,
imports, the script and the style are set apart from the nodes, and a text goes on after them: it
is the source in its region without them.
-/

namespace ComponentTemplate

open Cursor

namespace MarkupGrammar

/-! ## Tags around nodes -/

def AtBlockTag (cur : Cursor) : Prop := ∃ cs, cur.rest = '{' :: '%' :: cs

/-- **A block tag stands between two places**: it starts with its word, and the second place is
after the first mark that ends it. -/
structure BlockTag (word : String) (cur next : Cursor) : Prop where
  atBlockTag : AtBlockTag cur
  tokens : TagTokens word cur next

lemma BlockTag.reaches (h : BlockTag word cur next) : cur.Reaches next := h.tokens.reaches

/-- **The opening tag of an element stands between two places.** -/
def ElementTag (tag : OpeningTag) (cur next : Cursor) : Prop :=
  ∃ after, cur.Reads ('<' :: tag.name.toList) after ∧
    ReadsAttributes after tag.attributes tag.selfClosing next

lemma ElementTag.reaches (h : ElementTag tag cur next) : cur.Reaches next := by
  obtain ⟨after, hname, hattributes⟩ := h
  exact hname.reaches.trans hattributes.reaches

/-- **The closing tag of an element stands between two places.** -/
def EndTag (name : String) (cur next : Cursor) : Prop :=
  ∃ blanks, Text.Blank blanks ∧ cur.Reads ("</".toList ++ (name.toList ++ (blanks ++ ['>']))) next

lemma EndTag.reaches (h : EndTag name cur next) : cur.Reaches next := by
  obtain ⟨blanks, -, hread⟩ := h
  exact hread.reaches

end MarkupGrammar

namespace Node

open MarkupGrammar

mutual

/-- **A node stands between two places**, its region is what is between them, and the nodes inside
it fill the regions between its tags. -/
inductive Between : Cursor → Node → Cursor → Prop
  | text {cur next} {data} (hne : data.toList ≠ [])
      (hdata : cur.Reads data.toList next) : Between cur (.text (cur.spanTo next) data) next
  | comment {cur next} {data}
      (htext : cur.Reads ("<!--".toList ++ (data.toList ++ "-->".toList)) next) :
      Between cur (.comment (cur.spanTo next) data) next
  | inlineTag {cur next} {n} {inner} (htag : InlineTag cur next n)
      (htext : cur.Reads ('{' :: '{' :: (inner ++ ['}', '}'])) next) : Between cur n next
  | variableTag {cur next} {e} (htag : BlockTag "set" cur next) :
      Between cur (.variableTag (cur.spanTo next) e) next
  | complete {cur next} {tag} (hcomplete : tag.isComplete = true)
      (htag : ElementTag tag cur next) :
      Between cur (.element (cur.spanTo next) tag.kind tag.name tag.attributes []) next
  | element {cur after close next} {tag} {children}
      (hcomplete : tag.isComplete = false) (htag : ElementTag tag cur after)
      (hchildren : Tile after children close) (hclose : EndTag tag.name close next) :
      Between cur (.element (cur.spanTo next) tag.kind tag.name tag.attributes children) next
  | ifBlock {cur after mid next} {test} {consequent}
      {alternate} (htag : BlockTag "if" cur after)
      (hconsequent : Tile after consequent mid) (halternate : Alternative mid alternate next) :
      Between cur (.ifBlock (cur.spanTo next) false test consequent alternate) next
  | forBlock {cur after mid close next} {index} {name subject}
      {key} {body} {fallback}
      (htag : BlockTag "for" cur after) (hbody : Tile after body mid)
      (hfallback : Branch "else" mid fallback close) (hclose : BlockTag "endfor" close next) :
      Between cur (.forBlock (cur.spanTo next) index name subject key body fallback) next
  | keyBlock {cur after close next} {e} {body}
      (htag : BlockTag "key" cur after) (hbody : Tile after body close)
      (hclose : BlockTag "endkey" close next) : Between cur (.keyBlock (cur.spanTo next) e body) next
  | snippetBlock {cur after close next} {name} {params}
      {body} (htag : BlockTag "snippet" cur after) (hbody : Tile after body close)
      (hclose : BlockTag "endsnippet" close next) :
      Between cur (.snippetBlock (cur.spanTo next) name params body) next
  | pending {cur after afterPending afterThen close next} {e}
      {value error} {pending} {resolved rejected}
      (htag : BlockTag "await" cur after) (hpending : Tile after pending afterPending)
      (hresolved : Branch "then" afterPending resolved afterThen)
      (hrejected : Branch "catch" afterThen rejected close)
      (hclose : BlockTag "endawait" close next) :
      Between cur (.awaitBlock (cur.spanTo next) e value error (some pending) resolved rejected) next
  | resolved {cur after afterThen close next} {e} {value error}
      {resolved} {rejected} (htag : BlockTag "await" cur after)
      (hresolved : Tile after resolved afterThen) (hrejected : Branch "catch" afterThen rejected close)
      (hclose : BlockTag "endawait" close next) :
      Between cur (.awaitBlock (cur.spanTo next) e value error none (some resolved) rejected) next
  | rejected {cur after close next} {e} {value error}
      {rejected} (htag : BlockTag "await" cur after)
      (hrejected : Tile after rejected close) (hclose : BlockTag "endawait" close next) :
      Between cur (.awaitBlock (cur.spanTo next) e value error none none (some rejected)) next

/-- **Nodes fill the region between two places**, one after another and never two texts in a
row. -/
inductive Tile : Cursor → List Node → Cursor → Prop
  | nil {cur} : Tile cur [] cur
  | cons {cur mid next} {n} {nodes} (hn : Between cur n mid)
      (hnodes : Tile mid nodes next)
      (hapart : n.isText = true → ∀ m ∈ nodes.head?, m.isText = false) :
      Tile cur (n :: nodes) next

/-- **What follows the first branch of a condition.** A further branch goes from its own tag to the
end of the whole block. -/
inductive Alternative : Cursor → Option (List Node) → Cursor → Prop
  | none {cur next} (hclose : BlockTag "endif" cur next) : Alternative cur none next
  | elseif {cur after mid next} {test} {consequent}
      {alternate} (htag : BlockTag "elseif" cur after)
      (hconsequent : Tile after consequent mid) (halternate : Alternative mid alternate next) :
      Alternative cur (some [.ifBlock (cur.spanTo next) true test consequent alternate]) next
  | otherwise {cur after close next} {nodes} (htag : BlockTag "else" cur after)
      (hnodes : Tile after nodes close) (hclose : BlockTag "endif" close next) :
      Alternative cur (some nodes) next

/-- **A part of a block that may be missing**, with the tag in front of it. -/
inductive Branch : String → Cursor → Option (List Node) → Cursor → Prop
  | none {word} {cur} : Branch word cur none cur
  | some {word} {cur after next} {nodes}
      (htag : BlockTag word cur after) (hnodes : Tile after nodes next) :
      Branch word cur (some nodes) next

end

variable {cur mid next : Cursor} {n : Node} {nodes : List Node}

mutual

theorem Between.reaches {cur next : Cursor} {n : Node} : Between cur n next → cur.Reaches next
  | .text _ hdata => hdata.reaches
  | .comment htext => htext.reaches
  | .inlineTag _ htext => htext.reaches
  | .variableTag htag => htag.reaches
  | .complete _ htag => htag.reaches
  | .element _ htag hchildren hclose => htag.reaches.trans (hchildren.reaches.trans hclose.reaches)
  | .ifBlock htag hconsequent halternate =>
    htag.reaches.trans (hconsequent.reaches.trans halternate.reaches)
  | .forBlock htag hbody hfallback hclose =>
    htag.reaches.trans (hbody.reaches.trans (hfallback.reaches.trans hclose.reaches))
  | .keyBlock htag hbody hclose => htag.reaches.trans (hbody.reaches.trans hclose.reaches)
  | .snippetBlock htag hbody hclose => htag.reaches.trans (hbody.reaches.trans hclose.reaches)
  | .pending htag hpending hresolved hrejected hclose =>
    htag.reaches.trans (hpending.reaches.trans
      (hresolved.reaches.trans (hrejected.reaches.trans hclose.reaches)))
  | .resolved htag hresolved hrejected hclose =>
    htag.reaches.trans (hresolved.reaches.trans (hrejected.reaches.trans hclose.reaches))
  | .rejected htag hrejected hclose => htag.reaches.trans (hrejected.reaches.trans hclose.reaches)

theorem Tile.reaches {cur next : Cursor} {nodes : List Node} :
    Tile cur nodes next → cur.Reaches next
  | .nil => .refl _
  | .cons hn hnodes _ => hn.reaches.trans hnodes.reaches

theorem Alternative.reaches {cur next : Cursor} {alternate : Option (List Node)} :
    Alternative cur alternate next → cur.Reaches next
  | .none hclose => hclose.reaches
  | .elseif htag hconsequent halternate =>
    htag.reaches.trans (hconsequent.reaches.trans halternate.reaches)
  | .otherwise htag hnodes hclose => htag.reaches.trans (hnodes.reaches.trans hclose.reaches)

theorem Branch.reaches {cur next : Cursor} {word : String} {nodes : Option (List Node)} :
    Branch word cur nodes next → cur.Reaches next
  | .none => .refl _
  | .some htag hnodes => htag.reaches.trans hnodes.reaches

end

lemma Tile.push (hn : Between cur n mid) (h : Tile mid nodes next) :
    Tile cur (n.cons nodes) next := by
  unfold Node.cons
  split
  · cases hn with
    | inlineTag htag _ => cases htag
    | text hne hdata =>
      cases h with
      | @cons _ after _ _ _ hn' hrest hapart =>
        cases hn' with
        | inlineTag htag _ => cases htag
        | text _ hdata' =>
          have hspan : (cur.spanTo mid).merge (mid.spanTo after) = cur.spanTo after := by
            simp [spanTo, Span.merge, hdata.reaches.offset_le, hdata'.reaches.offset_le]
          rw [hspan]
          exact .cons (.text (by simp [hne]) (by simpa using hdata.trans hdata')) hrest hapart
  · rename_i hother
    refine .cons hn h fun htext m hm => ?_
    obtain ⟨rest, rfl⟩ := List.head?_eq_some_iff.mp hm
    cases n
    case text span data =>
      cases m
      case text span' data' => exact absurd rfl (hother span data span' data' rest rfl)
      all_goals rfl
    all_goals cases htext

end Node

/-! ## What has a derivation fills its region -/

namespace MarkupGrammar

variable {ctx : MarkupContext} {cur next : Cursor} {phrase : Phrase}

lemma atBlockTag_of_keyword (h : blockKeyword? cur = some word) : AtBlockTag cur := by
  unfold blockKeyword? at h
  split at h
  · rename_i cs hrest
    exact ⟨cs, hrest⟩
  · cases h

lemma Derives.stops (h : Derives (.sequence ctx ending nodes) cur next) : Stops ending next := by
  generalize hphrase : Phrase.sequence ctx ending nodes = phrase at h
  induction h generalizing nodes with
  | stop hstops =>
    cases hphrase
    exact hstops
  | cons _ _ _ _ _ ih =>
    cases hphrase
    exact ih rfl
  | _ => cases hphrase

lemma Derives.atBlockTag (h : Derives (.sequence ctx (some (.blockTag keywords)) nodes) cur next) :
    AtBlockTag next := by
  obtain ⟨keyword, -, hkeyword⟩ := h.stops
  exact atBlockTag_of_keyword hkeyword

lemma Derives.atBlockTag_of_elseBranch (h : Derives (.elseBranch ctx close nodes) cur next)
    (hcur : AtBlockTag cur) : AtBlockTag next := by
  cases h with
  | noElse _ => exact hcur
  | elseBranch _ _ hnodes => exact hnodes.atBlockTag

lemma Derives.atBlockTag_of_outcome
    (h : Derives (.outcome ctx word (.blockTag keywords) name nodes) cur next)
    (hcur : AtBlockTag cur) : AtBlockTag next := by
  cases h with
  | noOutcome _ => exact hcur
  | outcome _ _ hnodes => exact hnodes.atBlockTag

lemma elementTag_of_gives (hrest : cur.rest = '<' :: c :: cs)
    (h : Gives (openingTag ctx cur) tag next) : ElementTag tag cur next := by
  obtain ⟨-, hname, hattributes⟩ := (gives_openingTag_iff rfl).mp h
  refine ⟨_, ?_, readsAttributes_of_gives hattributes⟩
  have hopen : cur.Reads ['<'] (cur.skip 1) := reads_of_rest hrest
  have hread := hopen.trans ((cur.skip 1).reads_skipRun isTagNameChar)
  rw [skipRun, skip_skip] at hread
  rw [hname, String.toList_ofList]
  exact hread

lemma reads_opening (hrest : cur.rest = a :: b :: cs) (h : (cur.skip 2).Reads part next) :
    cur.Reads (a :: b :: part) next :=
  Reads.trans (reads_of_rest hrest : cur.Reads [a, b] (cur.skip 2)) h

lemma endTag_of_gives (hat : cur.startsWith "</" = true) (h : Gives (closingTag name cur) () next) :
    EndTag name cur next := by
  obtain ⟨cs, hrest⟩ := List.isPrefixOf_iff_prefix.mp hat
  obtain ⟨blanks, hblanks, hread⟩ := reads_closingTag h
  exact ⟨blanks, hblanks, reads_opening hrest.symm hread⟩

/-- **What fills the region between two places.** -/
def Phrase.Fills (cur next : Cursor) : Phrase → Prop
  | .sequence _ _ nodes => Node.Tile cur nodes next
  | .item _ (.node n) => Node.Between cur n next
  | .item _ (.importTag tag) => BlockTag "import" cur next ∧ tag.span = cur.spanTo next
  | .item _ (.raw element) => Node.Between cur element.toNode next ∧ element.span = cur.spanTo next
  | .branches _ consequent alternate =>
    ∃ mid, Node.Tile cur consequent mid ∧ Node.Alternative mid alternate next
  | .alternative _ alternate => AtBlockTag cur → Node.Alternative cur alternate next
  | .elseBranch _ _ nodes => AtBlockTag cur → Node.Branch "else" cur nodes next
  | .outcome _ word _ _ nodes => AtBlockTag cur → Node.Branch word cur nodes next
  | .outcomes _ _ value error pending resolved rejected =>
    ∀ {start : Cursor} (e : Expr), BlockTag "await" start cur →
      Node.Between start (.awaitBlock (start.spanTo next) e value error pending resolved rejected)
        next

/-- **What has a derivation fills the region between its two places.** -/
theorem Derives.fills (h : Derives phrase cur next) : phrase.Fills cur next := by
  have hat {cur : Cursor} {cs : List Char} (h : cur.rest = '{' :: '%' :: cs) : AtBlockTag cur :=
    ⟨cs, h⟩
  induction h with
  | stop _ => exact .nil
  | cons _ _ hfirst _ ihitem ihrest =>
    obtain rfl | ⟨element, rfl, rfl⟩ := hfirst.eq_node_or_raw
    · exact .push ihitem ihrest
    · exact .push ihitem.1 ihrest
  | @text _ cur c cs hrest _ =>
    obtain ⟨after, hafter⟩ := textRun_isPrefix cs
    have hread : cur.Reads (c :: textRun cs) (cur.skip (c :: textRun cs).length) :=
      reads_of_rest (hrest.trans (congrArg (c :: ·) hafter.symm))
    rw [List.length_cons, Nat.add_comm] at hread
    exact .text (by simp) (by simpa using hread)
  | @comment _ cur cs data hrest hdata =>
    obtain ⟨after, rfl⟩ := exists_append_of_beforeText? hdata
    have hread := @reads_of_rest cur ("<!--".toList ++ (data ++ "-->".toList)) after
      (by simp [hrest])
    exact .comment (by simpa using hread)
  | inlineTag hrest htag =>
    obtain ⟨inner, hinner⟩ := htag.reads
    exact .inlineTag htag (reads_opening hrest hinner)
  | variableTag hrest hopens he _ hend =>
    exact .variableTag ⟨⟨_, hrest⟩, tagTokens_expression hopens he hend⟩
  | importTag hrest hopens htag =>
    obtain ⟨htokens, hspan⟩ := tagTokens_of_importTag hopens htag
    exact ⟨⟨⟨_, hrest⟩, htokens⟩, hspan⟩
  | complete hrest _ htag hcomplete => exact .complete hcomplete (elementTag_of_gives hrest htag)
  | @raw _ tag code codeSpan cur after next c cs hrest _ htag hcomplete hraw hcode =>
    obtain ⟨close, hread, rfl, hclose⟩ := reads_rawContent hcode
    have hkind : tag.kind = .regular := by
      simp only [OpeningTag.isRaw, Bool.and_eq_true, decide_eq_true_eq] at hraw
      exact hraw.1
    have hend : EndTag tag.name close next := ⟨[], by simp [Text.Blank], by simpa using hclose⟩
    refine ⟨?_, rfl⟩
    rw [RawElement.toNode, ← hkind]
    refine .element hcomplete (elementTag_of_gives hrest htag) ?_ hend
    -- the code is the only child, if there is any
    cases code with
    | nil =>
      rw [hread.eq_of_nil]
      exact .nil
    | cons d ds => exact .cons (.text (by simp) (by simpa using hread)) .nil (by simp)
  | element hrest _ htag hcomplete _ hchildren hclose ihchildren =>
    exact .element hcomplete (elementTag_of_gives hrest htag) ihchildren
      (endTag_of_gives hchildren.stops hclose)
  | otherwise _ helse hend ihelse =>
    intro hcur
    have hclose : BlockTag "endif" _ _ := ⟨helse.atBlockTag_of_elseBranch hcur, hend.tagTokens⟩
    cases ihelse hcur with
    | none => exact .none hclose
    | some htag hnodes => exact .otherwise htag hnodes hclose
  | _ =>
    -- the parts of a block stand between its tags, and each ends at the tag after it
    simp only [Phrase.Fills] at *
    grind -ring -linarith -lia only [intro Node.Between, intro Node.Alternative, intro Node.Branch,
      → BlockTag.mk, → tagTokens_expression, → tagTokens_loop, → tagTokens_snippet,
      → tagTokens_await, → WordTag.tagTokens, → BindingTag.tagTokens, → Derives.atBlockTag,
      → Derives.atBlockTag_of_elseBranch, → Derives.atBlockTag_of_outcome]

end MarkupGrammar

/-! ## The top level -/

namespace Component

open MarkupGrammar

/-- **A construct that is set apart stands between two places**: an import, or an element that may
be the script or the style. -/
inductive SetApart (cur next : Cursor) : Prop
  | importTag (htag : BlockTag "import" cur next)
  | element {name} {attributes} {children}
      (hname : name = "script" ∨ name = "style")
      (helement : Node.Between cur
        (.element (cur.spanTo next) .regular name attributes children) next)

inductive SetApartRun : Cursor → List Span → Cursor → Prop
  | nil {cur} : SetApartRun cur [] cur
  | cons {cur mid next} {spans} (hfirst : SetApart cur mid)
      (hrest : SetApartRun mid spans next) : SetApartRun cur (cur.spanTo mid :: spans) next

/-- **A text between two places with constructs that are set apart inside it**: its characters are
those of the source without the constructs. -/
inductive TextAround : Cursor → List Char → List Span → Cursor → Prop
  | last {cur next} {data} (hne : data ≠ []) (hdata : cur.Reads data next) :
      TextAround cur data [] next
  | cons {cur mid mid' next} {first data} {spans spans'}
      (hne : first ≠ []) (hfirst : cur.Reads first mid) (hspans : SetApartRun mid spans mid')
      (hdata : TextAround mid' data spans' next) :
      TextAround cur (first ++ data) (spans ++ spans') next

/-- **Nodes and constructs that are set apart cover the rest of the source**, one after another and
never two texts in a row. -/
inductive Covers : Cursor → List Node → List Span → Prop
  | done {cur} (hrest : cur.rest = []) : Covers cur [] []
  | node {cur mid} {n} {nodes} {spans}
      (htext : n.isText = false) (hn : Node.Between cur n mid) (hrest : Covers mid nodes spans) :
      Covers cur (n :: nodes) spans
  | setApart {cur mid} {nodes} {spans}
      (hfirst : SetApart cur mid) (hrest : Covers mid nodes spans) :
      Covers cur nodes (cur.spanTo mid :: spans)
  | text {cur mid} {data} {nodes} {inside spans}
      (hdata : TextAround cur data.toList inside mid)
      (hnodes : ∀ n ∈ nodes.head?, n.isText = false) (hrest : Covers mid nodes spans) :
      Covers cur (.text (cur.spanTo mid) data :: nodes) (inside ++ spans)

def setApartSpans (component : Component) : List Span :=
  component.imports.map Import.span ++ (component.script.toList.map ScriptBlock.span ++
    component.style.toList.map StyleBlock.span)

/-- **The regions of a component in its source.** The nodes and what is set apart cover the source,
and every region at every depth is one of the source. -/
structure Tiles (source : List Char) (component : Component) : Prop where
  covers : ∃ spans, spans.Perm component.setApartSpans ∧
    Covers (.ofSource source) component.nodes spans
  spansIn : SpansIn source component.spans

variable {ctx : MarkupContext} {hasScript hasStyle : Bool} {component : Component}
  {cur mid next : Cursor} {spans : List Span} {nodes : List Node}

lemma SetApart.reaches (h : SetApart cur next) : cur.Reaches next := by
  cases h with
  | importTag htag => exact htag.reaches
  | element _ helement => exact helement.reaches

lemma SetApartRun.reaches (h : SetApartRun cur spans next) : cur.Reaches next := by
  induction h with
  | nil => exact .refl _
  | cons hfirst _ ih => exact hfirst.reaches.trans ih

lemma TextAround.reaches (h : TextAround cur data spans next) : cur.Reaches next := by
  induction h with
  | last _ hdata => exact hdata.reaches
  | cons _ hfirst hspans _ ih => exact hfirst.reaches.trans (hspans.reaches.trans ih)

lemma Covers.exists_textAround (h : Covers cur (.text span data :: nodes) spans) :
    ∃ start stop before inside later, spans = before ++ (inside ++ later) ∧
      span = start.spanTo stop ∧ SetApartRun cur before start ∧
      TextAround start data.toList inside stop ∧ (∀ n ∈ nodes.head?, n.isText = false) ∧
      Covers stop nodes later := by
  generalize hall : Node.text span data :: nodes = all at h
  induction h with
  | done _ => cases hall
  | node htext _ _ _ =>
    cases hall
    cases htext
  | setApart hfirst _ ih =>
    obtain ⟨start, stop, before, inside, later, rfl, hspan, hbefore, hrest⟩ := ih hall
    exact ⟨start, stop, _ :: before, inside, later, rfl, hspan, .cons hfirst hbefore, hrest⟩
  | @text cur mid _ _ inside later hdata hnodes hrest _ =>
    cases hall
    exact ⟨cur, mid, [], inside, later, rfl, rfl, .nil, hdata, hnodes, hrest⟩

/-- **A node before what covers the rest** of a source. A text becomes one with the next text, across
what is set apart between them. -/
theorem Covers.push (hn : Node.Between cur n mid) (h : Covers mid nodes spans) :
    Covers cur (n.cons nodes) spans := by
  by_cases htext : n.isText = true
  · cases hn with
    | inlineTag htag _ => cases htag <;> cases htext
    | text hne hdata =>
      by_cases hnodes : ∀ m ∈ nodes.head?, m.isText = false
      · rw [cons_text_of_head hnodes]
        exact .text (.last hne hdata) hnodes h
      · obtain ⟨_, data, rest, rfl⟩ := Node.exists_text_of_head hnodes
        obtain ⟨start, stop, before, inside, later, rfl, rfl, hbefore, haround, hrest, hlater⟩ :=
          h.exists_textAround
        have hstart : cur.Reaches start := hdata.reaches.trans hbefore.reaches
        have hstop : mid.Reaches stop := hbefore.reaches.trans haround.reaches
        have hspan : (cur.spanTo mid).merge (start.spanTo stop) = cur.spanTo stop := by
          simp [spanTo, Span.merge, hstart.offset_le, hstop.offset_le]
        rw [Node.cons, hspan, ← List.append_assoc]
        refine .text ?_ hrest hlater
        rw [String.toList_append]
        exact .cons hne hdata hbefore haround
    | _ => cases htext
  · rw [Bool.not_eq_true] at htext
    rw [Node.cons_of_not_isText htext]
    exact .node htext hn h

lemma Derives.script_eq_none (h : Derives ctx true hasStyle component cur next) :
    component.script = none := by
  generalize hhas : true = hasScript at h
  induction h with
  | stop _ => rfl
  | cons _ _ hpart _ ih =>
    have hlater := ih (by simp [← hhas])
    cases hpart with
    | script _ hfirst _ =>
      rw [← hhas] at hfirst
      cases hfirst
    | _ => exact hlater

lemma Derives.style_eq_none (h : Derives ctx hasScript true component cur next) :
    component.style = none := by
  generalize hhas : true = hasStyle at h
  induction h with
  | stop _ => rfl
  | cons _ _ hpart _ ih =>
    have hlater := ih (by simp [← hhas])
    cases hpart with
    | style _ _ hfirst =>
      rw [← hhas] at hfirst
      cases hfirst
    | _ => exact hlater

lemma setApart_of_raw {element : RawElement} (hname : element.name = "script" ∨
    element.name = "style") (h : Node.Between cur element.toNode next)
    (hspan : element.span = cur.spanTo next) : SetApart cur next := by
  rw [RawElement.toNode, hspan] at h
  exact .element hname h

/-- **A component that has a derivation covers the rest** of its source. -/
theorem Derives.covers (h : Derives ctx hasScript hasStyle component cur next) :
    ∃ spans, spans.Perm component.setApartSpans ∧ Covers cur component.nodes spans := by
  induction h with
  | stop hrest => exact ⟨[], .refl _, .done hrest⟩
  | cons _ hitem hpart hlater ih =>
    obtain ⟨spans, hperm, hcovers⟩ := ih
    have hfills := hitem.fills
    cases hpart with
    | node n => exact ⟨spans, hperm, hcovers.push hfills⟩
    | raw _ _ => exact ⟨spans, hperm, hcovers.push hfills.1⟩
    | importTag tag =>
      refine ⟨_ :: spans, ?_, .setApart (.importTag hfills.1) hcovers⟩
      rw [← hfills.2]
      exact hperm.cons _
    | @script element body hscript _ _ =>
      have hname : element.name = "script" := by
        simp only [RawElement.isComponentScript, Bool.and_eq_true, decide_eq_true_eq] at hscript
        exact hscript.1
      have hnone := Derives.script_eq_none (by simpa [Part.isScript] using hlater)
      refine ⟨_ :: spans, ?_, .setApart (setApart_of_raw (.inl hname) hfills.1 hfills.2) hcovers⟩
      rw [← hfills.2]
      simp only [setApartSpans, hnone, Option.toList_none, List.map_nil, List.nil_append] at hperm
      exact (hperm.cons _).trans List.perm_middle.symm
    | @style element _ hstyle _ =>
      have hname : element.name = "style" := by simpa [RawElement.isStyle] using hstyle
      have hnone := Derives.style_eq_none (by simpa [Part.isStyle] using hlater)
      refine ⟨_ :: spans, ?_, .setApart (setApart_of_raw (.inr hname) hfills.1 hfills.2) hcovers⟩
      rw [← hfills.2]
      simp only [setApartSpans, hnone, Option.toList_none, List.map_nil, List.append_nil] at hperm
      have hlast := (hperm.cons element.span).trans (List.perm_append_singleton _ _).symm
      rw [List.append_assoc] at hlast
      exact hlast

/-- **Components that are read tile their source.** -/
theorem tiles_of_parse_eq_ok {source special : String}
    (h : parse source special = .ok component) : component.Tiles source.toList := by
  obtain ⟨next, hderives⟩ := ofChars_eq_ok_iff.mp (parse_eq_ok_iff.mp h)
  exact ⟨hderives.covers, hderives.spansIn (isIn_ofSource _)⟩

/-- A text goes on across an import and a style. -/
theorem exists_tiles_of_parse : ∃ source component,
    source = "a \x7b% import A from 'a' %\x7d<style></style>b\x7b% if c %\x7dd\x7b% endif %\x7d" ∧
      parse source "zvelte" = .ok component ∧ component.Tiles source.toList := by
  have hok : (parse "a \x7b% import A from 'a' %\x7d<style></style>b\x7b% if c %\x7dd\x7b% endif %\x7d"
      "zvelte").isOk = true := by decide +kernel
  obtain ⟨component, h⟩ := exists_eq_ok_of_isOk hok
  exact ⟨_, component, rfl, h, tiles_of_parse_eq_ok h⟩

end Component

end ComponentTemplate
