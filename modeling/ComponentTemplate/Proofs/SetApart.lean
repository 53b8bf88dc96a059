import ComponentTemplate.Proofs.AttributeReading
import ComponentTemplate.Proofs.TopItems

/-!
# Elements that are set apart

A script in the language of components and a style are set apart from the content if they are
written with a closing tag. One that closes itself is a node like any other, but it is printed with
a closing tag, and is set apart when it is read again.
-/

namespace ComponentTemplate

open MarkupGrammar Node Doc Attribute

/-! ## What is compared of nodes at the top level -/

lemma Attribute.givesScriptLanguage_bare (a : Attribute) :
    a.bare.givesScriptLanguage = a.givesScriptLanguage := by
  cases a with
  | plain span name value doubleQuotes =>
    by_cases hname : name = "lang"
    · subst hname
      match value with
      | none | some [] | some [.text _] | some [.tag ..] => rfl
      | some (_ :: _ :: _) => simp [bare, normal, inDoubleQuotes, givesScriptLanguage]
    · simp [bare, normal, inDoubleQuotes, givesScriptLanguage, hname]
  | spread | directive => rfl

namespace Node

/-- The kind, the name, the attributes and the content of a node that is an element. -/
def element? : Node → Option (ElementKind × String × List Attribute × List Node)
  | .element _ kind name attributes children => some (kind, name, attributes, children)
  | _ => none

def attributes (n : Node) : List Attribute :=
  (n.element?.map fun (_, _, attributes, _) => attributes).getD []

def isRawElement (n : Node) : Bool :=
  n.element?.any fun (kind, name, _, _) => kind = .regular && rawElements.contains name

/-- Whether a node is an element that is the script of a component, unless it closes itself. -/
def isComponentScript (n : Node) : Bool :=
  n.element?.any fun (kind, name, attributes, _) =>
    kind = .regular && name = "script" && attributes.any givesScriptLanguage

/-- Whether a node is an element that is the style of a component, unless it closes itself. -/
def isStyle (n : Node) : Bool :=
  n.element?.any fun (kind, name, _, _) => kind = .regular && name = "style"

/-- **Whether a node is set apart** when it is printed and read again. -/
def isSetApart (n : Node) : Bool := n.isComponentScript || n.isStyle

def shownContent (name : String) (children : List Node) : List Node :=
  if name ∈ rawElements then [] else normals children

/-- **The face of a node**: of an element its kind, its name, its attributes and its content unless
this is raw text, and of any other node its normal form. -/
def face : Node → Node
  | .element _ kind name attributes children =>
    .element default kind name (attributes.map bare) (shownContent name children)
  | n => n.normal

lemma face_of_element?_eq_some {n : Node} {kind : ElementKind} {name : String}
    {attributes : List Attribute} {children : List Node}
    (h : n.element? = some (kind, name, attributes, children)) :
    n.face = .element default kind name (attributes.map bare)
      (shownContent name children) := by
  cases n
  case element =>
    cases h
    rfl
  all_goals cases h

lemma face_of_element?_eq_none {n : Node} (h : n.element? = none) : n.face = n.normal := by
  cases n
  case element => cases h
  all_goals rfl

lemma element?_normal (n : Node) : n.normal.element? = n.element?.map
    (Prod.map id (Prod.map id (Prod.map (List.map Attribute.normal) normals))) := by
  cases n
  case awaitBlock span e value error pending resolved rejected =>
    unfold normal
    cases pending <;> cases resolved <;> rfl
  all_goals rfl

lemma element?_face (n : Node) : n.face.element? = n.element?.map fun (kind, name, attributes,
    children) => (kind, name, attributes.map bare, shownContent name children) := by
  cases hn : n.element? with
  | none =>
    rw [face_of_element?_eq_none hn, element?_normal, hn]
    rfl
  | some found =>
    rw [face_of_element?_eq_some hn]
    rfl

lemma isText_face (n : Node) : n.face.isText = n.isText := by
  cases n
  case element => rfl
  all_goals exact isText_normal _

lemma opensBrace_face (n : Node) : n.face.opensBrace = n.opensBrace := by
  cases n
  case element => rfl
  all_goals exact opensBrace_normal _

lemma isView_face : IsView face where
  text_iff {span span' data data'} := @IsView.text_iff _ _ isView_normal span span' data data'
  isText_eq h := by rw [← isText_face, h, isText_face]
  opensBrace_eq h := by rw [← opensBrace_face, h, opensBrace_face]

variable {n n' : Node}

lemma face_eq_of_normal_eq (h : n'.normal = n.normal) : n'.face = n.face := by
  have helement := congrArg element? h
  rw [element?_normal, element?_normal] at helement
  cases hn : n.element? with
  | none =>
    rw [hn, Option.map_none, Option.map_eq_none_iff] at helement
    rw [face_of_element?_eq_none hn, face_of_element?_eq_none helement, h]
  | some found =>
    obtain ⟨kind, name, attributes, children⟩ := found
    rw [hn, Option.map_some] at helement
    obtain ⟨⟨kind', name', attributes', children'⟩, hn', heq⟩ := Option.map_eq_some_iff.mp helement
    simp only [Prod.map_apply, id_eq, Prod.mk.injEq] at heq
    obtain ⟨rfl, rfl, hattributes, hchildren⟩ := heq
    have hbare := congrArg (List.map inDoubleQuotes) hattributes
    rw [List.map_map, List.map_map] at hbare
    rw [face_of_element?_eq_some hn, face_of_element?_eq_some hn', shownContent, shownContent,
      hchildren]
    exact congrArg (element default kind' name' · _) hbare

lemma isRawElement_eq (h : n'.face = n.face) : n'.isRawElement = n.isRawElement := by
  have hface (n : Node) : n.face.isRawElement = n.isRawElement := by
    simp [isRawElement, element?_face, Option.any_map]
  rw [← hface, h, hface]

lemma isComponentScript_face (n : Node) : n.face.isComponentScript = n.isComponentScript := by
  simp [isComponentScript, element?_face, Option.any_map, Function.comp_def,
    givesScriptLanguage_bare]

lemma isStyle_face (n : Node) : n.face.isStyle = n.isStyle := by
  simp [isStyle, element?_face, Option.any_map]

lemma isSetApart_face (n : Node) : n.face.isSetApart = n.isSetApart := by
  rw [isSetApart, isSetApart, isComponentScript_face, isStyle_face]

lemma isComponentScript_eq (h : n'.face = n.face) : n'.isComponentScript = n.isComponentScript := by
  rw [← isComponentScript_face, h, isComponentScript_face]

lemma isStyle_eq (h : n'.face = n.face) : n'.isStyle = n.isStyle := by
  rw [← isStyle_face, h, isStyle_face]

lemma isSetApart_eq (h : n'.face = n.face) : n'.isSetApart = n.isSetApart := by
  rw [← isSetApart_face, h, isSetApart_face]

lemma isSetApart_eq_false (h : n.isRawElement = false) : n.isSetApart = false := by
  unfold isRawElement at h
  unfold isSetApart isComponentScript isStyle
  cases hn : n.element? with
  | none => rfl
  | some found =>
    simp only [hn, Option.any_some, rawElements, List.contains_eq_mem, List.mem_cons,
      List.not_mem_nil, or_false, Bool.and_eq_false_iff, decide_eq_false_iff_not, not_or] at h
    rcases h with hkind | ⟨hscript, hstyle⟩
    · simp [hkind]
    · simp [hscript, hstyle]

end Node

/-! ## Nodes that are read again -/

/-- **A text is read as an item** with a property, wherever it stands. -/
def Item.Returns (ctx : MarkupContext) (P : Item → Prop) (cs : List Char) : Prop :=
  ∀ before after : List Char, ∃ found,
    Derives (.item ctx found) ⟨byteLength before, cs ++ after⟩
      ⟨byteLength before + byteLength cs, after⟩ ∧ P found

/-- **A text is read as a node with the same face**, wherever it stands. -/
def Node.Rereads (ctx : MarkupContext) (n : Node) : List Char → Prop :=
  Item.Returns ctx fun found => ∃ n', found.nested = .ok n' ∧ n'.face = n.face

def RawElement.Returns (ctx : MarkupContext) (P : RawElement → Prop) : List Char → Prop :=
  Item.Returns ctx fun found => ∃ element, found = .raw element ∧ P element

def Import.Returns (ctx : MarkupContext) : List Char → Prop :=
  Item.Returns ctx fun found => ∃ tag, found = .importTag tag

namespace MarkupGrammar

variable {ctx : MarkupContext} {cur next : Cursor}

lemma ReadsAttributes.exists_slash {found : List Attribute} {selfClosing : Bool}
    (h : ReadsAttributes cur found selfClosing next) (hself : selfClosing = true) :
    ∃ part, cur.Reads (part ++ ['/', '>']) next := by
  induction h with
  | @selfClosing cur hend =>
    obtain ⟨part, hblanks⟩ := cur.reaches_skipBlanks
    obtain ⟨rest, hrest⟩ := List.isPrefixOf_iff_prefix.mp hend
    have hslash : cur.skipBlanks.Reads ['/', '>'] (cur.skipBlanks.skip 2) :=
      Cursor.reads_of_rest hrest.symm
    exact ⟨part, hblanks.trans hslash⟩
  | close _ => cases hself
  | @cons cur after next _ _ _ hfirst _ ih =>
    obtain ⟨blanks, hblanks⟩ := cur.reaches_skipBlanks
    obtain ⟨first, hfirst⟩ := hfirst.reaches
    obtain ⟨part, hpart⟩ := ih hself
    refine ⟨blanks ++ (first ++ part), ?_⟩
    have hall := hblanks.trans (hfirst.trans hpart)
    rwa [← List.append_assoc, ← List.append_assoc, List.append_assoc blanks] at hall

lemma exists_slash_of_item (h : Derives (.item ctx (.node n)) cur next)
    (hn : n.isRawElement = true) : ∃ part, cur.Reads (part ++ ['/', '>']) next := by
  cases h with
  | inlineTag _ htag => cases htag <;> cases hn
  | @complete _ tag _ _ _ _ _ _ htag hcomplete =>
    obtain ⟨kind, name, found, selfClosing⟩ := tag
    cases kind
    case regular =>
      have hname : name ∈ rawElements := by simpa [isRawElement, element?] using hn
      have hself : selfClosing = true := by
        simpa [OpeningTag.isComplete, isVoid_of_mem_rawElements hname] using hcomplete
      obtain ⟨-, -, hattributes⟩ := (gives_openingTag_iff rfl).mp htag
      obtain ⟨part, hpart⟩ := (readsAttributes_of_gives hattributes).exists_slash hself
      have hall := (cur.reads_skip _).trans hpart
      rw [← List.append_assoc] at hall
      exact ⟨_, hall⟩
    all_goals cases hn
  | @element _ tag _ _ _ _ _ _ _ _ _ _ _ hraw _ _ =>
    obtain ⟨kind, name, found, selfClosing⟩ := tag
    cases kind
    case regular =>
      have hname : name ∈ rawElements := by simpa [isRawElement, element?] using hn
      simp [OpeningTag.isRaw, hname] at hraw
    all_goals cases hn
  | _ => cases hn

end MarkupGrammar

/-! ## Documents that end with a closing tag -/

namespace Doc

lemma fills_any (doc : Doc) : doc.Fills fun _ => True := by
  intro w _ hstart
  obtain ⟨added, hadded⟩ := exists_written_write doc w
  refine ⟨added.reverse ++ if (doc.write w).atLineStart then (doc.write w).indentation else [], ?_,
    trivial⟩
  rw [Writer.front_of_not_atLineStart hstart, Writer.front, hadded, List.reverse_append,
    List.append_assoc]

/-- **A document leads with a character** where it starts no line. -/
def Leads (doc : Doc) (c : Char) : Prop :=
  ∀ w : Writer, w.atLineStart = false → ∃ added, (doc.write w).written = added ++ c :: w.written

section Leads

variable {doc : Doc} {c : Char}

lemma leads_text {text : String} {cs : List Char} (htext : text.toList = c :: cs) :
    (Doc.text text).Leads c := by
  intro w hstart
  rw [write_text, Writer.add_of_not_atLineStart hstart, htext]
  simp

lemma Leads.append (h : doc.Leads c) (later : Doc) : (doc ++ later).Leads c := by
  intro w hstart
  obtain ⟨added, hadded⟩ := h w hstart
  obtain ⟨more, hmore⟩ := exists_written_write later (doc.write w)
  exact ⟨more ++ added, by rw [write_append, hmore, hadded, List.append_assoc]⟩

lemma Leads.nest (h : doc.Leads c) : (nest doc).Leads c := fun w hstart => h w.indent hstart

lemma Leads.fills (h : doc.Leads c) : doc.Fills (·.head? = some c) := by
  intro w _ hstart
  obtain ⟨added, hadded⟩ := h w hstart
  rw [Writer.front_of_not_atLineStart hstart, Writer.front, hadded]
  simp

end Leads

end Doc

variable {ctx : MarkupContext} {p : Printing} {n : Node} {breaks : Breaks}

lemma Node.sets_closingTag (hn : n.isRawElement = true) :
    (n.doc p).Sets fun cs => ∃ front c, cs = front ++ [c, '>'] ∧ c ≠ '/' := by
  cases n
  case element span kind name attributes children =>
    cases kind
    case regular =>
      have hname : name ∈ rawElements := by simpa [isRawElement, element?] using hn
      simp only [rawElements, List.mem_cons, List.not_mem_nil, or_false] at hname
      rcases hname with rfl | rfl
      · refine (sets_between (by decide) (by decide) (by decide) (by decide)
          (fills_any _) (fills_any _)).mono ?_
        rintro _ ⟨inner, code, rfl, -, -⟩
        exact ⟨"<script".toList ++ (inner ++ ('>' :: (code ++ "</scrip".toList))), 't', by simp,
          by decide⟩
      · refine (sets_between (by decide) (by decide) (by decide) (by decide)
          (fills_any _) (fills_any _)).mono ?_
        rintro _ ⟨inner, code, rfl, -, -⟩
        exact ⟨"<style".toList ++ (inner ++ ('>' :: (code ++ "</styl".toList))), 'e', by simp,
          by decide⟩
    all_goals cases hn
  all_goals cases hn

lemma RawElement.isComponentScript_toNode (element : RawElement) :
    element.toNode.isComponentScript = element.isComponentScript := by
  simp [Node.isComponentScript, Node.element?, RawElement.toNode, RawElement.isComponentScript]

lemma RawElement.isStyle_toNode (element : RawElement) :
    element.toNode.isStyle = element.isStyle := by
  simp [Node.isStyle, Node.element?, RawElement.toNode, RawElement.isStyle]

lemma RawElement.standsAs_iff (element : RawElement) :
    (Item.raw element).StandsAs element.toNode none ↔ element.toNode.isSetApart = false := by
  rw [isSetApart, element.isComponentScript_toNode, element.isStyle_toNode,
    Bool.or_eq_false_iff]
  refine Item.topLevel_eq_ok_iff.trans ⟨?_, fun ⟨hscript, hstyle⟩ => .raw hscript hstyle⟩
  intro h
  cases h with
  | raw hscript hstyle => exact ⟨hscript, hstyle⟩

/-- **A node that is read again stands among the nodes** exactly if it is not set apart. -/
theorem Node.returns_of_rereads (h : (n.doc p).Sets (n.Rereads ctx)) :
    (n.doc p).Sets (Returns ctx face isSetApart n) := by
  -- only a tag that closes itself keeps an element with raw text among the nodes
  have hclosing : (n.doc p).Sets fun cs =>
      n.isRawElement = true → ∃ front c, cs = front ++ [c, '>'] ∧ c ≠ '/' := by
    cases hn : n.isRawElement with
    | true => exact (sets_closingTag hn).mono fun cs hcs _ => hcs
    | false => exact h.mono fun cs _ hraw => by cases hraw
  refine (h.and hclosing).mono ?_
  rintro cs ⟨hreads, hclosing⟩ before after
  obtain ⟨found, hitem, n', hfound, hface⟩ := hreads before after
  refine ⟨found, n', hitem, hfound, hface, ?_⟩
  cases found with
  | node m =>
    cases hfound
    have hraw : n.isRawElement = false := by
      rw [← Bool.not_eq_true]
      intro hraw
      obtain ⟨front, c, hcs, hc⟩ := hclosing hraw
      obtain ⟨part, hpart⟩ := exists_slash_of_item hitem ((isRawElement_eq hface).trans hraw)
      have heq : front ++ [c, '>'] = part ++ ['/', '>'] := by
        rw [← hcs]
        exact List.append_cancel_right hpart.rest_eq
      have hend := (List.append_inj' heq rfl).2
      exact hc (by simpa using hend)
    exact ⟨fun _ => isSetApart_eq_false hraw, fun _ => rfl⟩
  | importTag tag => cases hfound
  | raw element =>
    cases hfound
    rw [element.standsAs_iff, isSetApart_eq hface]

/-! ## Elements with raw text -/

lemma beforeText?_append_self (hc : c ∉ cs) (hbefore : ¬ c :: cs <:+: before) (rest : List Char) :
    beforeText? (c :: cs) (before ++ (c :: cs ++ rest)) = some before := by
  induction before with
  | nil => simp [beforeText?, List.isPrefixOf_iff_prefix]
  | cons d before ih =>
    have hstart : ¬ (c :: cs).isPrefixOf (d :: before ++ (c :: cs ++ rest)) = true := by
      intro h
      -- an occurrence that reaches the character holds it a second time
      have hword : d :: before ++ [c] <+: d :: before ++ (c :: cs ++ rest) := ⟨cs ++ rest, by simp⟩
      have htwice : ¬ before ++ [c] <+: cs := fun h => hc (h.subset (by simp))
      rcases List.prefix_or_prefix_of_prefix (List.isPrefixOf_iff_prefix.mp h) hword with h | h
      · rcases List.prefix_concat_iff.mp h with h | h
        · exact htwice ⟨[], by simpa using (List.cons.inj h).2.symm⟩
        · exact hbefore h.isInfix
      · exact htwice (List.cons_prefix_cons.mp h).2
    rw [List.cons_append] at hstart ⊢
    rw [beforeText?, if_neg hstart, ih fun h => hbefore (List.infix_cons h)]
    rfl

namespace MarkupGrammar

lemma lt_not_mem_closing (h : name ∈ rawElements) :
    ∃ cs, ("</" ++ name ++ ">").toList = '<' :: cs ∧ '<' ∉ cs := by
  simp only [rawElements, List.mem_cons, List.not_mem_nil, or_false] at h
  rcases h with rfl | rfl
  · exact ⟨"/script>".toList, by decide, by decide⟩
  · exact ⟨"/style>".toList, by decide, by decide⟩

variable {ctx : MarkupContext} {name : String} {offset : Nat}

lemma exists_gives_rawContent (hname : name ∈ rawElements)
    (hcode : ¬ ("</" ++ name ++ ">").toList <:+: code) (offset : Nat) (after : List Char) :
    ∃ codeSpan, Gives (rawContent name ⟨offset, code ++ (("</" ++ name ++ ">").toList ++ after)⟩)
      (code, codeSpan) ⟨offset + byteLength (code ++ ("</" ++ name ++ ">").toList), after⟩ := by
  obtain ⟨cs, hcs, hlt⟩ := lt_not_mem_closing hname
  have hbefore : beforeText? ("</" ++ name ++ ">").toList
      (code ++ (("</" ++ name ++ ">").toList ++ after)) = some code := by
    rw [hcs] at hcode ⊢
    exact beforeText?_append_self hlt hcode after
  have hskip := Cursor.skip_append offset (code ++ ("</" ++ name ++ ">").toList) after
  rw [List.append_assoc, List.length_append] at hskip
  unfold rawContent
  simp only [Cursor.until?, hbefore, hskip]
  exact ⟨_, _, rfl⟩

end MarkupGrammar

/-- **The text of an element with raw text is read as this element.** -/
theorem MarkupGrammar.returns_raw {name : String} (hname : name ∈ rawElements)
    {attributes : List Attribute} {inner code : List Char}
    (hinner : Return attributes inner) (hhead : inner.head?.any isTagNameChar = false)
    (hcode : ¬ ("</" ++ name ++ ">").toList <:+: code) :
    RawElement.Returns ctx (fun element => element.name = name ∧
        element.attributes.map bare = attributes.map bare ∧
        element.code = code)
      (("<" ++ name).toList ++ (inner ++ ('>' :: (code ++ ("</" ++ name ++ ">").toList)))) := by
  intro before after
  have helement := isElementName_of_mem_rawElements hname ctx
  generalize hend : ("</" ++ name ++ ">").toList = closing
  generalize hcs : ("<" ++ name).toList ++ (inner ++ ('>' :: (code ++ closing))) = cs
  obtain ⟨found, htag, hbare⟩ :=
    hinner.exists_gives_openingTag helement hhead .nil false before (code ++ (closing ++ after))
  obtain ⟨codeSpan, hraw⟩ := exists_gives_rawContent hname hcode
    (byteLength before + byteLength (("<" ++ name).toList ++ (inner ++ ([] ++ tagEnd false)))) after
  -- where the parts of the text stand
  have hrest : cs ++ after = ("<" ++ name).toList ++ (inner ++ ([] ++ (tagEnd false ++
      (code ++ (closing ++ after))))) := by
    rw [← hcs]
    simp [tagEnd]
  have hstop : byteLength before + byteLength (("<" ++ name).toList ++ (inner ++ ([] ++
      tagEnd false))) + byteLength (code ++ closing) = byteLength before + byteLength cs := by
    rw [Nat.add_assoc, ← byteLength_append, ← hcs]
    simp [tagEnd]
  rw [hend, hstop] at hraw
  rw [← hrest] at htag
  obtain ⟨c, letters, hletters, hc⟩ := helement.exists_cons
  have hcomplete : (⟨.regular, name, found, false⟩ : OpeningTag).isComplete = false := by
    simp [OpeningTag.isComplete, isVoid_of_mem_rawElements hname]
  have hisRaw : (⟨.regular, name, found, false⟩ : OpeningTag).isRaw = true := by
    simp [OpeningTag.isRaw, hname]
  exact ⟨_, .raw (hrest.trans (openName_eq hletters _)) hc htag hcomplete hisRaw hraw, _, rfl, rfl,
    hbare, rfl⟩

lemma fills_spacedAttributes (breaks : Breaks) (attributes : List Attribute) :
    (concat (attributes.map fun a => " " ++ a.doc breaks)).Fills
      (·.head?.any isTagNameChar = false) := by
  cases attributes with
  | nil => exact lays_empty.fills.mono fun cs hcs => by simp [hcs]
  | cons a attributes =>
    have hleads := ((@leads_text ' ' " " [] rfl).append (a.doc breaks)).append
      (concat (attributes.map fun a => " " ++ a.doc breaks))
    exact hleads.fills.mono fun cs hcs => by simp [hcs, isTagNameChar, Text.isBlank]

lemma fills_attributesDoc (breaks : Breaks) (start : Nat) (name : String)
    (attributes : List Attribute) : (attributesDoc breaks start name attributes).Fills
      (·.head?.any isTagNameChar = false) := by
  unfold attributesDoc
  split
  · cases attributes with
    | nil => cases ‹wrapsAttributes breaks start name [] = true›
    | cons a attributes =>
      have hleads := ((((@leads_text '\n' "\n" [] rfl).append (a.doc breaks)).append
        (wrappedAttributes breaks (some a) attributes)).nest).append Doc.line
      exact hleads.fills.mono fun cs hcs => by simp [hcs, isTagNameChar, Text.isBlank]
  · exact fills_spacedAttributes breaks attributes

/-! ## The script and the style of a component -/

/-- The attribute `lang="zs"`. -/
def scriptLanguage : Attribute := .plain default "lang" (some [.text "zs"]) true

def ScriptBlock.codeDoc (breaks : Breaks) (block : ScriptBlock) : Doc :=
  .onlyIf (!block.body.isEmpty) (.nest (Statement.linesDoc breaks block.body) ++ line)

def StyleBlock.attributesDoc (breaks : Breaks) (block : StyleBlock) : Doc :=
  .concat (block.attributes.map fun a => " " ++ a.doc breaks)

def StyleNode.codeDoc (sheet : List StyleNode) : Doc :=
  .onlyIf (!sheet.isEmpty) (line ++ .nest (StyleNode.sheetDoc sheet) ++ line)

/-- **Code that can stand in a script**: it is read as statements wherever it stands, and does not
hold the closing tag. -/
structure IsScriptCode (code : List Char) : Prop where
  not_closing : ¬ "</script>".toList <:+: code
  reads : ∀ offset, ∃ body, Statement.ofCursor ⟨offset, code⟩ = .ok body

/-- **A script is printed as an element whose only attribute is its language.** -/
theorem ScriptBlock.sets_returns {block : ScriptBlock}
    (hcode : (block.codeDoc breaks).Fills IsScriptCode) :
    (block.doc breaks).Sets (RawElement.Returns ctx fun element =>
      element.isComponentScript = true ∧ element.attributes.map bare = [scriptLanguage] ∧
      ∃ body, Statement.ofCursor element.cursor = .ok body) := by
  have hall := ((sets_text "<script lang=\"zs\">" (by decide) (by decide)).fills hcode).sets
    (sets_text "</script>" (by decide) (by decide))
  refine Sets.mono hall ?_
  rintro _ ⟨_, _, rfl, ⟨_, code, rfl, rfl, hcode⟩, rfl⟩ before after
  have hattributes : Return [scriptLanguage] " lang=\"zs\"".toList :=
    @return_of_isTextual [scriptLanguage] "" (by decide) breaks .nil 0 [0] rfl
  obtain ⟨_, hitem, element, rfl, hname, hbare, rfl⟩ := @returns_raw ctx "script" (by decide) _ _ _
    hattributes (by simp [isTagNameChar, Text.isBlank]) hcode.not_closing before after
  refine ⟨_, by simpa using hitem, element, rfl, ?_, hbare, hcode.reads _⟩
  have hscript : (element.attributes.map bare).any givesScriptLanguage =
      true := by
    rw [hbare]
    rfl
  simp only [List.any_map, Function.comp_def, givesScriptLanguage_bare] at hscript
  simp [RawElement.isComponentScript, hname, hscript]

lemma StyleBlock.sets_returns {block : StyleBlock} {sheet : List StyleNode}
    (hattributes : (block.attributesDoc breaks).Fills (Return block.attributes))
    (hcode : (StyleNode.codeDoc sheet).Fills (¬ "</style>".toList <:+: ·)) :
    (block.doc breaks sheet).Sets (RawElement.Returns ctx fun element => element.isStyle = true ∧
      element.attributes.map bare = block.attributes.map bare) := by
  have hall := @sets_between _ _ "<style" "</style>" _ _ (by decide) (by decide) (by decide)
    (by decide) (hattributes.and (fills_spacedAttributes breaks block.attributes)) hcode
  refine Sets.mono hall ?_
  rintro _ ⟨inner, code, rfl, ⟨hinner, hhead⟩, hcode⟩ before after
  obtain ⟨_, hitem, element, rfl, hname, hbare, -⟩ := @returns_raw ctx "style" (by decide) _ _ _
    hinner hhead hcode before after
  exact ⟨_, hitem, element, rfl, by simp [RawElement.isStyle, hname], hbare⟩

end ComponentTemplate
