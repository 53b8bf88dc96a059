import ComponentTemplate.Proofs.Attributes
import ComponentTemplate.Proofs.Siblings

/-!
# Printing and reading elements

An element is printed as a tag that closes itself, or as its content between an opening and a
closing tag. Both are read as the same element if its attributes and its content are, wherever they
stand. Comments are kept too.
-/

namespace ComponentTemplate

open MarkupGrammar Node Text Cursor Attribute

/-! ## Names of elements -/

/-- **A name of elements of a kind**, in their surroundings. -/
structure IsElementName (ctx : MarkupContext) (kind : ElementKind) (name : String) : Prop where
  head : name.toList.head?.any Char.isAlpha = true
  isTagNameChar : ∀ c ∈ name.toList, isTagNameChar c = true
  kind_eq : elementKind ctx name.toList = .ok kind

namespace MarkupGrammar

variable {ctx : MarkupContext} {cur next : Cursor} {tag : OpeningTag}

lemma gives_openingTag_iff (hname : (cur.skip 1).run isTagNameChar = name) :
    Gives (openingTag ctx cur) tag next ↔
      elementKind ctx name = .ok tag.kind ∧ tag.name = String.ofList name ∧
        Gives (attributes tag.name (cur.skip (1 + name.length))) (tag.attributes, tag.selfClosing)
          next := by
  subst hname
  unfold openingTag
  obtain ⟨kind, name, found, selfClosing⟩ := tag
  cases hkind : elementKind ctx ((cur.skip 1).run isTagNameChar) with
  | error cause =>
    simp only [hkind, reduceCtorEq, false_and, iff_false]
    exact not_gives_error
  | ok kind' =>
    simp only [hkind, Except.mapError, ok_bind, gives_bind, gives_pure, Except.ok.injEq,
      OpeningTag.mk.injEq]
    constructor
    · rintro ⟨⟨_, _⟩, _, hattributes, ⟨rfl, rfl, rfl, rfl⟩, rfl⟩
      exact ⟨rfl, rfl, hattributes⟩
    · rintro ⟨rfl, rfl, hattributes⟩
      exact ⟨_, _, hattributes, ⟨rfl, rfl, rfl, rfl⟩, rfl⟩

lemma isTagNameChar_of_isAlpha (h : c.isAlpha = true) : isTagNameChar c = true := by
  have hslash := (ne_of_isAlpha h).2
  have hend : c ≠ '>' := by
    rintro rfl
    cases h
  simp [isTagNameChar, isBlank_eq_false_of_isAlpha h, hslash, hend]

lemma isElementName_of_gives (hrest : cur.rest = '<' :: c :: cs) (hc : c.isAlpha = true)
    (htag : Gives (openingTag ctx cur) tag next) : IsElementName ctx tag.kind tag.name := by
  obtain ⟨hkind, hname, -⟩ := (gives_openingTag_iff rfl).mp htag
  rw [run, rest_skip, hrest, List.drop_one, List.tail_cons] at hkind hname
  rw [List.takeWhile_cons_of_pos (isTagNameChar_of_isAlpha hc)] at hkind hname
  refine ⟨?_, fun d hd => ?_, ?_⟩
  · simpa [hname] using hc
  · rw [hname, String.toList_ofList] at hd
    rcases List.mem_cons.mp hd with rfl | hd
    · exact isTagNameChar_of_isAlpha hc
    · exact List.mem_takeWhile_imp hd
  · rw [hname, String.toList_ofList]
    exact hkind

lemma eq_title_of_elementKind (h : elementKind ctx name.toList = .ok .title) : name = "title" := by
  unfold elementKind at h
  dsimp only at h
  split at h
  · -- no special element is a title
    unfold specialKind? at h
    split at h
    · rename_i heq
      split at heq <;> cases heq <;> cases h
    · cases h
  · split at h
    · cases h
    · split at h
      · rename_i hname
        exact String.toList_inj.mp hname.1
      · cases h

/-! ## Tags of elements -/

def tagEnd (closes : Bool) : List Char := if closes then "/>".toList else ">".toList

lemma gives_attributes_tagEnd (tag : String) (offset : Nat) (hblanks : Blank blanks)
    (closes : Bool) (rest : List Char) :
    Gives (attributes tag ⟨offset, blanks ++ (tagEnd closes ++ rest)⟩) ([], closes)
      ⟨offset + byteLength blanks + byteLength (tagEnd closes), rest⟩ := by
  have hhere : (⟨offset, blanks ++ (tagEnd closes ++ rest)⟩ : Cursor).skipBlanks =
      ⟨offset + byteLength blanks, tagEnd closes ++ rest⟩ :=
    skipBlanks_append hblanks (by cases closes <;> simp [tagEnd, Text.isBlank]) offset
  refine (gives_attributes_iff hhere).mpr (gives_attributesHere_iff.mpr ?_)
  cases closes with
  | true => exact .inl ⟨rfl, rfl, rfl, rfl⟩
  | false => exact .inr (.inl ⟨rfl, rfl, rfl, rfl⟩)

variable {kind : ElementKind} {name : String} {offset : Nat} {rest : List Char}

lemma run_name (h : IsElementName ctx kind name) (hrest : rest.head?.any isTagNameChar = false)
    (n : Nat) (before : List Char) (hn : n = before.length) :
    ((⟨offset, before ++ (name.toList ++ rest)⟩ : Cursor).skip n).run isTagNameChar =
      name.toList := by
  subst hn
  rw [skip_append, run]
  refine takeWhile_append_of_all h.isTagNameChar fun c hc => ?_
  rw [Option.mem_def] at hc
  simpa [hc] using hrest

lemma gives_openingTag_of_attributes (h : IsElementName ctx kind name)
    (hrest : rest.head?.any isTagNameChar = false)
    (hattributes : Gives (attributes name ⟨offset + byteLength ("<".toList ++ name.toList), rest⟩)
      (found, selfClosing) next) :
    Gives (openingTag ctx ⟨offset, "<".toList ++ (name.toList ++ rest)⟩)
      ⟨kind, name, found, selfClosing⟩ next := by
  refine (gives_openingTag_iff (run_name h hrest 1 "<".toList rfl)).mpr
    ⟨h.kind_eq, String.ofList_toList.symm, ?_⟩
  rw [← List.append_assoc, show 1 + name.toList.length = ("<".toList ++ name.toList).length by
    simp [Nat.add_comm], skip_append]
  exact hattributes

lemma gives_closingTag (h : IsElementName ctx kind name) :
    Gives (closingTag name ⟨offset, "</".toList ++ (name.toList ++ ('>' :: rest))⟩) ()
      ⟨offset + (byteLength name.toList + 3), rest⟩ := by
  have hrun : ((⟨offset, "</".toList ++ (name.toList ++ ('>' :: rest))⟩ : Cursor).skip 2).run
      isTagNameChar = name.toList :=
    run_name h (by simp [isTagNameChar]) 2 "</".toList rfl
  have hskip : (⟨offset, "</".toList ++ (name.toList ++ ('>' :: rest))⟩ : Cursor).skip
      (2 + name.toList.length) = ⟨offset + (2 + byteLength name.toList), '>' :: rest⟩ := by
    rw [← List.append_assoc, show 2 + name.toList.length = ("</".toList ++ name.toList).length by
      rw [List.length_append]; rfl, skip_append, byteLength_append]
    rfl
  have hblanks := @skipBlanks_append [] ('>' :: rest) (by simp) (by simp [Text.isBlank])
    (offset + (2 + byteLength name.toList))
  rw [List.nil_append, byteLength_nil, Nat.add_zero] at hblanks
  unfold closingTag
  dsimp only
  split
  · rw [if_pos hrun]
    have hend : (⟨offset + (2 + byteLength name.toList), '>' :: rest⟩ : Cursor).skip 1 =
        ⟨offset + (byteLength name.toList + 3), rest⟩ := by
      rw [show '>' :: rest = ['>'] ++ rest from rfl]
      rw [show (1 : Nat) = ['>'].length from rfl, skip_append]
      simp only [byteLength_cons, byteLength_nil, mk.injEq, and_true]
      have : Char.utf8Size '>' = 1 := rfl
      omega
    refine ⟨by simp [remaining]; omega, ?_⟩
    simp only [hrun, hskip, hblanks, hend]
  · rename_i hne
    rw [hrun, hskip, hblanks] at hne
    exact absurd rfl (hne _)

end MarkupGrammar

/-! ## Texts that are read as attributes -/

namespace Attribute

def inDoubleQuotes : Attribute → Attribute
  | .plain span name value _ => .plain span name value true
  | a => a

/-- **An attribute, without its place and its quotes.** -/
def bare (a : Attribute) : Attribute := a.normal.inDoubleQuotes

/-- **A text is read as attributes** where no others follow, wherever it stands. -/
def Return (attributes : List Attribute) (cs : List Char) : Prop :=
  ∀ (tag : String) (before rest : List Char) (selfClosing : Bool) (next : Cursor),
    Gives (MarkupGrammar.attributes tag ⟨byteLength before + byteLength cs, rest⟩) ([], selfClosing)
      next →
    ∃ found, Gives (MarkupGrammar.attributes tag ⟨byteLength before, cs ++ rest⟩) (found, selfClosing)
      next ∧ found.map bare = attributes.map bare

lemma Return.nil : Return [] [] := fun _ _ _ _ _ hend => ⟨[], by simpa using hend, rfl⟩

/-- **An opening tag is read with the attributes of its text**, up to its end. -/
theorem Return.exists_gives_openingTag {attributes : List Attribute} {inner : List Char}
    (h : Return attributes inner) {ctx : MarkupContext} {kind : ElementKind} {name : String}
    (hname : IsElementName ctx kind name) (hhead : inner.head?.any isTagNameChar = false)
    {blanks : List Char} (hblanks : Blank blanks) (closes : Bool) (before rest : List Char) :
    ∃ found, Gives (openingTag ctx ⟨byteLength before,
          ("<" ++ name).toList ++ (inner ++ (blanks ++ (tagEnd closes ++ rest)))⟩)
        ⟨kind, name, found, closes⟩
        ⟨byteLength before + byteLength (("<" ++ name).toList ++ (inner ++ (blanks ++
          tagEnd closes))), rest⟩ ∧
      found.map bare = attributes.map bare := by
  have hend := gives_attributes_tagEnd name
    (byteLength (before ++ ("<" ++ name).toList) + byteLength inner) hblanks closes rest
  obtain ⟨found, hfound, hbare⟩ := h name _ _ closes _ hend
  refine ⟨found, ?_, hbare⟩
  rw [byteLength_append, String.toList_append] at hfound
  rw [String.toList_append, byteLength_append, byteLength_append inner, byteLength_append blanks,
    ← Nat.add_assoc, ← Nat.add_assoc, ← Nat.add_assoc, List.append_assoc]
  refine gives_openingTag_of_attributes hname ?_ hfound
  cases inner with
  | cons c inner => exact hhead
  | nil =>
    cases blanks with
    | nil => cases closes <;> simp [tagEnd, isTagNameChar]
    | cons c blanks => simp [isTagNameChar, hblanks c (List.mem_cons_self ..)]

end Attribute

/-! ## Elements as documents -/

lemma Doc.sets_textBetween (front middle back : String)
    (hhead : front.toList.head?.any (· != '\n') = true)
    (hlast : back.toList.getLast?.any (· != '\n') = true) :
    (Doc.text (front ++ middle ++ back)).Sets (· = (front ++ middle ++ back).toList) := by
  refine Doc.sets_text _ ?_ ?_
  · rw [String.toList_append, String.toList_append, List.append_assoc, List.head?_append]
    cases h : front.toList.head? with
    | none => simp [h] at hhead
    | some c => simpa [h] using hhead
  · cases h : back.toList.getLast? with
    | none => simp [h] at hlast
    | some c => simpa [h] using hlast

/-- **Whether an element is printed as one tag**, by whether it has content. -/
def closesItself (kind : ElementKind) (name : String) (isEmpty : Bool) : Bool :=
  match kind with
  | .regular => isVoid name
  | .title => false
  | _ => isEmpty

section Elements

variable {ctx : MarkupContext} {p : Printing} {kind : ElementKind} {name : String}
  {attributes : List Attribute} {children : List Node} {span : Span}

lemma getLast?_openName (h : IsElementName ctx kind name) :
    ("<" ++ name).toList.getLast?.any (· != '\n') = true := by
  rw [String.toList_append, List.getLast?_append]
  cases hlast : name.toList.getLast? with
  | none => rfl
  | some c =>
    have hc := h.isTagNameChar c (List.mem_of_getLast? hlast)
    simp only [Option.some_or, Option.any_some, bne_iff_ne, ne_eq]
    rintro rfl
    simp [isTagNameChar, Text.isBlank] at hc

lemma scriptCode?_eq_none (hname : name ∉ rawElements) : scriptCode? name children = none := by
  have hscript : name ≠ "script" := by
    rintro rfl
    exact hname (by decide)
  unfold scriptCode?
  split
  · simp [hscript]
  · rfl

def Node.contentDoc (p : Printing) (name : String) (children : List Node) : Doc :=
  ((scriptCode? name children).map (scriptDoc p.script)).getD (.fragment (siblings p children))

lemma Node.contentDoc_eq (hname : name ∉ rawElements) :
    contentDoc p name children = .fragment (siblings p children) := by
  rw [contentDoc, scriptCode?_eq_none hname]
  rfl

lemma isElementName_of_mem_rawElements (h : name ∈ rawElements) (ctx : MarkupContext) :
    IsElementName ctx .regular name := by
  simp only [rawElements, List.mem_cons, List.not_mem_nil, or_false] at h
  rcases h with rfl | rfl
  · have halpha : ∀ c ∈ "script".toList, c.isAlpha = true := by simp
    exact ⟨by decide, fun c hc => isTagNameChar_of_isAlpha (halpha c hc), rfl⟩
  · have halpha : ∀ c ∈ "style".toList, c.isAlpha = true := by simp
    exact ⟨by decide, fun c hc => isTagNameChar_of_isAlpha (halpha c hc), rfl⟩

lemma IsElementName.kind_eq_regular (h : IsElementName ctx kind name) (hname : name ∈ rawElements) :
    kind = .regular :=
  Except.ok.inj (h.kind_eq.symm.trans (isElementName_of_mem_rawElements hname ctx).kind_eq)

/-- **An element is printed as one tag, or as its content between two tags.** -/
theorem Node.doc_element (h : IsElementName ctx kind name) :
    (element span kind name attributes children).doc p =
      if closesItself kind name (normals children).isEmpty then
        Doc.text ("<" ++ name) ++ attributesDoc p.breaks span.start name attributes ++
          Doc.onlyIf (!wrapsAttributes p.breaks span.start name attributes) " " ++ Doc.text "/>"
      else
        Doc.text ("<" ++ name) ++ attributesDoc p.breaks span.start name attributes ++
          Doc.text ">" ++ contentDoc p name children ++ Doc.text ("</" ++ name ++ ">") := by
  by_cases hname : name ∈ rawElements
  · obtain rfl := h.kind_eq_regular hname
    rfl
  · rw [doc, scriptCode?_eq_none hname, contentDoc_eq hname, ← isEmptyFragment_eq p]
    cases kind with
    | title =>
      obtain rfl := eq_title_of_elementKind h.kind_eq
      rfl
    | regular | component | specialSelf | specialHead | specialElement | specialComponent => rfl

lemma Doc.sets_between {P Q : List Char → Prop} {front back : String} {attributes content : Doc}
    (hhead : front.toList.head?.any (· != '\n') = true)
    (hlast : front.toList.getLast?.any (· != '\n') = true)
    (hhead' : back.toList.head?.any (· != '\n') = true)
    (hlast' : back.toList.getLast?.any (· != '\n') = true)
    (hattributes : attributes.Fills P) (hcontent : content.Fills Q) :
    (Doc.text front ++ attributes ++ Doc.text ">" ++ content ++ Doc.text back).Sets fun cs =>
      ∃ inner code, cs = front.toList ++ (inner ++ ('>' :: (code ++ back.toList))) ∧
        P inner ∧ Q code := by
  have hopening := ((sets_text front hhead hlast).fills hattributes).sets
    (sets_text ">" (by decide) (by decide))
  refine ((hopening.fills hcontent).sets (sets_text back hhead' hlast')).mono ?_
  rintro _ ⟨_, _, rfl, ⟨_, code, rfl, ⟨_, _, rfl, ⟨_, inner, rfl, rfl, hinner⟩, rfl⟩, hcode⟩, rfl⟩
  exact ⟨inner, code, by simp, hinner, hcode⟩

lemma Node.sets_element (h : IsElementName ctx kind name)
    (hattributes : (attributesDoc p.breaks span.start name attributes).Fills P)
    (hcontent : (contentDoc p name children).Fills Q) :
    ((element span kind name attributes children).doc p).Sets fun cs =>
      if closesItself kind name (normals children).isEmpty then
        ∃ inner blanks, cs = ("<" ++ name).toList ++ (inner ++ (blanks ++ "/>".toList)) ∧
          P inner ∧ Blank blanks
      else
        ∃ inner code, cs = ("<" ++ name).toList ++ (inner ++ ('>' ::
          (code ++ ("</" ++ name ++ ">").toList))) ∧ P inner ∧ Q code := by
  have hopening : ("<" ++ name).toList.head?.any (· != '\n') = true := by
    rw [String.toList_append]
    rfl
  rw [doc_element h]
  split
  · have hspace : (Doc.onlyIf (!wrapsAttributes p.breaks span.start name attributes) " ").Lays
        Blank := by
      cases wrapsAttributes p.breaks span.start name attributes
      · exact (Doc.sets_text " " (by decide) (by decide)).lays.mono fun cs hcs => by
          simp [hcs, Blank, Text.isBlank]
      · exact Doc.lays_empty.mono fun cs hcs => hcs ▸ .nil
    have hname := Doc.sets_text ("<" ++ name) hopening (getLast?_openName h)
    have hall := (hname.fills (hattributes.append hspace)).sets
      (Doc.sets_text "/>" (by decide) (by decide))
    refine (hall.mono ?_).congr fun w => rfl
    rintro _ ⟨_, _, rfl, ⟨_, _, rfl, rfl, inner, blanks, rfl, hinner, hblanks⟩, rfl⟩
    exact ⟨inner, blanks, by simp, hinner, hblanks⟩
  · have hclosing : ("</" ++ name ++ ">").toList.head?.any (· != '\n') = true := by
      rw [String.append_assoc, String.toList_append]
      rfl
    have hlast : ("</" ++ name ++ ">").toList.getLast?.any (· != '\n') = true := by
      rw [String.toList_append, List.getLast?_append]
      rfl
    exact Doc.sets_between hopening (getLast?_openName h) hclosing hlast hattributes hcontent

/-! ## Reading elements again -/

lemma IsElementName.exists_cons (h : IsElementName ctx kind name) :
    ∃ c cs, name.toList = c :: cs ∧ c.isAlpha = true := by
  have hhead := h.head
  cases hname : name.toList with
  | nil => simp [hname] at hhead
  | cons c cs => exact ⟨c, cs, rfl, by simpa [hname] using hhead⟩

lemma openName_eq (hname : name.toList = c :: cs) (rest : List Char) :
    ("<" ++ name).toList ++ rest = '<' :: c :: (cs ++ rest) := by
  rw [String.toList_append, hname]
  rfl

namespace Node

variable {inner : List Char} (h : IsElementName ctx kind name)
  (hinner : Return attributes inner) (hhead : inner.head?.any isTagNameChar = false)
include h hinner hhead

lemma exists_derives_closed (hblanks : Blank blanks) (before after : List Char) :
    ∃ span found, Derives (.item ctx (.node (.element span kind name found [])))
        ⟨byteLength before, ("<" ++ name).toList ++ (inner ++ (blanks ++ "/>".toList)) ++ after⟩
        ⟨byteLength before + byteLength (("<" ++ name).toList ++
          (inner ++ (blanks ++ "/>".toList))), after⟩ ∧
      found.map bare = attributes.map bare := by
  obtain ⟨c, cs, hname, hc⟩ := h.exists_cons
  obtain ⟨found, htag, hbare⟩ := hinner.exists_gives_openingTag h hhead hblanks true before after
  simp only [List.append_assoc]
  exact ⟨_, found, .complete (openName_eq hname _) hc htag rfl, hbare⟩

lemma exists_derives_open (hraw : name ∉ rawElements)
    (hvoid : kind = .regular → isVoid name = false)
    (hcode : ReadsInside { ctx with inHead := kind = .specialHead } p children code)
    (hsource : source = before ++ (("<" ++ name).toList ++
      (inner ++ ('>' :: (code ++ ("</" ++ name ++ ">").toList))) ++ after)) :
    ∃ span found children', Derives (.item ctx (.node (.element span kind name found children')))
        ⟨byteLength before, ("<" ++ name).toList ++
          (inner ++ ('>' :: (code ++ ("</" ++ name ++ ">").toList))) ++ after⟩
        ⟨byteLength before + byteLength (("<" ++ name).toList ++
          (inner ++ ('>' :: (code ++ ("</" ++ name ++ ">").toList)))), after⟩ ∧
      found.map bare = attributes.map bare ∧
      ReprintsAll p (p.reread source) children children' := by
  obtain ⟨c, cs, hname, hc⟩ := h.exists_cons
  have hclosing : ("</" ++ name ++ ">").toList ++ after =
      "</".toList ++ (name.toList ++ ('>' :: after)) := by simp
  have hlength : byteLength ("</" ++ name ++ ">").toList = byteLength name.toList + 3 := by
    simp only [String.toList_append, byteLength_append]
    rw [show byteLength "</".toList = 2 from rfl, show byteLength ">".toList = 1 from rfl]
    omega
  generalize ("</" ++ name ++ ">").toList = closing at *
  obtain ⟨found, htag, hbare⟩ :=
    hinner.exists_gives_openingTag h hhead .nil false before (code ++ (closing ++ after))
  -- the content, up to the closing tag
  have hstops : Stops (some (.closingTag name)) ⟨byteLength (before ++ (("<" ++ name).toList ++
      (inner ++ ['>']))) + byteLength code, closing ++ after⟩ := by
    rw [hclosing]
    exact List.isPrefixOf_iff_prefix.mpr ⟨_, rfl⟩
  have hending : EndsApart (some (.closingTag name)) := trivial
  obtain ⟨children', hchildren, hreprints⟩ :=
    @hcode source (before ++ (("<" ++ name).toList ++ (inner ++ ['>']))) (closing ++ after) _
      (by simp [hsource]) hending hstops
  rw [byteLength_append] at hchildren
  have hclose : Gives (closingTag name ⟨byteLength before + byteLength (("<" ++ name).toList ++
      (inner ++ ['>'])) + byteLength code, closing ++ after⟩) () ⟨_, after⟩ :=
    hclosing ▸ gives_closingTag h
  have hcomplete : (⟨kind, name, found, false⟩ : OpeningTag).isComplete = false := by
    simpa [OpeningTag.isComplete] using hvoid
  have hnotRaw : (⟨kind, name, found, false⟩ : OpeningTag).isRaw = false := by
    simp [OpeningTag.isRaw, hraw]
  -- where the parts of the text stand
  have hrest : ("<" ++ name).toList ++ (inner ++ ('>' :: (code ++ closing))) ++ after =
      ("<" ++ name).toList ++ (inner ++ ([] ++ (tagEnd false ++ (code ++ (closing ++ after))))) := by
    simp [tagEnd]
  have hstop : byteLength before + byteLength (("<" ++ name).toList ++
      (inner ++ ('>' :: (code ++ closing)))) = byteLength before +
        byteLength (("<" ++ name).toList ++ (inner ++ ['>'])) + byteLength code +
          (byteLength name.toList + 3) := by
    simp only [byteLength_append, byteLength_cons, byteLength_nil, hlength]
    omega
  rw [hrest, hstop]
  exact ⟨_, found, children', .element (openName_eq hname _) hc htag hcomplete hnotRaw hchildren
    hclose, hbare, hreprints⟩

end Node

end Elements

/-! ## Elements without attributes -/

section Bare

variable {ctx : MarkupContext} {p : Printing} {kind : ElementKind} {name : String}
  {children : List Node} {span : Span}

lemma Node.reprints_element (h : IsElementName ctx kind name) (hraw : name ∉ rawElements)
    (hchildren : ReprintsAll p p' children children') :
    (element span kind name [] children).Reprints p p'
      (.element span' kind name [] children') := by
  refine ⟨by simp only [normal, hchildren.normals], fun w => ?_⟩
  have hattributes (breaks : Breaks) (start : Nat) : attributesDoc breaks start name [] = .empty := rfl
  have hwraps (breaks : Breaks) (start : Nat) : wrapsAttributes breaks start name [] = false := rfl
  rw [doc_element h, doc_element h, contentDoc_eq hraw, contentDoc_eq hraw, hchildren.normals,
    hattributes, hattributes, hwraps, hwraps]
  split
  · rfl
  · simp only [Doc.write_append, hchildren.write]

lemma Node.normals_eq_nil (hvoid : kind = .regular → isVoid name = true → children = [])
    (hcloses : closesItself kind name (normals children).isEmpty = true) :
    normals children = [] := by
  cases kind with
  | regular => rw [hvoid rfl hcloses, normals]
  | title => cases hcloses
  | component | specialSelf | specialHead | specialElement | specialComponent =>
    exact List.isEmpty_iff.mp hcloses

lemma Node.readsBack_element (h : IsElementName ctx kind name) (hraw : name ∉ rawElements)
    (hvoid : kind = .regular → isVoid name = true → children = [])
    (hchildren : ContentReadsBack { ctx with inHead := kind = .specialHead } p children) :
    (element span kind name [] children).ReadsBack ctx p := by
  have hattributes : (attributesDoc p.breaks span.start name []).Fills (· = []) :=
    Doc.lays_empty.fills
  rw [ContentReadsBack, ← contentDoc_eq hraw] at hchildren
  refine Doc.Sets.mono (sets_element h hattributes hchildren) fun cs hcs => ?_
  split at hcs
  · rename_i hcloses
    have hempty := normals_eq_nil hvoid hcloses
    obtain ⟨_, blanks, rfl, rfl, hblanks⟩ := hcs
    intro source before after hsource
    obtain ⟨_, found, hitem, hbare⟩ := exists_derives_closed h .nil rfl hblanks before after
    obtain rfl := List.map_eq_nil_iff.mp hbare
    have hreprints : ReprintsAll p (p.reread source) children [] := by
      refine ⟨by rw [hempty, normals], fun w => ?_⟩
      rw [write_fragment_of_blank rfl, write_fragment_of_blank]
      rw [← isEmpty_normals, hempty]
      rfl
    exact ⟨_, hitem, reprints_element h hraw hreprints⟩
  · rename_i hcloses
    have hvoid' : kind = .regular → isVoid name = false := by
      rintro rfl
      exact Bool.eq_false_iff.mpr hcloses
    obtain ⟨_, code, rfl, rfl, hcode⟩ := hcs
    intro source before after hsource
    obtain ⟨_, found, children', hitem, hbare, hreprints⟩ :=
      exists_derives_open h .nil rfl hraw hvoid' hcode hsource
    obtain rfl := List.map_eq_nil_iff.mp hbare
    exact ⟨_, hitem, reprints_element h hraw hreprints⟩

/-! ## Comments -/

lemma Node.readsBack_comment (hdata : ¬ "-->".toList <:+: data.toList) :
    (comment span data).ReadsBack ctx p := by
  have htext := Doc.sets_textBetween "<!-- " (String.ofList (trim data.toList)) " -->"
    (by decide) (by decide)
  rw [ReadsBack, doc]
  refine htext.mono fun cs hcs => ?_
  intro source before after hsource
  generalize htrim : trim data.toList = core at *
  have hcore : ¬ "-->".toList <:+: ' ' :: core := by
    rw [List.infix_cons_iff]
    rintro (hstart | hinside)
    · exact absurd (List.cons_prefix_cons.mp hstart).1 (by decide)
    · exact hdata (hinside.trans (htrim ▸ isInfix_trim _))
  have hbefore : beforeText? "-->".toList (' ' :: core ++ ' ' :: ("-->".toList ++ after)) =
      some (' ' :: core ++ [' ']) :=
    beforeText?_append (by decide) hcore (by decide)
  have hrest : (⟨byteLength before, cs ++ after⟩ : Cursor).rest =
      '<' :: '!' :: '-' :: '-' :: (' ' :: core ++ ' ' :: ("-->".toList ++ after)) := by
    simp [hcs]
  have hlength : (' ' :: core ++ [' ']).length + 7 = cs.length := by simp [hcs]
  have hderives : Derives (.item ctx (.node (.comment _ _))) _ _ := .comment hrest hbefore
  rw [hlength, skip_append] at hderives
  have hspace : Blank [' '] := by simp [Blank, Text.isBlank]
  have hagain : trim (' ' :: core ++ [' ']) = core :=
    trim_append hspace hspace (htrim ▸ trimmed_trim _)
  refine ⟨_, hderives, ?_, fun w => ?_⟩
  · simp only [normal, String.toList_ofList, hagain, htrim]
  · simp only [doc, String.toList_ofList, hagain, htrim]

end Bare

end ComponentTemplate
