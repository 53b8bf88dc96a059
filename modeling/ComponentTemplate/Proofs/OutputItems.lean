import ComponentTemplate.Proofs.ElementParts

/-!
# The items of printed components

What is printed for a component is a list of items again: its imports, its script, its nodes and its
style. Blanks between them join the texts of the content or stand for themselves.
-/

namespace ComponentTemplate

open MarkupGrammar Doc Item Writer
open Text (Blank)
open Node (Laid Returns TextsStay dropBlankEnds face isSetApart isStyle isView_face seen_cons_text
  siblings text)
open Component (Items)

/-! ## What is among items -/

namespace Item

/-- What is seen of the nodes that are not texts. -/
def faces (items : List Item) : List Node := ((nodes items).filter (!·.isText)).map face

def seen (items : List Item) : List Node := Node.seen face (nodes items)

/-- **Items that hold the same** but for blanks and imports. -/
structure Same (items items' : List Item) : Prop where
  scripts_eq : scripts items' = scripts items
  styles_eq : styles items' = styles items
  faces_eq : faces items' = faces items
  seen_eq : seen items' = seen items

lemma same_importTag (tag : Import) (items : List Item) : Same items (.importTag tag :: items) :=
  ⟨rfl, rfl, rfl, rfl⟩

end Item

namespace Node

variable {span : Span} {data : String} {nodes : List Node}

lemma filter_cons_text (span : Span) (data : String) (nodes : List Node) :
    (Node.cons (.text span data) nodes).filter (!·.isText) = nodes.filter (!·.isText) := by
  cases nodes with
  | nil => rfl
  | cons n nodes =>
    cases n
    all_goals rfl

lemma seen_cons_blank (hdata : Blank data.toList) :
    Node.seen face (Node.cons (.text span data) nodes) = Node.seen face nodes := by
  by_cases hhead : ∀ n ∈ nodes.head?, n.isText = false
  · rw [cons_text_of_head hhead, seen_cons_text, if_pos (Sibling.trim_of_blank hdata)]
  · obtain ⟨span', data', later, rfl⟩ := Node.exists_text_of_head hhead
    have htrim : Text.trim (data ++ data').toList = Text.trim data'.toList := by
      rw [String.toList_append, Text.trim_append_left hdata]
    rw [Node.cons, seen_cons_text, seen_cons_text, htrim, isView_face.text_iff.mpr htrim]

lemma seen_cons_of_blank (hnodes : Node.seen face nodes = []) :
    Node.seen face (Node.cons (.text span data) nodes) = Node.seen face [.text span data] := by
  by_cases hhead : ∀ n ∈ nodes.head?, n.isText = false
  · rw [cons_text_of_head hhead, seen_cons_text, seen_cons_text, hnodes]
    rfl
  · obtain ⟨span', data', later, rfl⟩ := Node.exists_text_of_head hhead
    rw [seen_cons_text] at hnodes
    split at hnodes
    · rename_i hblank
      obtain ⟨before, after, hbefore, hafter, heq⟩ := Text.exists_trim_eq data'.toList
      rw [hblank] at heq
      have htrim : Text.trim (data ++ data').toList = Text.trim data.toList := by
        rw [String.toList_append, heq]
        exact Text.trim_append_right (hbefore.append hafter) _
      rw [Node.cons, seen_cons_text, seen_cons_text, htrim, hnodes, isView_face.text_iff.mpr htrim]
      rfl
    · cases hnodes

end Node

namespace Component.Items

variable {ctx : MarkupContext} {items : List Item} {offset : Nat} {cs rest : List Char}
  {next : Cursor}

lemma exists_text_or_nil (hrest : rest = [] ∨ startsItem rest = true) (hstays : StaysText cs rest)
    (h : Items ctx items ⟨offset + byteLength cs, rest⟩ next) :
    ∃ items', Items ctx items' ⟨offset, cs ++ rest⟩ next ∧
      scripts items' = scripts items ∧ styles items' = styles items ∧
      faces items' = faces items ∧
      (cs = [] ∧ items' = items ∨
        ∃ span, Item.nodes items' = Node.cons (.text span (String.ofList cs)) (Item.nodes items)) := by
  by_cases hne : cs = []
  · subst hne
    exact ⟨items, by simpa using h, rfl, rfl, rfl, .inl ⟨rfl, rfl⟩⟩
  · obtain ⟨items', span, hitems, hnodes, hscripts, hstyles⟩ := h.exists_text hrest hne hstays
    refine ⟨items', hitems, hscripts, hstyles, ?_, .inr ⟨span, hnodes⟩⟩
    rw [faces, hnodes, Node.filter_cons_text]
    rfl

lemma exists_blank (hrest : rest = [] ∨ startsItem rest = true) (hcs : Blank cs)
    (h : Items ctx items ⟨offset + byteLength cs, rest⟩ next) :
    ∃ items', Items ctx items' ⟨offset, cs ++ rest⟩ next ∧ Same items items' := by
  obtain ⟨items', hitems, hscripts, hstyles, hfaces, hnodes⟩ :=
    exists_text_or_nil hrest (.of_blank hcs) h
  refine ⟨items', hitems, hscripts, hstyles, hfaces, ?_⟩
  rcases hnodes with ⟨-, rfl⟩ | ⟨span, hnodes⟩
  · rfl
  · rw [seen, hnodes, Node.seen_cons_blank (by rwa [String.toList_ofList])]
    rfl

end Component.Items

/-! ## The items of the content -/

def RawElement.bareAttributes (elements : List RawElement) : List (List Attribute) :=
  elements.map (·.attributes.map Attribute.bare)

lemma Item.eq_of_returns {found : Item} {n n' : Node} (hfound : found.nested = .ok n')
    (hface : n'.face = n.face) (hstands : found.StandsAs n' none ↔ n.isSetApart = false) :
    found.node? = (if n.isSetApart then none else some n') ∧
      RawElement.bareAttributes found.script?.toList =
        (if n.isComponentScript then [n.face.attributes] else []) ∧
      RawElement.bareAttributes found.style?.toList =
        (if n.isStyle then [n.face.attributes] else []) := by
  cases found with
  | node m =>
    cases hfound
    have hn := hstands.mp rfl
    obtain ⟨hscript, hstyle⟩ := Bool.or_eq_false_iff.mp hn
    rw [hn, hscript, hstyle]
    exact ⟨rfl, rfl, rfl⟩
  | importTag tag => cases hfound
  | raw element =>
    cases hfound
    have hscript := Node.isComponentScript_eq hface
    have hstyle := Node.isStyle_eq hface
    rw [element.isComponentScript_toNode] at hscript
    rw [element.isStyle_toNode] at hstyle
    rw [isSetApart, ← hscript, ← hstyle, ← hface]
    refine ⟨rfl, ?_, ?_⟩
    · rw [script?]
      cases element.isComponentScript <;> rfl
    · rw [style?]
      cases element.isStyle <;> rfl

/-- **Items hold nodes** before others: those of the nodes that are set apart are among their scripts
and styles, with their attributes, and all others are their content. -/
structure Item.Hold (nodes : List Node) (tail items : List Item) : Prop where
  scripts : ∃ found, scripts items = found ++ scripts tail ∧
    RawElement.bareAttributes found = (nodes.filter Node.isComponentScript).map (·.face.attributes)
  styles : ∃ found, styles items = found ++ styles tail ∧
    RawElement.bareAttributes found = (nodes.filter isStyle).map (·.face.attributes)
  faces : faces items = (nodes.filter fun n => !n.isText && !n.isSetApart).map face
  seen : (∀ n ∈ nodes, n.isSetApart = false) → seen items = Node.seen face nodes

namespace Item.Hold

variable {nodes : List Node} {tail items items' : List Item}

lemma same (h : Hold nodes tail items) (hsame : Same items items') :
    Hold nodes tail items' where
  scripts := by
    rw [hsame.scripts_eq]
    exact h.scripts
  styles := by
    rw [hsame.styles_eq]
    exact h.styles
  faces := by
    rw [hsame.faces_eq]
    exact h.faces
  seen := by
    rw [hsame.seen_eq]
    exact h.seen

lemma nil (h : Item.seen tail = []) : Item.Hold [] tail tail where
  scripts := ⟨[], rfl, rfl⟩
  styles := ⟨[], rfl, rfl⟩
  faces := by
    rw [Item.seen, Node.seen, List.map_eq_nil_iff, List.filter_eq_nil_iff] at h
    rw [Item.faces, List.filter_nil, List.map_nil, List.map_eq_nil_iff, List.filter_eq_nil_iff]
    intro n hn hnot
    exact h n hn (by simpa using Node.isBlank_of_not_isText (by simpa using hnot))
  seen := fun _ => h

lemma node (h : Hold nodes tail items) {found : Item} {n n' : Node} (hn : n.isText = false)
    (hfound : found.nested = .ok n') (hface : n'.face = n.face)
    (hstands : found.StandsAs n' none ↔ n.isSetApart = false) :
    Hold (n :: nodes) tail (found :: items) := by
  obtain ⟨hnode, hscript, hstyle⟩ := eq_of_returns hfound hface hstands
  obtain ⟨scripts, hscripts, hbare⟩ := h.scripts
  obtain ⟨styles, hstyles, hbare'⟩ := h.styles
  have hn' := (isView_face.isText_eq hface).trans hn
  refine ⟨⟨found.script?.toList ++ scripts, ?_, ?_⟩, ⟨found.style?.toList ++ styles, ?_, ?_⟩, ?_, ?_⟩
  · rw [scripts_cons, hscripts, List.append_assoc]
  · rw [RawElement.bareAttributes, List.map_append, ← RawElement.bareAttributes, hscript,
      ← RawElement.bareAttributes, hbare, List.filter_cons]
    cases n.isComponentScript <;> rfl
  · rw [styles_cons, hstyles, List.append_assoc]
  · rw [RawElement.bareAttributes, List.map_append, ← RawElement.bareAttributes, hstyle,
      ← RawElement.bareAttributes, hbare', List.filter_cons]
    cases n.isStyle <;> rfl
  · cases hapart : n.isSetApart with
    | true =>
      rw [hapart, if_pos rfl] at hnode
      rw [Item.faces, Item.nodes_cons_of_none hnode, List.filter_cons_of_neg (by simp [hapart])]
      exact h.faces
    | false =>
      rw [hapart, if_neg (by decide)] at hnode
      rw [Item.faces, Item.nodes_cons_of_some hnode, Node.cons_of_not_isText hn',
        List.filter_cons_of_pos (by simp [hn']), List.filter_cons_of_pos (by simp [hn, hapart]),
        List.map_cons, List.map_cons, hface, ← h.faces]
      rfl
  · intro hapart
    obtain ⟨hfirst, hapart⟩ := List.forall_mem_cons.mp hapart
    rw [hfirst, if_neg (by decide)] at hnode
    rw [Item.seen, Item.nodes_cons_of_some hnode, Node.cons_of_not_isText hn',
      Node.seen_cons_of_not_isText hn', Node.seen_cons_of_not_isText hn, hface, ← h.seen hapart]
    rfl

lemma text (h : Item.Hold nodes tail items) (hscripts : Item.scripts items' = Item.scripts items)
    (hstyles : Item.styles items' = Item.styles items)
    (hfaces : Item.faces items' = Item.faces items)
    (hseen : (∀ n ∈ nodes, n.isSetApart = false) →
      Item.seen items' = Node.seen face (.text span data :: nodes)) :
    Item.Hold (.text span data :: nodes) tail items' where
  scripts := by
    rw [hscripts, List.filter_cons_of_neg Bool.false_ne_true]
    exact h.scripts
  styles := by
    rw [hstyles, List.filter_cons_of_neg Bool.false_ne_true]
    exact h.styles
  faces := by
    rw [hfaces, h.faces]
    rfl
  seen hapart := hseen (List.forall_mem_cons.mp hapart).2

end Item.Hold

variable {nodes : List Node} {tail items : List Item} {ctx : MarkupContext} {rest : List Char}
  {next : Cursor} {style : Option StyleBlock}

lemma Component.Items.exists_hold_text
    (h : Items ctx later ⟨offset + byteLength padded, rest⟩ next)
    (hhold : Hold nodes tail later) (hrest : rest = [] ∨ startsItem rest = true)
    (hstays : StaysText padded rest) (htrim : Text.trim padded = Text.trim data.toList)
    (hjoin : (∀ n ∈ nodes, n.isSetApart = false) →
      (∀ m ∈ (Item.nodes later).head?, m.isText = false) ∨ seen later = [])
    (span : Span) :
    ∃ items, Items ctx items ⟨offset, padded ++ rest⟩ next ∧
      Hold (.text span data :: nodes) tail items := by
  obtain ⟨items, hitems, hscripts, hstyles, hfaces, hnodes⟩ := h.exists_text_or_nil hrest hstays
  refine ⟨items, hitems, hhold.text hscripts hstyles hfaces fun hapart => ?_⟩
  have hlater : Node.seen face (Item.nodes later) = Node.seen face nodes :=
    hhold.seen hapart
  rcases hnodes with ⟨rfl, rfl⟩ | ⟨place, hnodes⟩
  · -- nothing of the text is left
    rw [Sibling.trim_of_blank .nil] at htrim
    rw [seen_cons_text, if_pos htrim.symm]
    exact hlater
  · have hface : (text place (String.ofList padded)).face = (text span data).face :=
      isView_face.text_iff.mpr (by rw [String.toList_ofList, htrim])
    rw [seen, hnodes, seen_cons_text]
    rcases hjoin hapart with hhead | hblank
    · rw [cons_text_of_head hhead, seen_cons_text, String.toList_ofList, htrim, hface, hlater]
    · rw [Node.seen_cons_of_blank hblank, ← hlater, seen_cons_text, String.toList_ofList, htrim,
        hface, show Node.seen face (Item.nodes later) = [] from hblank]
      rfl

/-- **Content is read from a text that lays it out**, between blanks and before other items, if the
texts in it stay texts. -/
theorem Node.Laid.exists_items {trim first : Bool} {cs : List Char}
    (h : Laid (Returns ctx face isSetApart) trim first nodes cs)
    (hchain : nodes.IsChain fun a b => a.isText = false ∨ b.isText = false)
    (hstay : TextsStay nodes) {trail : List Char} (htrail : Blank trail)
    (hrest : rest = [] ∨ startsItem rest = true) (hbrace : rest.head? ≠ some '\x7b')
    (htail : Item.seen tail = []) {front lead : List Char} (hlead : Blank lead)
    (hitems : Items ctx tail ⟨byteLength (front ++ (lead ++ (cs ++ trail))), rest⟩ next) :
    ∃ items, Items ctx items ⟨byteLength front, lead ++ (cs ++ (trail ++ rest))⟩ next ∧
      Hold nodes tail items ∧
      (lead = [] → (∀ n ∈ nodes, n.isSetApart = false) → ∀ n ∈ nodes.head?, n.isText = false →
        ∀ m ∈ (Item.nodes items).head?, m.isText = false) := by
  induction h generalizing front lead with
  | nil =>
    rw [byteLength_append, List.nil_append] at hitems
    rw [List.nil_append, ← List.append_assoc]
    obtain ⟨items, hread, hsame⟩ := hitems.exists_blank hrest (hlead.append htrail)
    exact ⟨items, hread, (Hold.nil htail).same hsame, by simp⟩
  | @node _ n nodes core cs hn hcore _ ih =>
    obtain ⟨found, n', hitem, hfound, hface, hstands⟩ :=
      hcore (front ++ lead) (cs ++ (trail ++ rest))
    obtain ⟨later, hlater, hhold, -⟩ :=
      @ih hchain.tail hstay.tail (front ++ (lead ++ core)) [] .nil (by simpa using hitems)
    have hn' := (isView_face.isText_eq hface).trans hn
    have hstarts : startsItem (core ++ (cs ++ (trail ++ rest))) = true := by
      refine startsItem_of_item hitem ?_
      rintro _ rfl
      cases hfound
      exact hn'
    have hfirst : Items ctx (found :: later)
        ⟨byteLength (front ++ lead), core ++ (cs ++ (trail ++ rest))⟩ next :=
      .cons hitem (by simpa [Nat.add_assoc] using hlater)
    replace hhold := hhold.node hn hfound hface hstands
    rw [List.append_assoc core]
    by_cases hnil : lead = []
    · subst hnil
      refine ⟨found :: later, by simpa using hfirst, hhold, fun _ hapart _ _ _ => ?_⟩
      obtain ⟨hnode, -⟩ := eq_of_returns hfound hface hstands
      rw [hapart n (List.mem_cons_self ..), if_neg (by decide)] at hnode
      rw [nodes_cons_of_some hnode, Node.cons_of_not_isText hn']
      simpa using hn'
    · rw [byteLength_append] at hfirst
      obtain ⟨items, hread, hsame⟩ := hfirst.exists_blank (.inr hstarts) hlead
      exact ⟨items, hread, hhold.same hsame, fun hlead => absurd hlead hnil⟩
  | @text _ span data nodes _ _ before core after cs hpad hleading htrailing hlaid ih =>
    obtain ⟨htext, hstay⟩ := TextsStay.text_iff.mp hstay
    obtain ⟨hcore, -⟩ := Sibling.core_of_pad hpad
    cases nodes with
    | nil =>
      cases hlaid
      have hblanks := hlead.append hleading.blank
      have hblanks' := htrailing.blank.append htrail
      have hstays := StaysText.padded htext.1 (fun _ _ => hbrace) hblanks hblanks' hrest
      have htrim := Text.trim_append hblanks hblanks' (Text.trimmed_trim data.toList)
      rw [← hcore] at hstays htrim
      have htext : lead ++ (before ++ (core ++ after) ++ [] ++ trail) =
          lead ++ before ++ (core ++ (after ++ trail)) := by simp
      rw [htext, byteLength_append] at hitems
      obtain ⟨items, hread, hhold⟩ := hitems.exists_hold_text (.nil htail) hrest hstays
        (by rw [htrim, hcore]) (fun _ => .inr htail) span
      refine ⟨items, by simpa using hread, hhold, fun _ _ n hn htext => ?_⟩
      cases hn
      cases htext
    | cons m nodes =>
      have hm : m.isText = false := by
        simpa [Node.isText] using (List.isChain_cons_cons.mp hchain).1
      obtain ⟨hstarts, hhead⟩ := hlaid.head_eq isView_face (Node.head_of_isChain hchain)
      -- the next node decides about the text, whatever follows the content
      have hne : cs ≠ [] := by
        rintro rfl
        cases hhead
      replace hstarts := startsItem_append (hstarts.resolve_left hne) (trail ++ rest)
      have happend : (cs ++ (trail ++ rest)).head? = cs.head? := List.head?_append_of_ne_nil _ hne
      rw [← happend] at hhead
      have hstays := (StaysText.of_blank hlead).append
        ((staysText_iff hpad hleading htrailing (.inr hstarts) hhead).mpr htext)
      have htrim := trim_eq hpad hleading htrailing
      rw [← Text.trim_append_left hlead] at htrim
      generalize before ++ (core ++ after) = padded at hstays htrim hitems ⊢
      obtain ⟨later, hlater, hhold, hfirst⟩ :=
        @ih hchain.tail hstay (front ++ (lead ++ padded)) [] .nil (by simpa using hitems)
      rw [byteLength_append] at hlater
      obtain ⟨items, hread, hhold⟩ := hlater.exists_hold_text hhold (.inr hstarts) hstays htrim
        (fun hapart => .inl (hfirst rfl hapart m rfl hm)) span
      refine ⟨items, by simpa using hread, hhold, fun _ _ n hn htext => ?_⟩
      cases hn
      cases htext

/-! ## The parts of the output -/

namespace Doc

variable {a b : Doc} {unit : String}

lemma toList_render (doc : Doc) (unit : String) :
    (doc.render unit).toList = (doc.write ⟨unit.toList, 0, []⟩).written.reverse := by
  rw [render, output, String.toList_ofList, start]

lemma toList_render_append (a : Doc) (hb : b.Moves) (unit : String) :
    ((a ++ b).render unit).toList = (a.render unit).toList ++ (b.render unit).toList := by
  rw [toList_render, toList_render, toList_render, write_append, a.write_eq, hb]
  simp [after]

lemma Sets.toList_render (h : a.Sets P) (hunit : (start unit).Indents) :
    P (a.render unit).toList := by
  obtain ⟨cs, hfront, hstart, hcs⟩ := h (start unit) hunit
  rw [Component.front_start, List.nil_append, front_of_not_atLineStart hstart] at hfront
  rw [Doc.toList_render]
  exact hfront ▸ hcs

lemma moves_onlyIf (condition : Bool) (text : String) : (onlyIf condition text).Moves := by
  cases condition
  · exact moves_empty
  · exact moves_text text

lemma toList_render_text (text : String) (unit : String) :
    ((Doc.text text).render unit).toList = text.toList := by
  rw [toList_render, write_text]
  cases text.toList <;> simp [add, atLineStart]

lemma blank_onlyIf {text : String} (h : Blank text.toList) (condition : Bool) (unit : String) :
    Blank ((onlyIf condition text).render unit).toList := by
  cases condition
  · exact .nil
  · rw [onlyIf, if_pos rfl, toList_render_text]
    exact h

end Doc

lemma ScriptBlock.opens_doc (breaks : Breaks) (block : ScriptBlock) : (block.doc breaks).Opens :=
  ((opens_text (by decide)).append _).append _

lemma StyleBlock.opens_doc (breaks : Breaks) (block : StyleBlock) (sheet : List StyleNode) :
    (block.doc breaks sheet).Opens :=
  ((((opens_text (by decide)).append _).append _).append _).append _

namespace Component

def importsDoc (imports : List Import) : Doc := .concat (imports.map fun tag => tag.doc ++ line)

lemma moves_importsDoc (imports : List Import) : (importsDoc imports).Moves := by
  induction imports with
  | nil => exact moves_empty
  | cons tag imports ih => exact ((moves_text _).append (moves_text _)).append ih

/-- **The parts of a component stand in its output** one after another, with blanks before and
after the content. -/
theorem exists_toList_render (p : Printing) (component : Component) (sheet : List StyleNode)
    (unit : String) : ∃ lead trail, Blank lead ∧ Blank trail ∧
      ((component.doc p sheet).render unit).toList =
        ((importsDoc component.imports).render unit).toList ++
          (((ofOption (ScriptBlock.doc p.breaks) component.script).render unit).toList ++
            (lead ++ ((((ofNodes component.nodes).doc p []).render unit).toList ++ (trail ++
              ((ofOption (fun block => block.doc p.breaks sheet) component.style).render
                unit).toList)))) := by
  obtain ⟨imports, script, nodes, style⟩ := component
  have hsingle : Blank "\n".toList := by simp [Blank, Text.isBlank]
  have hdouble : Blank "\n\n".toList := by simp [Blank, Text.isBlank]
  obtain ⟨double, single, gap, hgap, hdoc⟩ : ∃ (double single : Bool) (gap : String),
      Blank gap.toList ∧ (⟨imports, script, nodes, style⟩ : Component).doc p sheet =
        importsDoc imports ++ ofOption (ScriptBlock.doc p.breaks) script ++
          onlyIf double "\n\n" ++ onlyIf single "\n" ++
          siblings (Sibling.reconcile true (siblings p nodes)) ++
          ofOption (fun block => Doc.text gap ++ block.doc p.breaks sheet) style := by
    refine ⟨_, _, _, ?_, rfl⟩
    split
    · exact hdouble
    · split
      · exact hsingle
      · exact .nil
  have hscript : (ofOption (ScriptBlock.doc p.breaks) script).Moves := by
    cases script with
    | none => exact moves_empty
    | some block => exact (block.opens_doc p.breaks).moves
  have hbody : (((ofNodes nodes).doc p []).render unit).toList =
      ((siblings (Sibling.reconcile true (siblings p nodes))).render unit).toList := by
    rw [toList_render, toList_render, write_content]
  have hlead := (blank_onlyIf hdouble double unit).append (blank_onlyIf hsingle single unit)
  -- the blanks before the style stand only if there is one
  obtain ⟨trail, htrail, hmoves, hstyle⟩ : ∃ trail, Blank trail ∧
      (ofOption (fun block => Doc.text gap ++ block.doc p.breaks sheet) style).Moves ∧
      ((ofOption (fun block => Doc.text gap ++ block.doc p.breaks sheet) style).render
        unit).toList = trail ++
          ((ofOption (fun block => block.doc p.breaks sheet) style).render unit).toList := by
    cases style with
    | none => exact ⟨[], .nil, moves_empty, rfl⟩
    | some block =>
      have hmoves := (block.opens_doc p.breaks sheet).moves
      refine ⟨gap.toList, hgap, (moves_text gap).append hmoves, ?_⟩
      rw [← toList_render_text gap unit]
      exact toList_render_append _ hmoves unit
  refine ⟨_, trail, hlead, htrail, ?_⟩
  rw [hdoc, toList_render_append _ hmoves, hstyle, toList_render_append _
    (moves_content p nodes), toList_render_append _ (moves_onlyIf single "\n"),
    toList_render_append _ (moves_onlyIf double "\n\n"),
    toList_render_append _ hscript, hbody]
  simp

end Component

/-! ## Reading the output -/

/-- **A text is read up to the end of the source** as items with a property, wherever it stands and
with blanks before it. -/
def Component.ReadsAs (ctx : MarkupContext) (Q : List Item → Prop) (cs : List Char) : Prop :=
  ∀ front lead, Blank lead → ∃ items next,
    Items ctx items ⟨byteLength front, lead ++ cs⟩ next ∧ Q items

namespace Component.ReadsAs

variable {ctx : MarkupContext} {P : Item → Prop} {Q Q' : List Item → Prop} {core cs : List Char}

lemma nil : ReadsAs ctx (Same []) [] := by
  intro front lead hlead
  have hstop : Items ctx [] ⟨byteLength front + byteLength lead, []⟩ _ := .stop rfl
  obtain ⟨items, hitems, hsame⟩ := hstop.exists_blank (.inl rfl) hlead
  exact ⟨items, _, hitems, hsame⟩

lemma blank (h : ReadsAs ctx Q cs) (hblanks : Blank blanks) : ReadsAs ctx Q (blanks ++ cs) := by
  intro front lead hlead
  rw [← List.append_assoc]
  exact h front (lead ++ blanks) (hlead.append hblanks)

lemma mono (h : ReadsAs ctx Q cs) (himp : ∀ items, Q items → Q' items) : ReadsAs ctx Q' cs := by
  intro front lead hlead
  obtain ⟨items, next, hitems, hQ⟩ := h front lead hlead
  exact ⟨items, next, hitems, himp items hQ⟩

lemma item (h : ReadsAs ctx Q cs) (hcore : Returns ctx P core)
    (htext : ∀ n, P (.node n) → n.isText = false)
    (hcons : ∀ found items, P found → Q items → Q' (found :: items))
    (hsame : ∀ items items', Same items items' → Q' items → Q' items') :
    ReadsAs ctx Q' (core ++ cs) := by
  intro front lead hlead
  obtain ⟨found, hitem, hfound⟩ := hcore (front ++ lead) cs
  obtain ⟨items, next, hitems, hQ⟩ := h (front ++ lead ++ core) [] .nil
  have hstarts : startsItem (core ++ cs) = true := by
    refine startsItem_of_item hitem ?_
    rintro n rfl
    exact htext n hfound
  rw [byteLength_append, List.nil_append] at hitems
  have hall : Items ctx (found :: items) ⟨byteLength front + byteLength lead, core ++ cs⟩
      next := by
    rw [← byteLength_append]
    exact .cons hitem hitems
  obtain ⟨items', hitems', hsame'⟩ := hall.exists_blank (.inr hstarts) hlead
  exact ⟨items', next, hitems', hsame _ _ hsame' (hcons found items hfound hQ)⟩

lemma content (h : Laid (Returns ctx face isSetApart) trim first nodes cs)
    (hchain : nodes.IsChain fun a b => a.isText = false ∨ b.isText = false)
    (hstay : TextsStay nodes) (htrail : Blank trail)
    (hrest : rest = [] ∨ startsItem rest = true) (hbrace : rest.head? ≠ some '\x7b')
    (htail : ReadsAs ctx Q rest) (hblank : ∀ tail, Q tail → seen tail = []) :
    ReadsAs ctx (fun items => ∃ tail, Q tail ∧ Hold nodes tail items)
      (cs ++ (trail ++ rest)) := by
  intro front lead hlead
  obtain ⟨tail, next, hitems, hQ⟩ := htail (front ++ (lead ++ (cs ++ trail))) [] .nil
  obtain ⟨items, hread, hhold, -⟩ :=
    h.exists_items hchain hstay htrail hrest hbrace (hblank tail hQ) hlead hitems
  exact ⟨items, next, hread, tail, hQ, hhold⟩

end Component.ReadsAs

/-! ## The parts of a component -/

lemma Item.Hold.of_dropBlankEnds (h : Hold (dropBlankEnds nodes) tail items) :
    Hold nodes tail items := by
  obtain ⟨before, after, heq, hbefore, hafter⟩ := Node.exists_eq_dropBlankEnds nodes
  have hblank {n : Node} (hn : n.isBlank = true) :
      n.isText = true ∧ n.isComponentScript = false ∧ n.isStyle = false := by
    cases n
    case text => exact ⟨rfl, rfl, rfl⟩
    all_goals cases hn
  -- no blank text is set apart or has a face
  have hfilter {q : Node → Bool} (hq : ∀ n : Node, n.isBlank = true → q n = false) :
      nodes.filter q = (dropBlankEnds nodes).filter q := by
    have hnil {blanks : List Node} (hblanks : ∀ n ∈ blanks, n.isBlank = true) :
        blanks.filter q = [] :=
      List.filter_eq_nil_iff.mpr fun n hn => by simp [hq n (hblanks n hn)]
    rw [heq, List.filter_append, List.filter_append, hnil hbefore, hnil hafter, ← heq]
    simp
  refine ⟨?_, ?_, ?_, fun hapart => ?_⟩
  · rw [hfilter fun n hn => (hblank hn).2.1]
    exact h.scripts
  · rw [hfilter fun n hn => (hblank hn).2.2]
    exact h.styles
  · rw [hfilter fun n hn => by simp [(hblank hn).1]]
    exact h.faces
  · rw [h.seen fun n hn => hapart n ((Node.dropBlankEnds_isInfix nodes).subset hn),
      Node.seen_dropBlankEnds]

/-- **The parts of a component are read again** from what is printed for them. -/
structure Component.PartsReturn (ctx : MarkupContext) (p : Printing) (component : Component)
    (sheet : List StyleNode) : Prop where
  imports : ∀ tag ∈ component.imports, tag.doc.Sets (Import.Returns ctx)
  script : ∀ block ∈ component.script, (block.codeDoc p.breaks).Fills IsScriptCode
  nodes : ∀ n ∈ component.nodes, n.isText = false → n.PartsReturn ctx p
  attributes : ∀ block ∈ component.style,
    (block.attributesDoc p.breaks).Fills (Attribute.Return block.attributes)
  style : (StyleNode.codeDoc sheet).Fills (¬ "</style>".toList <:+: ·)

/-- **Items that a component is printed as**: its script without the attributes that it had, its
style with them, and its nodes, of which some may be set apart. -/
structure Component.Printed (component : Component) (items : List Item) : Prop where
  scripts : ∃ own found, scripts items = own ++ found ∧
    RawElement.bareAttributes own = component.script.toList.map (fun _ => [scriptLanguage]) ∧
    (∀ element ∈ own, ∃ body, Statement.ofCursor element.cursor = .ok body) ∧
    RawElement.bareAttributes found =
      (component.nodes.filter Node.isComponentScript).map (·.face.attributes)
  styles : RawElement.bareAttributes (styles items) =
    (component.nodes.filter isStyle).map (·.face.attributes) ++
      component.style.toList.map (·.attributes.map Attribute.bare)
  faces : faces items =
    (component.nodes.filter fun n => !n.isText && !n.isSetApart).map face
  seen : (∀ n ∈ component.nodes, n.isSetApart = false) →
    seen items = Node.seen face component.nodes

structure StyleBlock.Printed (style : Option StyleBlock) (items : List Item) : Prop where
  scripts : scripts items = []
  styles : RawElement.bareAttributes (styles items) =
    style.toList.map (·.attributes.map Attribute.bare)
  seen : seen items = []

lemma StyleBlock.Printed.same (h : StyleBlock.Printed style items)
    (hsame : Same items items') : StyleBlock.Printed style items' :=
  ⟨hsame.scripts_eq ▸ h.scripts, hsame.styles_eq ▸ h.styles, hsame.seen_eq ▸ h.seen⟩

lemma Item.Hold.bareAttributes_styles (h : Item.Hold nodes tail items)
    (htail : StyleBlock.Printed style tail) : RawElement.bareAttributes (Item.styles items) =
      (nodes.filter isStyle).map (·.face.attributes) ++
        style.toList.map (·.attributes.map Attribute.bare) := by
  obtain ⟨found, hfound, hbare⟩ := h.styles
  rw [hfound, RawElement.bareAttributes, List.map_append, ← RawElement.bareAttributes, hbare,
    ← RawElement.bareAttributes, htail.styles]

namespace Component.Printed

variable {component : Component} {items items' tail : List Item}

lemma same (h : component.Printed items) (hsame : Same items items') :
    component.Printed items' where
  scripts := hsame.scripts_eq ▸ h.scripts
  styles := hsame.styles_eq ▸ h.styles
  faces := hsame.faces_eq ▸ h.faces
  seen := hsame.seen_eq ▸ h.seen

lemma of_hold (hscript : component.script = none) (h : Item.Hold component.nodes tail items)
    (htail : StyleBlock.Printed component.style tail) : component.Printed items where
  scripts := by
    obtain ⟨found, hfound, hbare⟩ := h.scripts
    rw [htail.scripts, List.append_nil] at hfound
    exact ⟨[], found, hfound, by rw [hscript]; rfl, by simp, hbare⟩
  styles := h.bareAttributes_styles htail
  faces := h.faces
  seen := h.seen

lemma script {block : ScriptBlock} (hscript : component.script = some block)
    (h : Hold component.nodes tail items) (htail : StyleBlock.Printed component.style tail)
    {element : RawElement} (helement : element.isComponentScript = true)
    (hattributes : element.attributes.map Attribute.bare = [scriptLanguage])
    (hcode : ∃ body, Statement.ofCursor element.cursor = .ok body) :
    component.Printed (.raw element :: items) := by
  have hstyle := isStyle_of_isComponentScript helement
  have hnone : (raw element).node? = none := by simp [node?, helement]
  obtain ⟨found, hfound, hbare⟩ := h.scripts
  rw [htail.scripts, List.append_nil] at hfound
  refine ⟨⟨[element], found, ?_, ?_, ?_, hbare⟩, ?_, ?_, ?_⟩
  · rw [scripts_cons, script?, if_pos helement, hfound]
    rfl
  · rw [hscript, RawElement.bareAttributes, List.map_singleton, hattributes]
    rfl
  · simpa using hcode
  · rw [styles_cons, style?, if_neg (by simp [hstyle])]
    exact h.bareAttributes_styles htail
  · rw [Item.faces, Item.nodes_cons_of_none hnone]
    exact h.faces
  · rw [Item.seen, Item.nodes_cons_of_none hnone]
    exact h.seen

end Component.Printed

namespace Component.PartsReturn

variable {ctx : MarkupContext} {p : Printing} {component : Component} {sheet : List StyleNode}
  {unit : String} {cs : List Char}

lemma head_of_returns (h : RawElement.Returns ctx P cs) (rest : List Char) :
    startsItem (cs ++ rest) = true ∧ (cs ++ rest).head? = some '<' := by
  obtain ⟨_, hitem, element, rfl, -⟩ := h [] rest
  refine ⟨startsItem_of_item hitem nofun, ?_⟩
  cases hitem with
  | raw hstarts => exact congrArg List.head? hstarts

lemma exists_style (h : component.PartsReturn ctx p sheet) (hunit : (start unit).Indents)
    (htrail : Blank trail) (hfinal : Blank final) :
    ∃ blanks rest, trail ++ (((ofOption (fun block => block.doc p.breaks sheet)
        component.style).render unit).toList ++ final) = blanks ++ rest ∧ Blank blanks ∧
      (rest = [] ∨ startsItem rest = true) ∧ rest.head? ≠ some '\x7b' ∧
      ReadsAs ctx (StyleBlock.Printed component.style) rest := by
  cases hstyle : component.style with
  | none =>
    refine ⟨trail ++ final, [], ?_, htrail.append hfinal, .inl rfl, nofun, ?_⟩
    · rw [ofOption, toList_render]
      simp [write]
    · exact ReadsAs.nil.mono fun items hsame => StyleBlock.Printed.same ⟨rfl, rfl, rfl⟩ hsame
  | some block =>
    have hreturns := (@StyleBlock.sets_returns ctx p.breaks block sheet (h.attributes block hstyle)
      h.style).toList_render hunit
    rw [ofOption]
    generalize ((block.doc p.breaks sheet).render unit).toList = cs at hreturns
    obtain ⟨hstarts, hhead⟩ := head_of_returns hreturns final
    refine ⟨trail, cs ++ final, rfl, htrail, .inr hstarts, by simp [hhead], ?_⟩
    have hend : ReadsAs ctx (Same []) (final ++ []) := ReadsAs.nil.blank hfinal
    rw [List.append_nil] at hend
    refine hend.item hreturns ?_ ?_ fun items items' hsame hprinted => hprinted.same hsame
    · rintro n ⟨element, heq, -⟩
      cases heq
    · rintro _ items ⟨element, rfl, hstyle, hbare⟩ hsame
      have hscript := script?_of_isStyle hstyle
      refine ⟨?_, ?_, ?_⟩
      · rw [scripts_cons, hscript, hsame.scripts_eq]
        rfl
      · rw [styles_cons, style?, if_pos hstyle, hsame.styles_eq]
        exact congrArg (· :: []) hbare
      · rw [seen, nodes_cons_of_none (by simp [node?, hstyle])]
        exact hsame.seen_eq

lemma readsAs_script (h : component.PartsReturn ctx p sheet) (hunit : (start unit).Indents)
    (hcs : ReadsAs ctx (fun items => ∃ tail, StyleBlock.Printed component.style tail ∧
      Hold component.nodes tail items) cs) :
    ReadsAs ctx component.Printed
      (((ofOption (ScriptBlock.doc p.breaks) component.script).render unit).toList ++ cs) := by
  cases hscript : component.script with
  | none =>
    rw [ofOption, toList_render]
    refine hcs.mono ?_
    rintro items ⟨tail, htail, hhold⟩
    exact .of_hold hscript hhold htail
  | some block =>
    have hreturns := (@ScriptBlock.sets_returns ctx p.breaks block
      (h.script block hscript)).toList_render hunit
    rw [ofOption]
    refine hcs.item hreturns ?_ ?_ fun items items' hsame hprinted => hprinted.same hsame
    · rintro n ⟨element, heq, -⟩
      cases heq
    · rintro _ items ⟨element, rfl, helement, hattributes, hcode⟩ ⟨tail, htail, hhold⟩
      exact .script hscript hhold htail helement hattributes hcode

lemma readsAs_imports {imports : List Import}
    (himports : ∀ tag ∈ imports, tag.doc.Sets (Import.Returns ctx))
    (hunit : (start unit).Indents) (hcs : ReadsAs ctx component.Printed cs) :
    ReadsAs ctx component.Printed (((importsDoc imports).render unit).toList ++ cs) := by
  induction imports with
  | nil => exact hcs
  | cons tag imports ih =>
    obtain ⟨hfirst, hlater⟩ := List.forall_mem_cons.mp himports
    have hline : Blank (line.render unit).toList := by
      rw [line, toList_render_text]
      simp [Blank, Text.isBlank]
    have hmoves : line.Moves := moves_text "\n"
    have htext : ((importsDoc (tag :: imports)).render unit).toList =
        (tag.doc.render unit).toList ++ ((line.render unit).toList ++
          ((importsDoc imports).render unit).toList) := by
      rw [← List.append_assoc, ← toList_render_append _ hmoves,
        ← toList_render_append _ (moves_importsDoc imports)]
      rfl
    rw [htext, List.append_assoc, List.append_assoc]
    refine ((ih hlater).blank hline).item (hfirst.toList_render hunit) ?_ ?_
      fun items items' hsame hprinted => hprinted.same hsame
    · rintro n ⟨tag, heq⟩
      cases heq
    · rintro _ items ⟨tag, rfl⟩ hprinted
      exact hprinted.same (same_importTag tag items)

/-- **What is printed for a component is read as its parts**, if the texts among its nodes stay
texts. -/
theorem exists_items (h : component.PartsReturn ctx p sheet) (hunit : (start unit).Indents)
    (hwf : component.WellFormed ctx) (hstay : TextsStay component.nodes) {final : List Char}
    (hfinal : Blank final) :
    ∃ items next, Items ctx items
      ⟨0, ((component.doc p sheet).render unit).toList ++ final⟩ next ∧ component.Printed items := by
  obtain ⟨lead, trail, hlead, htrail, htext⟩ := exists_toList_render p component sheet unit
  obtain ⟨blanks, rest, heq, hblanks, hrest, hbrace, hstyle⟩ := h.exists_style hunit htrail hfinal
  have hinside := Node.dropBlankEnds_isInfix component.nodes
  have hapart := hwf.apart
  have hchain := hapart.infix hinside
  have hreturns : ∀ n ∈ component.nodes, n.isText = false →
      (n.doc p).Sets (Returns ctx face isSetApart n) := by
    intro n hn htext
    refine Node.returns_of_rereads (Node.sets_rereads ?_ (h.nodes n hn htext))
    exact Node.allWellFormed_iff.mp hwf.nodes n hn
  have hlaid : Laid (Returns ctx face isSetApart) true true
      (dropBlankEnds component.nodes) _ :=
    laid_render (fun n hn htext => hreturns n (hinside.subset hn) htext) hchain hunit
  have hcontent := ReadsAs.content hlaid hchain (Node.textsStay_dropBlankEnds_iff.mpr hstay) hblanks
    hrest hbrace hstyle fun tail htail => htail.seen
  have hbody := (hcontent.mono fun items (hall : ∃ tail, _ ∧ _) =>
    hall.imp fun tail hall => hall.imp id Hold.of_dropBlankEnds).blank hlead
  obtain ⟨items, next, hitems, hprinted⟩ :=
    readsAs_imports h.imports hunit (h.readsAs_script hunit hbody) [] [] .nil
  refine ⟨items, next, ?_, hprinted⟩
  rw [htext]
  simpa [← heq] using hitems

end Component.PartsReturn

end ComponentTemplate
