import ComponentTemplate.Proofs.AttributeLists
import ComponentTemplate.Proofs.Nesting

/-!
# Questions about the layout

A printer asks whether the source breaks the line between two places: after the opening of a tag,
between the test of a choice and what follows, after the bracket of a list or an object, and around
attributes. What was read is nested, so that the places are those of the source and in order. The
answer to any other question makes no difference.
-/

namespace ComponentTemplate

/-- **Two ways of printing agree on a text** of a given size: foreign scripts are formatted alike,
and questions about two places of the text have the same answer. -/
structure Printing.AgreesOn (size : Nat) (p p' : Printing) : Prop where
  script : p.script = p'.script
  breaks : ∀ count start stop, start ≤ stop → stop ≤ size →
    p.breaks count start stop = p'.breaks count start stop

variable {source : List Char} {p p' : Printing} {size : Nat}

lemma Printing.AgreesOn.mono {part : Nat} (h : p.AgreesOn size p') (hle : part ≤ size) :
    p.AgreesOn part p' :=
  ⟨h.script, fun count start stop hstart hstop => h.breaks count start stop hstart (hstop.trans hle)⟩

lemma Doc.ofOption_congr {α : Type} {f g : α → Doc} {a? : Option α} (h : ∀ a ∈ a?, f a = g a) :
    Doc.ofOption f a? = Doc.ofOption g a? := by
  cases a? with
  | none => rfl
  | some a => exact h a rfl

/-! ## Expressions -/

namespace Expr

def Alike (p p' : Printing) (e : Expr) : Prop := e.doc p.breaks = e.doc p'.breaks

/-- **An expression fits into a text** of a given size, with nested regions. -/
structure Fits (size : Nat) (e : Expr) : Prop where
  nests : e.Nests
  le : e.span.stop ≤ size

lemma docs_eq_of_alike {es : List Expr} (h : ∀ e ∈ es, e.Alike p p') :
    Expr.docs p.breaks es = Expr.docs p'.breaks es := by
  induction es with
  | nil => rfl
  | cons e es ih =>
    obtain ⟨he, hes⟩ := List.forall_mem_cons.mp h
    rw [Expr.docs, Expr.docs, he, ih hes]

lemma propertyDocs_eq_of_alike {ps : List Property}
    (h : ∀ e ∈ ps.flatMap (fun p => [p.key, p.value]), e.Alike p p') :
    Property.docs p.breaks ps = Property.docs p'.breaks ps := by
  induction ps with
  | nil => rfl
  | cons entry ps ih =>
    obtain ⟨key, value⟩ := entry
    simp only [List.flatMap_cons, List.cons_append, List.nil_append, List.forall_mem_cons] at h
    obtain ⟨hkey, hvalue, hrest⟩ := h
    rw [Property.key, Alike] at hkey
    rw [Property.value, Alike] at hvalue
    rw [Property.docs, Property.docs, hkey, hvalue, ih hrest]

/-- **A choice asks about the place between its test and what follows**, a list and an object about
the place after their brackets. -/
theorem Fits.alike {e : Expr} (h : e.Fits size) (hp : p.AgreesOn size p') : e.Alike p p' := by
  obtain ⟨hholds, hnests⟩ := forall_mem_outline_iff.mp h.nests
  have hfits : ∀ child ∈ e.children, child.Fits size := fun child hmem =>
    ⟨hnests child hmem, (hholds.inside child hmem).2.trans h.le⟩
  have hchild : ∀ child ∈ e.children, child.Alike p p' := by
    intro child hmem
    have := sizeOf_lt_of_mem_children hmem
    exact (hfits child hmem).alike hp
  have hgap (child : Expr) (hmem : child ∈ e.children) {start : Nat}
      (hle : start ≤ child.span.start) :
      p.breaks 1 start child.span.start = p'.breaks 1 start child.span.start :=
    hp.breaks _ _ _ hle ((hfits child hmem).nests.holds.lt.le.trans (hfits child hmem).le)
  have hbracket (es : List Expr) (hcollection : e.isCollection = true)
      (hes : ∀ first ∈ es.head?, first ∈ e.children) :
      brokenAfterBracket p.breaks e.span es = brokenAfterBracket p'.breaks e.span es := by
    cases es with
    | nil => rfl
    | cons first rest => exact hgap first (hes first rfl) (hholds.bracket hcollection _ (hes first rfl))
  cases e with
  | conditional span test consequent alternate =>
    have hafter := (List.pairwise_cons.mp hholds.inOrder).1 consequent (by simp)
    simp only [children, List.forall_mem_cons, Alike] at hchild
    obtain ⟨htest, hconsequent, halternate, -⟩ := hchild
    simp only [Alike, doc, hgap consequent (by simp [children]) hafter, htest, hconsequent,
      halternate]
  | array span elements =>
    have hbroken := hbracket elements rfl fun _ => List.mem_of_mem_head?
    have hdocs : docs p.breaks elements = docs p'.breaks elements := docs_eq_of_alike hchild
    rw [Expr.span] at hbroken
    simp only [Alike, doc, hbroken, hdocs]
  | object span properties =>
    have hbroken := hbracket (properties.map Property.key) rfl
      (by cases properties <;> simp [children])
    rw [Expr.span] at hbroken
    simp only [Alike, doc, hbroken, propertyDocs_eq_of_alike hchild]
  | call _ callee arguments _ | filter _ callee _ arguments =>
    obtain ⟨hcallee, harguments⟩ := List.forall_mem_cons.mp hchild
    rw [Alike] at hcallee
    simp only [Alike, doc, hcallee, docs_eq_of_alike harguments]
  | arrow _ params body =>
    obtain ⟨hparams, hbody⟩ := List.forall_mem_append.mp hchild
    rw [List.forall_mem_singleton, Alike] at hbody
    simp only [Alike, doc, docs_eq_of_alike hparams, hbody]
  | _ =>
    simp only [children, List.forall_mem_cons, Alike] at hchild
    simp only [Alike, doc, hchild]
termination_by sizeOf e

end Expr

/-! ## Attributes -/

lemma IsBoundary.le_byteLength (h : IsBoundary source offset) : offset ≤ byteLength source := by
  obtain ⟨before, after, rfl, rfl⟩ := h
  rw [byteLength_append]
  exact Nat.le_add_right ..

/-- **A part of a value is printed alike**, as is its expression on its own. -/
def AttributePart.Alike (p p' : Printing) : AttributePart → Prop
  | .text _ => True
  | .tag span e => e.Alike p p' ∧ tagDoc p.breaks span.start e = tagDoc p'.breaks span.start e

def Attribute.Alike (p p' : Printing) (a : Attribute) : Prop := a.doc p.breaks = a.doc p'.breaks

namespace MarkupGrammar

variable {cur next : Cursor} {st st' : Stream} {e : Expr} {parts : List AttributePart}
  {doubleQuotes selfClosing : Bool} {value : Option (List AttributePart)} {a : Attribute}
  {attributes : List Attribute}

lemma fits_of_derives (h : Grammar.Derives (.expression e) st st') (hst : st.IsIn source) :
    e.Fits (byteLength source) ∧ st.current.span.start ≤ e.span.start := by
  obtain ⟨hstart, hnests, hstop⟩ := h.row hst
  exact ⟨⟨hnests, hstop.trans (h.isIn_next hst).1.lastStop.le_byteLength⟩, hstart⟩

/-- What is read after two characters stands two bytes later. -/
lemma offset_of_at (hat : st.At (cur.skip 2)) (h : Grammar.Derives (.expression e) st st') :
    cur.offset + 2 ≤ st.lastStop := by
  have hlt := (Grammar.gives_expression_iff.mpr h).lt
  have hne : st.current.lexeme ≠ .finish := by
    intro hfinish
    simp [Stream.remaining, hfinish] at hlt
  have hread := Token.read_remaining_lt hat.read hne
  rw [hat.lastStop, Cursor.skip]
  rcases hrest : cur.rest with _ | ⟨c, _ | ⟨d, cs⟩⟩
  · simp [Cursor.remaining, hrest] at hread
  · simp [Cursor.remaining, hrest] at hread
  · have hc := Char.utf8Size_pos c
    have hd := Char.utf8Size_pos d
    simp only [List.take_succ_cons, List.take_zero, byteLength]
    omega

lemma alike_plain (h : ∀ part ∈ value.getD [], part.Alike p p') :
    (Attribute.plain span name value doubleQuotes).Alike p p' := by
  cases value with
  | none => rfl
  | some parts =>
    have hparts : parts.map (·.doc p.breaks) = parts.map (·.doc p'.breaks) := by
      refine List.map_congr_left fun part hmem => ?_
      cases part with
      | text data => rfl
      | tag span e => exact (h _ hmem).2
    simp only [Attribute.Alike, Attribute.doc, plainDoc, hparts]

lemma alike_of_directiveOf? (h : directiveOf? span nameSpan name value = .ok (some a))
    (hvalue : ∀ part ∈ value.getD [], part.Alike p p') : a.Alike p p' := by
  obtain ⟨_, _, kind, expr, -, -, rfl, ⟨rfl, rfl⟩ | ⟨span', e, rfl, rfl⟩⟩ := cases_of_directiveOf? h
  · split <;> rfl
  · have halike : e.doc p.breaks = e.doc p'.breaks := (hvalue _ (List.mem_singleton_self _)).1
    simp only [Attribute.Alike, Attribute.doc, directiveDoc, Doc.ofOption, halike]

section Agreeing

variable (hp : p.AgreesOn (byteLength source) p')
include hp

lemma alike_of_derives (h : Grammar.Derives (.expression e) st st') (hst : st.IsIn source) :
    e.Alike p p' :=
  (fits_of_derives h hst).1.alike hp

lemma tagDoc_eq_of_derives (hat : st.At (cur.skip 2)) (h : Grammar.Derives (.expression e) st st')
    (hcur : cur.IsIn source) : tagDoc p.breaks cur.offset e = tagDoc p'.breaks cur.offset e := by
  have hst := hat.isIn (hcur.trans (cur.reaches_skip 2))
  obtain ⟨hfits, hstart⟩ := fits_of_derives h hst
  have hgap := hp.breaks 1 _ _ ((offset_of_at hat h).trans (hst.le.trans hstart))
    (hfits.nests.holds.lt.le.trans hfits.le)
  have halike : e.doc p.breaks = e.doc p'.breaks := hfits.alike hp
  simp only [tagDoc, hgap, halike]

lemma Embeds.alike (h : Embeds cur e next) (hcur : cur.IsIn source) :
    (AttributePart.tag (cur.spanTo next) e).Alike p p' := by
  obtain ⟨st, st₁, hat, he, -⟩ := h
  exact ⟨alike_of_derives hp he (hat.isIn (hcur.trans (cur.reaches_skip 2))),
    tagDoc_eq_of_derives hp hat he hcur⟩

lemma OptionalValue.alike (h : OptionalValue cur value doubleQuotes next) (hcur : cur.IsIn source) :
    ∀ part ∈ value.getD [], part.Alike p p' :=
  (h.all ⟨fun n hcur => hcur.trans (Cursor.reaches_skip _ n), fun _ => trivial,
    fun hcur htag => ⟨htag.alike hp hcur, hcur.trans htag.reaches⟩⟩ hcur).1

lemma ReadsAttribute.alike (h : ReadsAttribute cur next a) (hcur : cur.IsIn source) :
    a.Alike p p' := by
  cases h with
  | spread hat hmark he _ =>
    have halike : _ = _ := alike_of_derives hp he
      (hmark.next.isIn (hat.isIn (hcur.trans (cur.reaches_skip 2))))
    simp only [Attribute.Alike, Attribute.doc, halike]
  | shorthand he _ =>
    exact alike_plain (List.forall_mem_singleton.mpr (he.alike hp hcur))
  | directive _ hvalue hfound =>
    exact alike_of_directiveOf? hfound (hvalue.alike hp (hcur.trans (cur.reaches_skip _)))
  | plain _ hvalue _ =>
    exact alike_plain (hvalue.alike hp (hcur.trans (cur.reaches_skip _)))

/-- **The gap before an attribute** is a region of the source. -/
lemma ReadsAttribute.breaks_eq (h : ReadsAttribute cur.skipBlanks next a) (hcur : cur.IsIn source)
    (count : Nat) :
    p.breaks count cur.offset a.span.start = p'.breaks count cur.offset a.span.start := by
  rw [h.span_eq]
  exact hp.breaks _ _ _ cur.reaches_skipBlanks.offset_le
    (hcur.trans cur.reaches_skipBlanks).isBoundary.le_byteLength

lemma ReadsAttributes.alike (h : ReadsAttributes cur attributes selfClosing next)
    (hcur : cur.IsIn source) :
    (∀ a ∈ attributes, a.Alike p p') ∧ ∀ previous : Option Attribute,
      (∀ a ∈ previous, a.span.stop = cur.offset) →
      wrappedAttributes p.breaks previous attributes =
        wrappedAttributes p'.breaks previous attributes := by
  induction h with
  | selfClosing _ | close _ => simp [wrappedAttributes]
  | @cons cur after next first rest selfClosing hfirst hrest ih =>
    have hplace := hcur.trans cur.reaches_skipBlanks
    obtain ⟨hlater, hwrapped⟩ := ih (hplace.trans hfirst.reaches)
    have halike : first.doc p.breaks = first.doc p'.breaks := hfirst.alike hp hplace
    refine ⟨List.forall_mem_cons.mpr ⟨halike, hlater⟩, fun previous hprevious => ?_⟩
    have hblank : (previous.any fun a => p.breaks 2 a.span.stop first.span.start) =
        previous.any fun a => p'.breaks 2 a.span.stop first.span.start := by
      cases previous with
      | none => rfl
      | some a =>
        rw [Option.any_some, Option.any_some, hprevious a rfl]
        exact hfirst.breaks_eq hp hcur 2
    have hafter : ∀ a ∈ some first, a.span.stop = after.offset := by simp [hfirst.span_eq, Cursor.spanTo]
    rw [wrappedAttributes, wrappedAttributes, hblank, halike, hwrapped _ hafter]

lemma attributesDoc_eq_of_reads (h : ReadsAttributes cur attributes selfClosing next)
    (hcur : cur.IsIn source) (hoffset : cur.offset = start + byteLength name.toList + 1) :
    wrapsAttributes p.breaks start name attributes = wrapsAttributes p'.breaks start name attributes ∧
    attributesDoc p.breaks start name attributes = attributesDoc p'.breaks start name attributes := by
  obtain ⟨halike, hwrapped⟩ := h.alike hp hcur
  have hwraps : wrapsAttributes p.breaks start name attributes =
      wrapsAttributes p'.breaks start name attributes := by
    cases h with
    | selfClosing _ | close _ => rfl
    | cons hfirst _ =>
      have hgap := hfirst.breaks_eq hp hcur 1
      rwa [hoffset] at hgap
  have hdocs : (attributes.map fun a => Doc.text " " ++ a.doc p.breaks) =
      attributes.map fun a => Doc.text " " ++ a.doc p'.breaks :=
    List.map_congr_left fun a ha => by rw [halike a ha]
  refine ⟨hwraps, ?_⟩
  rw [attributesDoc, attributesDoc, hwraps, hwrapped none (by simp), hdocs]

end Agreeing

end MarkupGrammar

/-! ## Nodes -/

namespace Node

variable {nodes children consequent : List Node} {alternate : Option (List Node)} {span : Span}
  {branch : Bool}

def Alike (p p' : Printing) (n : Node) : Prop := n.doc p = n.doc p'

def AllAlike (p p' : Printing) (nodes : List Node) : Prop := ∀ n ∈ nodes, n.Alike p p'

lemma AllAlike.cons {n : Node} (hn : n.Alike p p') (hnodes : AllAlike p p' nodes) :
    AllAlike p p' (n.cons nodes) :=
  Node.forall_mem_cons (fun _ _ => by simp [Alike, doc]) hn hnodes

lemma AllAlike.siblings_eq (h : AllAlike p p' nodes) :
    Node.siblings p nodes = Node.siblings p' nodes := by
  rw [siblings_eq_map, siblings_eq_map]
  refine List.map_congr_left fun n hn => ?_
  cases n with
  | text _ _ => rfl
  | _ => exact congrArg Sibling.node (h _ hn)

lemma AllAlike.plainDocs_eq (h : AllAlike p p' nodes) :
    Node.plainDocs p nodes = Node.plainDocs p' nodes := by
  induction nodes with
  | nil => simp [plainDocs]
  | cons n nodes ih =>
    obtain ⟨hn, hnodes⟩ := List.forall_mem_cons.mp h
    rw [plainDocs, plainDocs, hn, ih hnodes]

lemma alike_element (hp : p.AgreesOn (byteLength source) p')
    (hopens : (Node.element span kind name attributes children).OpensIn source)
    (hchildren : AllAlike p p' children) :
    (Node.element span kind name attributes children).Alike p p' := by
  obtain ⟨ctx, selfClosing, after, next, hname, hafter, hoffset, hattributes⟩ := hopens
  obtain ⟨hwraps, hdoc⟩ := MarkupGrammar.attributesDoc_eq_of_reads hp
    (MarkupGrammar.readsAttributes_of_gives hattributes) hafter hoffset
  cases kind with
  | title =>
    obtain rfl := MarkupGrammar.eq_title_of_elementKind hname.kind_eq
    simp only [Alike, doc, elementDoc, hdoc, hchildren.siblings_eq]
  | _ => simp only [Alike, doc, elementDoc, hwraps, hdoc, hp.script, hchildren.siblings_eq]

lemma alike_ifBlock (htest : test.Alike p p') (hconsequent : AllAlike p p' consequent)
    (halternate : ∀ nodes ∈ alternate, AllAlike p p' nodes) :
    (Node.ifBlock span branch test consequent alternate).Alike p p' := by
  rw [Expr.Alike] at htest
  cases alternate with
  | none => simp only [Alike, doc, htest, hconsequent.siblings_eq]
  | some nodes =>
    have halternate := halternate nodes rfl
    simp only [Alike, doc, htest, hconsequent.siblings_eq, halternate.siblings_eq,
      halternate.plainDocs_eq]

lemma outcomeTag_eq_of_alike {name : Option Expr} (h : ∀ e ∈ name, e.Alike p p') (word : String) :
    outcomeTag p.breaks word name = outcomeTag p'.breaks word name := by
  have hname := Doc.ofOption_congr fun e he => congrArg (Doc.text " " ++ ·) (h e he)
  rw [outcomeTag, outcomeTag, hname]

lemma alike_forBlock {index key : Option Expr} (hindex : ∀ e ∈ index, e.Alike p p')
    (hitem : item.Alike p p') (hsubject : subject.Alike p p') (hkey : ∀ e ∈ key, e.Alike p p')
    (hbody : AllAlike p p' body) (hfallback : ∀ nodes ∈ fallback, AllAlike p p' nodes) :
    (Node.forBlock span index item subject key body fallback).Alike p p' := by
  have htag : loopTag p.breaks index item subject key = loopTag p'.breaks index item subject key := by
    have hindex := Doc.ofOption_congr fun e he => congrArg (· ++ Doc.text ", ") (hindex e he)
    have hkey := Doc.ofOption_congr fun e he =>
      congrArg (fun doc => Doc.text " #(" ++ doc ++ Doc.text ")") (hkey e he)
    rw [loopTag, loopTag, hindex, hitem, hsubject, hkey]
  cases fallback with
  | none => simp only [Alike, doc, htag, hbody.siblings_eq]
  | some nodes => simp only [Alike, doc, htag, hbody.siblings_eq, (hfallback nodes rfl).siblings_eq]

lemma alike_awaitBlock {value error : Option Expr} {pending resolved rejected : Option (List Node)}
    (he : e.Alike p p') (hvalue : ∀ e ∈ value, e.Alike p p') (herror : ∀ e ∈ error, e.Alike p p')
    (hpending : ∀ nodes ∈ pending, AllAlike p p' nodes)
    (hresolved : ∀ nodes ∈ resolved, AllAlike p p' nodes)
    (hrejected : ∀ nodes ∈ rejected, AllAlike p p' nodes) :
    (Node.awaitBlock span e value error pending resolved rejected).Alike p p' := by
  replace hvalue := outcomeTag_eq_of_alike hvalue
  replace herror := outcomeTag_eq_of_alike herror
  have hsiblings (nodes : List Node) (h : AllAlike p p' nodes) :
      Node.siblings p nodes = Node.siblings p' nodes := h.siblings_eq
  rw [Expr.Alike] at he
  cases pending <;> cases resolved <;> cases rejected <;>
    simp_all [Alike, doc, awaitDoc, outcomeDoc, Doc.ofOption]

end Node

namespace MarkupGrammar

open Node (AllAlike alike_element alike_ifBlock alike_forBlock alike_awaitBlock)

variable {cur next : Cursor} {st st' : Stream} {e : Expr} {phrase : Phrase}

def Phrase.Alike (p p' : Printing) : Phrase → Prop
  | .sequence _ _ nodes => AllAlike p p' nodes
  | .item _ (.node n) => n.Alike p p'
  | .item _ (.importTag _) => True
  | .item _ (.raw element) => element.toNode.Alike p p' ∧ ∀ a ∈ element.attributes, a.Alike p p'
  | .branches _ consequent alternate => AllAlike p p' consequent ∧
      ∀ nodes ∈ alternate, AllAlike p p' nodes
  | .alternative _ alternate | .elseBranch _ _ alternate =>
    ∀ nodes ∈ alternate, AllAlike p p' nodes
  | .outcome _ _ _ name content => (∀ e ∈ name, e.Alike p p') ∧
      ∀ nodes ∈ content, AllAlike p p' nodes
  | .outcomes _ opening value error pending resolved rejected =>
    (∀ e ∈ opening.name?, e.Alike p p') → (∀ e ∈ value, e.Alike p p') ∧
      (∀ e ∈ error, e.Alike p p') ∧ (∀ nodes ∈ pending, AllAlike p p' nodes) ∧
      (∀ nodes ∈ resolved, AllAlike p p' nodes) ∧ ∀ nodes ∈ rejected, AllAlike p p' nodes

lemma alike_of_isParam (h : e.IsParam) : e.Alike p p' := by
  cases e with
  | identifier _ _ => rfl
  | _ => cases h

variable (hp : p.AgreesOn (byteLength source) p')
include hp

lemma LoopKey.alike (h : LoopKey st key st') (hst : st.IsIn source) : ∀ e ∈ key, e.Alike p p' := by
  cases h with
  | none _ => simp
  | some hhash hopen hkey _ =>
    rintro _ ⟨⟩
    exact alike_of_derives hp hkey (hopen.next.isIn (hhash.next.isIn hst))

lemma InlineTag.alike (h : InlineTag cur next n) (hcur : cur.IsIn source) : n.Alike p p' := by
  have hinside := hcur.trans (cur.reaches_skip 2)
  cases h with
  | expression hat _ he _ =>
    rw [Node.Alike, Node.doc, Node.doc]
    exact tagDoc_eq_of_derives hp hat he hcur
  | html hat hsign hword he _ | render hat hsign hword he _ _ =>
    have halike : _ = _ := alike_of_derives hp he
      (hword.next.isIn (hsign.next.isIn (hat.isIn hinside)))
    simp only [Node.Alike, Node.doc, halike]

lemma Derives.alike (h : Derives phrase cur next) (hcur : cur.IsIn source) : phrase.Alike p p' := by
  induction h with
  | stop _ => simp [Phrase.Alike, AllAlike]
  | cons _ hitem hfirst _ ihitem ihrest =>
    have hrest := ihrest (hcur.trans hitem.reaches)
    have hfound := ihitem hcur
    obtain rfl | ⟨element, rfl, rfl⟩ := hfirst.eq_node_or_raw
    · exact AllAlike.cons hfound hrest
    · exact AllAlike.cons hfound.1 hrest
  | text _ _ | comment _ _ => simp [Phrase.Alike, Node.Alike, Node.doc]
  | importTag _ _ _ => trivial
  | inlineTag _ htag => exact htag.alike hp hcur
  | variableTag _ hopens he _ _ =>
    have halike : _ = _ := alike_of_derives hp he (hopens.isIn hcur)
    simp only [Phrase.Alike, Node.Alike, Node.doc, halike]
  | complete hrest hc htag _ =>
    exact alike_element hp (opensIn_of_gives hrest hc htag hcur _ _) (by simp [AllAlike])
  | raw hrest hc htag hcomplete hraw hcode =>
    have hopens := opensIn_of_derives_item (.raw hrest hc htag hcomplete hraw hcode) hcur
      (.inr ⟨_, rfl, rfl⟩)
    obtain ⟨-, -, hattributes⟩ := (gives_openingTag_iff rfl).mp htag
    refine ⟨alike_element hp hopens ?_,
      ((readsAttributes_of_gives hattributes).alike hp (hcur.trans (Cursor.reaches_skip ..))).1⟩
    split <;> simp [AllAlike, Node.Alike, Node.doc]
  | element hrest hc htag _ _ hchildren _ ih =>
    exact alike_element hp (opensIn_of_gives hrest hc htag hcur _ _) (ih (by grind))
  | ifBlock _ hopens htest hend _ ih =>
    obtain ⟨hconsequent, halternate⟩ := ih (by grind)
    exact alike_ifBlock (alike_of_derives hp htest (hopens.isIn hcur)) hconsequent halternate
  | branches hconsequent halternate ihconsequent ihalternate =>
    exact ⟨ihconsequent hcur, ihalternate (hcur.trans hconsequent.reaches)⟩
  | elseif _ hopens htest hend _ ih =>
    obtain ⟨hconsequent, halternate⟩ := ih (by grind)
    have htest := alike_of_derives hp htest (hopens.isIn hcur)
    rintro nodes ⟨⟩
    exact List.forall_mem_singleton.mpr (alike_ifBlock htest hconsequent halternate)
  | otherwise _ _ _ ih => exact ih hcur
  | noElse _ => simp [Phrase.Alike]
  | elseBranch _ htag _ ih =>
    rintro nodes ⟨⟩
    exact ih (by grind)
  | forBlock _ hopens hnames hin hsubject hkey hend hbody hfallback _ ihbody ihfallback =>
    obtain ⟨hindex, hitem, -⟩ := hnames.isParam hopens.isSound
    have hsubjectIn := hin.next.isIn (hnames.isIn (hopens.isIn hcur)).1
    exact alike_forBlock (fun e he => alike_of_isParam (hindex e he)) (alike_of_isParam hitem)
      (alike_of_derives hp hsubject hsubjectIn)
      (hkey.alike hp (isIn_expression hsubject hsubjectIn).1) (ihbody (by grind))
      (ihfallback (by grind [→ Derives.reaches]))
  | keyBlock _ hopens he hend hbody _ ih =>
    have halike : _ = _ := alike_of_derives hp he (hopens.isIn hcur)
    have hbody : AllAlike _ _ _ := ih (by grind)
    simp only [Phrase.Alike, Node.Alike, Node.doc, halike, hbody.siblings_eq]
  | snippetBlock _ hopens hname hopen hparams hparen hend hbody _ ih =>
    have hparams := (Grammar.wellFormed_of_derives hparams hopen.next.isSound).1
    have hdocs : Expr.docs p.breaks _ = Expr.docs p'.breaks _ :=
      Expr.docs_eq_of_alike fun e he => alike_of_isParam (hparams e he)
    have hbody : AllAlike _ _ _ := ih (by grind)
    simp only [Phrase.Alike, Node.Alike, Node.doc, hdocs, hbody.siblings_eq]
  | awaitBlock _ hopens he hopening houtcomes ih =>
    obtain ⟨hvalue, herror, hpending, hresolved, hrejected⟩ :=
      ih (by grind) fun e he => alike_of_isParam (hopening.isParam e he)
    exact alike_awaitBlock (alike_of_derives hp he (hopens.isIn hcur)) hvalue herror hpending
      hresolved hrejected
  | noOutcome _ => simp [Phrase.Alike]
  | outcome _ htag hnodes ih =>
    refine ⟨fun e he => alike_of_isParam (htag.isParam e he), ?_⟩
    rintro nodes ⟨⟩
    exact ih (by grind)
  | _ =>
    simp only [Phrase.Alike, AwaitOpening.name?] at *
    grind [→ Derives.reaches]

end MarkupGrammar

/-! ## Components -/

lemma Grammar.ScriptDerives.alike {phrase : ScriptPhrase} {st st' : Stream}
    (hp : p.AgreesOn (byteLength source) p') (h : ScriptDerives phrase st st')
    (hst : st.IsIn source) : ∀ e ∈ phrase.exprs, e.Alike p p' := by
  induction h with
  | done _ => simp [ScriptPhrase.exprs, Statement.exprsOf]
  | skip hsemicolon _ ih => exact ih (hsemicolon.next.isIn hst)
  | cons hfirst _ ihfirst ihrest =>
    exact List.forall_mem_append.mpr ⟨ihfirst hst, ihrest (hfirst.isIn hst).1⟩
  | block hopen _ _ ih => exact ih (hopen.next.isIn hst)
  | ended _ hexpr _ | last _ hexpr _ =>
    exact List.forall_mem_singleton.mpr (MarkupGrammar.alike_of_derives hp hexpr hst)

mutual

lemma Statement.doc_eq_of_alike : ∀ s : Statement, (∀ e ∈ s.exprs, e.Alike p p') →
    s.doc p.breaks = s.doc p'.breaks
  | .expression _ e, h => by
    have he : e.doc p.breaks = e.doc p'.breaks := h e (List.mem_singleton_self e)
    rw [Statement.doc, Statement.doc, he]
  | .block _ body, h => by
    rw [Statement.doc, Statement.doc, Statement.linesDoc_eq_of_alike body h]

lemma Statement.linesDoc_eq_of_alike : ∀ body : List Statement,
    (∀ e ∈ Statement.exprsOf body, e.Alike p p') →
      Statement.linesDoc p.breaks body = Statement.linesDoc p'.breaks body
  | [], _ => rfl
  | s :: rest, h => by
    obtain ⟨hs, hrest⟩ := List.forall_mem_append.mp h
    rw [Statement.linesDoc, Statement.linesDoc, Statement.doc_eq_of_alike s hs,
      Statement.linesDoc_eq_of_alike rest hrest]

end

namespace Component

structure Alike (p p' : Printing) (component : Component) : Prop where
  nodes : Node.AllAlike p p' component.nodes
  script : ∀ block ∈ component.script, ∀ e ∈ Statement.exprsOf block.body, e.Alike p p'
  style : ∀ block ∈ component.style, ∀ a ∈ block.attributes, a.Alike p p'

variable {component : Component}

lemma Derives.alike (hp : p.AgreesOn (byteLength source) p')
    (h : Derives ctx hasScript hasStyle component cur next) (hcur : cur.IsIn source) :
    component.Alike p p' := by
  induction h with
  | stop _ => constructor <;> simp [Node.AllAlike, Component.empty]
  | cons _ hitem hpart _ ih =>
    have hlater := ih (hcur.trans hitem.reaches)
    have hfound := hitem.alike hp hcur
    have hin := hitem.isIn hcur
    cases hpart with
    | node n => exact ⟨Node.AllAlike.cons hfound hlater.nodes, hlater.script, hlater.style⟩
    | importTag tag => exact ⟨hlater.nodes, hlater.script, hlater.style⟩
    | script _ _ hbody =>
      refine ⟨hlater.nodes, ?_, hlater.style⟩
      rintro _ ⟨⟩
      -- the text of the script is read up to its end, with what stands before it
      obtain ⟨copy, tail, rfl, hcursor⟩ := hin.cursor
      obtain ⟨st, st', hat, hderives⟩ := Statement.ofCursor_eq_ok_iff.mp hbody
      exact hderives.alike (hp.mono (by simp)) (hat.isIn hcursor)
    | style _ _ _ =>
      refine ⟨hlater.nodes, hlater.script, ?_⟩
      rintro _ ⟨⟩
      exact hfound.2
    | raw _ _ => exact ⟨Node.AllAlike.cons hfound.1 hlater.nodes, hlater.script, hlater.style⟩

lemma Alike.doc_eq (h : component.Alike p p') (sheet : List StyleNode) :
    component.doc p sheet = component.doc p' sheet := by
  have hscript : ∀ block ∈ component.script, block.doc p.breaks = block.doc p'.breaks := by
    intro block hblock
    rw [ScriptBlock.doc, ScriptBlock.doc, Statement.linesDoc_eq_of_alike _ (h.script block hblock)]
  have hstyle : ∀ block ∈ component.style, block.doc p.breaks sheet = block.doc p'.breaks sheet := by
    intro block hblock
    have hdocs : (block.attributes.map fun a => Doc.text " " ++ a.doc p.breaks) =
        block.attributes.map fun a => Doc.text " " ++ a.doc p'.breaks :=
      List.map_congr_left fun a ha => congrArg (Doc.text " " ++ ·) (h.style block hblock a ha)
    rw [StyleBlock.doc, StyleBlock.doc, hdocs]
  simp only [Component.doc, Doc.ofOption_congr hscript, h.nodes.siblings_eq]
  congr 1
  exact Doc.ofOption_congr fun block hblock => by rw [hstyle block hblock]

end Component

/-- **Regions nest, and a printer asks about places in their order.** The children of an expression
stand in its region one after another, at every depth and wherever it is read. So an accepted
source has the same document for any two answers to a question about places that are out of order
or not in the source; each answer that a printer takes shows in the document. -/
theorem nests_and_asks_inOrder (source : String) :
    (∀ st : Stream, st.IsIn source.toList → ∀ e st', Gives (Grammar.expression st) e st' →
      e.Nests ∧ st.current.span.start ≤ e.span.start ∧
        e.span.stop ≤ byteLength source.toList) ∧
    ∀ special component, Component.parse source special = .ok component →
      ∀ p p' : Printing, p.AgreesOn (byteLength source.toList) p' → ∀ sheet,
        component.doc p sheet = component.doc p' sheet := by
  constructor
  · intro st hst e st' h
    obtain ⟨hfits, hstart⟩ := MarkupGrammar.fits_of_derives (Grammar.gives_expression_iff.mp h) hst
    exact ⟨hfits.nests, hstart, hfits.le⟩
  · intro special component hparse p p' hp sheet
    obtain ⟨next, hderives⟩ := Component.ofChars_eq_ok_iff.mp (Component.parse_eq_ok_iff.mp hparse)
    exact (hderives.alike hp (Cursor.isIn_ofSource _)).doc_eq sheet

/-- A choice that starts with a list, in a tag, and answers that differ out of order. -/
theorem nests_and_asks_inOrder_choice :
    let source := "\x7b\x7b\n[a] ?\nb : c \x7d\x7d"
    let st : Stream := ⟨⟨.mark "[", ⟨3, 4⟩⟩, ⟨4, "a] ?\nb : c \x7d\x7d".toList⟩, 2⟩
    let breaks := (LineBreaks.ofSource source.toList).atLeast
    (∃ e st', st.IsIn source.toList ∧ Gives (Grammar.expression st) e st' ∧ e.Nests) ∧
    ∃ component, Component.parse source "zvelte" = .ok component ∧
      component.doc ⟨breaks, id⟩ [] = component.doc
        ⟨fun count start stop => decide (stop < start) || breaks count start stop, id⟩ [] := by
  intro source st breaks
  obtain ⟨hnests, hasks⟩ := nests_and_asks_inOrder source
  have hcur : Cursor.IsIn source.toList ⟨2, "\n[a] ?\nb : c \x7d\x7d".toList⟩ :=
    ⟨"\x7b\x7b".toList, by decide, by decide⟩
  have hst : st.IsIn source.toList :=
    Stream.At.isIn ⟨by decide +kernel, rfl⟩ hcur
  obtain ⟨read, hread⟩ := exists_eq_ok_of_isOk (x := Grammar.expression st) (by decide +kernel)
  obtain ⟨component, hparse⟩ :=
    exists_eq_ok_of_isOk (x := Component.parse source "zvelte") (by decide +kernel)
  refine ⟨⟨_, _, hst, .of_eq_ok hread, (hnests st hst _ _ (.of_eq_ok hread)).1⟩, component, hparse,
    hasks "zvelte" component hparse _ _ ?_ []⟩
  exact ⟨rfl, fun count start stop hle _ => by simp [Nat.not_lt.mpr hle]⟩

end ComponentTemplate
