import ComponentTemplate.Proofs.Blocks
import ComponentTemplate.Proofs.Regions
import ComponentTemplate.Proofs.TopLevel

/-!
# Regions of markup

A component keeps the regions of everything that was read: nodes, attributes, expressions,
statements and the constructs that are set apart. All of them are regions of the source. Below,
every phrase of markup is seen to lead from a place to a later one, and a block tag to end with the
first mark that can end it.
-/

namespace ComponentTemplate

open Cursor Component

variable {source : List Char}

lemma Stream.Steps.reaches (h : Steps st st') : st.after.Reaches st'.after := by
  induction h with
  | refl => exact .refl _
  | @tail mid last _ hstep ih =>
    -- the last step reads a token where the one before it ends
    have hat : (⟨last.current, last.after, mid.after.offset⟩ : Stream).At mid.after :=
      ⟨hstep.next.read, rfl⟩
    exact ih.trans hat.reaches

namespace MarkupGrammar

variable {st st' : Stream} {cur next : Cursor} {word : String} {e : Expr}

/-! ## Tags -/

lemma OpensTag.reaches (h : OpensTag word cur st) : cur.Reaches st.after := by
  obtain ⟨st₀, hat, hword⟩ := h
  have hstep : Stream.Steps st₀ st := .single (hword.stepsInside nofun)
  exact (cur.reaches_skip 2).trans (hat.reaches.trans hstep.reaches)

lemma OpensTag.isIn (h : OpensTag word cur st) (hcur : cur.IsIn source) : st.IsIn source := by
  obtain ⟨st₀, hat, hword⟩ := h
  exact hword.next.isIn (hat.isIn (hcur.trans (cur.reaches_skip 2)))

/-- **The tokens of a block tag**: its word, and all others up to the first mark that ends it. -/
def TagTokens (word : String) (cur next : Cursor) : Prop :=
  ∃ st st', OpensTag word cur st ∧ Stream.Steps st st' ∧ st'.EndsBlock next

lemma TagTokens.reaches (h : TagTokens word cur next) : cur.Reaches next := by
  obtain ⟨st, st', hopens, hsteps, hend⟩ := h
  rw [hend.next_eq]
  exact hopens.reaches.trans hsteps.reaches

lemma WordTag.tagTokens (h : WordTag word cur next) : TagTokens word cur next := by
  obtain ⟨st, hopens, hend⟩ := h
  exact ⟨st, st, hopens, .refl, hend⟩

lemma steps_of_passesParam (h : st.PassesParam e st') : Stream.Steps st st' := by
  obtain ⟨_, -, -, hname⟩ := h
  exact .single (hname.stepsInside nofun)

lemma Binds.steps (h : Binds st name st') : Stream.Steps st st' := by
  cases name with
  | none => rw [h.2]
  | some e => exact steps_of_passesParam h

lemma BindingTag.tagTokens (h : BindingTag word name cur next) : TagTokens word cur next := by
  obtain ⟨st, st', hopens, hname, hend⟩ := h
  exact ⟨st, st', hopens, hname.steps, hend⟩

lemma OpensAwait.steps (h : OpensAwait st next opening) :
    ∃ st', Stream.Steps st st' ∧ st'.EndsBlock next := by
  cases h with
  | pending hend => exact ⟨st, .refl, hend⟩
  | resolved hword hname hend | rejected hword hname hend =>
    exact ⟨_, .head (hword.stepsInside nofun) hname.steps, hend⟩

lemma LoopNames.steps (h : LoopNames st index e st') : Stream.Steps st st' := by
  cases h with
  | item hitem _ => exact steps_of_passesParam hitem
  | both hindex hcomma hitem =>
    exact (steps_of_passesParam hindex).trans
      (.head (hcomma.stepsInside (by decide)) (steps_of_passesParam hitem))

lemma LoopKey.steps (h : LoopKey st key st') : Stream.Steps st st' := by
  cases h with
  | none _ => exact .refl
  | some hhash hopen hkey hclose =>
    exact .head (hhash.stepsInside (by decide)) (.head (hopen.stepsInside (by decide))
      ((hkey.steps trivial).tail (hclose.stepsInside (by decide))))

lemma tagTokens_of_importTag (hopens : OpensTag "import" cur st)
    (h : Gives (MarkupGrammar.importTag cur st) tag next) :
    TagTokens "import" cur next ∧ tag.span = cur.spanTo next := by
  obtain ⟨st₁, st₂, st₃, raw, hname, hfrom, htext, hend, htag⟩ := gives_importTag_iff.mp h
  exact ⟨⟨st, st₃, hopens, .head (hname.stepsInside nofun) (.head (hfrom.stepsInside nofun)
    (.single (htext.stepsInside nofun))), hend⟩, congrArg Import.span htag⟩

lemma tagTokens_expression (hopens : OpensTag word cur st)
    (he : Grammar.Derives (.expression e) st st') (hend : st'.EndsBlock next) :
    TagTokens word cur next :=
  ⟨st, st', hopens, he.steps trivial, hend⟩

lemma tagTokens_loop (hopens : OpensTag "for" cur st) (hnames : LoopNames st index name st₁)
    (hin : st₁.Passes (.word "in") st₂) (hsubject : Grammar.Derives (.expression subject) st₂ st₃)
    (hkey : LoopKey st₃ key st') (hend : st'.EndsBlock next) : TagTokens "for" cur next :=
  ⟨st, st', hopens, hnames.steps.trans (.head (hin.stepsInside nofun)
    ((hsubject.steps trivial).trans hkey.steps)), hend⟩

lemma tagTokens_snippet (hopens : OpensTag "snippet" cur st) (hname : st.Passes (.word name) st₁)
    (hopen : st₁.Passes (.mark "(") st₂) (hparams : Grammar.Derives (.params params) st₂ st₃)
    (hclose : st₃.Passes (.mark ")") st') (hend : st'.EndsBlock next) :
    TagTokens "snippet" cur next :=
  ⟨st, st', hopens, .head (hname.stepsInside nofun) (.head (hopen.stepsInside (by decide))
    ((hparams.steps trivial).tail (hclose.stepsInside (by decide)))), hend⟩

lemma tagTokens_await (hopens : OpensTag "await" cur st)
    (he : Grammar.Derives (.expression e) st st') (hopening : OpensAwait st' next opening) :
    TagTokens "await" cur next := by
  obtain ⟨st₁, hsteps, hend⟩ := hopening.steps
  exact ⟨st, st₁, hopens, (he.steps trivial).trans hsteps, hend⟩

/-! ## Inline tags -/

/-- **The tokens of an inline tag** go up to two adjacent braces. -/
theorem reads_inline (hat : st.At (cur.skip 2)) (hsteps : Stream.Steps st st')
    (hend : st'.EndsInline next) :
    ∃ inner, (cur.skip 2).Reads (inner ++ ['}', '}']) next := by
  have hlast : ∃ start, (cur.skip 2).Reaches start ∧ start.Reads st'.current.lexeme.chars st'.after := by
    induction hsteps with
    | refl => exact ⟨_, reaches_skipBlanks _, hat.reads⟩
    | @tail mid last hsteps hstep _ =>
      have hlast : (⟨last.current, last.after, mid.after.offset⟩ : Stream).At mid.after :=
        ⟨hstep.next.read, rfl⟩
      have hmid : (cur.skip 2).Reaches mid.after := hat.reaches.trans (Stream.Steps.reaches hsteps)
      exact ⟨_, hmid.trans (reaches_skipBlanks _), hlast.reads⟩
  obtain ⟨start, ⟨inner, hinner⟩, hbrace⟩ := hlast
  rw [hend.lexeme_eq] at hbrace
  have hsecond : st'.after.Reads ['}'] next := by
    obtain ⟨cs, hcs⟩ : ∃ cs, st'.after.rest = '}' :: cs := by
      have hhead := hend.head_eq
      cases hrest : st'.after.rest with
      | nil => simp [hrest] at hhead
      | cons c cs =>
        rw [hrest] at hhead
        exact ⟨cs, by rw [Option.some.inj hhead]⟩
    have hskip := st'.after.reads_skip 1
    rw [hcs] at hskip
    rw [hend.next_eq]
    exact hskip
  have hall := (hinner.trans hbrace).trans hsecond
  rw [List.append_assoc] at hall
  exact ⟨inner, hall⟩

lemma Embeds.reaches (h : Embeds cur e next) : cur.Reaches next := by
  obtain ⟨st, st₁, hat, he, hend⟩ := h
  obtain ⟨inner, hinner⟩ := reads_inline hat (he.steps trivial) hend
  exact (cur.reaches_skip 2).trans hinner.reaches

lemma Embeds.isIn (h : Embeds cur e next) (hcur : cur.IsIn source) : SpansIn source e.spans := by
  obtain ⟨st, st₁, hat, he, -⟩ := h
  exact he.isIn (hat.isIn (hcur.trans (cur.reaches_skip 2)))

end MarkupGrammar

/-! ## Attributes -/

def AttributePart.spans : AttributePart → List Span
  | .text _ => []
  | .tag span e => span :: e.spans

/-- **The regions in an attribute**, at every depth. -/
def Attribute.spans : Attribute → List Span
  | .plain span _ value _ => span :: (value.getD []).flatMap AttributePart.spans
  | .spread span e => span :: e.spans
  | .directive span _ _ _ e => span :: e.elim [] Expr.spans

namespace MarkupGrammar

variable {cur next : Cursor} {doubleQuotes : Bool} {value : Option (List AttributePart)}
  {a : Attribute}

/-- The parts of a value that stands after a place have their regions there. -/
lemma partLaw_spans (start : Cursor) : PartLaw start.Reaches
    fun part => ∀ source, start.IsIn source → SpansIn source part.spans where
  skip n hcur := hcur.trans (reaches_skip _ n)
  text _ _ _ := spansIn_nil
  tag hcur htag := ⟨fun _ hstart => spansIn_cons.mpr
    ⟨(hstart.trans hcur).spanTo htag.reaches, htag.isIn (hstart.trans hcur)⟩,
    hcur.trans htag.reaches⟩

lemma OptionalValue.reaches (h : OptionalValue cur value doubleQuotes next) : cur.Reaches next :=
  (h.all (partLaw_spans cur) (.refl _)).2

lemma OptionalValue.isIn (h : OptionalValue cur value doubleQuotes next)
    (hcur : cur.IsIn source) :
    SpansIn source ((value.getD []).flatMap AttributePart.spans) :=
  List.forall_mem_flatMap.mpr fun part hpart =>
    (h.all (partLaw_spans cur) (.refl _)).1 part hpart source hcur

lemma spans_of_directiveOf? (h : directiveOf? span nameSpan name value = .ok (some found)) :
    found.span = span ∧
      found.spans ⊆ span :: nameSpan :: (value.getD []).flatMap AttributePart.spans := by
  obtain ⟨_, _, kind, expr, -, -, rfl, ⟨rfl, rfl⟩ | ⟨span', e, rfl, rfl⟩⟩ := cases_of_directiveOf? h
  · split <;> simp [Attribute.span, Attribute.spans, Expr.spans]
  · refine ⟨rfl, List.cons_subset_cons _ (List.subset_cons_of_subset _ ?_)⟩
    simp [AttributePart.spans]

lemma ReadsAttribute.reaches (h : ReadsAttribute cur next a) : cur.Reaches next := by
  cases h with
  | spread hat hmark he hend =>
    have hsteps : Stream.Steps _ _ := .head (hmark.stepsInside (by decide)) (he.steps trivial)
    obtain ⟨inner, hinner⟩ := reads_inline hat hsteps hend
    exact (cur.reaches_skip 2).trans hinner.reaches
  | shorthand he _ => exact he.reaches
  | directive _ hvalue _ | plain _ hvalue _ => exact (cur.reaches_skip _).trans hvalue.reaches

lemma ReadsAttribute.span_eq (h : ReadsAttribute cur next a) : a.span = cur.spanTo next := by
  cases h with
  | spread _ _ _ _ => rfl
  | shorthand _ _ => rfl
  | directive _ _ hfound => exact (spans_of_directiveOf? hfound).1
  | plain _ _ _ => rfl

lemma ReadsAttribute.isIn (h : ReadsAttribute cur next a) (hcur : cur.IsIn source) :
    SpansIn source a.spans := by
  have hspan := hcur.spanTo h.reaches
  cases h with
  | spread hat hmark he hend =>
    simp only [Attribute.spans, spansIn_cons]
    exact ⟨hspan, he.isIn (hmark.next.isIn (hat.isIn (hcur.trans (cur.reaches_skip 2))))⟩
  | shorthand he _ =>
    simp only [Attribute.spans, Option.getD_some, List.flatMap_cons, List.flatMap_nil,
      List.append_nil, AttributePart.spans, spansIn_cons]
    exact ⟨hspan, hspan, he.isIn hcur⟩
  | @directive c cs _ _ _ _ hvalue hfound =>
    have hname := hcur.spanTo (cur.reaches_skip (cs.length + 1))
    have hall := spansIn_cons.mpr ⟨hspan, spansIn_cons.mpr
      ⟨hname, hvalue.isIn (hcur.trans (cur.reaches_skip _))⟩⟩
    intro span hmem
    exact hall span ((spans_of_directiveOf? hfound).2 hmem)
  | plain _ hvalue _ =>
    simp only [Attribute.spans, spansIn_cons]
    exact ⟨hspan, hvalue.isIn (hcur.trans (cur.reaches_skip _))⟩

variable {found : List Attribute} {selfClosing : Bool}

lemma ReadsAttributes.reaches (h : ReadsAttributes cur found selfClosing next) :
    cur.Reaches next := by
  induction h with
  | selfClosing _ | close _ => exact (reaches_skipBlanks _).trans (reaches_skip ..)
  | cons hfirst _ ih => exact (reaches_skipBlanks _).trans (hfirst.reaches.trans ih)

lemma ReadsAttributes.isIn (h : ReadsAttributes cur found selfClosing next)
    (hcur : cur.IsIn source) : SpansIn source (found.flatMap Attribute.spans) := by
  induction h with
  | selfClosing _ | close _ => exact spansIn_nil
  | @cons cur after next first rest selfClosing hfirst _ ih =>
    have hhere := hcur.trans cur.reaches_skipBlanks
    simp only [List.flatMap_cons, spansIn_append]
    exact ⟨hfirst.isIn hhere, ih (hhere.trans hfirst.reaches)⟩

end MarkupGrammar

/-! ## Nodes -/

mutual

/-- **The regions in a node**, at every depth. -/
def Node.spans : Node → List Span
  | .text span _ | .comment span _ => [span]
  | .element span _ _ attributes children =>
    span :: (attributes.flatMap Attribute.spans ++ Node.spansList children)
  | .expressionTag span e | .htmlTag span e | .renderTag span e | .variableTag span e =>
    span :: e.spans
  | .ifBlock span _ test consequent alternate =>
    span :: (test.spans ++ (Node.spansList consequent ++ Node.spansOption alternate))
  | .forBlock span index item subject key body fallback =>
    span :: (index.elim [] Expr.spans ++ (item.spans ++ (subject.spans ++ (key.elim [] Expr.spans ++
      (Node.spansList body ++ Node.spansOption fallback)))))
  | .keyBlock span e body => span :: (e.spans ++ Node.spansList body)
  | .snippetBlock span _ params body => span :: (Expr.spansList params ++ Node.spansList body)
  | .awaitBlock span e value error pending resolved rejected =>
    span :: (e.spans ++ (value.elim [] Expr.spans ++ (error.elim [] Expr.spans ++
      (Node.spansOption pending ++ (Node.spansOption resolved ++ Node.spansOption rejected)))))

def Node.spansList : List Node → List Span
  | [] => []
  | n :: ns => n.spans ++ Node.spansList ns

def Node.spansOption : Option (List Node) → List Span
  | none => []
  | some ns => Node.spansList ns

end

lemma Node.spansIn_cons {n : Node} {nodes : List Node} (hn : SpansIn source n.spans)
    (hnodes : SpansIn source (Node.spansList nodes)) :
    SpansIn source (Node.spansList (n.cons nodes)) := by
  unfold Node.cons
  split
  · simp only [Node.spansList, Node.spans, spansIn_append, ComponentTemplate.spansIn_cons, spansIn_nil,
      and_true] at hn hnodes ⊢
    exact ⟨hn.merge hnodes.1, hnodes.2⟩
  · simp only [Node.spansList, spansIn_append]
    exact ⟨hn, hnodes⟩

def AwaitOpening.spans : AwaitOpening → List Span
  | .pending => []
  | .resolved name | .rejected name => name.elim [] Expr.spans

/-- **The regions of an element with raw text** are those of the source, and its code is the text
of its region. -/
structure RawElement.IsIn (source : List Char) (element : RawElement) : Prop where
  span : element.span.IsIn source
  attributes : SpansIn source (element.attributes.flatMap Attribute.spans)
  code : ∃ start close : Cursor, start.IsIn source ∧ start.Reads element.code close ∧
    element.codeSpan = start.spanTo close

variable {element : RawElement} {cur : Cursor} {body : List Statement}

lemma RawElement.IsIn.codeSpan (h : element.IsIn source) : element.codeSpan.IsIn source := by
  obtain ⟨start, close, hstart, hcode, hspan⟩ := h.code
  rw [hspan]
  exact hstart.spanTo hcode.reaches

lemma RawElement.IsIn.toNode (h : element.IsIn source) : SpansIn source element.toNode.spans := by
  simp only [RawElement.toNode, Node.spans, spansIn_cons, spansIn_append]
  refine ⟨h.span, h.attributes, ?_⟩
  split
  · exact spansIn_nil
  · simpa [Node.spansList, Node.spans] using h.codeSpan

namespace MarkupGrammar

variable {cur next : Cursor} {ctx : MarkupContext} {phrase : Phrase} {st st' : Stream}
  {tag : OpeningTag} {name : String} {node : Node} {e : Expr}

lemma reaches_openingTag (h : Gives (openingTag ctx cur) tag next) : cur.Reaches next := by
  obtain ⟨-, -, hattributes⟩ := (gives_openingTag_iff rfl).mp h
  exact (cur.reaches_skip _).trans (readsAttributes_of_gives hattributes).reaches

lemma isIn_openingTag (h : Gives (openingTag ctx cur) tag next) (hcur : cur.IsIn source) :
    SpansIn source (tag.attributes.flatMap Attribute.spans) := by
  obtain ⟨-, -, hattributes⟩ := (gives_openingTag_iff rfl).mp h
  exact (readsAttributes_of_gives hattributes).isIn (hcur.trans (cur.reaches_skip _))

lemma reads_closingTag (h : Gives (closingTag name cur) () next) :
    ∃ blanks, Text.Blank blanks ∧ (cur.skip 2).Reads (name.toList ++ (blanks ++ ['>'])) next := by
  unfold closingTag at h
  dsimp only at h
  split at h
  · rename_i rest hrest
    split at h
    · rename_i hname
      obtain ⟨_, h⟩ := h
      cases h
      have hread := (cur.skip 2).reads_skipRun isTagNameChar
      rw [skipRun, skip_skip] at hread
      have hblanks := reads_skipRun (cur.skip (2 + ((cur.skip 2).run isTagNameChar).length))
        Text.isBlank
      have hend := @reads_of_rest _ ['>'] rest hrest
      rw [← hname]
      refine ⟨_, ?_, hread.trans (hblanks.trans hend)⟩
      intro c hc
      exact List.mem_takeWhile_imp hc
    · exact absurd h not_gives_error
  · exact absurd h not_gives_error

lemma reads_rawContent (h : Gives (rawContent name cur) (code, codeSpan) next) :
    ∃ close, cur.Reads code close ∧ codeSpan = cur.spanTo close ∧
      close.Reads ("</".toList ++ (name.toList ++ ['>'])) next := by
  unfold rawContent at h
  dsimp only at h
  split at h
  · exact absurd h not_gives_error
  · rename_i found hfound
    obtain ⟨_, h⟩ := h
    cases h
    obtain ⟨rest, hrest⟩ := exists_append_of_beforeText? hfound
    refine ⟨_, reads_of_rest hrest, rfl, ?_⟩
    have hafter : (cur.skip code.length).rest = ("</" ++ name ++ ">").toList ++ rest := by
      rw [rest_skip, hrest, List.drop_left]
    have hclose := reads_of_rest hafter
    rw [skip_skip] at hclose
    simpa using hclose

lemma InlineTag.reads (h : InlineTag cur next node) :
    ∃ inner, (cur.skip 2).Reads (inner ++ ['}', '}']) next := by
  cases h with
  | expression hat _ he hend => exact reads_inline hat (he.steps trivial) hend
  | html hat hsign hword he hend | render hat hsign hword he _ hend =>
    exact reads_inline hat (.head (hsign.stepsInside (by decide))
      (.head (hword.stepsInside nofun) (he.steps trivial))) hend

lemma InlineTag.isIn (h : InlineTag cur next node) (hcur : cur.IsIn source) :
    SpansIn source node.spans := by
  obtain ⟨inner, hinner⟩ := h.reads
  have hspan := hcur.spanTo ((cur.reaches_skip 2).trans hinner.reaches)
  have hinside := hcur.trans (cur.reaches_skip 2)
  cases h with
  | expression hat _ he _ =>
    simp only [Node.spans, spansIn_cons]
    exact ⟨hspan, he.isIn (hat.isIn hinside)⟩
  | html hat hsign hword he _ | render hat hsign hword he _ _ =>
    simp only [Node.spans, spansIn_cons]
    exact ⟨hspan, he.isIn (hword.next.isIn (hsign.next.isIn (hat.isIn hinside)))⟩

@[grind →]
lemma reaches_of_reads_skip (h : (cur.skip n).Reads part next) : cur.Reaches next :=
  (cur.reaches_skip n).trans h.reaches

attribute [grind →] TagTokens.reaches WordTag.tagTokens BindingTag.tagTokens tagTokens_expression
  tagTokens_loop tagTokens_snippet tagTokens_await tagTokens_of_importTag reaches_openingTag
  InlineTag.reads reads_rawContent reads_closingTag Reads.reaches Reaches.trans
attribute [grind .] Reaches.refl reaches_skip

lemma Derives.reaches (h : Derives phrase cur next) : cur.Reaches next := by
  -- the tags and the parts of a phrase lead from one place to the next
  induction h with
  | _ => grind

attribute [grind →] OpensTag.isIn IsIn.trans IsIn.spanTo
attribute [grind =] Option.elim_none Option.elim_some

@[grind →]
lemma isIn_of_passesParam (h : st.PassesParam e st') (hst : st.IsIn source) :
    st'.IsIn source ∧ SpansIn source e.spans := by
  obtain ⟨_, rfl, -, hname⟩ := h
  simp only [Expr.spans, spansIn_cons, spansIn_nil, and_true]
  exact ⟨hname.next.isIn hst, hst.span⟩

@[grind →]
lemma Binds.isIn {name : Option Expr} (h : Binds st name st') (hst : st.IsIn source) :
    SpansIn source (name.elim [] Expr.spans) := by
  cases name with
  | none => exact spansIn_nil
  | some e => exact (isIn_of_passesParam h hst).2

@[grind →]
lemma BindingTag.isIn {word : String} {name : Option Expr} (h : BindingTag word name cur next)
    (hcur : cur.IsIn source) : SpansIn source (name.elim [] Expr.spans) := by
  obtain ⟨st, st', hopens, hname, -⟩ := h
  exact hname.isIn (hopens.isIn hcur)

@[grind →]
lemma OpensAwait.isIn {opening : AwaitOpening} (h : OpensAwait st next opening)
    (hst : st.IsIn source) : SpansIn source opening.spans := by
  cases h <;> grind [AwaitOpening.spans]

@[grind →]
lemma LoopNames.isIn {index : Option Expr} {item : Expr}
    (h : LoopNames st index item st') (hst : st.IsIn source) :
    st'.IsIn source ∧ SpansIn source (index.elim [] Expr.spans) ∧ SpansIn source item.spans := by
  cases h <;> grind

@[grind →]
lemma isIn_expression (h : Grammar.Derives (.expression e) st st')
    (hst : st.IsIn source) : st'.IsIn source ∧ SpansIn source e.spans :=
  ⟨(h.isIn_all hst).1, h.isIn hst⟩

@[grind →]
lemma isIn_params (h : Grammar.Derives (.params params) st st') (hst : st.IsIn source) :
    SpansIn source (Expr.spansList params) :=
  h.isIn hst

@[grind →]
lemma LoopKey.isIn (h : LoopKey st key st') (hst : st.IsIn source) :
    SpansIn source (key.elim [] Expr.spans) := by
  cases h <;> grind

/-- **The regions in what stands between two places** are those of the source. -/
def Phrase.IsIn (source : List Char) : Phrase → Prop
  | .sequence _ _ nodes => SpansIn source (Node.spansList nodes)
  | .item _ (.node n) => SpansIn source n.spans
  | .item _ (.importTag tag) => tag.span.IsIn source
  | .item _ (.raw element) => element.IsIn source
  | .branches _ consequent alternate =>
    SpansIn source (Node.spansList consequent ++ Node.spansOption alternate)
  | .alternative _ alternate => SpansIn source (Node.spansOption alternate)
  | .elseBranch _ _ nodes => SpansIn source (Node.spansOption nodes)
  | .outcome _ _ _ name nodes => SpansIn source (name.elim [] Expr.spans ++ Node.spansOption nodes)
  | .outcomes _ opening value error pending resolved rejected =>
    SpansIn source opening.spans → SpansIn source (value.elim [] Expr.spans ++
      (error.elim [] Expr.spans ++ (Node.spansOption pending ++ (Node.spansOption resolved ++
        Node.spansOption rejected))))

lemma Derives.isIn (h : Derives phrase cur next) (hcur : cur.IsIn source) : phrase.IsIn source := by
  induction h with
  | cons _ hitem hfirst _ ihitem ihrest =>
    have hrest := ihrest (hcur.trans hitem.reaches)
    have hfound := ihitem hcur
    obtain rfl | ⟨element, rfl, rfl⟩ := hfirst.eq_node_or_raw
    · exact Node.spansIn_cons hfound hrest
    · exact Node.spansIn_cons hfound.toNode hrest
  | text _ _ | comment _ _ =>
    simp only [Phrase.IsIn, Node.spans, spansIn_cons, spansIn_nil, and_true]
    exact hcur.spanTo (reaches_skip ..)
  | inlineTag _ htag => exact htag.isIn hcur
  | raw _ _ htag _ _ hcode =>
    have hafter := hcur.trans (reaches_openingTag htag)
    obtain ⟨close, hcode, hspan, hclose⟩ := reads_rawContent hcode
    exact ⟨hcur.spanTo ((reaches_openingTag htag).trans (hcode.reaches.trans hclose.reaches)),
      isIn_openingTag htag hcur, _, close, hafter, hcode, hspan⟩
  | importTag _ hopens htag =>
    obtain ⟨htokens, hspan⟩ := tagTokens_of_importTag hopens htag
    simp only [Phrase.IsIn, hspan]
    exact hcur.spanTo htokens.reaches
  | stop _ | noElse _ | noOutcome _ => exact spansIn_nil
  | _ =>
    simp only [Phrase.IsIn, Node.spans, Node.spansList, Node.spansOption,
      spansIn_cons, spansIn_append, spansIn_nil, and_true, true_and] at *
    grind [→ isIn_openingTag, → Derives.reaches, AwaitOpening.spans]

end MarkupGrammar

/-! ## Statements -/

mutual

/-- **The regions in a statement**, at every depth. -/
def Statement.spans : Statement → List Span
  | .expression span e => span :: e.spans
  | .block span body => span :: Statement.spansList body

def Statement.spansList : List Statement → List Span
  | [] => []
  | s :: ss => s.spans ++ Statement.spansList ss

end

namespace Grammar

variable {st st' : Stream}

@[grind →]
lemma Derives.start_le (h : Derives (.expression e) st st') (hst : st.IsIn source) :
    st.current.span.start ≤ st'.lastStop := by
  have hlt := (gives_expression_iff.mpr h).lt
  rcases (h.steps trivial).cases_head with rfl | ⟨st₁, hstep, hsteps⟩
  · exact absurd hlt (lt_irrefl _)
  · have hle := Stream.Steps.lastStop_le hsteps (hstep.next.isIn hst)
    rw [hstep.next.lastStop] at hle
    exact hst.span.le.trans hle

def ScriptPhrase.IsIn (source : List Char) : ScriptPhrase → Prop
  | .statements _ body => SpansIn source (Statement.spansList body)
  | .statement s => SpansIn source s.spans

lemma ScriptDerives.isIn (h : ScriptDerives phrase st st') (hst : st.IsIn source) :
    st'.IsIn source ∧ st.lastStop ≤ st'.lastStop ∧ phrase.IsIn source := by
  induction h with
  | _ =>
    simp only [ScriptPhrase.IsIn, Statement.spans, Statement.spansList, spansIn_cons,
      spansIn_append, spansIn_nil, and_true] at *
    grind [→ Derives.isIn_all, Phrase.IsIn]

end Grammar

lemma Statement.spansIn_of_ofCursor (h : Statement.ofCursor cur = .ok body)
    (hcur : cur.IsIn source) : SpansIn source (Statement.spansList body) := by
  obtain ⟨st, st', hat, hderives⟩ := Statement.ofCursor_eq_ok_iff.mp h
  exact (hderives.isIn (hat.isIn hcur)).2.2

lemma RawElement.IsIn.cursor (h : element.IsIn source) :
    ∃ copy tail, source = copy ++ tail ∧ element.cursor.IsIn copy := by
  obtain ⟨start, close, ⟨before, hbefore, hoffset⟩, hcode, hspan⟩ := h.code
  refine ⟨before ++ element.code, close.rest, ?_, before, rfl, ?_⟩
  · rw [List.append_assoc, ← hcode.rest_eq]
    exact hbefore
  · rw [RawElement.cursor, hspan]
    exact hoffset

lemma RawElement.IsIn.script (h : element.IsIn source)
    (hbody : Statement.ofCursor element.cursor = .ok body) :
    SpansIn source (Statement.spansList body) := by
  obtain ⟨copy, tail, rfl, hcursor⟩ := h.cursor
  exact fun span hspan => (Statement.spansIn_of_ofCursor hbody hcursor span hspan).append tail

/-! ## Components -/

def ScriptBlock.spans (block : ScriptBlock) : List Span :=
  block.span :: Statement.spansList block.body

def StyleBlock.spans (block : StyleBlock) : List Span :=
  block.span :: block.codeSpan :: block.attributes.flatMap Attribute.spans

/-- **The regions in a component**, at every depth. -/
def Component.spans (component : Component) : List Span :=
  component.imports.map Import.span ++ (component.script.elim [] ScriptBlock.spans ++
    (Node.spansList component.nodes ++ component.style.elim [] StyleBlock.spans))

lemma Component.Derives.spansIn (h : Derives ctx hasScript hasStyle component cur next)
    (hcur : cur.IsIn source) : SpansIn source component.spans := by
  induction h with
  | stop _ => exact spansIn_nil
  | cons _ hitem hpart _ ih =>
    have hlater := ih (hcur.trans hitem.reaches)
    have hfound := hitem.isIn hcur
    simp only [spans, spansIn_append] at hlater
    obtain ⟨himports, hscript, hnodes, hstyle⟩ := hlater
    cases hpart with
    | node n =>
      simp only [spans, add, spansIn_append]
      exact ⟨himports, hscript, Node.spansIn_cons hfound hnodes, hstyle⟩
    | importTag tag =>
      simp only [spans, add, spansIn_append]
      exact ⟨spansIn_cons.mpr ⟨hfound, himports⟩, hscript, hnodes, hstyle⟩
    | script _ _ hbody =>
      simp only [spans, add, spansIn_append]
      exact ⟨himports, spansIn_cons.mpr ⟨hfound.span, hfound.script hbody⟩, hnodes, hstyle⟩
    | style _ _ _ =>
      simp only [spans, add, spansIn_append]
      exact ⟨himports, hscript, hnodes,
        spansIn_cons.mpr ⟨hfound.span, spansIn_cons.mpr ⟨hfound.codeSpan, hfound.attributes⟩⟩⟩
    | raw _ _ =>
      simp only [spans, add, spansIn_append]
      exact ⟨himports, hscript, Node.spansIn_cons hfound.toNode hnodes, hstyle⟩

end ComponentTemplate
