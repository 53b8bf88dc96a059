import ComponentTemplate.Format
import ComponentTemplate.Proofs.MarkupWellFormed

/-!
# Printing and reading components

A component whose content is plain and in which nothing is set apart is read again from what it is
printed as, and is printed as the same text again.
-/

namespace ComponentTemplate

open MarkupGrammar Node List
open Writer (atLineStart front start)
open LineBreaks (ofSource)

/-! ## Plain nodes are read back -/

section Nodes

variable {ctx : MarkupContext} {p : Printing} {nodes : List Node}

/-- **A node is read back where it may stand**: a further branch of a condition as what follows
another branch, and any other node as itself. -/
def Node.ReadsBackInPlace (ctx : MarkupContext) (p : Printing) (n : Node) : Prop :=
  if n.isBranch then AlternateReadsBack ctx p (some [n]) else n.ReadsBack ctx p

variable {breaks : Breaks} {span : Span} {isBranch : Bool} {test e : Expr} {consequent : List Node}
  {alternate pending resolved rejected : Option (List Node)} {value error : Option Expr}

lemma Node.IsFragment.printable (h : IsFragment nodes) (hplain : AllPlain p.breaks nodes)
    (hall : ∀ n ∈ nodes, n.isText = false → n.ReadsBackInPlace ctx p) :
    Printable ctx p nodes := by
  refine ⟨fun n hn htext => ?_, fun span data hmem => ?_, h.apart⟩
  · have hback := hall n hn htext
    rwa [ReadsBackInPlace, if_neg (by simp [h.isBranch n hn])] at hback
  · have hlast := allPlain_iff.mp hplain _ hmem
    rw [Plain] at hlast
    exact ⟨h.clean span data hmem, hlast⟩

lemma Node.Content.readsBack (h : Content ctx nodes) (hplain : AllPlain p.breaks nodes)
    (hall : AllWellFormed ctx nodes → AllPlain p.breaks nodes →
      ∀ n ∈ nodes, n.isText = false → n.ReadsBackInPlace ctx p) :
    ContentReadsBack ctx p nodes :=
  (h.isFragment.printable hplain (hall h.wellFormed hplain)).contentReadsBack

lemma Node.isBranch_of_isSingleBranch (h : isSingleBranch nodes = true) :
    ∃ n, nodes = [n] ∧ n.isBranch = true ∧ n.isText = false := by
  unfold isSingleBranch at h
  split at h
  · exact ⟨_, rfl, h, rfl⟩
  · cases h

lemma Node.alternateReadsBack_some
    (h : isSingleBranch nodes = true ∨ IsFragment nodes)
    (hplain : AllPlain p.breaks nodes)
    (hall : ∀ n ∈ nodes, n.isText = false → n.ReadsBackInPlace ctx p) :
    AlternateReadsBack ctx p (some nodes) := by
  by_cases hsingle : isSingleBranch nodes = true
  · obtain ⟨n, rfl, hbranch, htext⟩ := isBranch_of_isSingleBranch hsingle
    have hback := hall n (mem_singleton_self n) htext
    rwa [ReadsBackInPlace, if_pos hbranch] at hback
  · have hfragment := h.resolve_left hsingle
    refine readsBack_otherwise ?_ ?_
    · rintro _ ⟨⟩
      exact Bool.eq_false_iff.mpr hsingle
    · rintro _ ⟨⟩
      exact (hfragment.printable hplain hall).contentReadsBack

lemma Node.readsBackInPlace_ifBlock (htest : test.Sound p.breaks)
    (hconsequent : ContentReadsBack ctx p consequent)
    (halternate : AlternateReadsBack ctx p alternate) :
    (ifBlock span isBranch test consequent alternate).ReadsBackInPlace ctx p := by
  cases isBranch with
  | false => exact readsBack_ifBlock htest hconsequent halternate
  | true => exact readsBack_elseif htest hconsequent halternate

lemma Node.readsBack_awaitBlock (he : e.Sound p.breaks)
    (hagrees : AwaitAgrees value error pending resolved rejected)
    (hpending : ∀ nodes ∈ pending, ContentReadsBack ctx p nodes)
    (hresolved : ∀ nodes ∈ resolved, ContentReadsBack ctx p nodes)
    (hrejected : ∀ nodes ∈ rejected, ContentReadsBack ctx p nodes) :
    (awaitBlock span e value error pending resolved rejected).ReadsBack ctx p := by
  obtain ⟨hvalue, herror, hvalueGiven, herrorGiven, hsome⟩ := hagrees
  cases pending with
  | some pending =>
    exact readsBack_awaitPending he hvalue herror (hpending _ rfl) hresolved hrejected
  | none =>
    cases resolved with
    | some resolved =>
      exact readsBack_awaitResolved he hvalue herror (hresolved _ rfl) hrejected
    | none =>
      -- without a value to show there is no name for it
      obtain rfl : value = none := by
        cases value with
        | none => rfl
        | some name => cases hvalueGiven rfl
      cases rejected with
      | some rejected => exact readsBack_awaitRejected he herror (hrejected _ rfl)
      | none => simp at hsome

mutual

theorem Node.readsBackInPlace : ∀ (n : Node) {ctx : MarkupContext}, n.isText = false →
    n.WellFormed ctx → n.Plain p.breaks → n.ReadsBackInPlace ctx p
  | .text .., _, htext, _, _ => by cases htext
  | .comment .., _, _, hwf, _ => readsBack_comment hwf
  | .element _ kind name attributes children, _, _, hwf, hplain => by
    obtain ⟨hname, -, hvoid, hcontent⟩ := hwf
    obtain ⟨hraw, rfl, hchildren⟩ := hplain
    rw [if_neg fun h => hraw h.2] at hcontent
    exact readsBack_element hname hraw hvoid
      ((content_iff.mp hcontent).readsBack hchildren (readsBackInPlace_of_mem children))
  | .expressionTag .., _, _, hwf, hplain => readsBack_expressionTag ⟨hwf, hplain⟩
  | .htmlTag .., _, _, hwf, hplain => readsBack_htmlTag ⟨hwf, hplain⟩
  | .renderTag .., _, _, hwf, hplain => readsBack_renderTag ⟨hwf.2, hplain⟩ hwf.1
  | .variableTag .., _, _, hwf, hplain => readsBack_variableTag ⟨hwf.2, hplain⟩ hwf.1
  | .ifBlock _ isBranch test consequent alternate, _, _, hwf, hplain => by
    rw [wellFormed_ifBlock_iff] at hwf
    have hplain : test.Plain p.breaks ∧ AllPlain p.breaks consequent ∧
        ∀ nodes ∈ alternate, AllPlain p.breaks nodes := by
      cases alternate <;> simpa [Plain] using hplain
    refine readsBackInPlace_ifBlock ⟨hwf.1, hplain.1⟩
      (hwf.2.1.readsBack hplain.2.1 (readsBackInPlace_of_mem consequent)) ?_
    cases alternate with
    | none => exact readsBack_otherwise (by simp) (by simp)
    | some nodes =>
      obtain ⟨hnodes, hwf⟩ := hwf.2.2 nodes rfl
      have hplain := hplain.2.2 nodes rfl
      exact alternateReadsBack_some hnodes hplain
        (readsBackInPlace_of_mem nodes hwf hplain)
  | .forBlock _ index item subject key body fallback, _, _, hwf, hplain => by
    rw [wellFormed_forBlock_iff] at hwf
    have hplain : subject.Plain p.breaks ∧ (∀ e ∈ key, e.Plain p.breaks) ∧
        AllPlain p.breaks body ∧ ∀ nodes ∈ fallback, AllPlain p.breaks nodes := by
      cases fallback <;> simpa [Plain] using hplain
    obtain ⟨hindex, hitem, hsubject, hkey, hbody, hfallback⟩ := hwf
    refine readsBack_forBlock hindex hitem ⟨hsubject, hplain.1⟩
      (fun e he => ⟨hkey e he, hplain.2.1 e he⟩)
      (hbody.readsBack hplain.2.2.1 (readsBackInPlace_of_mem body)) ?_
    cases fallback with
    | none => simp
    | some nodes =>
      rintro _ ⟨⟩
      exact (hfallback nodes rfl).readsBack (hplain.2.2.2 nodes rfl)
        (readsBackInPlace_of_mem nodes)
  | .keyBlock _ e body, _, _, hwf, hplain =>
    readsBack_keyBlock ⟨hwf.1, hplain.1⟩
      ((content_iff.mp hwf.2).readsBack hplain.2 (readsBackInPlace_of_mem body))
  | .snippetBlock _ name params body, _, _, hwf, hplain =>
    readsBack_snippetBlock hwf.1 hwf.2.1
      ((content_iff.mp hwf.2.2).readsBack hplain (readsBackInPlace_of_mem body))
  | .awaitBlock _ e value error pending resolved rejected, _, _, hwf, hplain => by
    rw [wellFormed_awaitBlock_iff] at hwf
    have hplain : e.Plain p.breaks ∧ (∀ nodes ∈ pending, AllPlain p.breaks nodes) ∧
        (∀ nodes ∈ resolved, AllPlain p.breaks nodes) ∧
        ∀ nodes ∈ rejected, AllPlain p.breaks nodes := by
      cases pending <;> cases resolved <;> cases rejected <;> simpa [Plain] using hplain
    obtain ⟨he, hagrees, hpending, hresolved, hrejected⟩ := hwf
    refine readsBack_awaitBlock ⟨he, hplain.1⟩ hagrees ?_ ?_ ?_
    · cases pending with
      | none => simp
      | some nodes =>
        rintro _ ⟨⟩
        exact (hpending nodes rfl).readsBack (hplain.2.1 nodes rfl)
          (readsBackInPlace_of_mem nodes)
    · cases resolved with
      | none => simp
      | some nodes =>
        rintro _ ⟨⟩
        exact (hresolved nodes rfl).readsBack (hplain.2.2.1 nodes rfl)
          (readsBackInPlace_of_mem nodes)
    · cases rejected with
      | none => simp
      | some nodes =>
        rintro _ ⟨⟩
        exact (hrejected nodes rfl).readsBack (hplain.2.2.2 nodes rfl)
          (readsBackInPlace_of_mem nodes)

theorem Node.readsBackInPlace_of_mem : ∀ (nodes : List Node) {ctx : MarkupContext},
    AllWellFormed ctx nodes → AllPlain p.breaks nodes →
    ∀ n ∈ nodes, n.isText = false → n.ReadsBackInPlace ctx p
  | [], _, _, _ => by simp
  | n :: nodes, _, hwf, hplain => by
    intro m hm htext
    rcases mem_cons.mp hm with heq | hm
    · rw [heq] at htext ⊢
      exact readsBackInPlace n htext hwf.1 hplain.1
    · exact readsBackInPlace_of_mem nodes hwf.2 hplain.2 m hm htext

end

end Nodes

/-! ## The ends of the content -/

namespace Node

variable {nodes : List Node}

def dropBlankEnds (nodes : List Node) : List Node :=
  ((nodes.dropWhile isBlank).reverse.dropWhile isBlank).reverse

lemma dropBlankEnds_siblings (p : Printing) (nodes : List Node) :
    Sibling.dropBlankEnds (nodes.map (sibling p)) =
      (dropBlankEnds nodes).map (sibling p) := by
  have hblank : Sibling.isBlank ∘ sibling p = isBlank := by
    funext n
    exact n.isBlank_sibling p
  rw [Sibling.dropBlankEnds, dropBlankEnds, dropWhile_map, hblank, ← map_reverse,
    dropWhile_map, hblank, map_reverse]

lemma exists_eq_dropBlankEnds (nodes : List Node) : ∃ before after,
    nodes = before ++ (dropBlankEnds nodes ++ after) ∧ (∀ n ∈ before, n.isBlank = true) ∧
      ∀ n ∈ after, n.isBlank = true :=
  exists_eq_dropEnds isBlank nodes

lemma dropBlankEnds_isInfix (nodes : List Node) : dropBlankEnds nodes <:+: nodes := by
  obtain ⟨before, after, heq, -, -⟩ := exists_eq_dropBlankEnds nodes
  exact ⟨before, after, by rw [append_assoc, ← heq]⟩

lemma normals_append (first second : List Node) :
    normals (first ++ second) = normals first ++ normals second := by
  simp [normals_eq]

lemma normals_of_blank (h : ∀ n ∈ nodes, n.isBlank = true) : normals nodes = [] := by
  rw [normals_eq, map_eq_nil_iff, filter_eq_nil_iff]
  intro n hn
  simp [h n hn]

lemma normals_dropBlankEnds (nodes : List Node) : normals (dropBlankEnds nodes) = normals nodes := by
  obtain ⟨before, after, heq, hbefore, hafter⟩ := exists_eq_dropBlankEnds nodes
  conv_rhs => rw [heq]
  rw [normals_append, normals_append, normals_of_blank hbefore, normals_of_blank hafter,
    nil_append, append_nil]

structure Bounded (nodes : List Node) : Prop where
  head : ∀ n ∈ nodes.head?, n.isBlank = false
  last : ∀ n ∈ nodes.getLast?, n.isBlank = false

lemma bounded_dropBlankEnds (nodes : List Node) : Bounded (dropBlankEnds nodes) :=
  ⟨(bounded_dropEnds isBlank nodes).head, (bounded_dropEnds isBlank nodes).last⟩

lemma dropBlankEnds_append (h : Bounded nodes) (hextra : ∀ n ∈ extra, n.isBlank = true) :
    dropBlankEnds (nodes ++ extra) = nodes :=
  ComponentTemplate.Bounded.dropEnds_append ⟨h.head, h.last⟩ hextra

end Node

namespace Node.Follows

variable {p p' : Printing} {trim first : Bool} {nodes nodes' : List Node}

lemma ne_nil (h : Follows p p' trim first nodes nodes') (hne : nodes ≠ [])
    (hlast : ∀ n ∈ nodes.getLast?, n.isBlank = false) : nodes' ≠ [] := by
  rintro rfl
  -- the last node has a place in the normal form
  have hnormals := h.normals_eq
  obtain ⟨n, hn⟩ : ∃ n, nodes.getLast? = some n := ⟨_, getLast?_eq_some_getLast hne⟩
  have hmem : n ∈ nodes.filter (!·.isBlank) :=
    mem_filter.mpr ⟨mem_of_getLast? hn, by simp [hlast n hn]⟩
  rw [Node.normals, Node.normals_eq, eq_comm, map_eq_nil_iff] at hnormals
  simp [hnormals] at hmem

lemma head_isBlank (h : Follows p p' trim first nodes nodes')
    (hhead : ∀ n ∈ nodes.head?, n.isBlank = false) : ∀ n ∈ nodes'.head?, n.isBlank = false := by
  cases h with
  | nil => simp
  | node _ hn' _ _ =>
    rintro _ ⟨⟩
    exact isBlank_of_not_isText hn'
  | text hpad _ =>
    rintro _ ⟨⟩
    have hblank := hhead _ rfl
    rwa [isBlank_text, ← Sibling.trim_eq_of_pad hpad, ← isBlank_text] at hblank
  | gone hpad _ _ =>
    have hblank := hhead _ rfl
    rw [isBlank_text, ← (Sibling.core_of_pad hpad).1] at hblank
    cases hblank

lemma last_isBlank (h : Follows p p' trim first nodes nodes')
    (hlast : ∀ n ∈ nodes.getLast?, n.isBlank = false) :
    ∀ n ∈ nodes'.getLast?, n.isBlank = false := by
  induction h with
  | nil => simp
  | @node _ n n' rest rest' _ hn' _ hrest ih =>
    by_cases hne : rest' = []
    · subst hne
      rintro _ ⟨⟩
      exact isBlank_of_not_isText hn'
    · rw [getLast?_cons_of_ne_nil hne]
      refine ih fun m hm => hlast m ?_
      rwa [getLast?_cons_of_ne_nil (ne_nil_of_mem (mem_of_getLast? hm))]
  | @text _ span span' data data' rest rest' hpad hrest ih =>
    have hrestLast : ∀ m ∈ rest.getLast?, m.isBlank = false := by
      intro m hm
      refine hlast m ?_
      rwa [getLast?_cons_of_ne_nil (ne_nil_of_mem (mem_of_getLast? hm))]
    by_cases hne : rest' = []
    · -- then the text is the last node on both sides
      subst hne
      obtain rfl : rest = [] := by
        by_contra hrestNe
        exact hrest.ne_nil hrestNe hrestLast rfl
      rintro _ ⟨⟩
      have hblank : (Node.text span data).isBlank = false := hlast _ rfl
      rwa [Node.isBlank_text, ← Sibling.trim_eq_of_pad hpad, ← Node.isBlank_text span'] at hblank
    · rw [getLast?_cons_of_ne_nil hne]
      exact ih hrestLast
  | @gone _ span data rest rest' hpad _ _ ih =>
    refine ih fun m hm => hlast m ?_
    rwa [getLast?_cons_of_ne_nil (ne_nil_of_mem (mem_of_getLast? hm))]

lemma bounded (h : Follows p p' trim first nodes nodes') (hnodes : Bounded nodes) :
    Bounded nodes' :=
  ⟨h.head_isBlank hnodes.head, h.last_isBlank hnodes.last⟩

end Node.Follows

/-! ## Whole components -/

namespace Component

variable {p : Printing} {ctx : MarkupContext} {nodes : List Node}

def ofNodes (nodes : List Node) : Component := ⟨[], none, nodes, none⟩

lemma write_doc_ofNodes (p : Printing) (nodes : List Node) (w : Writer) :
    ((ofNodes nodes).doc p []).write w =
      (Doc.siblings (Sibling.padFrom true true
        ((dropBlankEnds nodes).map (sibling p)))).write w := by
  have hreconcile : Sibling.reconcile true (siblings p nodes) =
      Sibling.padFrom true true ((dropBlankEnds nodes).map (sibling p)) := by
    rw [Sibling.reconcile, siblings_eq_map, ← dropBlankEnds_siblings]
    split
    · rename_i hall
      rw [Sibling.dropBlankEnds, dropWhile_eq_nil_iff.mpr (all_eq_true.mp hall)]
      rfl
    · rfl
  simp [Component.doc, ofNodes, hreconcile, Doc.write_append, Doc.concat, Doc.ofOption, Doc.onlyIf,
    Doc.write]

lemma front_start (unit : String) : (start unit).front = [] := by
  simp [front, start, atLineStart]

variable {unit special : String} {source : List Char}

/-- **The content of a component is written as a text that lays it out.** -/
theorem laid_render (h : ∀ n ∈ dropBlankEnds nodes, n.isText = false → (n.doc p).Sets (P n))
    (hapart : (dropBlankEnds nodes).IsChain fun a b => a.isText = false ∨ b.isText = false)
    (hunit : (start unit).Indents) :
    Laid P true true (dropBlankEnds nodes)
      (((ofNodes nodes).doc p []).render unit).toList := by
  have hstart : (start unit).atLineStart = true →
      ∃ n ∈ (dropBlankEnds nodes).head?, n.isText = false := by
    simp [start, atLineStart]
  obtain ⟨cs, hfront, hlaid⟩ := @exists_laid p true true _ _ h hapart _ hunit hstart 0
  rw [← write_doc_ofNodes, front_start, nil_append] at hfront
  have hrender : (((ofNodes nodes).doc p []).render unit).toList = cs := by
    rw [← hfront, Doc.render, Writer.output, String.toList_ofList]
    simp [front, Writer.atLevel, Writer.indentation]
  rwa [hrender]

/-- **The content of a component is written as a text that is read back.** -/
theorem exists_written (h : Printable ctx p (dropBlankEnds nodes))
    (hunit : (start unit).Indents) :
    ReadsFrom ctx p true true (dropBlankEnds nodes)
      (((ofNodes nodes).doc p []).render unit).toList :=
  (laid_render h.readsBack h.apart hunit).readsFrom h

lemma printable_dropBlankEnds (hread : ofChars special source = .ok (ofNodes nodes))
    (hplain : AllPlain p.breaks nodes) :
    Printable { special } p (dropBlankEnds nodes) := by
  obtain ⟨next, hderives⟩ := ofChars_eq_ok_iff.mp hread
  have hcontent := wellFormed_of_derives (hderives.sequence rfl rfl rfl)
  have hall := hcontent.isFragment.printable hplain
    (readsBackInPlace_of_mem nodes hcontent.wellFormed hplain)
  have hinside := dropBlankEnds_isInfix nodes
  exact ⟨fun n hn => hall.readsBack n (hinside.subset hn),
    fun span data hmem => hall.texts span data (hinside.subset hmem), hall.apart.infix hinside⟩

def printed (unit : String) (script : String → String) (source : List Char) (nodes : List Node) :
    String :=
  ((ofNodes nodes).doc ⟨(ofSource source).atLeast, script⟩ []).render unit

/-- **A component is read back from what it is printed as**, with blanks after it, and is printed
as the same text again. -/
theorem exists_ofChars_printed {output : String} {script : String → String} {tail : List Char}
    (hread : ofChars special source = .ok (ofNodes nodes))
    (hplain : AllPlain (ofSource source).atLeast nodes)
    (hunit : (start unit).Indents) (houtput : printed unit script source nodes = output)
    (htail : Text.Blank tail) :
    ∃ nodes', ofChars special (output.toList ++ tail) = .ok (ofNodes nodes') ∧
      normals nodes' = normals nodes ∧
      printed unit script (output.toList ++ tail) nodes' = output := by
  unfold printed at houtput ⊢
  generalize hp : (⟨(ofSource source).atLeast, script⟩ : Printing) = p at houtput
  have hplain : AllPlain p.breaks nodes := by rwa [← hp]
  have hreads := exists_written (printable_dropBlankEnds hread hplain) hunit
  rw [houtput] at hreads
  -- the output is read from the start of the source up to its end
  obtain ⟨kept, extra, hderives, hfollows, hextra, -⟩ :=
    @hreads (output.toList ++ tail) [] tail [] none ⟨byteLength (output.toList ++ tail), []⟩
      (by simp) htail (by simp) trivial (by simp) rfl
  rw [append_nil, byteLength_nil] at hderives
  have hkept : dropBlankEnds (kept ++ extra) = kept :=
    dropBlankEnds_append (hfollows.bounded (bounded_dropBlankEnds nodes)) hextra
  refine ⟨kept ++ extra, reads_of_derives hderives, ?_, ?_⟩
  · rw [normals_append, normals_of_blank hextra, append_nil, hfollows.normals_eq,
      normals_dropBlankEnds]
  · have hreread : (⟨(ofSource (output.toList ++ tail)).atLeast, script⟩ : Printing) =
        p.reread (output.toList ++ tail) := by
      rw [← hp]
      rfl
    rw [hreread, Doc.render, write_doc_ofNodes, hkept, hfollows.write_eq, ← houtput,
      Doc.render, write_doc_ofNodes]

end Component

/-! ## Formatting -/

namespace FormatOptions

lemma indents (options : FormatOptions) : (start options.indentUnit).Indents := by
  intro c hc
  rw [start, indentUnit] at hc
  split at hc
  · rw [show c = '\t' from mem_singleton.mp hc]
    decide
  · rw [String.toList_ofList] at hc
    rw [eq_of_mem_replicate hc]
    decide

def ending (options : FormatOptions) (output : String) : List Char :=
  if options.finalNewline && output ≠ "" then ['\n'] else []

lemma blank_ending (options : FormatOptions) (output : String) :
    Text.Blank (options.ending output) := by
  unfold ending
  split
  · intro c hc
    rw [mem_singleton.mp hc]
    decide
  · exact .nil

lemma formatSource_eq
    (hread : Component.ofChars options.specialPart source.toList = .ok (.ofNodes nodes))
    (houtput : Component.printed options.indentUnit reindentScript source.toList nodes = output) :
    formatSource options source = .ok (String.ofList (output.toList ++ options.ending output)) := by
  have hformat := @formatWith_of_eq_ok _ options.indentUnit _ reindentScript _ _ hread rfl
  unfold Component.printed at houtput
  rw [formatSource, hformat, houtput, ok_bind, ending]
  split
  · rw [String.ofList_append, String.ofList_toList]
    rfl
  · rw [append_nil, String.ofList_toList]
    rfl

end FormatOptions

open FormatOptions (formatSource_eq)

lemma Component.parse_condition :
    Component.parse "<p>\x7b% if a %\x7db\x7b% endif %\x7d</p>" "zvelte" =
      .ok ⟨[], none, [.element ⟨0, 29⟩ .regular "p" []
        [.ifBlock ⟨3, 25⟩ false (.identifier ⟨9, 10⟩ "a") [.text ⟨13, 14⟩ "b"] none]], none⟩ := by
  with_unfolding_all rfl

lemma Node.allPlain_condition (breaks : Breaks) : AllPlain breaks
    [.element ⟨0, 29⟩ .regular "p" []
      [.ifBlock ⟨3, 25⟩ false (.identifier ⟨9, 10⟩ "a") [.text ⟨13, 14⟩ "b"] none]] := by
  have htext : Text.trim ['b'] = ['b'] := rfl
  simp [AllPlain, Plain, rawElements, Expr.Plain, Expr.outline, Expr.inSlot, Expr.parts,
    Expr.KeepsShape, htext]

/-- **Formatting keeps a component**: what is printed for plain content is read again with the same
choices, as content with the same normal form. -/
theorem Component.exists_parse_formatSource (options : FormatOptions) {source : String}
    {nodes : List Node}
    (hparse : Component.parse source options.specialPart = .ok ⟨[], none, nodes, none⟩)
    (hplain : AllPlain (ofSource source.toList).atLeast nodes) :
    ∃ output nodes', formatSource options source = .ok output ∧
      Component.parse output options.specialPart = .ok ⟨[], none, nodes', none⟩ ∧
      normals nodes' = normals nodes := by
  have hread := Component.parse_eq_ok_iff.mp hparse
  obtain ⟨nodes', hread', hnormals, -⟩ := Component.exists_ofChars_printed hread hplain
    options.indents rfl (options.blank_ending _)
  refine ⟨_, nodes', formatSource_eq hread rfl, Component.parse_eq_ok_iff.mpr ?_, hnormals⟩
  rwa [String.toList_ofList]

/-- A condition in an element is kept. -/
theorem Component.exists_parse_formatSource_condition : ∃ output nodes',
    formatSource {} "<p>\x7b% if a %\x7db\x7b% endif %\x7d</p>" = .ok output ∧
      Component.parse output "zvelte" = .ok ⟨[], none, nodes', none⟩ ∧
      normals nodes' = normals [.element ⟨0, 29⟩ .regular "p" []
        [.ifBlock ⟨3, 25⟩ false (.identifier ⟨9, 10⟩ "a") [.text ⟨13, 14⟩ "b"] none]] :=
  Component.exists_parse_formatSource {} Component.parse_condition (allPlain_condition _)

/-- **Formatting is idempotent**: plain content is formatted as a text that formatting leaves as it
is, whatever the choices are. -/
theorem exists_formatSource_fixed (options : FormatOptions) {source : String} {nodes : List Node}
    (hparse : Component.parse source options.specialPart = .ok ⟨[], none, nodes, none⟩)
    (hplain : AllPlain (ofSource source.toList).atLeast nodes) :
    ∃ output, formatSource options source = .ok output ∧
      formatSource options output = .ok output := by
  have hread := Component.parse_eq_ok_iff.mp hparse
  obtain ⟨nodes', hread', -, hprinted⟩ := Component.exists_ofChars_printed hread hplain
    options.indents rfl (options.blank_ending _)
  rw [← String.toList_ofList (l := _ ++ _)] at hread' hprinted
  exact ⟨_, formatSource_eq hread rfl, formatSource_eq hread' hprinted⟩

/-- A condition in an element is formatted as a text that stays. -/
theorem exists_formatSource_fixed_condition : ∃ output,
    formatSource { finalNewline := false, useTabs := false, indentWidth := 0 }
      "<p>\x7b% if a %\x7db\x7b% endif %\x7d</p>" = .ok output ∧
    formatSource { finalNewline := false, useTabs := false, indentWidth := 0 } output =
      .ok output :=
  exists_formatSource_fixed _ Component.parse_condition (allPlain_condition _)

end ComponentTemplate
