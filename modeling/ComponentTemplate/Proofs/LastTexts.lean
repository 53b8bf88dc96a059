import ComponentTemplate.Format
import ComponentTemplate.Proofs.JoinedTexts
import ComponentTemplate.Proofs.Tiling

/-!
# The last text of a fragment

The content of an element or a block is printed without the blanks at its end, unless they break
the line. The last text then stands right before the tag that closes the fragment. It is read up to
this tag again, but for a brace at its end that becomes one with the brace of a block tag.
-/

namespace ComponentTemplate

open MarkupGrammar Sibling Phrase
open List (cons_append forall_mem_append isPrefixOf nil_append suffix_rfl)

/-! ## The fragments in what is read -/

mutual

/-- **The fragments in a node**, at every depth: the content of elements and blocks. The code of an
element with raw text is not read as markup, and a further branch of a condition is no fragment of
its own. -/
def Node.fragments : Node → List (List Node)
  | .text .. | .comment .. | .expressionTag .. | .htmlTag .. | .renderTag .. | .variableTag .. => []
  | .element _ kind name _ children =>
    if kind = .regular ∧ name ∈ rawElements then [] else children :: Node.fragmentsIn children
  | .ifBlock _ _ _ consequent alternate =>
    consequent :: Node.fragmentsIn consequent ++
      (match alternate with
      | none => []
      | some nodes =>
        if isSingleBranch nodes then Node.fragmentsIn nodes else nodes :: Node.fragmentsIn nodes)
  | .forBlock _ _ _ _ _ body fallback =>
    body :: Node.fragmentsIn body ++
      (match fallback with
      | none => []
      | some nodes => nodes :: Node.fragmentsIn nodes)
  | .keyBlock _ _ body | .snippetBlock _ _ _ body => body :: Node.fragmentsIn body
  | .awaitBlock _ _ _ _ pending resolved rejected =>
    (match pending with
      | none => []
      | some nodes => nodes :: Node.fragmentsIn nodes) ++
    (match resolved with
      | none => []
      | some nodes => nodes :: Node.fragmentsIn nodes) ++
    (match rejected with
      | none => []
      | some nodes => nodes :: Node.fragmentsIn nodes)

/-- **The contents of nodes**, at every depth. -/
def Node.fragmentsIn : List Node → List (List Node)
  | [] => []
  | n :: nodes => n.fragments ++ Node.fragmentsIn nodes

end

def Node.fragmentsOf (nodes : Option (List Node)) : List (List Node) :=
  nodes.elim [] fun nodes => nodes :: Node.fragmentsIn nodes

/-- What follows the first branch of a condition: a further branch, or a fragment. -/
def Node.alternateFragments (alternate : Option (List Node)) : List (List Node) :=
  alternate.elim [] fun nodes =>
    if isSingleBranch nodes then Node.fragmentsIn nodes else nodes :: Node.fragmentsIn nodes

namespace Node

variable {span : Span} {alternate : Option (List Node)}

lemma fragments_ifBlock {isBranch : Bool} {test : Expr} {consequent : List Node} :
    (Node.ifBlock span isBranch test consequent alternate).fragments =
      fragmentsOf (some consequent) ++ alternateFragments alternate := by
  cases alternate <;> simp [fragments, fragmentsOf, alternateFragments]

lemma fragments_forBlock :
    (Node.forBlock span index name subject key body fallback).fragments =
      fragmentsOf (some body) ++ fragmentsOf fallback := by
  cases fallback <;> simp [fragments, fragmentsOf]

lemma fragments_awaitBlock :
    (Node.awaitBlock span e value error pending resolved rejected).fragments =
      fragmentsOf pending ++ fragmentsOf resolved ++ fragmentsOf rejected := by
  cases pending <;> cases resolved <;> cases rejected <;> simp [fragments, fragmentsOf]

lemma fragments_rawElement (element : RawElement) (h : element.name ∈ rawElements) :
    element.toNode.fragments = [] := by
  simp [RawElement.toNode, fragments, h]

lemma mem_fragmentsOf_of_mem_alternateFragments (h : nodes ∈ alternateFragments alternate) :
    nodes ∈ fragmentsOf alternate := by
  cases alternate with
  | none => exact h
  | some found =>
    simp only [alternateFragments, Option.elim_some] at h
    split at h
    · exact List.mem_cons_of_mem _ h
    · exact h

lemma fragmentsIn_cons (n : Node) (nodes : List Node) :
    fragmentsIn (n.cons nodes) = n.fragments ++ fragmentsIn nodes := by
  unfold Node.cons
  split
  · simp [fragmentsIn, fragments]
  · rw [fragmentsIn]

end Node

namespace MarkupGrammar

variable {ctx : MarkupContext} {ending : Option Ending} {cur next : Cursor} {phrase : Phrase}

def Phrase.fragments : Phrase → List (List Node)
  | .sequence _ _ nodes => Node.fragmentsIn nodes
  | .item _ (.node n) => n.fragments
  | .item _ _ => []
  | .branches _ consequent alternate =>
    Node.fragmentsOf (some consequent) ++ Node.alternateFragments alternate
  | .alternative _ alternate => Node.alternateFragments alternate
  | .elseBranch _ _ nodes | .outcome _ _ _ _ nodes => Node.fragmentsOf nodes
  | .outcomes _ _ _ _ pending resolved rejected =>
    Node.fragmentsOf pending ++ Node.fragmentsOf resolved ++ Node.fragmentsOf rejected

/-- Nodes are read as the content of an element or a block after a place, unless there are
none. -/
def ReadAsFragment (cur : Cursor) (nodes : List Node) : Prop :=
  nodes ≠ [] → ∃ ctx ending start next, cur.Reaches start ∧
    Derives (.sequence ctx (some ending) nodes) start next

lemma ReadAsFragment.after (h : ReadAsFragment mid nodes) (hmid : cur.Reaches mid) :
    ReadAsFragment cur nodes := by
  intro hne
  obtain ⟨ctx, ending, start, next, hstart, hderives⟩ := h hne
  exact ⟨ctx, ending, start, next, hmid.trans hstart, hderives⟩

lemma exists_derives_of_mem_fragments (h : Derives phrase cur next) :
    ∀ nodes ∈ phrase.fragments, ReadAsFragment cur nodes := by
  have hafter {cur mid : Cursor} {fragments : List (List Node)} (hmid : cur.Reaches mid)
      (h : ∀ nodes ∈ fragments, ReadAsFragment mid nodes) :
      ∀ nodes ∈ fragments, ReadAsFragment cur nodes :=
    fun nodes hnodes => (h nodes hnodes).after hmid
  -- a fragment is read where the rule of its block or element reads it
  have hopened {ctx : MarkupContext} {ending : Ending} {nodes : List Node} {cur next : Cursor}
      (h : Derives (.sequence ctx (some ending) nodes) cur next)
      (ih : ∀ inner ∈ Node.fragmentsIn nodes, ReadAsFragment cur inner) :
      ∀ inner ∈ Node.fragmentsOf (some nodes), ReadAsFragment cur inner :=
    List.forall_mem_cons.mpr ⟨fun _ => ⟨_, _, _, _, .refl _, h⟩, ih⟩
  induction h with
  | stop _ => simp [fragments, Node.fragmentsIn]
  | cons _ hitem hfirst _ ihitem ihrest =>
    rw [fragments, Node.fragmentsIn_cons, forall_mem_append]
    refine ⟨?_, hafter hitem.reaches ihrest⟩
    obtain rfl | ⟨element, rfl, rfl⟩ := hfirst.eq_node_or_raw
    · exact ihitem
    · rw [Node.fragments_rawElement element (wellFormed_of_derives hitem).name_mem]
      exact List.forall_mem_nil _
  | inlineTag _ htag => cases htag <;> simp [fragments, Node.fragments]
  | complete _ _ _ _ =>
    rw [fragments, Node.fragments, Node.fragmentsIn]
    split
    · exact List.forall_mem_nil _
    · simp [ReadAsFragment]
  | element _ _ htag _ _ hchildren _ ihchildren =>
    rw [fragments, Node.fragments]
    split
    · exact List.forall_mem_nil _
    · exact hafter (reaches_openingTag htag) (hopened hchildren ihchildren)
  | ifBlock _ hopens htest hend _ ihbranches =>
    rw [fragments, Node.fragments_ifBlock]
    exact hafter (tagTokens_expression hopens htest hend).reaches ihbranches
  | branches hconsequent _ ihconsequent ihalternate =>
    exact forall_mem_append.mpr
      ⟨hopened hconsequent ihconsequent, hafter hconsequent.reaches ihalternate⟩
  | elseif _ hopens htest hend _ ihbranches =>
    -- a further branch stands in no fragment of its own
    have hbranches := hafter (tagTokens_expression hopens htest hend).reaches ihbranches
    simpa [fragments, Node.alternateFragments, isSingleBranch, Node.fragmentsIn,
      Node.fragments_ifBlock] using hbranches
  | otherwise _ _ _ ihelse =>
    intro nodes hnodes
    exact ihelse nodes (Node.mem_fragmentsOf_of_mem_alternateFragments hnodes)
  | elseBranch _ htag hnodes ihnodes => exact hafter htag.tagTokens.reaches (hopened hnodes ihnodes)
  | forBlock _ hopens hnames hin hsubject hkey hend hbody _ _ ihbody ihfallback =>
    rw [fragments, Node.fragments_forBlock]
    exact hafter (tagTokens_loop hopens hnames hin hsubject hkey hend).reaches
      (forall_mem_append.mpr ⟨hopened hbody ihbody, hafter hbody.reaches ihfallback⟩)
  | keyBlock _ hopens he hend hbody _ ihbody =>
    exact hafter (tagTokens_expression hopens he hend).reaches (hopened hbody ihbody)
  | snippetBlock _ hopens hname hopen hparams hparen hend hbody _ ihbody =>
    exact hafter (tagTokens_snippet hopens hname hopen hparams hparen hend).reaches
      (hopened hbody ihbody)
  | awaitBlock _ hopens he hopening _ ihoutcomes =>
    rw [fragments, Node.fragments_awaitBlock]
    exact hafter (tagTokens_await hopens he hopening).reaches ihoutcomes
  | outcome _ htag hnodes ihnodes => exact hafter htag.tagTokens.reaches (hopened hnodes ihnodes)
  | rejected hrejected _ ihrejected => exact hopened hrejected ihrejected
  | resolved hresolved _ _ ihresolved ihrejected =>
    exact forall_mem_append.mpr
      ⟨hopened hresolved ihresolved, hafter hresolved.reaches ihrejected⟩
  | pending hpending hresolved _ _ ihpending ihresolved ihrejected =>
    exact forall_mem_append.mpr ⟨forall_mem_append.mpr
      ⟨hopened hpending ihpending, hafter hpending.reaches ihresolved⟩,
      hafter (hpending.reaches.trans hresolved.reaches) ihrejected⟩
  | _ => simp [fragments, Node.fragments, Node.fragmentsOf]

end MarkupGrammar

namespace Component

variable {ctx : MarkupContext} {hasScript hasStyle : Bool} {component : Component}
  {cur next : Cursor}

lemma Derives.readAsFragment (h : Derives ctx hasScript hasStyle component cur next) :
    ∀ nodes ∈ Node.fragmentsIn component.nodes, ReadAsFragment cur nodes := by
  induction h with
  | stop _ => simp [Component.empty, Node.fragmentsIn]
  | cons _ hitem hpart _ ih =>
    have hfound := exists_derives_of_mem_fragments hitem
    have hlater := fun nodes hnodes => (ih nodes hnodes).after hitem.reaches
    cases hpart with
    | node n =>
      rw [Component.add, Node.fragmentsIn_cons, forall_mem_append]
      exact ⟨hfound, hlater⟩
    | raw _ _ =>
      rw [Component.add, Node.fragmentsIn_cons,
        Node.fragments_rawElement _ (wellFormed_of_derives hitem).name_mem]
      exact hlater
    | _ => exact hlater

end Component

/-! ## A text before the tag that closes its fragment -/

/-- **A text fuses with what closes its fragment**: it ends with an opening brace, no blanks are
left after it, and a block tag follows. -/
def FusesWith (core : List Char) (trail : Padding) (close : List Char) : Prop :=
  core.getLast? = some '\x7b' ∧ trail = .none ∧ close.head? = some '\x7b'

instance (core : List Char) (trail : Padding) (close : List Char) :
    Decidable (FusesWith core trail close) :=
  inferInstanceAs (Decidable (_ ∧ _ ∧ _))

namespace MarkupGrammar

variable {ctx : MarkupContext} {ending : Ending} {close : Cursor} {cs : List Char} {offset : Nat}

lemma Stops.startsItem (h : Stops (some ending) close) : startsItem close.rest = true := by
  cases ending with
  | closingTag name =>
    obtain ⟨tail, htail⟩ := List.isPrefixOf_iff_prefix.mp (show close.startsWith "</" = true from h)
    rw [← htail]
    rfl
  | blockTag keywords =>
    obtain ⟨keyword, -, hkeyword⟩ := h
    obtain ⟨cs, hcs⟩ := atBlockTag_of_keyword hkeyword
    rw [hcs]
    rfl

/-- **A text is read up to the tag that closes its fragment** exactly if it stays a text there. -/
theorem gives_fragment_text_iff (hne : cs ≠ []) (hstops : Stops (some ending) close)
    (hplace : close.offset = offset + byteLength cs) :
    (∃ span, Gives (fragment ctx ending ⟨offset, cs ++ close.rest⟩)
      [.text span (String.ofList cs)] close) ↔ StaysText cs close.rest := by
  obtain ⟨place, rest⟩ := close
  cases hplace
  constructor
  · rintro ⟨span, hgives⟩
    obtain ⟨-, after, hafter, hstays, -⟩ := startsHere_of_derives (derives_of_fragment hgives)
    rw [String.toList_ofList] at hafter hstays
    obtain rfl := List.append_cancel_left hafter
    exact hstays
  · intro hstays
    have hstop : Derives (.sequence ctx (some ending) []) ⟨offset + byteLength cs, rest⟩ _ :=
      .stop hstops
    obtain ⟨span, hderives⟩ := derives_text (.inr hstops.startsItem) (by simp) hne hstays hstop
    exact ⟨span, reads_of_derives hderives⟩

variable {rest : List Char}

lemma textRun_append (hrest : startsMarkup rest = true)
    (hrun : ∀ s, s ≠ [] → s <:+ run → startsMarkup (s ++ rest) = false) :
    textRun (run ++ rest) = run := by
  induction run with
  | nil =>
    cases rest with
    | nil => rfl
    | cons c rest => rw [nil_append, textRun, if_pos hrest]
  | cons c run ih =>
    have hfirst := hrun (c :: run) (List.cons_ne_nil c run) suffix_rfl
    rw [cons_append] at hfirst ⊢
    rw [textRun, hfirst, ih fun s hne hs => hrun s hne (hs.trans (List.suffix_cons c run))]
    rfl

lemma startsMarkup_eq (s : List Char) :
    startsMarkup s = (startsItem s || "<!".toList.isPrefixOf s) := by
  match s with
  | [] => rfl
  | [c] =>
    by_cases hc : c = '<' <;> by_cases hb : c = '\x7b' <;>
      simp [startsMarkup, startsItem, isPrefixOf, hc, hb]
  | c :: d :: s =>
    by_cases hc : c = '<'
    · subst hc
      by_cases hd : d = '!'
      · simp [startsMarkup, startsItem, isPrefixOf, hd]
      · have hd' : (d == '!') = false ∧ ('!' == d) = false := by simp [hd, Ne.symm hd]
        simp [startsMarkup, startsItem, isPrefixOf, hd'.1, hd'.2]
    · by_cases hb : c = '\x7b'
      · simp [startsMarkup, startsItem, isPrefixOf, hb]
      · simp [startsMarkup, startsItem, isPrefixOf, hc, hb, Ne.symm hc]

lemma closesText_of_head (h : startsItem rest = true) : ∀ c ∈ rest.head?, closesText c = true := by
  intro c hc
  obtain ⟨tail, rfl⟩ := List.head?_eq_some_iff.mp hc
  exact closesText_of_startsItem h

lemma isPrefixOf_declaration_append (hne : s ≠ []) (hrest : ∀ c ∈ rest.head?, closesText c = true) :
    "<!".toList.isPrefixOf (s ++ rest) = "<!".toList.isPrefixOf s := by
  match s, hne with
  | [c], _ =>
    cases rest with
    | nil => rfl
    | cons d rest =>
      have hd : '!' ≠ d := fun h => (closesText_spec (hrest d rfl)).2.2.1 h.symm
      simp [isPrefixOf, hd]
  | c :: d :: s, _ => simp [isPrefixOf]

lemma not_declaration_of_item (h : Derives (.item ctx (.node (.text span data))) cur next) :
    ¬ "<!".toList <:+: data.toList.tail := by
  cases h with
  | @text _ _ c cs hrest hstarts =>
    have hdata : (String.ofList (c :: textRun cs)).toList = c :: textRun cs := String.toList_ofList
    rw [hdata, List.tail_cons]
    rintro ⟨before, after, hinfix⟩
    obtain ⟨beyond, hbeyond⟩ := textRun_isPrefix cs
    have hsuffix : "<!".toList ++ after <:+ textRun cs := ⟨before, by rw [← hinfix, List.append_assoc]⟩
    have hmarkup := startsMarkup_of_textRun cs (by simp) hsuffix hbeyond.symm
    simp [startsMarkup] at hmarkup
  | inlineTag _ htag => cases htag

lemma gives_item_text_iff (hclean : CleanText cs) (hne : cs ≠ [])
    (hstarts : startsItem close.rest = true) (hplace : close.offset = offset + byteLength cs)
    (hpos : 0 < (⟨offset, cs ++ close.rest⟩ : Cursor).remaining) :
    (∃ span, Gives (item ctx ⟨offset, cs ++ close.rest⟩ hpos)
      (.node (.text span (String.ofList cs))) close) ↔
      StaysText cs close.rest ∧ ¬ "<!".toList <:+: cs.tail := by
  obtain ⟨place, rest⟩ := close
  cases hplace
  obtain ⟨c, run, rfl⟩ := List.exists_cons_of_ne_nil hne
  have hcloses := closesText_of_head hstarts
  constructor
  · rintro ⟨span, hgives⟩
    have hclosing : (⟨offset, c :: run ++ rest⟩ : Cursor).startsWith "</" = false := by
      rw [Bool.eq_false_iff]
      intro hclosing
      obtain ⟨tail, htail⟩ := List.isPrefixOf_iff_prefix.mp hclosing
      obtain ⟨hc, htail⟩ : '<' = c ∧ '/' :: tail = run ++ rest := List.cons.inj htail
      have hclosed := hclean (c :: run) suffix_rfl
      cases run with
      | nil =>
        -- the slash would be the first character of what closes the text
        have hslash := hcloses '/' (by rw [nil_append] at htail; rw [← htail]; rfl)
        exact absurd hslash (by decide)
      | cons d run =>
        rw [cons_append, List.cons.injEq] at htail
        simp [startsItem, ← hc, ← htail.1] at hclosed
    have hderives := derives_of_item hgives hclosing
    have hstays := (staysText_of_item hderives).2
    have hdeclaration := not_declaration_of_item hderives
    have hdata : (String.ofList (c :: run)).toList = c :: run := String.toList_ofList
    rw [hdata] at hstays hdeclaration
    exact ⟨hstays, hdeclaration⟩
  · rintro ⟨hstays, hdeclaration⟩
    have hfirst : startsItem (c :: (run ++ rest)) = false := hstays _ hne suffix_rfl
    have hrun : textRun (run ++ rest) = run := by
      refine textRun_append (startsMarkup_of_startsItem hstarts) fun s hs hsuffix => ?_
      have hitem := hstays s hs (hsuffix.trans (List.suffix_cons c run))
      rw [startsMarkup_eq, hitem, Bool.false_or, isPrefixOf_declaration_append hs hcloses,
        Bool.eq_false_iff]
      intro hprefix
      exact hdeclaration ((List.isPrefixOf_iff_prefix.mp hprefix).isInfix.trans hsuffix.isInfix)
    exact ⟨_, reads_of_derives (derives_textRun hfirst hrun) hpos⟩

end MarkupGrammar

/-! ## The last text of a fragment -/

section LastText

variable {core before after close : List Char} {lead trail : Padding}

/-- **A trimmed text between blanks stays a text** before what closes it, unless it fuses with it. -/
theorem staysText_padded_iff (hclean : CleanText core) (hbefore : Text.Blank before)
    (hafter : trail.Fits after) (hclose : startsItem close = true) :
    StaysText (before ++ (core ++ after)) close ↔ ¬ FusesWith core trail close := by
  constructor
  · rintro hstays ⟨hlast, rfl, hhead⟩
    obtain rfl : after = [] := hafter
    obtain ⟨front, rfl⟩ := List.getLast?_eq_some_iff.mp hlast
    obtain ⟨tail, rfl⟩ := List.head?_eq_some_iff.mp hhead
    have hitem := hstays ['\x7b'] (by simp) ⟨before ++ front, by simp⟩
    simp [startsItem] at hitem
  · intro hfree
    have hrest : ∀ c ∈ (after ++ close).head?, closesText c = true := by
      intro c hc
      rw [List.head?_append] at hc
      cases hhead : after.head? with
      | none =>
        rw [hhead] at hc
        exact closesText_of_head hclose c hc
      | some d =>
        rw [hhead] at hc
        cases hc
        simp [closesText, hafter.blank c (List.mem_of_mem_head? hhead)]
    have hbrace : core.getLast? = some '\x7b' → (after ++ close).head? ≠ some '\x7b' := by
      intro hlast hhead
      cases hnil : after with
      | nil =>
        rw [hnil, nil_append] at hhead
        exact hfree ⟨hlast, Padding.fits_nil_iff.mp (hnil ▸ hafter), hhead⟩
      | cons c blanks =>
        rw [hnil, cons_append, List.head?_cons, Option.some.injEq] at hhead
        have hblank := hafter.blank c (by simp [hnil])
        rw [hhead] at hblank
        exact absurd hblank (by decide)
    have hcore : StaysText core (after ++ close) := .of_cleanText hclean hbrace hrest
    exact StaysText.append (.of_blank hbefore) (hcore.append (.of_blank hafter.blank))

namespace Sibling

variable {α : Type}

lemma getLast?_padFrom (trim first : Bool) (siblings : List (Sibling α)) (s : Sibling α) :
    (padFrom trim first (siblings ++ [s])).getLast? =
      some (s.pad trim (first && siblings.isEmpty) true) := by
  induction siblings generalizing first with
  | nil => simp [padFrom]
  | cons t siblings ih =>
    have hne : padFrom trim false (siblings ++ [s]) ≠ [] := by cases siblings <;> simp [padFrom]
    rw [cons_append, padFrom, List.getLast?_cons_of_ne_nil hne, ih]
    simp

end Sibling

variable {nodes : List Node} {cur : Cursor} {span : Span} {data : String}

lemma Node.Tile.exists_between (h : Node.Tile cur nodes next) (hn : n ∈ nodes) :
    ∃ start stop, Node.Between start n stop := by
  induction nodes generalizing cur with
  | nil => cases hn
  | cons m nodes ih =>
    cases h with
    | cons hm hnodes _ =>
      rcases List.mem_cons.mp hn with rfl | hn
      · exact ⟨_, _, hm⟩
      · exact ih hnodes hn

lemma MarkupGrammar.ReadAsFragment.text (h : ReadAsFragment cur nodes)
    (hmem : .text span data ∈ nodes) : data.toList ≠ [] ∧ CleanText data.toList := by
  obtain ⟨_, _, _, _, -, hderives⟩ := h (List.ne_nil_of_mem hmem)
  obtain ⟨start, stop, hbetween⟩ := Node.Tile.exists_between hderives.fills hmem
  refine ⟨?_, (isFragment_of_derives hderives).clean span data hmem⟩
  cases hbetween with
  | text hne _ => exact hne
  | inlineTag htag _ => cases htag

lemma lead_ne_none {data : List Char} (hne : data ≠ []) (hblank : Text.Blank data)
    (h : (text data : Sibling Doc).pad false false true = .text lead core trail) :
    lead ≠ .none := by
  rw [pad_text_blank hblank, Padded.text.injEq] at h
  rintro rfl
  have hnone := h.1
  simp only [Bool.not_true, Bool.not_false, Bool.false_and, Bool.false_eq_true, if_false] at hnone
  unfold Padding.of at hnone
  split_ifs at hnone with hwide hone hspace
  simp [hne] at hspace

lemma pad_of_getLast?
    (h : (reconcile false (Node.siblings p (nodes ++ [.text span data]))).getLast? =
      some (.text lead core trail)) :
    (text data.toList : Sibling Doc).pad false nodes.isEmpty true = .text lead core trail ∧
      (nodes = [] → ¬ Text.Blank data.toList) := by
  by_cases hall : ∀ s ∈ Node.siblings p (nodes ++ [.text span data]), s.isBlank = true
  · rw [reconcile_of_all hall] at h
    cases h
  · rw [reconcile_of_not_all hall, Node.siblings_eq_map, List.map_append] at h
    have hlast := getLast?_padFrom false true (nodes.map (Node.sibling p))
      (.text data.toList)
    refine ⟨?_, ?_⟩
    · have hpad := hlast.symm.trans h
      simpa using hpad
    · rintro rfl hblank
      refine hall fun s hs => ?_
      simp only [nil_append, Node.siblings, List.mem_singleton] at hs
      subst hs
      exact List.all_eq_true.mpr hblank

/-- **The last text of a fragment and the tag that closes it.** The text is printed as its core
between blanks. It is read up to the tag again, as one text, exactly if it does not fuse with it. If
moreover no declaration stands in it, it is read as one item. -/
theorem Component.reads_lastText_iff {source special : String} {component : Component}
    (hparse : parse source special = .ok component) {p : Printing} {nodes : List Node} {span : Span}
    {data : String} (hfragment : nodes ++ [.text span data] ∈ Node.fragmentsIn component.nodes)
    (hpadded : (reconcile false (Node.siblings p (nodes ++ [.text span data]))).getLast? =
      some (.text lead core trail))
    (hbefore : lead.Fits before) (hafter : trail.Fits after) {ctx : MarkupContext}
    {ending : Ending} {close : Cursor} {offset : Nat} (hstops : Stops (some ending) close)
    (hplace : close.offset = offset + byteLength (before ++ (core ++ after))) :
    Text.trim (before ++ (core ++ after)) = Text.trim data.toList ∧
    ((∃ span', Gives (fragment ctx ending ⟨offset, before ++ (core ++ after) ++ close.rest⟩)
        [.text span' (String.ofList (before ++ (core ++ after)))] close) ↔
      ¬ FusesWith core trail close.rest) ∧
    ∀ hpos, (∃ span', Gives
        (item ctx ⟨offset, before ++ (core ++ after) ++ close.rest⟩ hpos)
        (.node (.text span' (String.ofList (before ++ (core ++ after))))) close) ↔
      ¬ FusesWith core trail close.rest ∧ ¬ "<!".toList <:+: (before ++ (core ++ after)).tail := by
  obtain ⟨next, hderives⟩ := ofChars_eq_ok_iff.mp (parse_eq_ok_iff.mp hparse)
  obtain ⟨hdata, hcleanData⟩ := (hderives.readAsFragment _ hfragment).text
    (List.mem_append_right nodes (List.mem_singleton_self (Node.text span data)))
  obtain ⟨hpad, hnotBlank⟩ := pad_of_getLast? hpadded
  have hcore := (core_of_pad hpad).1
  have htrimmed : Text.Trimmed core := hcore ▸ Text.trimmed_trim _
  have hclean : CleanText core := hcore ▸ hcleanData.trim
  -- something is left of the text
  have hne : before ++ (core ++ after) ≠ [] := by
    intro hnil
    obtain ⟨rfl, hrest⟩ := List.append_eq_nil_iff.mp hnil
    have hempty : core = [] := (List.append_eq_nil_iff.mp hrest).1
    have hblank : Text.Blank data.toList := by
      have hisBlank := Text.isBlankText_eq data.toList
      rw [← hcore, hempty, List.isEmpty_nil, Text.isBlankText, List.all_eq_true] at hisBlank
      exact hisBlank
    have hnodes : nodes.isEmpty = false := by
      rw [← Bool.not_eq_true, List.isEmpty_iff]
      exact fun hnodes => hnotBlank hnodes hblank
    rw [hnodes] at hpad
    exact lead_ne_none hdata hblank hpad (Padding.fits_nil_iff.mp hbefore)
  have hstays := staysText_padded_iff hclean hbefore.blank hafter hstops.startsItem
  refine ⟨?_, ?_, fun hpos => ?_⟩
  · rw [Text.trim_append hbefore.blank hafter.blank htrimmed, hcore]
  · rw [gives_fragment_text_iff hne hstops hplace, hstays]
  · -- before a closing tag nothing fuses
    have hfree : ¬ FusesWith core trail ['<', '/'] := by simp [FusesWith]
    have hwhole : StaysText (before ++ (core ++ after)) ['<', '/'] :=
      (staysText_padded_iff hclean hbefore.blank hafter rfl).mpr hfree
    rw [gives_item_text_iff hwhole.cleanText hne hstops.startsItem hplace hpos, hstays]

/-- A brace at the end of a text, before a line break that is kept. -/
theorem Component.reads_lastText_line : ∃ component span data,
    parse "\x7b% if x %\x7da \x7b\n\x7b% endif %\x7d" "zvelte" = .ok component ∧
    [.text span data] ∈ Node.fragmentsIn component.nodes ∧ data.toList = ['a', ' ', '\x7b', '\n'] ∧
    ∃ span', Gives (fragment { special := "zvelte" } (.blockTag ["endif"])
        ⟨10, ['a', ' ', '\x7b', '\n'] ++ "\x7b% endif %\x7d".toList⟩)
      [.text span' (String.ofList ['a', ' ', '\x7b', '\n'])] ⟨14, "\x7b% endif %\x7d".toList⟩ := by
  have htexts : (parse "\x7b% if x %\x7da \x7b\n\x7b% endif %\x7d" "zvelte").toOption.map
      (fun component => (Node.fragmentsIn component.nodes).map (·.map Node.textData?)) =
        some [[some ['a', ' ', '\x7b', '\n']]] := by decide +kernel
  cases hparse : parse "\x7b% if x %\x7da \x7b\n\x7b% endif %\x7d" "zvelte" with
  | error failure =>
    rw [hparse] at htexts
    cases htexts
  | ok component =>
    rw [hparse] at htexts
    obtain ⟨fragment, hfragments, hnodes⟩ := List.map_eq_singleton_iff.mp (Option.some.inj htexts)
    obtain ⟨n, rfl, hn⟩ := List.map_eq_singleton_iff.mp hnodes
    obtain ⟨span, data, rfl⟩ : ∃ span data, n = .text span data := by
      cases n
      case text span data => exact ⟨span, data, rfl⟩
      all_goals cases hn
    have hdata : data.toList = ['a', ' ', '\x7b', '\n'] := Option.some.inj hn
    have hmem : [] ++ [Node.text span data] ∈ Node.fragmentsIn component.nodes := by
      rw [hfragments]
      exact List.mem_singleton_self _
    have hpadded : (reconcile false (Node.siblings ⟨fun _ _ _ => false, id⟩
        ([] ++ [Node.text span data]))).getLast? =
          some (.text .none ['a', ' ', '\x7b'] .newline) := by
      rw [nil_append, Node.siblings, Node.siblings, hdata]
      rfl
    have hstops : Stops (some (.blockTag ["endif"])) ⟨14, "\x7b% endif %\x7d".toList⟩ := by
      refine ⟨"endif", by simp, ?_⟩
      decide +kernel
    have hplace : (⟨14, "\x7b% endif %\x7d".toList⟩ : Cursor).offset =
        10 + byteLength ([] ++ (['a', ' ', '\x7b'] ++ ['\n'])) := rfl
    have hafter : Padding.newline.Fits ['\n'] := ⟨[], rfl, .nil, by simp⟩
    exact ⟨component, span, data, rfl, hmem, hdata,
      (reads_lastText_iff hparse hmem hpadded rfl hafter hstops hplace).2.1.mpr (by decide)⟩

/-- **A text may fuse with the tag that closes it**: what is printed is not accepted. -/
theorem Component.formatSource_lastText_fuses :
    (formatSource {} "\x7b% if x %\x7da \x7b \x7b% endif %\x7d").toOption =
        some "\x7b% if x %\x7da \x7b\x7b% endif %\x7d\n" ∧
      (formatSource {} "\x7b% if x %\x7da \x7b\x7b% endif %\x7d\n").toOption = none := by
  decide +kernel

end LastText

end ComponentTemplate
