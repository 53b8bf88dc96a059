import ComponentTemplate.Proofs.Blocks
import ComponentTemplate.Proofs.TopLevel

/-!
# Markup that is read

What reading guarantees of markup beyond its shape. Further branches of a condition stand only
where the condition expects them, tags hold the expressions that they ask for, elements have the
content that their names allow, and the outcomes of waiting agree with the names that they give.
-/

namespace ComponentTemplate

open MarkupGrammar

/-! ## The nodes between two tags -/

def Node.isBranch : Node → Bool
  | .ifBlock _ isBranch .. => isBranch
  | _ => false

/-- **What holds of the nodes between two tags**: no text follows another one, no markup starts in
a text, and none of the nodes is a further branch of a condition. -/
structure Node.IsFragment (nodes : List Node) : Prop where
  apart : nodes.IsChain fun a b => a.isText = false ∨ b.isText = false
  clean : ∀ span data, .text span data ∈ nodes → CleanText data.toList
  isBranch : ∀ n ∈ nodes, n.isBranch = false

namespace MarkupGrammar

variable {ctx : MarkupContext} {ending : Option Ending} {nodes : List Node} {cur next : Cursor}

lemma Derives.sequence_induction {motive : List Node → Cursor → Prop}
    (stop : ∀ cur, Stops ending cur → motive [] cur)
    (cons : ∀ {found : Item} {first : Node} {rest : List Node} {cur after : Cursor},
      GoesOn ending cur → Derives (.item ctx found) cur after → found.StandsAs first ending →
      Derives (.sequence ctx ending rest) after next → motive rest after →
      motive (first.cons rest) cur)
    (h : Derives (.sequence ctx ending nodes) cur next) : motive nodes cur := by
  generalize hphrase : Phrase.sequence ctx ending nodes = phrase at h
  induction h generalizing nodes with
  | stop hstops =>
    cases hphrase
    exact stop _ hstops
  | cons hgoes hitem hfirst hrest _ ihrest =>
    cases hphrase
    exact cons hgoes hitem hfirst hrest (ihrest cons rfl)
  | _ => cases hphrase

lemma isBranch_of_item (h : Derives (.item ctx (.node n)) cur next) : n.isBranch = false := by
  cases h with
  | inlineTag _ htag => cases htag <;> rfl
  | _ => rfl

/-- **A text that is read** stands where it is read, and stays a text there. -/
theorem staysText_of_item (h : Derives (.item ctx (.node (.text span data))) cur next) :
    cur.rest = data.toList ++ next.rest ∧ StaysText data.toList next.rest := by
  cases h with
  | @text _ _ c cs hrest hstarts =>
    obtain ⟨after, hafter⟩ := textRun_isPrefix cs
    have hstays := staysText_of_textRun hstarts hafter.symm
    generalize textRun cs = run at *
    subst hafter
    have hnext : (cur.skip (1 + run.length)).rest = after := by
      rw [Cursor.rest_skip, hrest, Nat.add_comm, List.drop_succ_cons]
      exact List.drop_left
    rw [hnext, String.toList_ofList, hrest]
    exact ⟨rfl, hstays⟩
  | inlineTag _ htag => cases htag

end MarkupGrammar

namespace Node

variable {n : Node} {nodes : List Node}

lemma exists_text_of_head (h : ¬ ∀ m ∈ nodes.head?, m.isText = false) :
    ∃ span data rest, nodes = .text span data :: rest := by
  cases nodes with
  | nil => simp at h
  | cons m rest =>
    cases m
    case text span data => exact ⟨span, data, rest, rfl⟩
    all_goals
      refine absurd (fun m hm => ?_) h
      cases hm
      rfl

lemma head_of_isChain {span : Span} {data : String}
    (h : (Node.text span data :: nodes).IsChain fun a b => a.isText = false ∨ b.isText = false) :
    ∀ m ∈ nodes.head?, m.isText = false := by
  intro m hm
  obtain ⟨rest, rfl⟩ := List.head?_eq_some_iff.mp hm
  simpa [Node.isText] using (List.isChain_cons_cons.mp h).1

lemma isFragment_nil : IsFragment [] := ⟨List.isChain_nil, by simp, by simp⟩

lemma IsFragment.tail (h : IsFragment (n :: nodes)) : IsFragment nodes :=
  ⟨h.apart.tail, fun span data hmem => h.clean span data (List.mem_cons_of_mem _ hmem),
    fun m hm => h.isBranch m (List.mem_cons_of_mem _ hm)⟩

lemma IsFragment.node (h : IsFragment nodes) (hn : n.isText = false) (hbranch : n.isBranch = false) :
    IsFragment (n :: nodes) := by
  refine ⟨h.apart.cons fun _ _ => .inl hn, fun span data hmem => ?_,
    List.forall_mem_cons.mpr ⟨hbranch, h.isBranch⟩⟩
  rcases List.mem_cons.mp hmem with rfl | hmem
  · cases hn
  · exact h.clean span data hmem

lemma IsFragment.text (h : IsFragment nodes) {span : Span} {data : String}
    (hclean : CleanText data.toList) (hnodes : ∀ m ∈ nodes.head?, m.isText = false) :
    IsFragment (.text span data :: nodes) := by
  refine ⟨h.apart.cons fun m hm => .inr (hnodes m hm), fun span' data' hmem => ?_,
    List.forall_mem_cons.mpr ⟨rfl, h.isBranch⟩⟩
  rcases List.mem_cons.mp hmem with heq | hmem
  · cases heq
    exact hclean
  · exact h.clean span' data' hmem

lemma isChain_cons (h : nodes.IsChain fun a b => a.isText = false ∨ b.isText = false) (n : Node) :
    (n.cons nodes).IsChain fun a b => a.isText = false ∨ b.isText = false := by
  by_cases hn : n.isText = false
  · rw [cons_of_not_isText hn]
    exact h.cons fun _ _ => .inl hn
  · by_cases hhead : ∀ m ∈ nodes.head?, m.isText = false
    · cases n
      case text span data =>
        rw [cons_text_of_head hhead]
        exact h.cons fun m hm => .inr (hhead m hm)
      all_goals exact absurd rfl hn
    · obtain ⟨span', data', rest, rfl⟩ := exists_text_of_head hhead
      cases n
      case text span data => exact h.tail.cons fun m hm => .inr (head_of_isChain h m hm)
      all_goals exact absurd rfl hn

end Node

namespace MarkupGrammar

variable {ctx : MarkupContext} {ending : Option Ending} {nodes : List Node} {cur next : Cursor}

/-- A text at the start of a sequence stands at its place, and stays a text there. -/
def LeadsText (nodes : List Node) (cur : Cursor) : Prop :=
  ∀ span data rest, nodes = .text span data :: rest →
    ∃ after, cur.rest = data.toList ++ after ∧ StaysText data.toList after

lemma isFragment_cons_text (hitem : Derives (.item ctx (.node (.text span data))) cur after)
    (hnodes : Node.IsFragment nodes) (hleads : LeadsText nodes after) :
    Node.IsFragment ((Node.text span data).cons nodes) ∧
      LeadsText ((Node.text span data).cons nodes) cur := by
  obtain ⟨hrest, hstays⟩ := staysText_of_item hitem
  by_cases hhead : ∀ m ∈ nodes.head?, m.isText = false
  · rw [cons_text_of_head hhead]
    refine ⟨hnodes.text hstays.cleanText hhead, ?_⟩
    rintro _ _ _ ⟨⟩
    exact ⟨_, hrest, hstays⟩
  · -- the two texts are one, and what is read of both goes on after the second
    obtain ⟨span', data', rest, rfl⟩ := Node.exists_text_of_head hhead
    obtain ⟨later, hlater, hstays'⟩ := hleads span' data' rest rfl
    rw [hlater] at hrest hstays
    have hjoined := hstays.append hstays'
    rw [← String.toList_append] at hjoined
    refine ⟨hnodes.tail.text hjoined.cleanText (Node.head_of_isChain hnodes.apart), ?_⟩
    rintro _ _ _ ⟨⟩
    exact ⟨later, by rw [hrest, String.toList_append, List.append_assoc], hjoined⟩

/-- **The nodes between two tags** are apart and stay what they are. -/
theorem isFragment_of_derives (h : Derives (.sequence ctx ending nodes) cur next) :
    Node.IsFragment nodes := by
  -- a text that is joined to the next one has to be known to stay a text before it
  suffices Node.IsFragment nodes ∧ LeadsText nodes cur from this.1
  refine Derives.sequence_induction (motive := fun nodes cur =>
    Node.IsFragment nodes ∧ LeadsText nodes cur) ?stop ?cons h
  case stop =>
    intro cur _
    exact ⟨Node.isFragment_nil, by rintro _ _ _ ⟨⟩⟩
  case cons =>
    intro found first rest cur after _ hitem hfirst _ ih
    obtain ⟨hrest, hleads⟩ := ih
    obtain rfl | ⟨element, rfl, rfl⟩ := hfirst.eq_node_or_raw
    · by_cases htext : first.isText = false
      · rw [Node.cons_of_not_isText htext]
        refine ⟨hrest.node htext (isBranch_of_item hitem), ?_⟩
        rintro _ _ _ ⟨⟩
        cases htext
      · cases first
        case text span data => exact isFragment_cons_text hitem hrest hleads
        all_goals exact absurd rfl htext
    · refine ⟨hrest.node rfl rfl, ?_⟩
      rintro _ _ _ ⟨⟩

end MarkupGrammar

/-! ## Well-formed markup -/

/-- Whether nodes can be the content of an element with raw text: at most one text. -/
def Node.IsRawContent (nodes : List Node) : Prop :=
  nodes = [] ∨ ∃ span data, nodes = [.text span data]

/-- **The outcomes of an awaiting block** agree with each other: there is something to show, and
a name is given only with what may use it. -/
structure AwaitAgrees (value error : Option Expr) (pending resolved rejected : Option (List Node)) :
    Prop where
  isParam_value : ∀ e ∈ value, e.IsParam
  isParam_error : ∀ e ∈ error, e.IsParam
  isSome_resolved : value.isSome = true → resolved.isSome = true
  isSome_rejected : error.isSome = true → rejected.isSome = true
  isSome : pending.isSome = true ∨ resolved.isSome = true ∨ rejected.isSome = true

mutual

/-- **What holds of every node that is read**, at every depth. -/
def Node.WellFormed (ctx : MarkupContext) : Node → Prop
  | .text .. => True
  | .comment _ data => ¬ "-->".toList <:+: data.toList
  | .element _ kind name attributes children =>
    IsElementName ctx kind name ∧ (∀ a ∈ attributes, a.WellFormed) ∧
      (kind = .regular → isVoid name = true → children = []) ∧
      if kind = .regular ∧ name ∈ rawElements then Node.IsRawContent children
      else Node.IsFragment children ∧
        Node.AllWellFormed { ctx with inHead := kind = .specialHead } children
  | .expressionTag _ e | .htmlTag _ e => e.WellFormed
  | .renderTag _ e => e.isCall = true ∧ e.WellFormed
  | .variableTag _ e => e.isAssignment = true ∧ e.WellFormed
  | .ifBlock _ _ test consequent alternate =>
    test.WellFormed ∧ Node.IsFragment consequent ∧ Node.AllWellFormed ctx consequent ∧
      -- only here a further branch may stand, and nothing else then
      (match alternate with
      | none => True
      | some nodes => (isSingleBranch nodes = true ∨ Node.IsFragment nodes) ∧
          Node.AllWellFormed ctx nodes)
  | .forBlock _ index name subject key body fallback =>
    (∀ e ∈ index, e.IsParam) ∧ name.IsParam ∧ subject.WellFormed ∧ (∀ e ∈ key, e.WellFormed) ∧
      Node.IsFragment body ∧ Node.AllWellFormed ctx body ∧
      (match fallback with
      | none => True
      | some nodes => Node.IsFragment nodes ∧ Node.AllWellFormed ctx nodes)
  | .keyBlock _ e body => e.WellFormed ∧ Node.IsFragment body ∧ Node.AllWellFormed ctx body
  | .snippetBlock _ name params body =>
    isName name.toList = true ∧ (∀ e ∈ params, e.IsParam) ∧ Node.IsFragment body ∧
      Node.AllWellFormed ctx body
  | .awaitBlock _ e value error pending resolved rejected =>
    e.WellFormed ∧ AwaitAgrees value error pending resolved rejected ∧
      (match pending with
      | none => True
      | some nodes => Node.IsFragment nodes ∧ Node.AllWellFormed ctx nodes) ∧
      (match resolved with
      | none => True
      | some nodes => Node.IsFragment nodes ∧ Node.AllWellFormed ctx nodes) ∧
      (match rejected with
      | none => True
      | some nodes => Node.IsFragment nodes ∧ Node.AllWellFormed ctx nodes)

def Node.AllWellFormed (ctx : MarkupContext) : List Node → Prop
  | [] => True
  | n :: rest => n.WellFormed ctx ∧ Node.AllWellFormed ctx rest

end

/-- **The content of an element or a block** that is read. -/
structure Node.Content (ctx : MarkupContext) (nodes : List Node) : Prop where
  isFragment : Node.IsFragment nodes
  wellFormed : Node.AllWellFormed ctx nodes

section WellFormed

variable {ctx : MarkupContext} {span : Span}

lemma Node.content_iff :
    Node.IsFragment nodes ∧ Node.AllWellFormed ctx nodes ↔ Node.Content ctx nodes :=
  ⟨fun h => ⟨h.1, h.2⟩, fun h => ⟨h.1, h.2⟩⟩

lemma Node.wellFormed_ifBlock_iff {isBranch : Bool} {test : Expr} {consequent : List Node}
    {alternate : Option (List Node)} :
    (Node.ifBlock span isBranch test consequent alternate).WellFormed ctx ↔
      test.WellFormed ∧ Node.Content ctx consequent ∧ ∀ nodes ∈ alternate,
        (isSingleBranch nodes = true ∨ Node.IsFragment nodes) ∧ Node.AllWellFormed ctx nodes := by
  cases alternate <;> simp [Node.WellFormed, ← Node.content_iff, and_assoc]

lemma Node.wellFormed_forBlock_iff {index key : Option Expr} {item subject : Expr}
    {body : List Node} {fallback : Option (List Node)} :
    (Node.forBlock span index item subject key body fallback).WellFormed ctx ↔
      (∀ e ∈ index, e.IsParam) ∧ item.IsParam ∧ subject.WellFormed ∧ (∀ e ∈ key, e.WellFormed) ∧
        Node.Content ctx body ∧ ∀ nodes ∈ fallback, Node.Content ctx nodes := by
  cases fallback <;> simp [Node.WellFormed, ← Node.content_iff, and_assoc]

lemma Node.wellFormed_awaitBlock_iff :
    (Node.awaitBlock span e value error pending resolved rejected).WellFormed ctx ↔
      e.WellFormed ∧ AwaitAgrees value error pending resolved rejected ∧
        (∀ nodes ∈ pending, Node.Content ctx nodes) ∧ (∀ nodes ∈ resolved, Node.Content ctx nodes) ∧
        ∀ nodes ∈ rejected, Node.Content ctx nodes := by
  cases pending <;> cases resolved <;> cases rejected <;> simp [Node.WellFormed, ← Node.content_iff]

lemma Node.allWellFormed_iff : Node.AllWellFormed ctx nodes ↔ ∀ n ∈ nodes, n.WellFormed ctx := by
  induction nodes with
  | nil => simp [AllWellFormed]
  | cons n nodes ih => simp [AllWellFormed, ih]

lemma Node.allWellFormed_cons {first : Node} {rest : List Node} (hfirst : first.WellFormed ctx)
    (hrest : Node.AllWellFormed ctx rest) : Node.AllWellFormed ctx (first.cons rest) := by
  rw [allWellFormed_iff] at hrest ⊢
  exact Node.forall_mem_cons (fun _ _ => trivial) hfirst hrest

end WellFormed

namespace MarkupGrammar

variable {ctx : MarkupContext} {cur next : Cursor}

/-! ### Parts of tags -/

variable {st st₁ : Stream} {word : String} {name : Option Expr} {tag : OpeningTag}

lemma OpensTag.isSound (h : OpensTag word cur st) : st.current.lexeme.IsSound := by
  obtain ⟨_, _, hword⟩ := h
  exact hword.next.isSound

lemma Stream.PassesParam.isParam (h : st.PassesParam e st₁) (hsound : st.current.lexeme.IsSound) :
    e.IsParam ∧ st₁.current.lexeme.IsSound := by
  obtain ⟨name, rfl, hfree, hpasses⟩ := h
  exact ⟨⟨hpasses.isName hsound, hfree⟩, hpasses.next.isSound⟩

lemma Binds.isParam (h : Binds st name st₁) (hsound : st.current.lexeme.IsSound) :
    ∀ e ∈ name, e.IsParam := by
  cases name with
  | none => simp
  | some e =>
    rintro _ ⟨⟩
    exact (Stream.PassesParam.isParam h hsound).1

lemma BindingTag.isParam (h : BindingTag word name cur next) : ∀ e ∈ name, e.IsParam := by
  obtain ⟨st, st₁, hopens, hbinds, -⟩ := h
  exact hbinds.isParam hopens.isSound

lemma OpensAwait.isParam (h : OpensAwait st next opening) : ∀ e ∈ opening.name?, e.IsParam := by
  cases h with
  | pending _ => simp [AwaitOpening.name?]
  | resolved hword hname _ | rejected hword hname _ => exact hname.isParam hword.next.isSound

lemma LoopNames.isParam {index : Option Expr} {item : Expr} (h : LoopNames st index item st₁)
    (hsound : st.current.lexeme.IsSound) :
    (∀ e ∈ index, e.IsParam) ∧ item.IsParam ∧ st₁.current.lexeme.IsSound := by
  cases h with
  | item hitem _ => exact ⟨by simp, Stream.PassesParam.isParam hitem hsound⟩
  | both hindex hcomma hitem =>
    refine ⟨?_, Stream.PassesParam.isParam hitem hcomma.next.isSound⟩
    rintro _ ⟨⟩
    exact (Stream.PassesParam.isParam hindex hsound).1

lemma LoopKey.wellFormed (h : LoopKey st key st₁) : ∀ e ∈ key, e.WellFormed := by
  cases h with
  | none _ => simp
  | some _ hopen hkey _ =>
    rintro _ ⟨⟩
    exact (Grammar.wellFormed_of_derives hkey hopen.next.isSound).1

lemma InlineTag.wellFormed (h : InlineTag cur next n) : n.WellFormed ctx := by
  cases h with
  | expression hat _ he _ => exact (Grammar.wellFormed_of_derives he hat.isSound).1
  | html _ _ hword he _ => exact (Grammar.wellFormed_of_derives he hword.next.isSound).1
  | render _ _ hword he hcall _ =>
    exact ⟨hcall, (Grammar.wellFormed_of_derives he hword.next.isSound).1⟩

lemma wellFormed_openingTag (htag : Gives (openingTag ctx cur) tag next) :
    ∀ a ∈ tag.attributes, a.WellFormed := by
  obtain ⟨-, -, hattributes⟩ := (gives_openingTag_iff rfl).mp htag
  exact (readsAttributes_of_gives hattributes).wellFormed

/-! ### Markup that has a derivation -/

structure RawElement.WellFormed (ctx : MarkupContext) (element : RawElement) : Prop where
  isElementName : IsElementName ctx .regular element.name
  attributes : ∀ a ∈ element.attributes, a.WellFormed
  name_mem : element.name ∈ rawElements

/-- **What holds of a phrase that is read.** -/
def Phrase.WellFormed : Phrase → Prop
  | .sequence ctx _ nodes => Node.Content ctx nodes
  | .item ctx (.node n) => n.WellFormed ctx
  | .item ctx (.raw element) => RawElement.WellFormed ctx element
  | .item _ (.importTag _) => True
  | .branches ctx consequent alternate => ∀ span isBranch test, test.WellFormed →
      (Node.ifBlock span isBranch test consequent alternate).WellFormed ctx
  | .alternative ctx alternate => ∀ nodes ∈ alternate,
      (isSingleBranch nodes = true ∨ Node.IsFragment nodes) ∧ Node.AllWellFormed ctx nodes
  | .elseBranch ctx _ nodes => ∀ ns ∈ nodes, Node.Content ctx ns
  | .outcome ctx _ _ name nodes => (∀ e ∈ name, e.IsParam) ∧
      (name.isSome = true → nodes.isSome = true) ∧ ∀ ns ∈ nodes, Node.Content ctx ns
  | .outcomes ctx opening value error pending resolved rejected =>
    (∀ e ∈ opening.name?, e.IsParam) → ∀ span e, e.WellFormed →
      (Node.awaitBlock span e value error pending resolved rejected).WellFormed ctx

lemma isVoid_of_mem_rawElements {name : String} (h : name ∈ rawElements) : isVoid name = false := by
  simp only [rawElements, List.mem_cons, List.not_mem_nil, or_false] at h
  rcases h with rfl | rfl <;> decide +kernel

lemma RawElement.WellFormed.toNode {element : RawElement} (h : RawElement.WellFormed ctx element) :
    element.toNode.WellFormed ctx := by
  have hvoid := isVoid_of_mem_rawElements h.name_mem
  refine ⟨h.isElementName, h.attributes, fun _ hempty => by simp [hvoid] at hempty, ?_⟩
  rw [if_pos ⟨rfl, h.name_mem⟩]
  split
  · exact .inl rfl
  · exact .inr ⟨_, _, rfl⟩

lemma wellFormed_of_derives {phrase : Phrase} (h : Derives phrase cur next) :
    phrase.WellFormed := by
  have hexpr {e : Expr} {st st' : Stream} (h : Grammar.Derives (.expression e) st st')
      (hst : st.current.lexeme.IsSound) : e.WellFormed :=
    (Grammar.wellFormed_of_derives h hst).1
  induction h with
  | stop _ => exact ⟨Node.isFragment_nil, trivial⟩
  | cons hgoes hitem hfirst hrest ihitem ihrest =>
    refine ⟨isFragment_of_derives (.cons hgoes hitem hfirst hrest),
      Node.allWellFormed_cons ?_ ihrest.wellFormed⟩
    obtain rfl | ⟨element, rfl, rfl⟩ := hfirst.eq_node_or_raw
    · exact ihitem
    · exact ihitem.toNode
  | text _ _ => exact trivial
  | @comment _ _ _ data _ hdata =>
    have hnone := not_isInfix_of_beforeText? (by decide) hdata
    rwa [← String.toList_ofList (l := data)] at hnone
  | inlineTag _ htag => exact htag.wellFormed
  | variableTag _ hopens he hassignment _ => exact ⟨hassignment, hexpr he hopens.isSound⟩
  | importTag _ _ _ => exact trivial
  | complete hrest hc htag _ =>
    rw [Phrase.WellFormed]
    refine ⟨isElementName_of_gives hrest hc htag, wellFormed_openingTag htag, fun _ _ => rfl, ?_⟩
    split
    · exact .inl rfl
    · exact ⟨Node.isFragment_nil, trivial⟩
  | raw hrest hc htag _ hraw _ =>
    obtain ⟨hkind, hname⟩ := Bool.and_eq_true_iff.mp hraw
    have hregular := isElementName_of_gives hrest hc htag
    rw [of_decide_eq_true hkind] at hregular
    exact ⟨hregular, wellFormed_openingTag htag, List.contains_iff_mem.mp hname⟩
  | @element _ tag _ _ _ _ _ _ _ hrest hc htag hcomplete hraw _ _ ihchildren =>
    have hkind : tag.kind = .regular → isVoid tag.name = false ∧ tag.name ∉ rawElements := by
      intro hregular
      simp only [OpeningTag.isComplete, OpeningTag.isRaw, hregular, decide_true, Bool.true_and,
        Bool.or_eq_false_iff] at hcomplete hraw
      exact ⟨hcomplete.2, by simpa using hraw⟩
    refine ⟨isElementName_of_gives hrest hc htag, wellFormed_openingTag htag,
      fun hregular hvoid => ?_, ?_⟩
    · rw [(hkind hregular).1] at hvoid
      cases hvoid
    · rw [if_neg fun h => (hkind h.1).2 h.2]
      exact Node.content_iff.mpr ihchildren
  | ifBlock _ hopens htest _ _ ihbranches =>
    rw [Phrase.WellFormed]
    exact ihbranches _ _ _ (hexpr htest hopens.isSound)
  | branches _ _ ihconsequent ihalternate =>
    intro span isBranch test htest
    exact Node.wellFormed_ifBlock_iff.mpr ⟨htest, ihconsequent, ihalternate⟩
  | elseif _ hopens htest _ _ ihbranches =>
    rintro _ ⟨⟩
    exact ⟨.inl rfl, ihbranches _ _ _ (hexpr htest hopens.isSound), trivial⟩
  | forBlock _ hopens hnames hin hsubject hkey _ _ _ _ ihbody ihfallback =>
    obtain ⟨hindex, hitem, -⟩ := hnames.isParam hopens.isSound
    rw [Phrase.WellFormed, Node.wellFormed_forBlock_iff]
    exact ⟨hindex, hitem, hexpr hsubject hin.next.isSound, hkey.wellFormed, ihbody, ihfallback⟩
  | keyBlock _ hopens he _ _ _ ihbody =>
    exact ⟨hexpr he hopens.isSound, Node.content_iff.mpr ihbody⟩
  | snippetBlock _ hopens hname hopen hparams _ _ _ _ ihbody =>
    exact ⟨hname.isName hopens.isSound, (Grammar.wellFormed_of_derives hparams hopen.next.isSound).1,
      Node.content_iff.mpr ihbody⟩
  | awaitBlock _ hopens he hopening _ ihoutcomes =>
    rw [Phrase.WellFormed]
    exact ihoutcomes hopening.isParam _ _ (hexpr he hopens.isSound)
  | _ =>
    simp only [Phrase.WellFormed, Node.wellFormed_awaitBlock_iff, AwaitOpening.name?] at *
    grind -ring -linarith -lia [→ BindingTag.isParam, AwaitAgrees, Node.Content]

end MarkupGrammar

/-! ## Well-formed components -/

/-- **What holds of every component that is read.** At the top level texts may have been joined
across what is set apart, so markup may start in them. -/
structure Component.WellFormed (ctx : MarkupContext) (component : Component) : Prop where
  nodes : Node.AllWellFormed ctx component.nodes
  isBranch : ∀ n ∈ component.nodes, n.isBranch = false
  apart : component.nodes.IsChain fun a b => a.isText = false ∨ b.isText = false
  script : ∀ block ∈ component.script, ∀ e ∈ Statement.exprsOf block.body, e.WellFormed
  style : ∀ block ∈ component.style, ∀ a ∈ block.attributes, a.WellFormed

namespace Component

variable {ctx : MarkupContext} {component : Component}

lemma WellFormed.empty : WellFormed ctx .empty :=
  ⟨trivial, by simp [Component.empty], List.isChain_nil, by simp [Component.empty],
    by simp [Component.empty]⟩

lemma WellFormed.add_node (h : component.WellFormed ctx) (hn : n.WellFormed ctx)
    (hbranch : n.isBranch = false) : (component.add (.node n)).WellFormed ctx := by
  refine ⟨Node.allWellFormed_cons hn h.nodes, ?_, Node.isChain_cons h.apart n, h.script, h.style⟩
  exact Node.forall_mem_cons (fun _ _ => rfl) hbranch h.isBranch

lemma Derives.wellFormed (h : Derives ctx hasScript hasStyle component cur next) :
    component.WellFormed ctx := by
  induction h with
  | stop _ => exact .empty
  | cons _ hitem hpart _ ih =>
    have hfound := wellFormed_of_derives hitem
    cases hpart with
    | node n => exact ih.add_node hfound (isBranch_of_item hitem)
    | importTag tag => exact ⟨ih.nodes, ih.isBranch, ih.apart, ih.script, ih.style⟩
    | script _ _ hbody =>
      refine ⟨ih.nodes, ih.isBranch, ih.apart, ?_, ih.style⟩
      rintro _ ⟨⟩
      exact Statement.wellFormed_of_ofCursor hbody
    | style _ _ _ =>
      refine ⟨ih.nodes, ih.isBranch, ih.apart, ih.script, ?_⟩
      rintro _ ⟨⟩
      exact hfound.attributes
    | raw _ _ => exact ih.add_node hfound.toNode rfl

/-- **Components that are read are well-formed**, at every depth. -/
theorem wellFormed_of_parse_eq_ok {source special : String} (h : parse source special = .ok component) :
    component.WellFormed { special } := by
  obtain ⟨next, hderives⟩ := ofChars_eq_ok_iff.mp (parse_eq_ok_iff.mp h)
  exact hderives.wellFormed

/-- A component with a directive that stands for a variable, a further branch and a raw element. -/
theorem exists_wellFormed_of_parse : ∃ component,
    parse ("<p class:a>\x7b% if a %\x7db\x7b% elseif c %\x7d\x7b% endif %\x7d" ++
      "<script>d</script></p>") "zvelte" = .ok component ∧
      component.WellFormed { special := "zvelte" } := by
  obtain ⟨component, hparse⟩ := exists_eq_ok_of_isOk (x := parse
    ("<p class:a>\x7b% if a %\x7db\x7b% elseif c %\x7d\x7b% endif %\x7d" ++
      "<script>d</script></p>") "zvelte") (by decide +kernel)
  exact ⟨component, hparse, wellFormed_of_parse_eq_ok hparse⟩

end Component

end ComponentTemplate
