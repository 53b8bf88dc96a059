import ComponentTemplate.Proofs.MarkupWellFormed

/-!
# Texts among nodes

Where an item starts in a text, or where a text ends with a brace that the next node goes on with,
something else is read. A text in which this happens nowhere is read as the text that it is, and
whatever is read at its place starts with it.
-/

namespace ComponentTemplate

open MarkupGrammar

/-! ## Texts that stay texts among nodes -/

/-- Whether a node is printed from an opening brace on, as tags and blocks are. -/
def Node.opensBrace : Node → Bool
  | .text .. | .comment .. | .element .. => false
  | _ => true

def Node.textData? : Node → Option (List Char)
  | .text _ data => some data.toList
  | _ => none

def Node.endsInBrace (n : Node) : Bool := n.textData?.any (·.getLast? = some '\x7b')

/-- **The texts among nodes stay texts**: no item starts in one of them, and none ends with an
opening brace right before a tag or a block. -/
structure Node.TextsStay (nodes : List Node) : Prop where
  clean : ∀ n ∈ nodes, ∀ data ∈ n.textData?, CleanText data
  apart : nodes.IsChain fun n next => n.endsInBrace = true → next.opensBrace = false

instance (cs : List Char) : Decidable (CleanText cs) :=
  decidable_of_iff (∀ s ∈ cs.tails, startsItem s = false) (by simp [CleanText])

instance (nodes : List Node) : Decidable (Node.TextsStay nodes) :=
  decidable_of_iff ((∀ n ∈ nodes, ∀ data ∈ n.textData?, CleanText data) ∧
    nodes.IsChain fun n next => n.endsInBrace = true → next.opensBrace = false)
    ⟨fun h => ⟨h.1, h.2⟩, fun h => ⟨h.clean, h.apart⟩⟩

namespace Node.TextsStay

variable {n : Node} {nodes : List Node}

lemma nil : Node.TextsStay [] := ⟨by simp, List.isChain_nil⟩

lemma tail (h : Node.TextsStay (n :: nodes)) : Node.TextsStay nodes :=
  ⟨fun m hm => h.clean m (List.mem_cons_of_mem _ hm), h.apart.tail⟩

lemma node (h : Node.TextsStay nodes) (hn : n.isText = false) : Node.TextsStay (n :: nodes) := by
  have hdata : n.textData? = none := by
    cases n
    case text => cases hn
    all_goals rfl
  refine ⟨List.forall_mem_cons.mpr ⟨by simp [hdata], h.clean⟩, h.apart.cons fun m _ hbrace => ?_⟩
  simp [Node.endsInBrace, hdata] at hbrace

lemma text_iff {span : Span} {data : String} : Node.TextsStay (.text span data :: nodes) ↔
    (CleanText data.toList ∧ (data.toList.getLast? = some '\x7b' →
      ∀ n ∈ nodes.head?, n.opensBrace = false)) ∧ Node.TextsStay nodes := by
  have hbrace : (Node.text span data).endsInBrace = true ↔
      data.toList.getLast? = some '\x7b' := by simp [Node.endsInBrace, Node.textData?]
  constructor
  · intro h
    refine ⟨⟨h.clean _ (List.mem_cons_self ..) _ rfl, fun hlast m hm => ?_⟩, h.tail⟩
    exact (List.isChain_cons.mp h.apart).1 m hm (hbrace.mpr hlast)
  · rintro ⟨⟨hclean, hlast⟩, h⟩
    refine ⟨List.forall_mem_cons.mpr ⟨?_, h.clean⟩, h.apart.cons fun m hm hends => ?_⟩
    · rintro _ ⟨⟩
      exact hclean
    · exact hlast (hbrace.mp hends) m hm

end Node.TextsStay

lemma exists_item_of_not_staysText (h : ¬ StaysText cs rest) :
    ∃ before item, cs = before ++ item ∧ item ≠ [] ∧ startsItem (item ++ rest) = true ∧
      StaysText before (item ++ rest) := by
  induction cs with
  | nil => exact absurd (fun s hne hs => absurd (List.suffix_nil.mp hs) hne) h
  | cons c cs ih =>
    by_cases hstarts : startsItem (c :: cs ++ rest) = true
    · exact ⟨[], c :: cs, rfl, List.cons_ne_nil c cs, hstarts, .of_blank .nil⟩
    · -- then an item starts later
      have hlater : ¬ StaysText cs rest := by
        refine fun hstays => h fun s hne hs => ?_
        rcases List.suffix_cons_iff.mp hs with rfl | hs
        · exact Bool.eq_false_iff.mpr hstarts
        · exact hstays s hne hs
      obtain ⟨before, item, rfl, hne, hitem, hbefore⟩ := ih hlater
      refine ⟨c :: before, item, rfl, hne, hitem, fun s hsne hs => ?_⟩
      rcases List.suffix_cons_iff.mp hs with rfl | hs
      · simpa using hstarts
      · exact hbefore s hsne hs

/-! ## Reading what is known to stand there -/

lemma Item.StandsAs.nested_eq {found : Item} {first : Node} {ending : Option Ending}
    (h : found.StandsAs first ending) : found.nested = .ok first := by
  obtain rfl | ⟨element, rfl, rfl⟩ := h.eq_node_or_raw
  · rfl
  · rfl

namespace MarkupGrammar

variable {ctx : MarkupContext} {ending : Option Ending} {found : Item} {nodes : List Node}
  {cur next : Cursor}

lemma item_unique (h : Derives (.item ctx found) cur next)
    (h' : Derives (.item ctx found') cur next') : found' = found ∧ next' = next := by
  have hgoes : GoesOn none cur := goesOn_of_item h trivial
  obtain ⟨c, cs, hrest⟩ := List.exists_cons_of_ne_nil hgoes.rest_ne
  have hpos := Cursor.remaining_pos hrest
  exact (reads_of_derives h' hpos).unique (reads_of_derives h hpos)

variable {cs : List Char} {n : Node}

lemma head_of_item (h : Derives (.item ctx found) cur next) (hfound : found.nested = .ok n)
    (hn : n.isText = false) : cur.rest.head? = some (if n.opensBrace then '\x7b' else '<') := by
  cases h with
  | text _ _ =>
    cases hfound
    cases hn
  | inlineTag hrest htag =>
    cases hfound
    rw [hrest]
    cases htag <;> rfl
  | importTag _ _ _ => cases hfound
  | comment hrest _ | complete hrest _ _ _ | element hrest _ _ _ _ _ _ | raw hrest _ _ _ _ _
  | variableTag hrest _ _ _ _ | ifBlock hrest _ _ _ _ | forBlock hrest _ _ _ _ _ _ _ _ _
  | keyBlock hrest _ _ _ _ _ | snippetBlock hrest _ _ _ _ _ _ _ _ | awaitBlock hrest _ _ _ _ =>
    cases hfound
    rw [hrest]
    rfl

lemma GoesOn.not_stops (h : GoesOn ending cur) : ¬ Stops ending cur := by
  intro hstops
  match ending with
  | none => exact h.rest_ne hstops
  | some (.closingTag _) =>
    have hclosing : cur.startsWith "</" = true := hstops
    rw [h.not_closing] at hclosing
    cases hclosing
  | some (.blockTag keywords) =>
    obtain ⟨keyword, hmem, hkeyword⟩ := hstops
    have hending := h.not_ending _ rfl
    simp [Ending.matches, hkeyword, hmem] at hending

/-- **The item at the start of a sequence** is its first node, and the others follow it. -/
theorem exists_of_item (hitem : Derives (.item ctx found) cur after) (hgoes : GoesOn ending cur)
    (h : Derives (.sequence ctx ending nodes) cur next) :
    ∃ first later, nodes = first.cons later ∧ found.StandsAs first ending ∧
      Derives (.sequence ctx ending later) after next := by
  cases h with
  | stop hstops => exact absurd hstops hgoes.not_stops
  | cons _ hitem' hfirst hlater =>
    obtain ⟨rfl, rfl⟩ := item_unique hitem hitem'
    exact ⟨_, _, rfl, hfirst, hlater⟩

lemma isText_of_startsItem (hrest : cur.rest = [] ∨ startsItem cur.rest = true)
    (h : Derives (.sequence ctx ending nodes) cur next) :
    ∀ n ∈ nodes.head?, n.isText = false := by
  cases h with
  | stop _ => simp
  | @cons _ _ found first later _ _ _ hgoes hitem hfirst _ =>
    have hstarts := hrest.resolve_left hgoes.rest_ne
    have htext : first.isText = false := by
      obtain rfl | ⟨element, rfl, rfl⟩ := hfirst.eq_node_or_raw
      · cases first
        case text =>
          cases hitem with
          | text hcons hnot =>
            rw [hcons, hnot] at hstarts
            cases hstarts
          | inlineTag _ htag => cases htag
        all_goals rfl
      · rfl
    intro n hn
    have hhead := isText_head_cons first later
    rw [show (first.cons later).head? = some n from hn, htext] at hhead
    simpa using hhead

lemma ne_nil_of_rest_ne (hne : cur.rest ≠ []) (h : Derives (.sequence ctx none nodes) cur next) :
    nodes ≠ [] := by
  cases h with
  | stop hstops => exact absurd hstops hne
  | @cons _ _ _ first later _ _ _ _ _ _ _ =>
    intro hnil
    have hhead := isText_head_cons first later
    rw [hnil] at hhead
    cases hhead

/-- **A text that stays one is the first node** of what is read there, and the others follow it. -/
theorem exists_of_text (hrest : rest = [] ∨ startsItem rest = true) (hne : cs ≠ [])
    (hstays : StaysText cs rest)
    (h : Derives (.sequence ctx ending nodes) ⟨offset, cs ++ rest⟩ next) :
    ∃ span later, nodes = .text span (String.ofList cs) :: later ∧
      Derives (.sequence ctx ending later) ⟨offset + byteLength cs, rest⟩ next := by
  revert offset nodes
  change ∀ (nodes : List Node) (offset : Nat), _ → _
  refine staysText_runs hrest ?_ ?_ hne hstays
  · intro c run hstarts hrun nodes offset h
    obtain ⟨_, others, rfl, hfirst, hothers⟩ :=
      exists_of_item (derives_textRun hstarts hrun) (goesOn_of_text hstarts) h
    obtain heq | ⟨_, heq, -⟩ := hfirst.eq_node_or_raw
    · cases heq
      rw [cons_text_of_head (isText_of_startsItem hrest hothers)]
      exact ⟨_, others, rfl, hothers⟩
    · cases heq
  · intro c run later hstarts hrun ih nodes offset h
    rw [List.append_assoc] at h
    obtain ⟨_, others, rfl, hfirst, hothers⟩ :=
      exists_of_item (derives_textRun hstarts hrun) (goesOn_of_text hstarts) h
    obtain heq | ⟨_, heq, -⟩ := hfirst.eq_node_or_raw
    · cases heq
      obtain ⟨span, last, rfl, hlast⟩ := ih _ _ hothers
      refine ⟨_, last, by rw [Node.cons, ← String.ofList_append], ?_⟩
      rwa [byteLength_append, ← Nat.add_assoc]
    · cases heq

/-- How nodes start at their place: a text with what stays a text there and then the next node, and
any other node with its first character. -/
def StartsHere : List Node → List Char → Prop
  | [], _ => True
  | .text _ data :: nodes, cs => ∃ after, cs = data.toList ++ after ∧
      StaysText data.toList after ∧
      ∀ n ∈ nodes.head?, after.head? = some (if n.opensBrace then '\x7b' else '<')
  | n :: _, cs => cs.head? = some (if n.opensBrace then '\x7b' else '<')

lemma startsHere_of_not_isText (hn : n.isText = false) :
    StartsHere (n :: nodes) cs ↔ cs.head? = some (if n.opensBrace then '\x7b' else '<') := by
  cases n
  case text => cases hn
  all_goals rfl

lemma StartsHere.head_eq (h : StartsHere nodes cs)
    (hnodes : ∀ n ∈ nodes.head?, n.isText = false) :
    ∀ n ∈ nodes.head?, cs.head? = some (if n.opensBrace then '\x7b' else '<') := by
  intro n hn
  obtain ⟨rest, rfl⟩ := List.head?_eq_some_iff.mp hn
  exact (startsHere_of_not_isText (hnodes n hn)).mp h

lemma textsStay_text (h : Node.TextsStay nodes) (hstays : StaysText data.toList after)
    (hhead : ∀ n ∈ nodes.head?, after.head? = some (if n.opensBrace then '\x7b' else '<')) :
    Node.TextsStay (.text span data :: nodes) := by
  refine Node.TextsStay.text_iff.mpr ⟨⟨hstays.cleanText, fun hlast n hn => ?_⟩, h⟩
  obtain ⟨front, hfront⟩ := List.getLast?_eq_some_iff.mp hlast
  have hnot := hstays ['\x7b'] (by simp) ⟨front, hfront.symm⟩
  obtain ⟨rest, rfl⟩ := List.head?_eq_some_iff.mp (hhead n hn)
  rw [← Bool.not_eq_true]
  intro hopens
  simp [hopens, startsItem] at hnot

lemma startsHere_of_derives (h : Derives (.sequence ctx ending nodes) cur next) :
    Node.TextsStay nodes ∧ StartsHere nodes cur.rest := by
  refine Derives.sequence_induction (motive := fun nodes cur =>
    Node.TextsStay nodes ∧ StartsHere nodes cur.rest) ?stop ?cons h
  case stop => exact fun _ _ => ⟨.nil, trivial⟩
  case cons =>
    intro found first rest cur after _ hitem hfirst _ ih
    obtain ⟨hstay, hstarts⟩ := ih
    by_cases htext : first.isText = false
    · have hhead := head_of_item hitem hfirst.nested_eq htext
      rw [Node.cons_of_not_isText htext]
      exact ⟨hstay.node htext, (startsHere_of_not_isText htext).mpr hhead⟩
    · obtain rfl | ⟨element, rfl, rfl⟩ := hfirst.eq_node_or_raw
      · obtain ⟨span, data, rfl⟩ : ∃ span data, first = .text span data := by
          cases first
          case text span data => exact ⟨span, data, rfl⟩
          all_goals exact absurd rfl htext
        obtain ⟨hrest, hstays⟩ := staysText_of_item hitem
        by_cases hhead : ∀ n ∈ rest.head?, n.isText = false
        · rw [cons_text_of_head hhead]
          have hnext := hstarts.head_eq hhead
          exact ⟨textsStay_text hstay hstays hnext, _, hrest, hstays, hnext⟩
        · -- two texts that were read apart are one text
          obtain ⟨span', data', later, rfl⟩ := Node.exists_text_of_head hhead
          obtain ⟨beyond, hbeyond, hstays', hnext⟩ := hstarts
          rw [hbeyond] at hrest hstays
          have hjoined := hstays.append hstays'
          rw [← String.toList_append] at hjoined
          refine ⟨textsStay_text hstay.tail hjoined hnext, beyond, ?_, hjoined, hnext⟩
          rw [hrest, String.toList_append, List.append_assoc]
      · exact absurd rfl htext

end MarkupGrammar

end ComponentTemplate
