import ComponentTemplate.Proofs.BodyReading
import ComponentTemplate.Proofs.Tiling

/-!
# The items of components

What stands at the top level of a source is a list of items, whether or not a component can be made
of them. Each of them is a node of the component or is set apart from it, and a component is made of
a list of items exactly if at most one of them is the script and at most one the style.
-/

namespace ComponentTemplate

open Item List

open MarkupGrammar (GoesOn item_unique goesOn_of_item derives_textRun staysText_runs)

/-! ## What items are at the top level -/

namespace Item

def node? : Item → Option Node
  | .node n => some n
  | .importTag _ => none
  | .raw element =>
    if element.isComponentScript || element.isStyle then none else some element.toNode

def script? : Item → Option RawElement
  | .raw element => if element.isComponentScript then some element else none
  | _ => none

def style? : Item → Option RawElement
  | .raw element => if element.isStyle then some element else none
  | _ => none

/-- **The content among items**, with texts joined. -/
def nodes (items : List Item) : List Node := (items.filterMap node?).foldr Node.cons []

/-- The scripts set apart. -/
def scripts (items : List Item) : List RawElement := items.filterMap script?

/-- The styles set apart. -/
def styles (items : List Item) : List RawElement := items.filterMap style?

variable {found : Item} {n : Node} {element : RawElement}

lemma nodes_cons_of_some (h : found.node? = some n) (items : List Item) :
    nodes (found :: items) = n.cons (nodes items) := by
  rw [nodes, filterMap_cons_some h]
  rfl

lemma nodes_cons_of_none (h : found.node? = none) (items : List Item) :
    nodes (found :: items) = nodes items := by
  rw [nodes, filterMap_cons_none h]
  rfl

lemma scripts_cons (found : Item) (items : List Item) :
    scripts (found :: items) = found.script?.toList ++ scripts items := by
  cases h : found.script? <;> simp [scripts, h]

lemma styles_cons (found : Item) (items : List Item) :
    styles (found :: items) = found.style?.toList ++ styles items := by
  cases h : found.style? <;> simp [styles, h]

lemma isStyle_of_isComponentScript (h : element.isComponentScript = true) :
    element.isStyle = false := by
  simp only [RawElement.isComponentScript, Bool.and_eq_true, decide_eq_true_eq] at h
  simp [RawElement.isStyle, h.1]

lemma script?_of_isStyle (h : element.isStyle = true) : (raw element).script? = none := by
  have hscript : element.isComponentScript = false := by
    rw [← Bool.not_eq_true]
    intro hscript
    rw [isStyle_of_isComponentScript hscript] at h
    cases h
  simp [script?, hscript]

end Item

/-! ## The items of a source -/

namespace Component

variable {ctx : MarkupContext} {items : List Item} {cur next : Cursor}

/-- **Items stand between a place and the end of the source.** -/
inductive Items (ctx : MarkupContext) : List Item → Cursor → Cursor → Prop
  | stop {cur : Cursor} (hrest : cur.rest = []) : Items ctx [] cur cur
  | cons {found : Item} {items : List Item} {cur after next : Cursor}
      (hitem : MarkupGrammar.Derives (.item ctx found) cur after)
      (hlater : Items ctx items after next) : Items ctx (found :: items) cur next

lemma rest_ne_of_item (h : MarkupGrammar.Derives (.item ctx found) cur next) : cur.rest ≠ [] := by
  have hgoes : GoesOn none cur := goesOn_of_item h trivial
  exact hgoes.rest_ne

lemma Items.unique (h : Items ctx items cur next) (h' : Items ctx items' cur next') :
    items' = items := by
  induction h generalizing items' with
  | stop hrest =>
    cases h' with
    | stop _ => rfl
    | cons hitem _ => exact absurd hrest (rest_ne_of_item hitem)
  | cons hitem _ ih =>
    cases h' with
    | stop hrest => exact absurd hrest (rest_ne_of_item hitem)
    | cons hitem' hlater' =>
      obtain ⟨rfl, rfl⟩ := item_unique hitem hitem'
      rw [ih hlater']

/-- **A component holds what is among items**: their content, and as its script and its style the
only ones among them. -/
structure Gathers (items : List Item) (component : Component) : Prop where
  nodes_eq : component.nodes = Item.nodes items
  length_scripts : (Item.scripts items).length = component.script.toList.length
  styles_eq : (styles items).map RawElement.toStyle = component.style.toList

lemma Derives.exists_items (h : Derives ctx hasScript hasStyle component cur next) :
    ∃ items, Items ctx items cur next ∧ component.Gathers items := by
  induction h with
  | stop hrest => exact ⟨[], .stop hrest, rfl, rfl, rfl⟩
  | @cons _ _ found part later _ _ _ _ hitem hpart hlater ih =>
    obtain ⟨items, hitems, hnodes, hscripts, hstyles⟩ := ih
    refine ⟨found :: items, .cons hitem hitems, ?_⟩
    cases hpart with
    | node n => exact ⟨by rw [nodes_cons_of_some rfl, ← hnodes]; rfl, hscripts, hstyles⟩
    | importTag tag => exact ⟨by rw [nodes_cons_of_none rfl, ← hnodes]; rfl, hscripts, hstyles⟩
    | @script element body hscript _ _ =>
      -- no other script follows
      have hnone : later.script = none :=
        Derives.script_eq_none (by simpa [Part.isScript] using hlater)
      have hstyle := isStyle_of_isComponentScript hscript
      refine ⟨?_, ?_, ?_⟩
      · rw [Item.nodes_cons_of_none (by simp [Item.node?, hscript]), ← hnodes]
        rfl
      · rw [scripts_cons, script?, if_pos hscript, length_append, hscripts, hnone]
        rfl
      · rw [styles_cons, style?, if_neg (by simp [hstyle])]
        exact hstyles
    | @style element hscript hstyle _ =>
      have hnone : later.style = none :=
        Derives.style_eq_none (by simpa [Part.isStyle] using hlater)
      refine ⟨?_, ?_, ?_⟩
      · rw [Item.nodes_cons_of_none (by simp [Item.node?, hstyle]), ← hnodes]
        rfl
      · rw [scripts_cons, script?_of_isStyle hstyle]
        exact hscripts
      · rw [styles_cons, style?, if_pos hstyle, map_append, hstyles, hnone]
        rfl
    | @raw element hscript hstyle =>
      refine ⟨?_, ?_, ?_⟩
      · rw [Item.nodes_cons_of_some (by simp [Item.node?, hscript, hstyle]; rfl), ← hnodes]
        rfl
      · rw [scripts_cons, script?, if_neg (by simp [hscript])]
        exact hscripts
      · rw [styles_cons, style?, if_neg (by simp [hstyle])]
        exact hstyles

/-- **Items make a component** if there are at most one script and one style, counting those before
them, and the code of the script can be read. -/
theorem Items.exists_derives (h : Items ctx items cur next)
    (hscripts : hasScript.toNat + (scripts items).length ≤ 1)
    (hstyles : hasStyle.toNat + (styles items).length ≤ 1)
    (hcode : ∀ element ∈ scripts items, ∃ body, Statement.ofCursor element.cursor = .ok body) :
    ∃ component, Derives ctx hasScript hasStyle component cur next := by
  induction h generalizing hasScript hasStyle with
  | stop hrest => exact ⟨_, .stop hrest⟩
  | @cons found items _ _ _ hitem _ ih =>
    rw [scripts_cons] at hscripts hcode
    rw [styles_cons] at hstyles
    have hlater : ∀ element ∈ scripts items,
        ∃ body, Statement.ofCursor element.cursor = .ok body :=
      fun element hmem => hcode element (mem_append_right _ hmem)
    -- what remains is that the item becomes a part, and how much room it leaves
    suffices hpart : ∃ part, found.Becomes hasScript hasStyle part ∧
        (hasScript || part.isScript).toNat + (scripts items).length ≤ 1 ∧
        (hasStyle || part.isStyle).toNat + (styles items).length ≤ 1 by
      obtain ⟨part, hbecomes, hroom, hroom'⟩ := hpart
      obtain ⟨later, hderives⟩ := ih hroom hroom' hlater
      exact ⟨_, .cons (goesOn_of_item hitem trivial) hitem hbecomes hderives⟩
    cases found with
    | node n => exact ⟨_, .node n, by simpa [Part.isScript, script?] using hscripts,
        by simpa [Part.isStyle, style?] using hstyles⟩
    | importTag tag => exact ⟨_, .importTag tag, by simpa [Part.isScript, script?] using hscripts,
        by simpa [Part.isStyle, style?] using hstyles⟩
    | raw element =>
      cases hscript : element.isComponentScript with
      | true =>
        have hstyle := isStyle_of_isComponentScript hscript
        simp only [script?, hscript, if_true, Option.toList_some, length_append,
          length_singleton] at hscripts hcode
        obtain ⟨body, hbody⟩ := hcode element (by simp)
        have hfirst : hasScript = false := by
          cases hasScript
          · rfl
          · simp at hscripts
        refine ⟨_, .script hscript hfirst hbody, ?_, ?_⟩
        · simp only [Part.isScript, Bool.or_true, Bool.toNat_true]
          omega
        · simpa [Part.isStyle, style?, hstyle] using hstyles
      | false =>
        cases hstyle : element.isStyle with
        | true =>
          simp only [style?, hstyle, if_true, Option.toList_some, length_append,
            length_singleton] at hstyles
          have hfirst : hasStyle = false := by
            cases hasStyle
            · rfl
            · simp at hstyles
          refine ⟨_, .style hscript hstyle hfirst, ?_, ?_⟩
          · simpa [Part.isScript, script?, hscript] using hscripts
          · simp only [Part.isStyle, Bool.or_true, Bool.toNat_true]
            omega
        | false => exact ⟨_, .raw hscript hstyle,
            by simpa [Part.isScript, script?, hscript] using hscripts,
            by simpa [Part.isStyle, style?, hstyle] using hstyles⟩

/-! ## Texts among items -/

lemma exists_cons_cons_text (span span' : Span) (data data' : String) (nodes : List Node) :
    ∃ joined, Node.cons (.text span data) (Node.cons (.text span' data') nodes) =
      Node.cons (.text joined (data ++ data')) nodes := by
  refine ⟨span.merge span', ?_⟩
  cases nodes with
  | nil => rfl
  | cons n nodes =>
    cases n
    case text => simp [Node.cons, Span.merge, String.append_assoc]
    all_goals rfl

/-- **A text that stays one before items** is a text among them, and nothing else changes. -/
theorem Items.exists_text (hrest : rest = [] ∨ startsItem rest = true) (hne : cs ≠ [])
    (hstays : StaysText cs rest) (h : Items ctx items ⟨offset + byteLength cs, rest⟩ next) :
    ∃ items' span, Items ctx items' ⟨offset, cs ++ rest⟩ next ∧
      Item.nodes items' = Node.cons (.text span (String.ofList cs)) (Item.nodes items) ∧
      Item.scripts items' = Item.scripts items ∧ Item.styles items' = Item.styles items := by
  revert offset
  change ∀ offset : Nat, _ → _
  refine staysText_runs hrest ?_ ?_ hne hstays
  · intro c run hstarts hrun offset h
    exact ⟨_, _, .cons (derives_textRun hstarts hrun) h, Item.nodes_cons_of_some rfl items, rfl, rfl⟩
  · intro c run later hstarts hrun ih offset h
    rw [byteLength_append, ← Nat.add_assoc] at h
    obtain ⟨items', span, hitems, hnodes, hscripts, hstyles⟩ := ih _ h
    obtain ⟨joined, hjoined⟩ := exists_cons_cons_text
      ⟨offset, offset + byteLength (c :: run)⟩ span (String.ofList (c :: run))
      (String.ofList later) (Item.nodes items)
    rw [append_assoc]
    refine ⟨_, joined, .cons (derives_textRun hstarts hrun) hitems, ?_, hscripts, hstyles⟩
    rw [Item.nodes_cons_of_some rfl, hnodes, hjoined, ← String.ofList_append]

end Component

end ComponentTemplate
