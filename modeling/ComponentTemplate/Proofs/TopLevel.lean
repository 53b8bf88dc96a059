import ComponentTemplate.Proofs.MarkupReading

/-!
# The top level of components

A component is a sequence of items up to the end of the source. Each item becomes a part: a node,
or one of the parts that are set apart. A component in which nothing is set apart is a sequence of
nodes.
-/

namespace ComponentTemplate

/-- **An item becomes a part** of a component, in which a script and a style may stand before it. -/
inductive Item.Becomes (hasScript hasStyle : Bool) : Item → Part → Prop
  | node (n : Node) : Becomes hasScript hasStyle (.node n) (.node n)
  | importTag (tag : Import) : Becomes hasScript hasStyle (.importTag tag) (.importTag tag)
  | script {element} {body}
      (hscript : element.isComponentScript = true) (hfirst : hasScript = false)
      (hbody : Statement.ofCursor element.cursor = .ok body) :
      Becomes hasScript hasStyle (.raw element) (.script ⟨element.span, body⟩)
  | style {element} (hscript : element.isComponentScript = false)
      (hstyle : element.isStyle = true) (hfirst : hasStyle = false) :
      Becomes hasScript hasStyle (.raw element) (.style element.toStyle)
  | raw {element} (hscript : element.isComponentScript = false)
      (hstyle : element.isStyle = false) :
      Becomes hasScript hasStyle (.raw element) (.node element.toNode)

lemma Item.topLevel_eq_ok_iff {hasScript hasStyle : Bool} {found : Item} {part : Part} :
    found.topLevel hasScript hasStyle = .ok part ↔ found.Becomes hasScript hasStyle part := by
  constructor
  · intro h
    cases found with
    | node n =>
      cases h
      exact .node n
    | importTag tag =>
      cases h
      exact .importTag tag
    | raw element =>
      rw [Item.topLevel] at h
      split at h
      · split at h
        · cases h
        · rename_i hscript hfirst
          obtain ⟨body, hbody, h⟩ := bind_eq_ok.mp h
          cases h
          exact .script hscript (Bool.eq_false_iff.mpr hfirst) hbody
      · rename_i hscript
        replace hscript := Bool.eq_false_iff.mpr hscript
        split at h
        · split at h
          · cases h
          · rename_i hstyle hfirst
            cases h
            exact .style hscript hstyle (Bool.eq_false_iff.mpr hfirst)
        · rename_i hstyle
          cases h
          exact .raw hscript (Bool.eq_false_iff.mpr hstyle)
  · intro h
    cases h with
    | node n => rfl
    | importTag tag => rfl
    | script hscript hfirst hbody =>
      rw [Item.topLevel, if_pos hscript, if_neg (by simp [hfirst]), hbody]
      rfl
    | style hscript hstyle hfirst => simp [Item.topLevel, hscript, hstyle, hfirst]
    | raw hscript hstyle => simp [Item.topLevel, hscript, hstyle]

lemma exists_eq_ok_of_isOk {ε α : Type} {x : Except ε α} (h : x.isOk = true) : ∃ a, x = .ok a := by
  cases x with
  | ok a => exact ⟨a, rfl⟩
  | error failure => cases h

lemma exists_eq_ok_of_any {ε α : Type} {x : Except ε α} {check : α → Bool}
    (h : x.toOption.any check = true) : ∃ a, x = .ok a ∧ check a = true := by
  cases x with
  | ok a => exact ⟨a, rfl, h⟩
  | error failure => cases h

namespace Component

open MarkupGrammar (GoesOn)

/-- **A component stands between two places** of the source, where a script and a style may stand
before it. -/
inductive Derives (ctx : MarkupContext) : Bool → Bool → Component → Cursor → Cursor → Prop
  | stop {hasScript hasStyle} {cur} (hrest : cur.rest = []) :
      Derives ctx hasScript hasStyle .empty cur cur
  | cons {hasScript hasStyle} {found} {part} {later}
      {cur after next} (hgoes : GoesOn none cur)
      (hitem : MarkupGrammar.Derives (.item ctx found) cur after)
      (hpart : found.Becomes hasScript hasStyle part)
      (hlater : Derives ctx (hasScript || part.isScript) (hasStyle || part.isStyle) later after
        next) :
      Derives ctx hasScript hasStyle (later.add part) cur next

variable {ctx : MarkupContext} {hasScript hasStyle : Bool} {component : Component}
  {cur next : Cursor}

lemma derives_of_ofCursor {ctx : MarkupContext} {hasScript hasStyle : Bool} {cur : Cursor}
    {component : Component} (h : ofCursor ctx hasScript hasStyle cur = .ok component) :
    ∃ next, Derives ctx hasScript hasStyle component cur next := by
  rw [ofCursor.eq_def] at h
  split at h
  · rename_i hrest
    cases h
    exact ⟨cur, .stop hrest⟩
  · rename_i c cs hrest
    split at h
    · cases h
    · rename_i hclosing
      replace hclosing := Bool.eq_false_iff.mpr hclosing
      obtain ⟨⟨found, after, hlt⟩, hitem, h⟩ := bind_eq_ok.mp h
      obtain ⟨part, hpart, h⟩ := bind_eq_ok.mp h
      obtain ⟨later, hlater, h⟩ := bind_eq_ok.mp h
      cases h
      obtain ⟨next, hderives⟩ := derives_of_ofCursor hlater
      have hgoes : GoesOn none cur := ⟨by simp [hrest], hclosing, by simp⟩
      exact ⟨next, .cons hgoes (MarkupGrammar.derives_of_item (.of_eq_ok hitem) hclosing)
        (Item.topLevel_eq_ok_iff.mp hpart) hderives⟩
termination_by cur.remaining
decreasing_by omega

lemma Derives.ofCursor_eq (h : Derives ctx hasScript hasStyle component cur next) :
    ofCursor ctx hasScript hasStyle cur = .ok component := by
  induction h with
  | stop hrest =>
    rw [ofCursor.eq_def]
    split
    · rfl
    · rename_i hcons
      rw [hrest] at hcons
      cases hcons
  | @cons _ _ _ _ _ cur _ _ hgoes hitem hpart _ ih =>
    rw [ofCursor.eq_def]
    split
    · rename_i hnil
      exact absurd hnil hgoes.rest_ne
    · rename_i hcons
      have hclosing : ¬ cur.startsWith "</" = true := by simp [hgoes.not_closing]
      obtain ⟨_, hitem⟩ := MarkupGrammar.reads_of_derives hitem (Cursor.remaining_pos hcons)
      have hpart := Item.topLevel_eq_ok_iff.mpr hpart
      simp only [if_neg hclosing, hitem, ok_bind, hpart, ih]
      rfl

lemma ofCursor_eq_ok_iff : ofCursor ctx hasScript hasStyle cur = .ok component ↔
    ∃ next, Derives ctx hasScript hasStyle component cur next :=
  ⟨derives_of_ofCursor, fun ⟨_, h⟩ => h.ofCursor_eq⟩

lemma ofChars_eq_ok_iff :
    ofChars special source = .ok component ↔
      ∃ next, Derives { special } false false component (.ofSource source) next :=
  ofCursor_eq_ok_iff

lemma parse_eq_ok_iff :
    parse source special = .ok component ↔ ofChars special source.toList = .ok component := by
  unfold parse
  cases ofChars special source.toList with
  | ok found | error failure => simp [Except.mapError]

lemma Derives.sequence (h : Derives ctx hasScript hasStyle component cur next)
    (himports : component.imports = []) (hscript : component.script = none)
    (hstyle : component.style = none) :
    MarkupGrammar.Derives (.sequence ctx none component.nodes) cur next := by
  induction h with
  | stop hrest => exact .stop hrest
  | cons hgoes hitem hpart _ ih =>
    cases hpart with
    | node n => exact .cons hgoes hitem rfl (ih himports hscript hstyle)
    | importTag tag => cases himports
    | script _ _ _ => cases hscript
    | style _ _ _ => cases hstyle
    | raw hraw hplain =>
      -- a raw element that is a node where a script or a style may stand is one everywhere
      have hfirst : Item.StandsAs (.raw _) _ none := Item.topLevel_eq_ok_iff.mpr (.raw hraw hplain)
      exact .cons hgoes hitem hfirst (ih himports hscript hstyle)

end Component

end ComponentTemplate
