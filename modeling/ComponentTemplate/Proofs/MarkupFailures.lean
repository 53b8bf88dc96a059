import ComponentTemplate.Proofs.Failures

/-!
# Where reading markup fails

The guarantees of `ComponentTemplate.Proofs.Failures` for the readers of attributes, tags, markup
and styles, and for components.
-/

set_option mvcgen.warning false

namespace ComponentTemplate

open Std.Do MarkupGrammar

variable {source : List Char}

namespace MarkupGrammar

/-! ## Attributes -/

variable (cur : Cursor) (st : Stream)

@[spec]
lemma inlineTag_within : ⦃⌜cur.IsIn source⌝⦄ inlineTag cur ⦃cur.Stays source⦄ := by
  mvcgen [inlineTag]
  all_goals grind

lemma quotedParts_within_lt (n : Nat) (opening : Cursor) (quote : Char) (cur : Cursor) :
    ⦃⌜(opening.IsIn source ∧ cur.IsIn source ∧ opening.offset ≤ cur.offset) ∧ cur.remaining < n⌝⦄
    quotedParts opening quote cur ⦃cur.Stays source⦄ := by
  induction n generalizing cur with
  | zero => exact triple_of_lt_zero
  | succ n ih =>
    unfold quotedParts
    mvcgen [ih]
    all_goals grind

@[spec]
lemma quotedParts_within (opening : Cursor) (quote : Char) :
    ⦃⌜opening.IsIn source ∧ cur.IsIn source ∧ opening.offset ≤ cur.offset⌝⦄
    quotedParts opening quote cur ⦃cur.Stays source⦄ :=
  triple_of_below fun n => quotedParts_within_lt n opening quote cur

@[spec]
lemma attributeValue_within : ⦃⌜cur.IsIn source⌝⦄ attributeValue cur ⦃cur.Stays source⦄ := by
  unfold attributeValue
  mvcgen
  all_goals grind

@[spec]
lemma tagAttribute_within : ⦃⌜cur.IsIn source⌝⦄ tagAttribute cur ⦃cur.Stays source⦄ := by
  unfold tagAttribute
  mvcgen
  all_goals grind

@[spec]
lemma optionalValue_within : ⦃⌜cur.IsIn source⌝⦄ optionalValue cur ⦃cur.Stays source⦄ := by
  unfold optionalValue
  dsimp only
  mvcgen
  all_goals grind

@[spec]
lemma directiveOf?_within (span nameSpan : Span) (name : List Char)
    (value : Option (List AttributePart)) : ⦃⌜nameSpan.IsIn source⌝⦄
    directiveOf? span nameSpan name value ⦃Within source fun _ => True⦄ := by
  unfold directiveOf?
  mvcgen

@[spec]
lemma namedAttribute_within (hpos) :
    ⦃⌜cur.IsIn source⌝⦄ namedAttribute cur hpos ⦃cur.Stays source⦄ := by
  unfold namedAttribute
  dsimp only
  mvcgen
  all_goals grind

/-- **The readers of attributes stay in a source** as long as their measure is below a bound. -/
structure AttributesStayBelow (source : List Char) (n : Nat) : Prop where
  attributes (name : String) (cur : Cursor) :
    ⦃⌜cur.IsIn source ∧ cur.remaining * 2 + 1 < n⌝⦄ attributes name cur ⦃cur.Stays source⦄
  attributesHere (name : String) (cur : Cursor) :
    ⦃⌜cur.IsIn source ∧ cur.remaining * 2 < n⌝⦄ attributesHere name cur ⦃cur.Stays source⦄

lemma attributesStayBelow (n : Nat) : AttributesStayBelow source n := by
  induction n with
  | zero => constructor <;> (intros; exact triple_of_lt_zero)
  | succ n ih =>
    obtain ⟨hattributes, hattributesHere⟩ := ih
    constructor <;> intros
    case attributes =>
      unfold attributes
      mvcgen [hattributesHere]
      all_goals grind
    case attributesHere =>
      unfold attributesHere
      mvcgen [hattributes]
      all_goals grind

@[spec]
lemma attributes_within (name : String) :
    ⦃⌜cur.IsIn source⌝⦄ attributes name cur ⦃cur.Stays source⦄ :=
  triple_of_below fun n => (attributesStayBelow n).attributes name cur

/-! ## Tags -/

@[spec]
lemma openTag_within : ⦃⌜cur.IsIn source⌝⦄ openTag cur
    ⦃Within source (Stream.NotBefore source cur.offset)⦄ := by
  unfold openTag
  mvcgen
  all_goals grind

@[spec]
lemma wordTag_within (word : String) : ⦃⌜cur.IsIn source⌝⦄ wordTag word cur ⦃cur.Stays source⦄ := by
  unfold wordTag
  mvcgen
  all_goals grind

@[spec]
lemma binding_within : ⦃⌜st.IsIn source⌝⦄ binding st ⦃st.Stays source⦄ := by
  unfold binding
  mvcgen
  all_goals grind

@[spec]
lemma bindingTag_within (word : String) :
    ⦃⌜cur.IsIn source⌝⦄ bindingTag word cur ⦃cur.Stays source⦄ := by
  unfold bindingTag
  mvcgen
  all_goals grind

@[spec]
lemma awaitOpening_within : ⦃⌜st.IsIn source⌝⦄ awaitOpening st ⦃st.after.Stays source⦄ := by
  unfold awaitOpening
  mvcgen
  all_goals grind

@[spec]
lemma loopNames_within : ⦃⌜st.IsIn source⌝⦄ loopNames st ⦃st.Stays source⦄ := by
  unfold loopNames
  mvcgen
  all_goals grind

@[spec]
lemma loopKey_within : ⦃⌜st.IsIn source⌝⦄ loopKey st ⦃st.Stays source⦄ := by
  unfold loopKey
  mvcgen
  all_goals grind

@[spec]
lemma lastExpression_within : ⦃⌜st.IsIn source⌝⦄ lastExpression st ⦃st.after.Stays source⦄ := by
  unfold lastExpression
  mvcgen
  all_goals grind

@[spec]
lemma importTag_within (start : Cursor) :
    ⦃⌜st.IsIn source⌝⦄ importTag start st ⦃st.after.Stays source⦄ := by
  unfold importTag
  mvcgen
  all_goals grind

@[spec]
lemma variableTag_within (start : Cursor) :
    ⦃⌜st.IsIn source⌝⦄ variableTag start st ⦃st.after.Stays source⦄ := by
  unfold variableTag
  mvcgen
  all_goals grind

@[spec]
lemma inlineNode_within : ⦃⌜cur.IsIn source⌝⦄ inlineNode cur ⦃cur.Stays source⦄ := by
  unfold inlineNode
  mvcgen
  all_goals grind

@[spec]
lemma comment_within (hpos) : ⦃⌜cur.IsIn source⌝⦄ comment cur hpos ⦃cur.Stays source⦄ := by
  unfold comment
  mvcgen
  all_goals grind

@[spec]
lemma elementKind_within (ctx : MarkupContext) (name : List Char) (span : Span) :
    ⦃⌜span.IsIn source⌝⦄ (elementKind ctx name).mapError (⟨·, span⟩)
    ⦃Within source fun _ => True⦄ := by
  cases h : elementKind ctx name <;> mvcgen [Except.mapError]

@[spec]
lemma openingTag_within (ctx : MarkupContext) :
    ⦃⌜cur.IsIn source⌝⦄ openingTag ctx cur ⦃cur.Stays source⦄ := by
  unfold openingTag
  dsimp only
  mvcgen
  all_goals grind

@[spec]
lemma closingTag_within (name : String) :
    ⦃⌜cur.IsIn source⌝⦄ closingTag name cur ⦃cur.Stays source⦄ := by
  unfold closingTag
  mvcgen
  all_goals grind

@[spec]
lemma rawContent_within (name : String) :
    ⦃⌜cur.IsIn source⌝⦄ rawContent name cur ⦃cur.Stays source⦄ := by
  unfold rawContent
  mvcgen
  all_goals grind

end MarkupGrammar

/-! ## Markup -/

def Item.IsIn (source : List Char) : Item → Prop
  | .node _ => True
  | .importTag tag => tag.span.IsIn source
  | .raw element => element.IsIn source

@[spec]
lemma Item.nested_within (found : Item) :
    ⦃⌜found.IsIn source⌝⦄ found.nested ⦃Within source fun _ => True⦄ := by
  unfold Item.nested
  all_goals mvcgen

namespace MarkupGrammar

variable (cur : Cursor)

lemma isIn_of_item_within {ctx : MarkupContext} {cur : Cursor} {hpos : 0 < cur.remaining}
    {P : Prop} (h : ⦃⌜cur.IsIn source ∧ P⌝⦄ item ctx cur hpos ⦃cur.Stays source⦄) :
    ⦃⌜cur.IsIn source ∧ P⌝⦄ item ctx cur hpos ⦃Within source fun r =>
      Cursor.NotBefore source cur.offset r ∧
        (cur.startsWith "</" = false → r.value.IsIn source)⦄ := by
  refine triple_iff.mpr fun hpre => ⟨fun r hr => ?_, (triple_iff.mp h hpre).2⟩
  refine ⟨(triple_iff.mp h hpre).1 r hr, fun hopens => ?_⟩
  have hisIn := (derives_of_item (Stream.gives_of_eq_ok hr) hopens).isIn hpre.1
  cases hvalue : r.value <;> simp_all [Item.IsIn, Phrase.IsIn]

/-- **The readers of markup stay in a source** as long as their measure is below a bound. -/
structure StaysBelow (source : List Char) (n : Nat) : Prop where
  fragment (ctx : MarkupContext) (ending : Ending) (cur : Cursor) :
    ⦃⌜cur.IsIn source ∧ cur.remaining * 8 + 3 < n⌝⦄ fragment ctx ending cur ⦃cur.Stays source⦄
  item (ctx : MarkupContext) (cur : Cursor) (hpos) :
    ⦃⌜cur.IsIn source ∧ cur.remaining * 8 + 2 < n⌝⦄ item ctx cur hpos ⦃cur.Stays source⦄
  element (ctx : MarkupContext) (cur : Cursor) :
    ⦃⌜cur.IsIn source ∧ cur.remaining * 8 + 1 < n⌝⦄ element ctx cur ⦃cur.Stays source⦄
  blockTag (ctx : MarkupContext) (cur : Cursor) :
    ⦃⌜cur.IsIn source ∧ cur.remaining * 8 + 1 < n⌝⦄ blockTag ctx cur ⦃cur.Stays source⦄
  elseBranch (ctx : MarkupContext) (close : String) (cur : Cursor) :
    ⦃⌜cur.IsIn source ∧ cur.remaining * 8 < n⌝⦄ elseBranch ctx close cur ⦃cur.Stays source⦄
  ifRest (ctx : MarkupContext) (start : Nat) (isBranch : Bool) (test : Expr) (cur : Cursor) :
    ⦃⌜cur.IsIn source ∧ cur.remaining * 8 + 4 < n⌝⦄ ifRest ctx start isBranch test cur
    ⦃cur.Stays source⦄
  outcome (ctx : MarkupContext) (word : String) (ending : Ending) (cur : Cursor) :
    ⦃⌜cur.IsIn source ∧ cur.remaining * 8 < n⌝⦄ outcome ctx word ending cur ⦃cur.Stays source⦄
  awaitRest (ctx : MarkupContext) (start : Nat) (e : Expr) (opening : AwaitOpening)
    (cur : Cursor) : ⦃⌜cur.IsIn source ∧ cur.remaining * 8 + 4 < n⌝⦄
    awaitRest ctx start e opening cur ⦃cur.Stays source⦄

lemma staysBelow (n : Nat) : StaysBelow source n := by
  induction n with
  | zero => constructor <;> (intros; exact triple_of_lt_zero)
  | succ n ih =>
    obtain ⟨hfragment, hitem, helement, hblockTag, helseBranch, hifRest, houtcome, hawaitRest⟩ := ih
    replace hitem := fun ctx cur hpos => isIn_of_item_within (hitem ctx cur hpos)
    constructor <;> intros
    case' fragment =>
      unfold fragment
      mvcgen [hitem, hfragment]
    case' item =>
      unfold item textNode
      mvcgen [helement, hblockTag]
    case' element =>
      unfold element
      mvcgen [hfragment]
    case' blockTag =>
      unfold blockTag
      mvcgen [hfragment, helseBranch, hifRest, hawaitRest]
    case' elseBranch =>
      unfold elseBranch
      mvcgen [hfragment]
    case' ifRest =>
      unfold ifRest
      mvcgen [hfragment, hifRest, helseBranch]
    case' outcome =>
      unfold outcome
      mvcgen [hfragment]
    case' awaitRest =>
      unfold awaitRest
      mvcgen [hfragment, houtcome]
    all_goals clear hfragment hitem helement hblockTag helseBranch hifRest houtcome hawaitRest
    all_goals grind

@[spec]
lemma item_within (ctx : MarkupContext) (hpos) :
    ⦃⌜cur.IsIn source⌝⦄ item ctx cur hpos ⦃Within source fun r =>
      Cursor.NotBefore source cur.offset r ∧ (cur.startsWith "</" = false → r.value.IsIn source)⦄ :=
  triple_of_below fun n => isIn_of_item_within ((staysBelow n).item ctx cur hpos)

end MarkupGrammar

/-! ## Styles -/

namespace StyleGrammar

variable (cur : Cursor)

@[spec]
lemma prelude_within : ⦃⌜cur.IsIn source⌝⦄ prelude cur ⦃cur.Stays source⦄ := by
  unfold prelude
  mvcgen
  all_goals grind

@[grind →]
lemma isIn_of_prelude_error {cur : Cursor} {failure : Failure} (h : prelude cur = .error failure)
    (hcur : cur.IsIn source) : failure.span.IsIn source :=
  isIn_of_error (prelude_within cur) hcur h

@[grind →]
lemma notBefore_of_prelude {cur : Cursor}
    {found : Scanned (cur.remaining + 1) (List Char × PreludeStop)} (h : prelude cur =
      .ok found) (hcur : cur.IsIn source) :
    Cursor.NotBefore source cur.offset found :=
  (triple_iff.mp (prelude_within cur) hcur).1 found h

attribute [grind →] prelude_lt

@[spec]
lemma blockComment_within (hpos) :
    ⦃⌜cur.IsIn source⌝⦄ blockComment cur hpos ⦃cur.Stays source⦄ := by
  unfold blockComment
  mvcgen
  all_goals grind

/-- **The readers of styles stay in a source** as long as their measure is below a bound. -/
structure StaysBelow (source : List Char) (n : Nat) : Prop where
  nodes (nested : Bool) (cur : Cursor) :
    ⦃⌜cur.IsIn source ∧ cur.remaining * 4 + 3 < n⌝⦄ nodes nested cur ⦃cur.Stays source⦄
  nodesHere (nested : Bool) (cur : Cursor) :
    ⦃⌜cur.IsIn source ∧ cur.remaining * 4 + 2 < n⌝⦄ nodesHere nested cur ⦃cur.Stays source⦄
  node (cur : Cursor) (c : Char) (cs : List Char) (hrest) (hc) :
    ⦃⌜cur.IsIn source ∧ cur.remaining * 4 < n⌝⦄ node cur c cs hrest hc ⦃cur.Stays source⦄

lemma staysBelow (n : Nat) : StaysBelow source n := by
  induction n with
  | zero => constructor <;> (intros; exact triple_of_lt_zero)
  | succ n ih =>
    obtain ⟨hnodes, hnodesHere, hnode⟩ := ih
    constructor <;> intros
    case nodes =>
      unfold StyleGrammar.nodes
      mvcgen [hnodesHere]
      all_goals grind
    case nodesHere =>
      unfold StyleGrammar.nodesHere
      mvcgen [hnodes, hnode]
      all_goals grind
    case node =>
      unfold StyleGrammar.node lineComment
      dsimp only
      mvcgen [hnodes]
      all_goals grind

@[spec]
lemma nodes_within (nested : Bool) : ⦃⌜cur.IsIn source⌝⦄ nodes nested cur ⦃cur.Stays source⦄ :=
  triple_of_below fun n => (staysBelow n).nodes nested cur

end StyleGrammar

lemma StyleNode.ofCursor_within (cur : Cursor) :
    ⦃⌜cur.IsIn source⌝⦄ StyleNode.ofCursor cur ⦃Within source fun _ => True⦄ := by
  mvcgen [StyleNode.ofCursor]

/-! ## Components -/

@[spec]
lemma RawElement.script_within (element : RawElement) : ⦃⌜element.IsIn source⌝⦄
    Statement.ofCursor element.cursor ⦃Within source fun _ => True⦄ := by
  refine triple_iff.mpr fun helement => ⟨fun _ _ => trivial, fun failure h => ?_⟩
  obtain ⟨copy, tail, rfl, hcursor⟩ := helement.cursor
  exact (isIn_of_error (Statement.ofCursor_within _) hcursor h).append tail

@[spec]
lemma Item.topLevel_within (hasScript hasStyle : Bool) (found : Item) :
    ⦃⌜found.IsIn source⌝⦄ found.topLevel hasScript hasStyle ⦃Within source fun _ => True⦄ := by
  unfold Item.topLevel
  split
  all_goals mvcgen
  all_goals exact RawElement.IsIn.span ‹_›

namespace Component

lemma ofCursor_within_lt (n : Nat) (ctx : MarkupContext) (hasScript hasStyle : Bool)
    (cur : Cursor) : ⦃⌜cur.IsIn source ∧ cur.remaining < n⌝⦄
    ofCursor ctx hasScript hasStyle cur ⦃Within source fun _ => True⦄ := by
  induction n generalizing hasScript hasStyle cur with
  | zero => exact triple_of_lt_zero
  | succ n ih =>
    unfold ofCursor
    mvcgen [ih]
    all_goals grind

lemma ofCursor_within (ctx : MarkupContext) (hasScript hasStyle : Bool) (cur : Cursor) :
    ⦃⌜cur.IsIn source⌝⦄ ofCursor ctx hasScript hasStyle cur ⦃Within source fun _ => True⦄ :=
  triple_of_below fun n => ofCursor_within_lt n ctx hasScript hasStyle cur

end Component

end ComponentTemplate
