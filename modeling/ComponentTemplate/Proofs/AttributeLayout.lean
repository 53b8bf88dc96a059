import ComponentTemplate.Proofs.SetApart

/-!
# The layout of attributes in the output

An element of a component is printed with its attributes in one line or on lines of their own, and
what is printed is read again. The gaps between the attributes then lead to the same layout. The
texts in their values are the same but for the indentation that goes after a line break at the end
of a text.
-/

namespace ComponentTemplate

open MarkupGrammar AttributePart Node Attribute Component List
open LineBreaks (ofSource)

/-! ## Attributes of a source -/

namespace Attribute

/-- Whether an attribute has an unquoted value in the source that it was read from. -/
def isUnquotedIn (source : List Char) (a : Attribute) : Bool :=
  a.isUnquoted (textBetween source a.span.start (byteLength source))

variable {source : List Char} {tag : String} {cur next : Cursor} {found : List Attribute}
  {selfClosing : Bool}

lemma regular_of_gives_attributes
    (h : Gives (MarkupGrammar.attributes tag cur) (found, selfClosing) next)
    (hcur : cur.IsIn source) (hquoted : ∀ a ∈ found, a.isUnquotedIn source = false) :
    ∀ a ∈ found, a.Regular := by
  intro a ha
  obtain ⟨start, stop, hstart, hgives⟩ := exists_gives_attributeAt_of_mem h a ha
  have hplace : a.span.start = start.offset :=
    congrArg Span.start (readsAttribute_of_attributeAt hgives).span_eq
  have hin := hcur.trans hstart
  have hread : start.Reads start.rest (start.skip start.rest.length) :=
    Cursor.reads_of_rest (append_nil _).symm
  have hend : (start.skip start.rest.length).offset = byteLength source :=
    (hin.trans hread.reaches).offset_of_rest (by simp [Cursor.rest_skip])
  have htext : textBetween source a.span.start (byteLength source) = start.rest := by
    rw [hplace, ← hend]
    exact textBetween_of_reads hin hread
  have hisQuoted := hquoted a ha
  rw [isUnquotedIn, htext] at hisQuoted
  exact (isFrom_of_gives hgives).regular hisQuoted

end Attribute

/-! ## Texts in the output -/

namespace Attribute

variable {unit : String} {level : Nat}

@[simp]
lemma texts_bare (a : Attribute) : a.bare.texts = a.texts := by
  have hpart (part : AttributePart) : part.normal.text? = part.text? := by cases part <;> rfl
  rcases a with ⟨span, name, value, doubleQuotes⟩ | ⟨span, e⟩ | ⟨span, kind, name, modifiers, e⟩
  · cases value with
    | none => rfl
    | some parts => simp [bare, inDoubleQuotes, normal, texts, filterMap_map, hpart]
  · rfl
  · rfl

lemma texts_indented (a : Attribute) :
    (a.indented unit level).texts = a.texts.map fun data =>
      String.ofList (data.toList ++ Doc.indentationAfter unit level data.toList) := by
  rcases a with ⟨span, name, value, doubleQuotes⟩ | ⟨span, e⟩ | ⟨span, kind, name, modifiers, e⟩
  · cases value with
    | none => rfl
    | some parts =>
      simp only [indented, texts, Option.map_some, Option.getD_some, filterMap_map,
        map_filterMap]
      refine filterMap_congr fun part _ => ?_
      cases part <;> rfl
  · rfl
  · rfl

lemma texts_indented_eq_iff {a : Attribute} :
    (a.indented unit level).texts = a.texts ↔
      indentationAt unit level = [] ∨ ∀ data ∈ a.texts, data.toList.getLast? ≠ some '\n' := by
  have hsame : (a.indented unit level).texts = a.texts ↔
      ∀ data ∈ a.texts, indentationAt unit level = [] ∨ data.toList.getLast? ≠ some '\n' := by
    rw [texts_indented]
    nth_rewrite 2 [← map_id a.texts]
    rw [map_inj_left]
    exact forall₂_congr fun data _ => append_indentationAfter_eq_iff
  rw [hsame]
  by_cases hnone : indentationAt unit level = [] <;> simp [hnone]

end Attribute

/-! ## Layout of the output -/

section Layout

variable {unit : String} {level : Nat}

lemma count_gapText (hunit : '\n' ∉ unit.toList) (level feeds : Nat) :
    (gapText unit level feeds).count '\n' = feeds := by
  have hindentation : '\n' ∉ indentationAt unit level := by
    intro hmem
    obtain ⟨cs, hcs, hc⟩ := mem_flatten.mp hmem
    rw [eq_of_mem_replicate hcs] at hc
    exact hunit hc
  cases feeds with
  | zero => rfl
  | succ n => simp [gapText, count_eq_zero.mpr hindentation]

/-- **Printed gaps lead to the line breaks that they were printed for.** -/
theorem gapFeeds_gapText (hunit : '\n' ∉ unit.toList) (level : Nat) (gaps : List (List Char)) :
    gapFeeds ((gapFeeds gaps).map (gapText unit level)) = gapFeeds gaps := by
  cases gaps with
  | nil => rfl
  | cons first others =>
    have hmem (feeds : Nat) : '\n' ∈ gapText unit level feeds ↔ 0 < feeds := by
      rw [← count_pos_iff, count_gapText hunit]
    rw [gapFeeds]
    split
    · rw [map_cons, gapFeeds, if_pos ((hmem 1).mpr Nat.one_pos), map_map, map_map]
      refine congrArg (1 :: ·) (map_congr_left fun gap _ => ?_)
      simp only [Function.comp_apply, count_gapText hunit]
      split <;> rfl
    · rw [map_cons, gapFeeds, if_neg (mt (hmem 0).mp (Nat.lt_irrefl 0)), map_map,
        map_map]
      rfl

lemma wrapsAttributes_eq (breaks : Breaks) (start : Nat) (name : String)
    (attributes : List Attribute) :
    wrapsAttributes breaks start name attributes =
      (attributeFeeds breaks start name attributes).any (0 < ·) := by
  unfold attributeFeeds
  cases hwraps : wrapsAttributes breaks start name attributes with
  | true =>
    cases attributes with
    | nil => cases hwraps
    | cons a rest => simp [feedsAfter]
  | false => simp

lemma any_gapFeeds (gaps : List (List Char)) :
    (gapFeeds gaps).any (0 < ·) = true ↔ ∃ gap ∈ gaps.head?, '\n' ∈ gap := by
  cases gaps with
  | nil => simp [gapFeeds]
  | cons first others =>
    rw [gapFeeds]
    split <;> simp [*]

lemma gapFeeds_spaces {α : Type} (xs : List α) :
    gapFeeds (xs.map fun _ => [' ']) = xs.map fun _ => 0 := by
  cases xs <;> simp [gapFeeds]

lemma zeros_eq_gapFeeds_iff {gaps : List (List Char)} :
    (gaps.map fun _ => 0) = gapFeeds gaps ↔ ∀ gap ∈ gaps.head?, '\n' ∉ gap := by
  cases gaps with
  | nil => simp [gapFeeds]
  | cons first others =>
    rw [gapFeeds]
    split <;> simp [*]

lemma zero_eq_gapFeeds_iff {gaps : List (List Char)} :
    [0] = gapFeeds gaps ↔ gaps.length = 1 ∧ ∀ gap ∈ gaps.head?, '\n' ∉ gap := by
  rcases gaps with _ | ⟨first, _ | ⟨second, others⟩⟩
  · simp [gapFeeds]
  · rw [List.length_singleton, eq_self, true_and]
    exact @zeros_eq_gapFeeds_iff [first]
  · rw [gapFeeds]
    split <;> simp

lemma length_attributeFeeds (breaks : Breaks) (start : Nat) (name : String)
    (attributes : List Attribute) :
    (attributeFeeds breaks start name attributes).length = attributes.length := by
  have hfeeds (previous : Option Attribute) (attributes : List Attribute) :
      (feedsAfter breaks previous attributes).length = attributes.length := by
    induction attributes generalizing previous with
    | nil => rfl
    | cons a rest ih => rw [feedsAfter, length_cons, length_cons, ih]
  unfold attributeFeeds
  split
  · exact hfeeds none attributes
  · exact length_map _

/-- **The layout of an element in a source** follows the gaps between its attributes. -/
theorem Node.OpensIn.attributeFeeds_eq {source : List Char} {span : Span} {kind : ElementKind}
    {name : String} {attributes : List Attribute} {children : List Node}
    (h : (element span kind name attributes children).OpensIn source) :
    attributeFeeds (ofSource source).atLeast span.start name attributes =
      gapFeeds (gaps source (span.start + byteLength name.toList + 1) attributes) := by
  obtain ⟨_, _, after, _, -, hafter, hoffset, hgives⟩ := h
  rw [← hoffset]
  exact ComponentTemplate.attributeFeeds_eq (readsAttributes_of_gives hgives) hafter hoffset

end Layout

/-! ## Elements of a component -/

/-- **What the opening tag of an element is printed as**, at a level of indentation. -/
def Node.opening (p : Printing) (unit : String) (level : Nat) : Node → List Char
  | .element span kind name attributes children =>
    openingText p.breaks unit level name (wrapsAttributes p.breaks span.start name attributes)
      (attributeFeeds p.breaks span.start name attributes) attributes
      (closesItself kind name (normals children).isEmpty)
  | _ => []

/-- What the opening tag of a style is printed as: its attributes are in the line of its name. -/
def StyleBlock.opening (breaks : Breaks) (unit : String) (level : Nat) (block : StyleBlock) :
    List Char :=
  openingText breaks unit level "style" false (block.attributes.map fun _ => 0) block.attributes
    false

/-- The level of indentation of the attributes of an element. -/
def Node.attributeLevel (p : Printing) (level : Nat) : Node → Nat
  | .element span _ name attributes _ =>
    if wrapsAttributes p.breaks span.start name attributes then level + 1 else level
  | _ => level

/-- **An opening tag is read again with its layout**: wherever it goes on, the tag that stands after
a front is read with the attributes that it was printed for, but for the indentation in their texts,
and the gaps between them lead to the line breaks that were printed. -/
def RereadsLayout (ctx : MarkupContext) (unit : String) (level : Nat) (front opening : List Char)
    (kind : ElementKind) (name : String) (attributes : List Attribute) (feeds : List Nat) : Prop :=
  ∀ rest, ∃ found closes stop,
    Gives (openingTag ctx ⟨byteLength front, opening ++ rest⟩) ⟨kind, name, found, closes⟩
      ⟨stop, rest⟩ ∧
    Forall₂ (fun a b => b.bare = (a.indented unit level).bare) attributes found ∧
    gaps (front ++ (opening ++ rest)) (byteLength front + byteLength name.toList + 1) found =
      feeds.map (gapText unit level) ∧
    wrapsAttributes (ofSource (front ++ (opening ++ rest))).atLeast (byteLength front) name found =
      feeds.any (0 < ·) ∧
    attributeFeeds (ofSource (front ++ (opening ++ rest))).atLeast (byteLength front) name found =
      feeds

section Element

variable {source : List Char} {p : Printing} {n : Node} {span : Span} {kind : ElementKind}
  {name : String} {attributes : List Attribute} {children : List Node} {unit : String} {w : Writer}
  {ctx : MarkupContext} {breaks : Breaks} {feeds : List Nat}

/-- **The text of an opening tag is read again with its layout**, if its line breaks are those that
some gaps lead to. -/
theorem rereadsLayout (hname : IsElementName ctx kind name)
    (hregular : ∀ a ∈ attributes, a.Regular)
    (hread : ∀ a ∈ attributes, ∀ e ∈ a.written, ∀ level, e.ReadsBack breaks unit level)
    (hunit : Text.Blank unit.toList) (hfeed : '\n' ∉ unit.toList) (level : Nat)
    (wraps closes : Bool)
    {found : List (List Char)} (hfound : gapFeeds found = feeds)
    (hfeeds : feeds.length = attributes.length) (front : List Char) :
    RereadsLayout ctx unit (if wraps then level + 1 else level) front
      (openingText breaks unit level name wraps feeds attributes closes) kind name attributes
      feeds := by
  intro rest
  obtain ⟨again, stop, hagain, hbares, hgaps⟩ :=
    exists_gives_openingTag hname hregular hread hunit level wraps closes hfeeds front rest
  obtain ⟨c, cs, hcs, hc⟩ := hname.exists_cons
  have hrest : ∃ more, openingText breaks unit level name wraps feeds attributes closes ++ rest =
      '<' :: c :: more := by
    rw [openingText, hcs]
    exact ⟨_, rfl⟩
  obtain ⟨more, hmore⟩ := hrest
  -- the tag stands after the front
  have hsame := (opensIn_of_gives hmore hc hagain ⟨front, rfl, (Nat.zero_add _).symm⟩
    ⟨stop, rest⟩ []).attributeFeeds_eq
  dsimp only [Cursor.spanTo] at hsame
  rw [hgaps, ← hfound, gapFeeds_gapText hfeed, hfound] at hsame
  refine ⟨again, closes, stop, hagain, hbares, hgaps, ?_, hsame⟩
  rw [wrapsAttributes_eq, hsame]

lemma Node.exists_write_opening (hn : n = .element span kind name attributes children)
    (hname : IsElementName ctx kind name) (hregular : ∀ a ∈ attributes, a.Regular)
    (hread : ∀ a ∈ attributes, ∀ e ∈ a.written, ∀ level, e.ReadsBack p.breaks unit level)
    (hunit : w.unit = unit.toList) : ∃ tail, ((n.doc p).write w).written.reverse =
      w.front ++ (n.opening p unit w.level ++ tail) := by
  subst hn
  have hstands : ∀ a ∈ attributes, ∀ level,
      (a.doc p.breaks).Stands unit level (a.chars p.breaks unit level) := fun a ha level =>
    stands (hregular a ha) fun e he => (hread a ha e he level).wellFormed
  exact exists_write_element hname p hstands span children hunit

lemma StyleBlock.exists_write_opening {block : StyleBlock}
    (hregular : ∀ a ∈ block.attributes, a.Regular)
    (hread : ∀ a ∈ block.attributes, ∀ e ∈ a.written, ∀ level, e.ReadsBack breaks unit level)
    (hunit : w.unit = unit.toList) (sheet : List StyleNode) :
    ∃ tail, ((block.doc breaks sheet).write w).written.reverse =
      w.front ++ (block.opening breaks unit w.level ++ tail) := by
  have hopening : (Doc.text "<style").Stands unit w.level "<style".toList :=
    stands_of_not_mem (by decide) (by decide)
  have hstands : ∀ a ∈ block.attributes,
      (a.doc breaks).Stands unit w.level (a.chars breaks unit w.level) := fun a ha =>
    stands (hregular a ha) fun e he => (hread a ha e he w.level).wellFormed
  have hlist := goesOn_unwrappedAttributes hstands
  have hend : (Doc.text ">").GoesOn unit w.level ['>'] := Doc.goesOn_text (by decide)
  have htext : block.opening breaks unit w.level = "<style".toList ++ (attributesText breaks unit
      w.level (block.attributes.map fun _ => 0) block.attributes ++ ['>']) := by
    simp [opening, openingText, endBlanks, tagEnd]
  obtain ⟨tail, htail⟩ := (hopening.append (hlist.append hend)).exists_write_append hunit
    (StyleNode.codeDoc sheet ++ Doc.text "</style>")
  exact ⟨tail, by rw [htext, ← htail]; rfl⟩

lemma ScriptBlock.exists_write_opening (breaks : Breaks) (hunit : w.unit = unit.toList)
    (block : ScriptBlock) : ∃ tail, ((block.doc breaks).write w).written.reverse =
      w.front ++ ("<script lang=\"zs\">".toList ++ tail) := by
  have hopening : (Doc.text "<script lang=\"zs\">").Stands unit w.level
      "<script lang=\"zs\">".toList := stands_of_not_mem (by decide) (by decide)
  exact hopening.exists_write_append hunit (block.codeDoc breaks ++ Doc.text "</script>")

lemma Node.exists_opening_eq (hn : n = .element span kind name attributes children)
    (ha : a ∈ attributes) (p : Printing) (unit : String) (level : Nat) :
    ∃ before after, n.opening p unit level =
      before ++ (a.chars p.breaks unit (n.attributeLevel p level) ++ after) := by
  subst hn
  obtain ⟨before, after, heq⟩ := exists_attributesText_eq
    (length_attributeFeeds p.breaks span.start name attributes) ha p.breaks unit
    (if wrapsAttributes p.breaks span.start name attributes then level + 1 else level)
  refine ⟨'<' :: (name.toList ++ before), after ++ (endBlanks unit level
    (wrapsAttributes p.breaks span.start name attributes)
    (closesItself kind name (normals children).isEmpty) ++
      tagEnd (closesItself kind name (normals children).isEmpty)), ?_⟩
  rw [opening, openingText, heq, attributeLevel]
  simp

end Element

/-! ## Elements found by a check -/

/-- Whether an attribute has no unquoted value in a source, and no expressions but a variable. -/
def Attribute.hasOnly (source : List Char) (variableName : String) (a : Attribute) : Bool :=
  !a.isUnquotedIn source && a.written.all fun e => e.identifier? = some variableName

lemma Component.exists_of_any (source special variableName : String) (check : Node → Bool)
    (hname : ∀ place, (Expr.identifier place variableName).WellFormed)
    (h : (parse source special).toOption.any (fun component =>
      (fragmentsIn component.nodes).any (·.any fun n =>
        n.attributes.all (·.hasOnly source.toList variableName) && !n.attributes.isEmpty &&
          check n)) = true) :
    ∃ component nodes n span kind name attributes children,
      parse source special = .ok component ∧
      nodes ∈ component.nodes :: fragmentsIn component.nodes ∧ n ∈ nodes ∧
      n = .element span kind name attributes children ∧ check n = true ∧
      (∀ a ∈ attributes, a.isUnquotedIn source.toList = false) ∧
      ∀ (breaks : Breaks) (unit : String), Text.Blank unit.toList → ∀ a ∈ attributes,
        ∀ e ∈ a.written, ∀ level, e.ReadsBack breaks unit level := by
  obtain ⟨component, hparse, hsome⟩ := exists_eq_ok_of_any h
  obtain ⟨nodes, hnodes, hany⟩ := any_eq_true.mp hsome
  obtain ⟨n, hmem, hn⟩ := any_eq_true.mp hany
  simp only [Bool.and_eq_true, all_eq_true, Bool.not_eq_true', hasOnly,
    decide_eq_true_eq] at hn
  obtain ⟨⟨hall, hne⟩, hcheck⟩ := hn
  obtain ⟨span, kind, name, attributes, children, rfl⟩ :
      ∃ span kind name attributes children, n = .element span kind name attributes children := by
    cases n
    case element span kind name attributes children => exact ⟨_, _, _, _, _, rfl⟩
    all_goals cases hne
  refine ⟨component, nodes, _, span, kind, name, attributes, children, hparse,
    mem_cons_of_mem _ hnodes, hmem, rfl, hcheck, fun a ha => (hall a ha).1,
    fun breaks unit hunit a ha e he level => ?_⟩
  have hidentifier := (hall a ha).2 e he
  cases e with
  | identifier place found =>
    cases hidentifier
    exact Expr.readsBack_of_plain (hname place)
      (by simp [Expr.Plain, Expr.outline, Expr.inSlot, Expr.parts, Expr.KeepsShape]) hunit level
  | _ => cases hidentifier

namespace Component

variable {source special : String} {component : Component} {nodes : List Node} {p : Printing}
  {n : Node} {span : Span} {kind : ElementKind} {name : String} {attributes : List Attribute}
  {children : List Node} {unit : String} {w : Writer}

/-- **The layout of attributes follows the source in the content only.** The attributes of an
element in the content are printed on lines of their own if and only if the source breaks the line
between the name of the element and the first of them; the line breaks before each of them are those
that the gaps in the source lead to, and from what is printed the same layout is decided on. A style
that is set apart is always printed with its attributes in the line of its name, and read again so:
this is its layout in the source exactly if the source does not break the line before the first of
them. The same holds of a script that is set apart, which is printed with one attribute. -/
theorem attributes_keep_layout_iff (hparse : parse source special = .ok component)
    (hbreaks : p.breaks = (ofSource source.toList).atLeast) (hunit : w.unit = unit.toList)
    (hw : w.Indents) :
    (∀ nodes ∈ component.nodes :: fragmentsIn component.nodes, ∀ n ∈ nodes,
      ∀ span kind name attributes children, n = .element span kind name attributes children →
      (∀ a ∈ attributes, a.isUnquotedIn source.toList = false) →
      (∀ a ∈ attributes, ∀ e ∈ a.written, ∀ level, e.ReadsBack p.breaks unit level) →
      (wrapsAttributes p.breaks span.start name attributes = true ↔
        ∃ gap ∈ (gaps source.toList (span.start + byteLength name.toList + 1) attributes).head?,
          '\n' ∈ gap) ∧
      attributeFeeds p.breaks span.start name attributes = gapFeeds (gaps source.toList
        (span.start + byteLength name.toList + 1) attributes) ∧
      ∃ ctx tail, ((n.doc p).write w).written.reverse =
          w.front ++ (n.opening p unit w.level ++ tail) ∧
        RereadsLayout ctx unit (n.attributeLevel p w.level) w.front (n.opening p unit w.level) kind
          name attributes (attributeFeeds p.breaks span.start name attributes)) ∧
    (∀ block ∈ component.style,
      (∀ a ∈ block.attributes, a.isUnquotedIn source.toList = false) →
      (∀ a ∈ block.attributes, ∀ e ∈ a.written, ∀ level, e.ReadsBack p.breaks unit level) →
      (∀ sheet, ∃ ctx tail, ((block.doc p.breaks sheet).write w).written.reverse =
          w.front ++ (block.opening p.breaks unit w.level ++ tail) ∧
        RereadsLayout ctx unit w.level w.front (block.opening p.breaks unit w.level) .regular
          "style" block.attributes (block.attributes.map fun _ => 0)) ∧
      ((block.attributes.map fun _ => 0) =
          gapFeeds (gaps source.toList (block.span.start + 6) block.attributes) ↔
        ∀ gap ∈ (gaps source.toList (block.span.start + 6) block.attributes).head?, '\n' ∉ gap)) ∧
    ∀ block ∈ component.script, ∃ attributes,
      (element block.span .regular "script" attributes []).OpensIn source.toList ∧
      (∃ ctx tail, ((block.doc p.breaks).write w).written.reverse =
          w.front ++ ("<script lang=\"zs\">".toList ++ tail) ∧
        RereadsLayout ctx unit w.level w.front "<script lang=\"zs\">".toList .regular "script"
          [scriptLanguage] [0]) ∧
      ([0] = gapFeeds (gaps source.toList (block.span.start + 7) attributes) ↔
        attributes.length = 1 ∧
        ∀ gap ∈ (gaps source.toList (block.span.start + 7) attributes).head?, '\n' ∉ gap) := by
  have hfeed : '\n' ∉ unit.toList := fun hmem => (hw '\n' (hunit ▸ hmem)).2 rfl
  have hblank : Text.Blank unit.toList := hunit ▸ hw.isBlank
  obtain ⟨_, hderives⟩ := ofChars_eq_ok_iff.mp (parse_eq_ok_iff.mp hparse)
  obtain ⟨hstyle, hscript⟩ := hderives.opensIn_setApart (Cursor.isIn_ofSource source.toList)
  refine ⟨?content, ?style, ?script⟩
  case content =>
    rintro nodes hnodes n hmem span kind name attributes children hn hquoted hread
    have hopens := hn ▸ opensIn_of_mem hparse hnodes hmem
    have hfeeds := OpensIn.attributeFeeds_eq hopens
    rw [← hbreaks] at hfeeds
    obtain ⟨ctx, _, after, _, hname, hafter, -, hgives⟩ := hopens
    have hregular := regular_of_gives_attributes hgives hafter hquoted
    obtain ⟨tail, htail⟩ := exists_write_opening hn hname hregular hread hunit
    refine ⟨?_, hfeeds, ctx, tail, htail, ?_⟩
    · rw [wrapsAttributes_eq, hfeeds, any_gapFeeds]
    · subst hn
      exact rereadsLayout hname hregular hread hblank hfeed w.level _ _ hfeeds.symm
        (length_attributeFeeds ..) w.front
  case style =>
    intro block hblock hquoted hread
    obtain ⟨ctx, _, after, _, hname, hafter, -, hgives⟩ := hstyle block hblock
    have hregular := regular_of_gives_attributes hgives hafter hquoted
    refine ⟨fun sheet => ?_, ?_⟩
    · obtain ⟨tail, htail⟩ := StyleBlock.exists_write_opening hregular hread hunit sheet
      exact ⟨ctx, tail, htail, rereadsLayout hname hregular hread hblank hfeed w.level false false
        (gapFeeds_spaces block.attributes) (length_map _) w.front⟩
    · have hzeros : (block.attributes.map fun _ => 0) =
          (gaps source.toList (block.span.start + 6) block.attributes).map fun _ => 0 := by
        rw [map_const', map_const', length_gaps]
      rw [hzeros, zeros_eq_gapFeeds_iff]
  case script =>
    intro block hblock
    obtain ⟨attributes, hopens⟩ := hscript block hblock
    have hopened := hopens
    obtain ⟨ctx, _, _, _, hname, -⟩ := hopened
    obtain ⟨tail, htail⟩ := ScriptBlock.exists_write_opening p.breaks hunit block
    refine ⟨attributes, hopens, ⟨ctx, tail, htail, ?_⟩, ?_⟩
    · have htext : openingText p.breaks unit w.level "script" false [0] [scriptLanguage] false =
          "<script lang=\"zs\">".toList := by
        simp [openingText, attributesText, gapText, endBlanks, tagEnd, scriptLanguage,
          Attribute.chars, valueChars, variableName?, isSingleTag, quoteChar, quote, hasChar, AttributePart.indented,
          AttributePart.chars, Doc.indentationAfter, isSingleText]
      have htextual := @regular_of_isTextual scriptLanguage (by decide)
      rw [← htext]
      exact rereadsLayout hname (by simp [htextual.1]) (by simp [htextual.2.1]) hblank hfeed w.level
        false false (gapFeeds_spaces [()]) rfl w.front
    · rw [← @length_gaps source.toList attributes (block.span.start + 7)]
      exact zero_eq_gapFeeds_iff

/-- Attributes on lines of their own, with a blank line between two of them, in an element and in a
style: the layout of the element is kept, that of the style is not. -/
theorem attributes_keep_layout_iff_style :
    let source := "<p><a\n x='b'\n\n\n \x7b\x7bc\x7d\x7d\n y></a></p><style\n\ta='b'\n\n\tc></style>"
    let p : Printing := ⟨(ofSource source.toList).atLeast, id⟩
    let w : Writer := ⟨"  ".toList, 1, []⟩
    ∃ component, parse source "zvelte" = .ok component ∧
      (∃ nodes n span kind name attributes children,
        nodes ∈ component.nodes :: fragmentsIn component.nodes ∧ n ∈ nodes ∧
        n = .element span kind name attributes children ∧
        n.opening p "  " 1 = "<a\n    x=\"b\"\n\n    \x7b\x7b c \x7d\x7d\n    y\n  >".toList ∧
        ∃ ctx, RereadsLayout ctx "  " (n.attributeLevel p 1) w.front (n.opening p "  " 1) kind name
          attributes (attributeFeeds p.breaks span.start name attributes)) ∧
      ∃ block ∈ component.style, block.opening p.breaks "  " 1 = "<style a=\"b\" c>".toList ∧
        (∃ ctx, RereadsLayout ctx "  " 1 w.front (block.opening p.breaks "  " 1) .regular "style"
          block.attributes (block.attributes.map fun _ => 0)) ∧
        (block.attributes.map fun _ => 0) ≠
          gapFeeds (gaps source.toList (block.span.start + 6) block.attributes) := by
  intro source p w
  obtain ⟨component, nodes, n, span, kind, name, attributes, children, hparse, hnodes, hmem, hn,
    hopening, hquoted, hread⟩ := exists_of_any source "zvelte" "c"
      (fun n => n.opening p "  " 1 =
        "<a\n    x=\"b\"\n\n    \x7b\x7b c \x7d\x7d\n    y\n  >".toList)
      (fun place => by simp only [Expr.WellFormed]; decide) (by decide +kernel)
  have hw : w.Indents := by simp [w, Writer.Indents, Text.isBlank]
  obtain ⟨hcontent, hstyle, -⟩ := @attributes_keep_layout_iff _ _ _ p "  " w hparse rfl rfl hw
  have hany : (parse source "zvelte").toOption.any (fun component =>
      component.style.any fun block => block.opening p.breaks "  " 1 = "<style a=\"b\" c>".toList &&
      block.attributes.all (fun a => !a.isUnquotedIn source.toList && a.written.isEmpty) &&
      decide ((block.attributes.map fun _ => 0) ≠
        gapFeeds (gaps source.toList (block.span.start + 6) block.attributes))) = true := by
    decide +kernel
  obtain ⟨_, hparse', hchecks⟩ := exists_eq_ok_of_any hany
  cases hparse.symm.trans hparse'
  obtain ⟨block, hblock, hchecks⟩ := (Option.any_eq_true _ _).mp hchecks
  simp only [Bool.and_eq_true, all_eq_true, Bool.not_eq_true', decide_eq_true_eq, List.isEmpty_iff]
    at hchecks
  obtain ⟨⟨htext, hplain⟩, hdiffers⟩ := hchecks
  obtain ⟨-, -, ctx, -, -, hagain⟩ := hcontent nodes hnodes n hmem span kind name attributes
    children hn hquoted (hread p.breaks "  " hw.isBlank)
  obtain ⟨hprinted, -⟩ := hstyle block hblock (fun a ha => (hplain a ha).1) fun a ha e he =>
    absurd he (by simp [(hplain a ha).2])
  obtain ⟨ctx', -, -, hagain'⟩ := hprinted []
  exact ⟨component, hparse, ⟨nodes, n, span, kind, name, attributes, children, hnodes, hmem, hn,
    of_decide_eq_true hopening, ctx, hagain⟩, block, hblock, htext, ⟨ctx', hagain'⟩, hdiffers⟩

/-- **A style at the top level is printed in one line**, though its source has each attribute on a
line of its own. -/
theorem formatSource_style_lines :
    (formatSource {} "<style\n\ta=\"b\"\n\n\tc=\"d\"></style>").toOption =
      some "<style a=\"b\" c=\"d\"></style>\n" := by
  decide +kernel

/-- **The texts in the values of attributes are kept**, but for the indentation of the next line
after a text that ends its line. Between the quotes of a value, each text is printed with this
indentation after it; the opening tag is read again, with the same names and tags, and an attribute
has the same texts as before if and only if none of them ends its line or there is no
indentation. -/
theorem attributes_keep_texts_iff (hparse : parse source special = .ok component)
    (hnodes : nodes ∈ component.nodes :: fragmentsIn component.nodes) (hmem : n ∈ nodes)
    (hn : n = .element span kind name attributes children)
    (hquoted : ∀ a ∈ attributes, a.isUnquotedIn source.toList = false)
    (hread : ∀ a ∈ attributes, ∀ e ∈ a.written, ∀ level, e.ReadsBack p.breaks unit level)
    (hunit : w.unit = unit.toList) (hw : w.Indents) :
    ∃ ctx tail, ((n.doc p).write w).written.reverse =
        w.front ++ (n.opening p unit w.level ++ tail) ∧
      (∀ place label parts doubleQuotes, .plain place label (some parts) doubleQuotes ∈ attributes →
        isSingleTag parts = false → ∃ before after, n.opening p unit w.level =
          before ++ (label.toList ++ ('=' :: ((quote doubleQuotes parts).toList ++
            (parts.flatMap (fun part => (part.indented unit (n.attributeLevel p w.level)).chars
              p.breaks unit (n.attributeLevel p w.level)) ++
              ((quote doubleQuotes parts).toList ++ after)))))) ∧
      ∀ rest, ∃ found closes stop,
        Gives (openingTag ctx ⟨byteLength w.front, n.opening p unit w.level ++ rest⟩)
          ⟨kind, name, found, closes⟩ ⟨stop, rest⟩ ∧
        Forall₂ (fun a b => b.bare = (a.indented unit (n.attributeLevel p w.level)).bare ∧
          (b.texts = a.texts ↔ indentationAt unit (n.attributeLevel p w.level) = [] ∨
            ∀ data ∈ a.texts, data.toList.getLast? ≠ some '\n')) attributes found := by
  obtain ⟨ctx, _, after, _, hname, hafter, -, hgives⟩ := hn ▸ opensIn_of_mem hparse hnodes hmem
  have hregular := regular_of_gives_attributes hgives hafter hquoted
  obtain ⟨tail, htail⟩ := exists_write_opening hn hname hregular hread hunit
  refine ⟨ctx, tail, htail, fun place label parts doubleQuotes hattribute hsingle => ?_,
    fun rest => ?_⟩
  · obtain ⟨before, after, hopening⟩ := exists_opening_eq hn hattribute p unit w.level
    have hvariable : variableName? parts ≠ some label := by
      intro hvariable
      obtain ⟨_, _, rfl⟩ := eq_of_variableName? hvariable
      cases hsingle
    refine ⟨before, after, hopening.trans (congrArg (before ++ ·) ?_)⟩
    rw [Attribute.chars, if_neg hvariable, valueChars, hsingle, if_neg Bool.false_ne_true,
      toList_quote]
    simp [flatMap_map]
  · obtain ⟨found, stop, hfound, hbares, -⟩ := exists_gives_openingTag hname hregular hread
      (hunit ▸ hw.isBlank) w.level (wrapsAttributes p.breaks span.start name attributes)
      (closesItself kind name (normals children).isEmpty)
      (length_attributeFeeds p.breaks span.start name attributes) w.front rest
    subst hn
    refine ⟨found, _, stop, hfound, hbares.imp fun a b hbare => ⟨hbare, ?_⟩⟩
    rw [← texts_bare b, hbare, texts_bare]
    exact texts_indented_eq_iff

/-- A text that ends its line before a tag, at two levels of indentation. -/
theorem attributes_keep_texts_iff_line :
    let source := "<p><a x='b\n\x7b\x7bc\x7d\x7d'></a></p>"
    let p : Printing := ⟨(ofSource source.toList).atLeast, id⟩
    ∃ component nodes n span kind name attributes children,
      parse source "zvelte" = .ok component ∧
      nodes ∈ component.nodes :: fragmentsIn component.nodes ∧ n ∈ nodes ∧
      n = .element span kind name attributes children ∧
      n.opening p "  " 1 = "<a x='b\n  \x7b\x7b c \x7d\x7d'>".toList ∧
      (∃ ctx found closes stop, Gives (openingTag ctx ⟨0, n.opening p "  " 0 ++ []⟩)
        ⟨kind, name, found, closes⟩ ⟨stop, []⟩ ∧
        Forall₂ (fun a b => b.texts = a.texts) attributes found) ∧
      ∃ ctx found closes stop, Gives (openingTag ctx ⟨0, n.opening p "  " 1 ++ []⟩)
        ⟨kind, name, found, closes⟩ ⟨stop, []⟩ ∧
        Forall₂ (fun a b => b.texts ≠ a.texts) attributes found := by
  intro source p
  obtain ⟨component, nodes, n, span, kind, name, attributes, children, hparse, hnodes, hmem, hn,
    hcheck, hquoted, hread⟩ := exists_of_any source "zvelte" "c"
      (fun n => n.opening p "  " 1 = "<a x='b\n  \x7b\x7b c \x7d\x7d'>".toList ∧
        n.attributeLevel p 0 = 0 ∧ n.attributeLevel p 1 = 1 ∧
        ∀ a ∈ n.attributes, a.texts = ["b\n"])
      (fun place => by simp only [Expr.WellFormed]; decide) (by decide +kernel)
  obtain ⟨hopening, hlevel₀, hlevel₁, htexts⟩ := of_decide_eq_true hcheck
  have hagain (level : Nat) : ∃ ctx found closes stop,
      Gives (openingTag ctx ⟨0, n.opening p "  " level ++ []⟩) ⟨kind, name, found, closes⟩
        ⟨stop, []⟩ ∧ Forall₂ (fun a b => b.texts = a.texts ↔
          indentationAt "  " (n.attributeLevel p level) = [] ∨
            ∀ data ∈ a.texts, data.toList.getLast? ≠ some '\n') attributes found := by
    have hw : (⟨"  ".toList, level, []⟩ : Writer).Indents := by simp [Writer.Indents, Text.isBlank]
    obtain ⟨ctx, -, -, -, hagain⟩ := attributes_keep_texts_iff hparse hnodes hmem hn hquoted
      (hread p.breaks "  " hw.isBlank) rfl hw
    obtain ⟨found, closes, stop, hfound, hsame⟩ := hagain []
    exact ⟨ctx, found, closes, stop, hfound, hsame.imp fun a b h => h.2⟩
  refine ⟨component, nodes, n, span, kind, name, attributes, children, hparse, hnodes, hmem, hn,
    hopening, ?_, ?_⟩
  · obtain ⟨ctx, found, closes, stop, hfound, hsame⟩ := hagain 0
    rw [hlevel₀] at hsame
    exact ⟨ctx, found, closes, stop, hfound, hsame.imp fun a b h => h.mpr (.inl rfl)⟩
  · obtain ⟨ctx, found, closes, stop, hfound, hsame⟩ := hagain 1
    rw [hlevel₁] at hsame
    subst hn
    refine ⟨ctx, found, closes, stop, hfound,
      ((forall₂_and_left _ _).mpr ⟨htexts, hsame⟩).imp fun a b h hkept => ?_⟩
    have hnone := h.2.mp hkept
    rw [h.1] at hnone
    revert hnone
    decide

/-- **Indentation enters the value of an attribute** if a text in it ends its line: another text is
read from what is printed. -/
theorem formatSource_text_line :
    (formatSource {} "<p><a x=\"b\n\"></a></p>").toOption =
      some "<p><a x=\"b\n\t\"></a></p>\n" := by
  decide +kernel

end Component

end ComponentTemplate
