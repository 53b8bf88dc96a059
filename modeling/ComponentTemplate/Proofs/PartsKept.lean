import ComponentTemplate.Proofs.OutputItems

/-!
# What formatting keeps of the parts of a component

The output of formatting is read as the items that its component is printed as. The style keeps its
attributes, and so do the elements of the content, while a script keeps no attribute but its
language. An element of the content that closes itself is set apart in the output if it is a script
of components or a style.
-/

namespace ComponentTemplate

open Node Item Attribute List

open Text (Blank)

/-! ## The items of the output -/

variable {source special : String} {n : Node} {p : Printing} {component : Component}
  {ctx : MarkupContext}

lemma FormatOptions.exists_toList_output
    (hparse : Component.parse source options.specialPart = .ok component)
    (hsheet : component.stylesheet source.toList = .ok sheet)
    (hformat : formatSource options source = .ok output) : ∃ final, Blank final ∧
      output.toList =
        ((component.doc (formatPrinting source) sheet).render options.indentUnit).toList ++ final := by
  obtain ⟨text, htext, hoption⟩ := bind_eq_ok.mp hformat
  rw [formatWith_of_eq_ok (Component.parse_eq_ok_iff.mp hparse) hsheet] at htext
  cases htext
  split at hoption
  · cases hoption
    exact ⟨"\n".toList, by simp [Blank, Text.isBlank], String.toList_append ..⟩
  · cases hoption
    exact ⟨[], .nil, (append_nil _).symm⟩

namespace Component

variable {options : FormatOptions} {source output special : String} {component : Component}
  {sheet : List StyleNode} {items : List Item} {next : Cursor}

/-- **The items of the output** are those that the component is printed as. -/
theorem exists_items_output (hparse : parse source options.specialPart = .ok component)
    (hsheet : component.stylesheet source.toList = .ok sheet)
    (hformat : formatSource options source = .ok output)
    (hparts : component.PartsReturn { special := options.specialPart } (formatPrinting source) sheet)
    (hstay : TextsStay component.nodes) :
    ∃ items next, Items { special := options.specialPart } items (.ofSource output.toList) next ∧
      component.Printed items := by
  obtain ⟨final, hfinal, houtput⟩ := FormatOptions.exists_toList_output hparse hsheet hformat
  obtain ⟨_, hderives⟩ := ofChars_eq_ok_iff.mp (parse_eq_ok_iff.mp hparse)
  rw [houtput]
  exact hparts.exists_items options.indents hderives.wellFormed hstay hfinal

/-- **What is read holds what is among the items** of its source. -/
theorem gathers_of_parse (hparse : parse source special = .ok component)
    (hitems : Items { special } items (.ofSource source.toList) next) : component.Gathers items := by
  obtain ⟨_, hderives⟩ := ofChars_eq_ok_iff.mp (parse_eq_ok_iff.mp hparse)
  obtain ⟨items', hitems', hgathers⟩ := hderives.exists_items
  rwa [hitems.unique hitems'] at hgathers

end Component

/-! ## Nodes that are set apart -/

lemma Node.isText_of_isSetApart (h : n.isSetApart = true) : n.isText = false := by
  cases n
  case text => cases h
  all_goals rfl

lemma Node.filter_seen (nodes : List Node) : (seen face nodes).filter (!·.isText) =
    (nodes.filter (!·.isText)).map face := by
  rw [seen, filter_map, filter_filter]
  refine congrArg (map face) (filter_congr fun n _ => ?_)
  rw [Function.comp_apply, isText_face]
  cases htext : n.isText with
  | true => rfl
  | false => simp [isBlank_of_not_isText htext]

lemma RawElement.length_bareAttributes (elements : List RawElement) :
    (RawElement.bareAttributes elements).length = elements.length :=
  length_map ..

namespace Component.Printed

variable {component : Component} {items : List Item} {ctx : MarkupContext} {cur next : Cursor}

lemma length_scripts (h : component.Printed items) : (Item.scripts items).length =
    component.script.toList.length + component.nodes.countP isComponentScript := by
  obtain ⟨own, found, heq, hown, -, hfound⟩ := h.scripts
  have hlength := congrArg length hown
  have hlength' := congrArg length hfound
  rw [RawElement.length_bareAttributes, length_map] at hlength hlength'
  rw [heq, length_append, hlength, hlength', countP_eq_length_filter]

lemma length_styles (h : component.Printed items) : (Item.styles items).length =
    component.style.toList.length + component.nodes.countP isStyle := by
  rw [← RawElement.length_bareAttributes, h.styles, length_append, length_map,
    length_map, countP_eq_length_filter, Nat.add_comm]

lemma exists_derives (h : component.Printed items) (hitems : Items ctx items cur next)
    (hapart : ∀ n ∈ component.nodes, n.isSetApart = false) :
    ∃ component', Derives ctx false false component' cur next := by
  have hscript : component.nodes.countP isComponentScript = 0 :=
    countP_eq_zero.mpr fun n hn => by simp [(Bool.or_eq_false_iff.mp (hapart n hn)).1]
  have hstyle : component.nodes.countP isStyle = 0 :=
    countP_eq_zero.mpr fun n hn => by simp [(Bool.or_eq_false_iff.mp (hapart n hn)).2]
  refine hitems.exists_derives ?_ ?_ ?_
  · rw [h.length_scripts, hscript]
    simp
  · rw [h.length_styles, hstyle]
    simp
  · obtain ⟨own, found, heq, -, hcode, hfound⟩ := h.scripts
    have hnil : found = [] := by
      have hlength := congrArg length hfound
      rw [RawElement.length_bareAttributes, length_map, ← countP_eq_length_filter,
        hscript] at hlength
      exact eq_nil_of_length_eq_zero hlength
    rw [heq, hnil, append_nil]
    exact hcode

/-- **If all content is read as content, no node is set apart.** -/
theorem isSetApart_eq_false (h : component.Printed items)
    (hseen : Item.seen items = Node.seen Node.face component.nodes) :
    ∀ n ∈ component.nodes, n.isSetApart = false := by
  -- no node is missing among those that stay
  have hall := congrArg (filter (!·.isText)) hseen
  rw [Item.seen, Node.filter_seen, Node.filter_seen, ← Item.faces, h.faces] at hall
  have hfilter : (component.nodes.filter fun n => !n.isText && !n.isSetApart) =
      (component.nodes.filter (!·.isText)).filter (!·.isSetApart) := by
    rw [filter_filter]
    exact filter_congr fun n _ => Bool.and_comm ..
  have hlength := congrArg length hall
  rw [length_map, length_map, hfilter, length_filter_eq_length_iff] at hlength
  intro n hn
  rw [← Bool.not_eq_true]
  intro hapart
  have htext := isText_of_isSetApart hapart
  have hstays := hlength n (mem_filter.mpr ⟨hn, by simp [htext]⟩)
  simp [hapart] at hstays

end Component.Printed

/-! ## Components with simple parts -/

/-- **Elements without content**, in one line and with texts as the values of their attributes. -/
def Node.isEmptyElement (p : Printing) : Node → Bool
  | .element span _ name attributes [] =>
    attributes.all isTextual && !wrapsAttributes p.breaks span.start name attributes
  | _ => false

lemma Node.partsReturn_of_isEmptyElement (h : n.isEmptyElement p = true) : n.PartsReturn ctx p := by
  unfold isEmptyElement at h
  split at h
  · rename_i span kind name attributes
    simp only [Bool.and_eq_true, Bool.not_eq_true', all_eq_true] at h
    obtain ⟨htextual, hwraps⟩ := h
    refine ⟨?_, ?_⟩
    · rw [attributesDoc, if_neg (by simp [hwraps])]
      exact fills_return htextual
    · have hnone : ¬ ("</" ++ name ++ ">").toList <:+: [] := by simp
      split
      · have hcode : scriptCode? name [] = none := rfl
        intro w _ _
        exact ⟨[], by rw [contentDoc, hcode, Option.map_none, Option.getD_none,
          write_fragment_of_blank rfl, append_nil], hnone⟩
      · exact Printable.contentReadsBack ⟨by simp, by simp, isChain_nil⟩
  · cases h

/-- **Components with simple parts**: no import, no code, and besides texts only variables and
elements without content. -/
def Component.isSimple (p : Printing) (component : Component) : Bool :=
  component.imports.isEmpty && component.script.all (·.body.isEmpty) &&
    component.nodes.all (fun n => n.isText || n.isVariable || n.isEmptyElement p) &&
    component.style.all (·.attributes.all isTextual)

lemma Node.ReadsBack.partsReturn (h : n.ReadsBack ctx p) (hn : n.element? = none) :
    n.PartsReturn ctx p := by
  cases n
  case element => cases hn
  all_goals exact h

lemma isScriptCode_nil : IsScriptCode [] := by
  refine ⟨by simp, fun offset => ⟨[], ?_⟩⟩
  have hread : Token.read ⟨offset, []⟩ = .ok (⟨.finish, ⟨offset, offset⟩⟩, ⟨offset, []⟩) := rfl
  unfold Statement.ofCursor Stream.start
  split
  · rename_i h
    cases hread.symm.trans h
    rw [ok_bind]
    dsimp only
    rw [Grammar.statements]
    rfl
  · rename_i h
    cases hread.symm.trans h

lemma Component.partsReturn_of_isSimple (hparse : parse source special = .ok component)
    (h : component.isSimple p = true) : component.PartsReturn { special } p [] := by
  simp only [isSimple, Bool.and_eq_true, List.isEmpty_iff, Option.all_eq_true, all_eq_true,
    Bool.or_eq_true, and_assoc] at h
  obtain ⟨himports, hscript, hnodes, hstyle⟩ := h
  refine ⟨by simp [himports], fun block hblock => ?_, fun n hn htext => ?_, fun block hblock => ?_, ?_⟩
  · rw [ScriptBlock.codeDoc, hscript block hblock]
    exact Doc.lays_empty.fills.mono fun cs hcs => hcs ▸ isScriptCode_nil
  · rcases hnodes n hn with (htext' | hvariable) | helement
    · simp [htext] at htext'
    · have hback := readsBack_of_plain hparse hn htext (plain_of_isVariable p.breaks hvariable)
      refine hback.partsReturn ?_
      unfold isVariable at hvariable
      split at hvariable
      · rfl
      · cases hvariable
    · exact partsReturn_of_isEmptyElement helement
  · exact fills_return (hstyle block hblock)
  · exact Doc.lays_empty.fills.mono fun cs hcs => by simp [hcs]

/-- What is asked of a source to say what its output is read as, if its parts are simple, with a
test of its component. -/
def Component.isSimpleSource (source : String) (test : Component → Bool) : Bool :=
  (formatSource {} source).isOk && (parse source "zvelte").toOption.any fun component =>
    component.isSimple (formatPrinting source) && decide (TextsStay component.nodes) &&
      (component.stylesheet source.toList).toOption.any isEmpty && test component

lemma Component.exists_of_isSimpleSource {test : Component → Bool}
    (h : isSimpleSource source test = true) : ∃ component output,
      parse source "zvelte" = .ok component ∧ component.stylesheet source.toList = .ok [] ∧
      formatSource {} source = .ok output ∧
      component.PartsReturn { special := "zvelte" } (formatPrinting source) [] ∧
      TextsStay component.nodes ∧ test component = true := by
  obtain ⟨hok, hany⟩ := Bool.and_eq_true_iff.mp h
  obtain ⟨output, hformat⟩ := exists_eq_ok_of_isOk hok
  obtain ⟨component, hparse, hcheck⟩ := exists_eq_ok_of_any hany
  simp only [Bool.and_eq_true, decide_eq_true_eq] at hcheck
  obtain ⟨⟨⟨hsimple, hstay⟩, hsheet⟩, htest⟩ := hcheck
  obtain ⟨sheet, hread, hempty⟩ := exists_eq_ok_of_any hsheet
  obtain rfl := List.isEmpty_iff.mp hempty
  exact ⟨component, output, hparse, hread, hformat, partsReturn_of_isSimple hparse hsimple, hstay,
    htest⟩

/-! ## What is kept -/

namespace Component

/-- **The output has the content of the source again** exactly if no node of it is a script of
components or a style, given that the parts of the component are read again and its texts stay
texts. Such nodes are set apart in the output, beside the script and the style of the component. -/
theorem exists_parse_output_iff {options : FormatOptions} {source output : String}
    {component : Component} {sheet : List StyleNode}
    (hparse : parse source options.specialPart = .ok component)
    (hsheet : component.stylesheet source.toList = .ok sheet)
    (hformat : formatSource options source = .ok output)
    (hparts : component.PartsReturn { special := options.specialPart } (formatPrinting source) sheet)
    (hstay : TextsStay component.nodes) :
    ∃ items next, Items { special := options.specialPart } items (.ofSource output.toList) next ∧
      (scripts items).length =
        component.script.toList.length + component.nodes.countP isComponentScript ∧
      (styles items).length =
        component.style.toList.length + component.nodes.countP isStyle ∧
      faces items =
        (component.nodes.filter fun n => !n.isText && !n.isSetApart).map face ∧
      ((∃ component', parse output options.specialPart = .ok component' ∧
          seen face component'.nodes = seen face component.nodes) ↔
        ∀ n ∈ component.nodes, n.isSetApart = false) := by
  obtain ⟨items, next, hitems, hprinted⟩ := exists_items_output hparse hsheet hformat hparts hstay
  refine ⟨items, next, hitems, hprinted.length_scripts, hprinted.length_styles, hprinted.faces, ?_⟩
  constructor
  · rintro ⟨component', hparse', hseen⟩
    rw [(gathers_of_parse hparse' hitems).nodes_eq] at hseen
    exact hprinted.isSetApart_eq_false hseen
  · intro hapart
    obtain ⟨component', hderives⟩ := hprinted.exists_derives hitems hapart
    have hparse' : parse output options.specialPart = .ok component' :=
      parse_eq_ok_iff.mpr (ofChars_eq_ok_iff.mpr ⟨next, hderives⟩)
    refine ⟨component', hparse', ?_⟩
    rw [(gathers_of_parse hparse' hitems).nodes_eq]
    exact hprinted.seen hapart

/-- A style beside an element that closes itself, among other nodes. -/
theorem exists_parse_output_two_styles : ∃ component output items next,
    parse "<style a=\"b\"></style>\x7b\x7b c \x7d\x7d<p d=\"e\"></p> f<style/>" "zvelte" = .ok component ∧
    formatSource {} "<style a=\"b\"></style>\x7b\x7b c \x7d\x7d<p d=\"e\"></p> f<style/>" = .ok output ∧
    Items { special := "zvelte" } items (.ofSource output.toList) next ∧
    (styles items).length = 2 ∧ (faces items).length = 2 ∧
    ¬ ∃ component', parse output "zvelte" = .ok component' ∧
      seen face component'.nodes = seen face component.nodes := by
  generalize hsource : "<style a=\"b\"></style>\x7b\x7b c \x7d\x7d<p d=\"e\"></p> f<style/>" = source
  have hsimple : isSimpleSource source (fun component =>
      component.style.isSome && component.nodes.countP isStyle == 1 &&
        (component.nodes.filter fun n => !n.isText && !n.isSetApart).length == 2) = true := by
    subst hsource
    decide +kernel
  obtain ⟨component, output, hparse, hsheet, hformat, hparts, hstay, hcheck⟩ :=
    exists_of_isSimpleSource hsimple
  simp only [Bool.and_eq_true, beq_iff_eq] at hcheck
  obtain ⟨⟨hstyle, hcount⟩, hlength⟩ := hcheck
  obtain ⟨items, next, hitems, -, hstyles, hfaces, hiff⟩ :=
    exists_parse_output_iff hparse hsheet hformat hparts hstay
  refine ⟨component, output, items, next, hparse, hformat, hitems, ?_, ?_, fun hread => ?_⟩
  · obtain ⟨block, hblock⟩ := Option.isSome_iff_exists.mp hstyle
    rw [hstyles, hcount, hblock]
    rfl
  · rw [hfaces, length_map, hlength]
  · have hpos : 0 < component.nodes.countP isStyle := by omega
    obtain ⟨n, hn, hstyle⟩ := countP_pos_iff.mp hpos
    have hapart := hiff.mp hread n hn
    simp [isSetApart, hstyle] at hapart

/-- **An element that closes itself is set apart in the output** if it is a style, though it was a
node, and beside another style it cannot be read. -/
theorem nodes_style_selfClosing :
    (parse "<style/>a" "zvelte").toOption.map (·.nodes.map isText) = some [false, true] ∧
    (formatSource {} "<style/>a").toOption = some "<style></style>a\n" ∧
    (parse "<style></style>a\n" "zvelte").toOption.map (·.nodes.map isText) = some [true] ∧
    (formatSource {} "<style/><style></style>").toOption =
      some "<style></style>\n\n<style></style>\n" ∧
    (parse "<style></style>\n\n<style></style>\n" "zvelte").isOk = false := by
  decide +kernel

end Component

/-! ## Attributes -/

namespace Component

variable {items : List Item} {component : Component} {q : Node → Bool}

lemma Gathers.map_scripts (h : component.Gathers items) {β : Type} (b : β) :
    (scripts items).map (fun _ => b) = component.script.toList.map fun _ => b := by
  rw [map_const', map_const', h.length_scripts]

lemma Gathers.bareAttributes_styles (h : component.Gathers items) :
    RawElement.bareAttributes (styles items) =
      component.style.toList.map (·.attributes.map bare) := by
  rw [← h.styles_eq, map_map]
  rfl

lemma Gathers.filter_faces (h : component.Gathers items) (hface : ∀ n : Node, q n.face = q n) :
    (faces items).filter q = (component.nodes.filter fun n => !n.isText && q n).map face := by
  rw [faces, ← h.nodes_eq, filter_map, filter_filter]
  refine congrArg (map face) (filter_congr fun n _ => ?_)
  rw [Function.comp_apply, hface, Bool.and_comm]

lemma Gathers.map_attributes (h : component.Gathers items) (hface : ∀ n : Node, q n.face = q n)
    (hq : ∀ n, q n = true → n.isText = false) :
    ((faces items).filter q).map attributes =
      (component.nodes.filter q).map (·.face.attributes) := by
  rw [h.filter_faces hface, map_map]
  refine congrArg (map _) (filter_congr fun n _ => ?_)
  cases hn : q n with
  | false => simp
  | true => simp [hq n hn]

/-- **The attributes of the output.** The elements that are set apart, and those of the content,
have their attributes in the order of the source, but a script has only its language. So all
attributes are kept exactly if the script has no others, given that the parts of the component are
read again and its texts stay texts. -/
theorem exists_attributes_output {options : FormatOptions} {source output : String}
    {component : Component} {sheet : List StyleNode}
    (hparse : parse source options.specialPart = .ok component)
    (hsheet : component.stylesheet source.toList = .ok sheet)
    (hformat : formatSource options source = .ok output)
    (hparts : component.PartsReturn { special := options.specialPart } (formatPrinting source) sheet)
    (hstay : TextsStay component.nodes) :
    ∃ items next items' next',
      Items { special := options.specialPart } items (.ofSource source.toList) next ∧
      Items { special := options.specialPart } items' (.ofSource output.toList) next' ∧
      RawElement.bareAttributes (scripts items') =
        (scripts items).map (fun _ => [scriptLanguage]) ++
          ((faces items).filter isComponentScript).map attributes ∧
      RawElement.bareAttributes (styles items') =
        ((faces items).filter isStyle).map attributes ++
          RawElement.bareAttributes (styles items) ∧
      faces items' = (faces items).filter (!·.isSetApart) ∧
      (RawElement.bareAttributes (scripts items') =
          RawElement.bareAttributes (scripts items) ++
            ((faces items).filter isComponentScript).map attributes ↔
        ∀ element ∈ scripts items, element.attributes.map bare = [scriptLanguage]) := by
  obtain ⟨next, hderives⟩ := ofChars_eq_ok_iff.mp (parse_eq_ok_iff.mp hparse)
  obtain ⟨items, hitems, hgathers⟩ := hderives.exists_items
  obtain ⟨items', next', hitems', hprinted⟩ :=
    exists_items_output hparse hsheet hformat hparts hstay
  have hscripts : RawElement.bareAttributes (scripts items') =
      (scripts items).map (fun _ => [scriptLanguage]) ++
        ((faces items).filter isComponentScript).map attributes := by
    obtain ⟨own, found, heq, hown, -, hfound⟩ := hprinted.scripts
    rw [heq, RawElement.bareAttributes, map_append, ← RawElement.bareAttributes, hown,
      ← RawElement.bareAttributes, hfound, hgathers.map_scripts,
      hgathers.map_attributes isComponentScript_face fun n hn =>
        isText_of_isSetApart (by simp [isSetApart, hn])]
  refine ⟨items, next, items', next', hitems, hitems', hscripts, ?_, ?_, ?_⟩
  · rw [hprinted.styles, hgathers.bareAttributes_styles,
      hgathers.map_attributes isStyle_face fun n hn =>
        isText_of_isSetApart (by simp [isSetApart, hn])]
  · rw [hprinted.faces, hgathers.filter_faces fun n => by rw [isSetApart_face]]
  · rw [hscripts, append_cancel_right_eq, RawElement.bareAttributes, map_inj_left]
    exact forall₂_congr fun element _ => eq_comm

/-- A script and a style with attributes, among other nodes. -/
theorem exists_attributes_output_defer : ∃ source output items next items' next',
    source = "<script lang=\"zs\" defer></script>\x7b\x7b a \x7d\x7d<p b=\"c\"></p> d<style e=\"f\"></style>" ∧
    formatSource {} source = .ok output ∧
    Items { special := "zvelte" } items (.ofSource source.toList) next ∧
    Items { special := "zvelte" } items' (.ofSource output.toList) next' ∧
    RawElement.bareAttributes (scripts items') = [[scriptLanguage]] ∧
    (styles items).length = 1 ∧
    RawElement.bareAttributes (styles items') =
      RawElement.bareAttributes (styles items) := by
  generalize hsource :
    "<script lang=\"zs\" defer></script>\x7b\x7b a \x7d\x7d<p b=\"c\"></p> d<style e=\"f\"></style>" =
      source
  have hsimple : isSimpleSource source (fun component => component.script.isSome &&
      component.style.isSome && component.nodes.all (!·.isSetApart)) = true := by
    subst hsource
    decide +kernel
  obtain ⟨component, output, hparse, hsheet, hformat, hparts, hstay, hcheck⟩ :=
    exists_of_isSimpleSource hsimple
  simp only [Bool.and_eq_true, all_eq_true, Bool.not_eq_true'] at hcheck
  obtain ⟨⟨hscript, hstyle⟩, hapart⟩ := hcheck
  obtain ⟨items, next, items', next', hitems, hitems', hscripts, hstyles, -, -⟩ :=
    exists_attributes_output hparse hsheet hformat hparts hstay
  have hgathers := gathers_of_parse hparse hitems
  have hnone {q : Node → Bool} (hface : ∀ n : Node, q n.face = q n)
      (hq : ∀ n, n.isSetApart = false → q n = false) : (faces items).filter q = [] := by
    rw [hgathers.filter_faces hface, map_eq_nil_iff, filter_eq_nil_iff]
    intro n hn
    simp [hq n (hapart n hn)]
  rw [hnone isComponentScript_face fun n hn => (Bool.or_eq_false_iff.mp hn).1,
    hgathers.map_scripts] at hscripts
  rw [hnone isStyle_face fun n hn => (Bool.or_eq_false_iff.mp hn).2] at hstyles
  refine ⟨source, output, items, next, items', next', rfl, hformat, hitems, hitems', ?_, ?_, hstyles⟩
  · obtain ⟨block, hblock⟩ := Option.isSome_iff_exists.mp hscript
    rw [hscripts, hblock]
    rfl
  · obtain ⟨block, hblock⟩ := Option.isSome_iff_exists.mp hstyle
    rw [← RawElement.length_bareAttributes, hgathers.bareAttributes_styles, hblock]
    rfl

/-- **A script loses its other attributes.** -/
theorem formatSource_script_defer :
    (formatSource {} "<script lang=\"zs\" defer></script>").toOption =
      some "<script lang=\"zs\"></script>\n" := by
  decide +kernel

end Component

end ComponentTemplate
