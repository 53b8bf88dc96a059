import ComponentTemplate.Proofs.BodyReading

/-!
# The edges of the output

The first and the last character of a document are those of its texts, since indentation goes only
between a line feed and a text. Every node but a text is written from a tag to a tag, and the
texts at the two ends of a component lose their blanks there. So the output starts and ends with
no blank, unless the last thing in it is an import, which ends its line itself.
-/

namespace ComponentTemplate

open Node Doc

/-! ## The texts of a document -/

namespace Doc

variable {a b d : Doc}

lemma chars_concat (docs : List Doc) : (concat docs).chars = docs.flatMap chars := by
  induction docs with
  | nil => rfl
  | cons doc docs ih => rw [List.flatMap_cons, ← ih]; rfl

def first? (d : Doc) : Option Char := d.chars.head?

def last? (d : Doc) : Option Char := d.chars.getLast?

@[simp] lemma first?_empty : empty.first? = none := rfl

@[simp] lemma first?_text (s : String) : (text s).first? = s.toList.head? := rfl

@[simp] lemma first?_append : (a ++ b).first? = a.first?.or b.first? := List.head?_append

@[simp] lemma first?_nest : (nest d).first? = d.first? := rfl

@[simp] lemma last?_empty : empty.last? = none := rfl

@[simp] lemma last?_text (s : String) : (text s).last? = s.toList.getLast? := rfl

@[simp] lemma last?_append : (a ++ b).last? = b.last?.or a.last? := List.getLast?_append

@[simp] lemma last?_nest : (nest d).last? = d.last? := rfl

lemma head?_write (d : Doc) (w : Writer) :
    (d.write w).written.head? = d.last?.or w.written.head? := by
  induction d generalizing w with
  | empty => rfl
  | text s =>
    rw [write, last?_text]
    cases h : s.toList <;> simp [Writer.add, List.getLast?_cons]
  | append a b iha ihb =>
    rw [write, ihb, iha, ← Option.or_assoc]
    exact congrArg (Option.or · _) last?_append.symm
  | nest d ih => exact ih w.indent

lemma getLast?_write (d : Doc) (w : Writer) :
    (d.write w).written.getLast? = w.written.getLast?.or d.first? := by
  induction d generalizing w with
  | empty => simp [write]
  | text s =>
    rw [write, first?_text]
    cases s.toList with
    | nil => simp [Writer.add]
    | cons c cs =>
      cases hw : w.written <;> simp [Writer.add, Writer.atLineStart, hw, List.getLast?_cons]
  | append a b iha ihb =>
    rw [write, ihb, iha, Option.or_assoc]
    exact congrArg (Option.or _) first?_append.symm
  | nest d ih => exact ih w.indent

lemma head?_render (unit : String) (d : Doc) : (d.render unit).toList.head? = d.first? := by
  rw [render, Writer.output, String.toList_ofList, List.head?_reverse, getLast?_write]
  rfl

lemma getLast?_render (unit : String) (d : Doc) : (d.render unit).toList.getLast? = d.last? := by
  rw [render, Writer.output, String.toList_ofList, List.getLast?_reverse, head?_write]
  simp [Writer.start]

end Doc

/-! ## The edges of nodes -/

/-- **Documents between two characters that are not blank.** -/
structure Doc.Edged (d : Doc) : Prop where
  first : ∃ c, d.first? = some c ∧ Text.isBlank c = false
  last : ∃ c, d.last? = some c ∧ Text.isBlank c = false

lemma edged_tagDoc (breaks : Breaks) (start : Nat) (e : Expr) : (tagDoc breaks start e).Edged := by
  unfold tagDoc
  constructor
  · refine ⟨'{', ?_, by decide⟩
    split <;> simp
  · refine ⟨'}', ?_, by decide⟩
    split <;> simp

lemma Node.edged_doc (p : Printing) {n : Node} (htext : n.isText = false)
    (hbranch : n.isBranch = false) : (n.doc p).Edged := by
  cases n with
  | text => cases htext
  | comment span data =>
    exact ⟨⟨'<', by simp [doc], by decide⟩, '>', by simp [doc, List.getLast?_cons],
      by decide⟩
  | element span kind name attributes children =>
    show (elementDoc p span.start kind name attributes _ _).Edged
    unfold elementDoc
    constructor
    · refine ⟨'<', ?_, by decide⟩
      cases kind <;> dsimp only <;> (try split) <;> simp
    · refine ⟨'>', ?_, by decide⟩
      cases kind <;> dsimp only <;> (try split) <;> simp [List.getLast?_cons]
  | expressionTag span e => exact edged_tagDoc ..
  | ifBlock span isBranch test consequent alternate =>
    cases hbranch
    rw [doc_ifBlock]
    exact ⟨⟨'{', by simp, by decide⟩, '}', by simp [onlyIf], by decide⟩
  | awaitBlock =>
    rw [doc_awaitBlock]
    exact ⟨⟨'{', by simp [awaitDoc], by decide⟩, '}', by simp [awaitDoc], by decide⟩
  | forBlock =>
    rw [doc_forBlock]
    exact ⟨⟨'{', by simp [loopTag], by decide⟩, '}', by simp, by decide⟩
  | htmlTag | renderTag | variableTag | keyBlock | snippetBlock =>
    exact ⟨⟨'{', by simp [doc], by decide⟩, '}', by simp [doc], by decide⟩

/-! ## The edges of the content -/

namespace Sibling

variable {siblings : List (Sibling Doc)} {s : Sibling Doc}

lemma exists_pad (hblank : s.isBlank = false) (hnode : ∀ d, s = .node d → d.Edged)
    (first last : Bool) :
    (first = true → ∃ c, (s.pad true first last).doc.first? = some c ∧ Text.isBlank c = false) ∧
      (last = true → ∃ c, (s.pad true first last).doc.last? = some c ∧ Text.isBlank c = false) := by
  cases s with
  | node d => exact ⟨fun _ => (hnode d rfl).first, fun _ => (hnode d rfl).last⟩
  | text raw =>
    obtain ⟨before, after, hbefore, hafter, hraw⟩ := Text.exists_trim_eq raw
    have hcore := Text.trimmed_trim raw
    have hne : Text.trim raw ≠ [] := by
      rw [isBlank, Text.isBlankText_eq] at hblank
      simpa using hblank
    generalize Text.trim raw = core at hraw hcore hne
    rw [hraw, pad_text_append hbefore hafter hcore hne]
    constructor
    · rintro rfl
      refine ⟨core.head hne, ?_, hcore.head _ (List.head?_eq_some_head hne)⟩
      simp [Padded.doc, Padding.of, lineFeeds, Padding.text, List.head?_eq_some_head hne]
    · rintro rfl
      refine ⟨core.getLast hne, ?_, hcore.last _ (List.getLast?_eq_some_getLast hne)⟩
      simp [Padded.doc, Padding.of, lineFeeds, Padding.text, List.getLast?_eq_some_getLast hne]

lemma exists_padFrom_concat (trim first : Bool) (siblings : List (Sibling Doc))
    (s : Sibling Doc) : ∃ padded first',
    padFrom trim first (siblings ++ [s]) = padded ++ [s.pad trim first' true] := by
  induction siblings generalizing first with
  | nil => exact ⟨[], first, rfl⟩
  | cons sibling siblings ih =>
    obtain ⟨padded, first', heq⟩ := ih false
    exact ⟨_ :: padded, first', by rw [List.cons_append, padFrom, heq]; rfl⟩

/-- **The content of a component starts and ends with no blank.** -/
theorem edged_siblings (hnode : ∀ d, .node d ∈ siblings → d.Edged)
    (hne : reconcile true siblings ≠ []) : (Doc.siblings (reconcile true siblings)).Edged := by
  have hall := mt reconcile_eq_nil_iff.mpr hne
  rw [reconcile_of_not_all hall] at hne ⊢
  have hbounded := bounded_dropEnds isBlank siblings
  obtain ⟨before, after, heq, -⟩ := exists_eq_dropEnds isBlank siblings
  have hedged : ∀ d, .node d ∈ dropEnds isBlank siblings → d.Edged := by
    intro d hd
    exact hnode d (by rw [heq]; simp [hd])
  change padFrom true true (dropEnds isBlank siblings) ≠ [] at hne
  change (Doc.siblings (padFrom true true (dropEnds isBlank siblings))).Edged
  generalize dropEnds isBlank siblings = kept at *
  constructor
  · cases kept with
    | nil => exact absurd rfl hne
    | cons s rest =>
      obtain ⟨c, hfirst, hc⟩ := (exists_pad (hbounded.head s rfl)
        (fun d hd => hedged d (by simp [hd])) true rest.isEmpty).1 rfl
      refine ⟨c, ?_, hc⟩
      change (_ ++ Doc.siblings (padFrom true false rest)).first? = _
      rw [first?_append, hfirst, Option.some_or]
  · rcases List.eq_nil_or_concat kept with rfl | ⟨rest, s, rfl⟩
    · exact absurd rfl hne
    · rw [List.concat_eq_append] at *
      obtain ⟨padded, first, heq⟩ := exists_padFrom_concat true true rest s
      obtain ⟨c, hlast, hc⟩ := (exists_pad (hbounded.last s (by simp))
        (fun d hd => hedged d (by simp [hd])) first true).2 rfl
      refine ⟨c, ?_, hc⟩
      rw [heq, last?, Doc.siblings, chars_concat, List.map_append, List.flatMap_append,
        List.getLast?_append]
      simp only [last?] at hlast
      simp [hlast]

end Sibling

namespace Component

variable {component : Component}

/-- **Components with imports and nothing else** but blanks. -/
structure IsImportsOnly (component : Component) : Prop where
  imports : component.imports ≠ []
  script : component.script = none
  nodes : component.nodes.all isBlank = true
  style : component.style = none

lemma edges_imports {imports : List Import} (hne : imports ≠ []) :
    (concat (imports.map fun tag => tag.doc ++ line)).first? = some '{' ∧
      (concat (imports.map fun tag => tag.doc ++ line)).last? = some '\n' := by
  constructor
  · obtain ⟨tag, rest, rfl⟩ := List.exists_cons_of_ne_nil hne
    change (tag.doc ++ line ++ concat _).first? = _
    simp [Import.doc]
  · obtain ⟨rest, tag, rfl⟩ := (List.eq_nil_or_concat imports).resolve_left hne
    simp [last?, chars_concat, List.getLast?_append, chars_append, line, chars]

lemma ScriptBlock.edges_doc (breaks : Breaks) (block : ScriptBlock) :
    (block.doc breaks).first? = some '<' ∧ (block.doc breaks).last? = some '>' := by
  simp [ScriptBlock.doc]

lemma StyleBlock.edges_doc (breaks : Breaks) (block : StyleBlock) (sheet : List StyleNode) :
    (block.doc breaks sheet).first? = some '<' ∧ (block.doc breaks sheet).last? = some '>' := by
  simp [StyleBlock.doc]

/-- **The edges of a component**: only imports alone end with a blank, the end of their line. -/
theorem edges_doc {ctx : MarkupContext} (hwf : component.WellFormed ctx) (p : Printing)
    (sheet : List StyleNode) :
    (∀ c ∈ (component.doc p sheet).first?, Text.isBlank c = false) ∧
      (¬ component.IsImportsOnly → ∀ c ∈ (component.doc p sheet).last?, Text.isBlank c = false) ∧
      (component.IsImportsOnly → (component.doc p sheet).last? = some '\n') := by
  obtain ⟨imports, script, nodes, style⟩ := component
  have hempty : Sibling.reconcile true (siblings p nodes) = [] ↔
      nodes.all isBlank = true := by
    rw [Sibling.reconcile_eq_nil_iff, ← all_isBlank_siblings p, List.all_eq_true]
  have hbody : Sibling.reconcile true (siblings p nodes) ≠ [] →
      (Doc.siblings (Sibling.reconcile true (siblings p nodes))).Edged := by
    refine Sibling.edged_siblings fun d hd => ?_
    rw [siblings_eq_map] at hd
    obtain ⟨n, hn, heq⟩ := List.mem_map.mp hd
    cases htext : n.isText with
    | true => cases n <;> cases htext; cases heq
    | false =>
      rw [sibling_of_not_isText p htext] at heq
      cases heq
      exact edged_doc p htext (hwf.isBranch n hn)
  generalize hsiblings : Sibling.reconcile true (siblings p nodes) = body at hempty hbody
  have hlast : IsImportsOnly ⟨imports, script, nodes, style⟩ ↔
      imports ≠ [] ∧ script = none ∧ body = [] ∧ style = none :=
    ⟨fun h => ⟨h.imports, h.script, hempty.mpr h.nodes, h.style⟩,
      fun h => ⟨h.1, h.2.1, hempty.mp h.2.2.1, h.2.2.2⟩⟩
  have hfirst := @edges_imports imports
  simp only [Component.doc, hsiblings, first?_append, last?_append]
  -- the first and the last part that is there decides; a blank line stands only between two parts
  by_cases hnil : body = []
  · have hnone : (Doc.siblings []).first? = none ∧ (Doc.siblings []).last? = none := ⟨rfl, rfl⟩
    subst hnil
    rcases imports with - | ⟨tag, imports⟩ <;> rcases script with - | script <;>
      rcases style with - | style <;>
      simp_all [ScriptBlock.edges_doc, StyleBlock.edges_doc, concat, ofOption, onlyIf]
    all_goals decide
  · obtain ⟨⟨c, hc, hcblank⟩, d, hd, hdblank⟩ := hbody hnil
    rcases imports with - | ⟨tag, imports⟩ <;> rcases script with - | script <;>
      rcases style with - | style <;>
      simp_all [ScriptBlock.edges_doc, StyleBlock.edges_doc, concat, ofOption, onlyIf]
    all_goals decide

lemma edges_formatWith {special unit source output : String} {script : String → String}
    (h : formatWith special unit script source = .ok output) :
    ∃ component, ofChars special source.toList = .ok component ∧
      (∀ c ∈ output.toList.head?, Text.isBlank c = false) ∧
      (¬ component.IsImportsOnly → ∀ c ∈ output.toList.getLast?, Text.isBlank c = false) ∧
      (component.IsImportsOnly → output.toList.getLast? = some '\n') := by
  cases hread : ofChars special source.toList with
  | error failure =>
    rw [formatWith_of_ofChars_eq_error hread] at h
    cases h
  | ok component =>
    cases hsheet : component.stylesheet source.toList with
    | error failure =>
      rw [formatWith_of_stylesheet_eq_error hread hsheet] at h
      cases h
    | ok sheet =>
      rw [formatWith_of_eq_ok hread hsheet] at h
      obtain ⟨_, hderives⟩ := ofChars_eq_ok_iff.mp hread
      refine ⟨component, rfl, ?_⟩
      rw [← Except.ok.inj h, head?_render, getLast?_render]
      exact edges_doc hderives.wellFormed _ sheet

def EndsWithOneFeed (text : String) : Prop :=
  text.toList.getLast? = some '\n' ∧ text.toList.dropLast.getLast? ≠ some '\n'

/-- **The edges of the output are clean unless there is nothing but imports.** The output starts
with no blank. It ends with no blank, and with one line feed if it is to end with one, exactly if
the component is no sequence of imports alone. -/
theorem edges_clean_iff (source : String) :
    (∀ special output, format special source = .ok output →
      ∃ component, ofChars special source.toList = .ok component ∧
        (∀ c ∈ output.toList.head?, Text.isBlank c = false) ∧
        ((∀ c ∈ output.toList.getLast?, Text.isBlank c = false) ↔ ¬ component.IsImportsOnly)) ∧
    ∀ options output, options.finalNewline = true → formatSource options source = .ok output →
      ∃ component, ofChars options.specialPart source.toList = .ok component ∧
        (output = "" ∨ EndsWithOneFeed output ↔ ¬ component.IsImportsOnly) := by
  constructor
  · intro special output h
    obtain ⟨component, hread, hfirst, hlast, hfeed⟩ := edges_formatWith h
    refine ⟨component, hread, hfirst, fun h himports => ?_, hlast⟩
    exact absurd (h '\n' (hfeed himports)) (by decide)
  · intro options output hfinal h
    obtain ⟨text, htext, hoption⟩ := bind_eq_ok.mp h
    obtain ⟨component, hread, -, hlast, hfeed⟩ := edges_formatWith htext
    refine ⟨component, hread, ?_⟩
    rw [hfinal, Bool.true_and] at hoption
    by_cases hempty : text = ""
    · subst hempty
      cases hoption
      exact ⟨fun _ himports => by simpa using hfeed himports, fun _ => .inl rfl⟩
    · rw [if_pos (by simpa using hempty)] at hoption
      cases hoption
      have hone : EndsWithOneFeed (text ++ "\n") ↔ text.toList.getLast? ≠ some '\n' := by
        simp [EndsWithOneFeed]
      rw [or_iff_right (by simp), hone]
      exact ⟨fun h himports => h (hfeed himports),
        fun h hlast' => absurd (hlast h _ hlast') (by decide)⟩

/-- An import before a paragraph, with blanks around them. -/
theorem edges_clean_iff_paragraph :
    format "zvelte" "\n\x7b% import A from \"b\" %\x7d\n <p>c</p> \n" =
        .ok "\x7b% import A from \"b\" %\x7d\n\n<p>c</p>" ∧
      formatSource {} "\n\x7b% import A from \"b\" %\x7d\n <p>c</p> \n" =
        .ok "\x7b% import A from \"b\" %\x7d\n\n<p>c</p>\n" ∧
      ∃ component, ofChars "zvelte" "\n\x7b% import A from \"b\" %\x7d\n <p>c</p> \n".toList =
        .ok component ∧ ¬ component.IsImportsOnly ∧
          EndsWithOneFeed "\x7b% import A from \"b\" %\x7d\n\n<p>c</p>\n" := by
  have hformat : format "zvelte" "\n\x7b% import A from \"b\" %\x7d\n <p>c</p> \n" =
      .ok "\x7b% import A from \"b\" %\x7d\n\n<p>c</p>" := by
    decide +kernel
  have hsource : formatSource {} "\n\x7b% import A from \"b\" %\x7d\n <p>c</p> \n" =
      .ok "\x7b% import A from \"b\" %\x7d\n\n<p>c</p>\n" := by
    decide +kernel
  have hclean := edges_clean_iff "\n\x7b% import A from \"b\" %\x7d\n <p>c</p> \n"
  obtain ⟨component, hread, -, hlast⟩ := hclean.1 _ _ hformat
  obtain ⟨component', hread', hfeed⟩ := hclean.2 {} _ rfl hsource
  have hsame : component' = component := Except.ok.inj (hread'.symm.trans hread)
  have honly : ¬ component.IsImportsOnly := hlast.mp (by simp [Text.isBlank])
  exact ⟨hformat, hsource, component, hread, honly,
    ((hsame ▸ hfeed).mpr honly).resolve_left (by decide)⟩

/-- **Imports alone end with an empty line.** -/
theorem format_imports_only :
    (format "zvelte" "\x7b% import A from \"b\" %\x7d").toOption =
        some "\x7b% import A from \"b\" %\x7d\n" ∧
      (formatSource {} "\x7b% import A from \"b\" %\x7d").toOption =
        some "\x7b% import A from \"b\" %\x7d\n\n" := by
  decide +kernel

end Component

end ComponentTemplate
