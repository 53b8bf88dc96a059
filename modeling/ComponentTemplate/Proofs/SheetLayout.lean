import Mathlib
import ComponentTemplate.Stylesheet.Printer

/-!
# One layout for stylesheets and blocks

The nodes of a stylesheet are separated, and those of a block are ended, each by a line feed. Both
put the same between any two neighbours, so a block is a stylesheet with a line feed after it.
-/

namespace ComponentTemplate

namespace StyleNode

/-- **What stands between two neighbours**: a line feed, and a blank line where one is wanted. -/
def separator (previous next : StyleNode) : Doc :=
  Doc.line ++ .onlyIf (previous.wantsBlankLine next) Doc.line

variable {previous next : StyleNode}

/-- A stylesheet goes on with the separator of its first two nodes. -/
theorem write_sheetDoc_cons (rest : List StyleNode) (w : Writer) :
    (sheetDoc (previous :: next :: rest)).write w =
      (previous.doc ++ separator previous next ++ sheetDoc (next :: rest)).write w := rfl

/-- **A stylesheet in two parts**, with the separator of the nodes where they meet. -/
theorem write_sheetDoc_append (before after : List StyleNode) (w : Writer) :
    (sheetDoc (before ++ previous :: next :: after)).write w =
      (sheetDoc (before ++ [previous]) ++ separator previous next ++
        sheetDoc (next :: after)).write w := by
  induction before generalizing w with
  | nil => exact write_sheetDoc_cons after w
  | cons first before ih =>
    cases before with
    | nil =>
      show (sheetDoc (first :: previous :: next :: after)).write w =
        (sheetDoc [first, previous] ++ _ ++ _ : Doc).write w
      rw [write_sheetDoc_cons]
      exact ih _
    | cons second before =>
      show (sheetDoc (first :: second :: (before ++ previous :: next :: after))).write w =
        (sheetDoc (first :: second :: (before ++ [previous])) ++ _ ++ _ : Doc).write w
      rw [write_sheetDoc_cons]
      exact ih _

theorem write_blockDoc (nodes : List StyleNode) (w : Writer) :
    (blockDoc nodes).write w = (sheetDoc nodes ++ .onlyIf (!nodes.isEmpty) Doc.line).write w := by
  induction nodes generalizing w with
  | nil => rw [blockDoc, sheetDoc]; rfl
  | cons first rest ih =>
    cases rest with
    | nil => rw [blockDoc]; rfl
    | cons second rest =>
      rw [blockDoc]
      exact ih _

/-- **Stylesheets and blocks have one layout.** Whatever has been written, and at whatever level, a
block leaves the output as the stylesheet of its nodes and a line feed do; and both put the same
between any two neighbours, which depends on these two alone. -/
theorem blockDoc_agrees :
    (∀ (nodes : List StyleNode) (w : Writer), (blockDoc nodes).write w =
      if nodes = [] then (sheetDoc nodes).write w else Doc.line.write ((sheetDoc nodes).write w)) ∧
    ∀ (before after : List StyleNode) (previous next : StyleNode) (w : Writer),
      (sheetDoc (before ++ previous :: next :: after)).write w =
        (sheetDoc (before ++ [previous]) ++ separator previous next ++
          sheetDoc (next :: after)).write w ∧
      (blockDoc (before ++ previous :: next :: after)).write w =
        (sheetDoc (before ++ [previous]) ++ separator previous next ++
          blockDoc (next :: after)).write w := by
  refine ⟨fun nodes w => ?_, fun before after previous next w =>
    ⟨write_sheetDoc_append before after w, ?_⟩⟩
  · rw [write_blockDoc]
    cases nodes <;> rfl
  · have hne : (before ++ previous :: next :: after).isEmpty = false := by simp
    rw [write_blockDoc, hne]
    show Doc.line.write ((sheetDoc _).write w) = (blockDoc (next :: after)).write _
    rw [write_sheetDoc_append, write_blockDoc]
    rfl

end StyleNode

end ComponentTemplate
