import ComponentTemplate.Expr.Printer
import ComponentTemplate.Proofs.WholeNumber

/-!
# Plain expressions

Three shapes of expressions are printed as a text that means something else: numbers that are
not short whole numbers, calls of a filter without arguments, and type tests whose right
operand starts with the word of a negation. An expression is plain if it has none of them at
any depth.
-/

namespace ComponentTemplate

def beginsWithWord (word : String) (cs : List Char) : Bool :=
  word.toList.isPrefixOf cs && !(cs.drop word.toList.length).head?.any isWordChar

namespace Expr

/-- **The text of an expression in a slot**, with the parentheses that it needs there. -/
def textIn (breaks : Breaks) (slot : Slot) (e : Expr) : List Char :=
  ((Doc.parens slot e (e.doc breaks)).render "").toList

def isBareFilter : Expr → Bool
  | filter _ _ _ [] => true
  | _ => false

/-- **An expression is none of the three shapes** that are not read back: a number that is no
short whole number, a call of a filter without arguments, and a type test before the word
`not`. -/
def KeepsShape (breaks : Breaks) : Expr → Prop
  | number _ value _ => value.isShortWhole = true
  | call _ callee _ optional => optional = false → callee.isBareFilter = false
  | binary _ op _ right =>
    op = .is false → beginsWithWord "not" (right.textIn breaks (.right op)) = false
  | _ => True

/-- **Plain expressions**: all parts keep their shape. -/
def Plain (breaks : Breaks) (e : Expr) : Prop := ∀ part ∈ e.outline, part.expr.KeepsShape breaks

def children : Expr → List Expr
  | identifier .. | string .. | number .. | boolean .. | null _ => []
  | unary _ _ argument | update _ _ _ argument => [argument]
  | binary _ _ left right => [left, right]
  | conditional _ test consequent alternate => [test, consequent, alternate]
  | member _ head property _ _ => [head, property]
  | call _ callee arguments _ => callee :: arguments
  | filter _ subject _ arguments => subject :: arguments
  | arrow _ params body => params ++ [body]
  | assignment _ _ target value => [target, value]
  | array _ elements => elements
  | object _ properties => properties.flatMap fun p => [p.key, p.value]

lemma mem_inSlot {e : Expr} {slot : Slot} {P : Expr → Prop} :
    (∀ part ∈ e.inSlot slot e.parts, P part.expr) ↔ ∀ part ∈ e.outline, P part.expr := by
  simp [outline, inSlot]

lemma forall_mem_partsList {es : List Expr} {P : Expr → Prop} :
    (∀ part ∈ Expr.partsList es, P part.expr) ↔ ∀ e ∈ es, ∀ part ∈ e.outline, P part.expr := by
  induction es with
  | nil => simp [partsList]
  | cons e es ih => simp [partsList, or_imp, forall_and, ih, mem_inSlot]

lemma forall_mem_propertyPartsList {ps : List Property} {P : Expr → Prop} :
    (∀ part ∈ Property.partsList ps, P part.expr) ↔
      ∀ e ∈ ps.flatMap (fun p => [p.key, p.value]), ∀ part ∈ e.outline, P part.expr := by
  induction ps with
  | nil => simp [Property.partsList]
  | cons p ps ih =>
    obtain ⟨key, value⟩ := p
    simp [Property.partsList, or_imp, forall_and, ih, mem_inSlot, Property.key, Property.value]

lemma forall_mem_parts {e : Expr} {P : Expr → Prop} :
    (∀ part ∈ e.parts, P part.expr) ↔ ∀ child ∈ e.children, ∀ part ∈ child.outline, P part.expr := by
  cases e <;>
    simp only [parts, children, List.mem_append, or_imp, forall_and, mem_inSlot, List.mem_cons,
      List.not_mem_nil, or_false, forall_eq, forall_mem_partsList, forall_mem_propertyPartsList,
      false_imp_iff, implies_true, and_assoc]

lemma sizeOf_lt_of_mem_children {e child : Expr} (h : child ∈ e.children) :
    sizeOf child < sizeOf e := by
  have hlist {es : List Expr} (hmem : child ∈ es) := List.sizeOf_lt_of_mem hmem
  cases e with
  | object _ properties =>
    obtain ⟨⟨key, value⟩, hmem, hchild⟩ := List.mem_flatMap.mp h
    have hproperty := List.sizeOf_lt_of_mem hmem
    simp only [Property.key, Property.value, List.mem_cons, List.not_mem_nil, or_false] at hchild
    simp only [Property.mk.sizeOf_spec, object.sizeOf_spec] at hproperty ⊢
    rcases hchild with rfl | rfl <;> omega
  | _ => simp only [children] at h; grind

/-- **A property that passes to the children** of an expression passes to its parts at every
depth. -/
theorem forall_mem_outline {P : Expr → Prop} (hchild : ∀ e, P e → ∀ child ∈ e.children, P child)
    (e : Expr) (he : P e) : ∀ part ∈ e.outline, P part.expr := by
  have hparts : ∀ part ∈ e.parts, P part.expr := by
    refine forall_mem_parts.mpr fun child hmem => ?_
    have := sizeOf_lt_of_mem_children hmem
    exact forall_mem_outline hchild child (hchild e he child hmem)
  simpa [outline, inSlot] using ⟨he, hparts⟩
termination_by sizeOf e

lemma forall_mem_outline_iff {e : Expr} {P : Expr → Prop} : (∀ part ∈ e.outline, P part.expr) ↔
    P e ∧ ∀ child ∈ e.children, ∀ part ∈ child.outline, P part.expr := by
  rw [← forall_mem_parts]
  simp [outline, inSlot]

/-- **An expression is plain** if it keeps its shape and its parts are plain. -/
theorem plain_iff {breaks : Breaks} {e : Expr} :
    e.Plain breaks ↔ e.KeepsShape breaks ∧ ∀ child ∈ e.children, child.Plain breaks :=
  forall_mem_outline_iff

lemma Plain.child {breaks : Breaks} {e child : Expr} (h : e.Plain breaks)
    (hchild : child ∈ e.children) : child.Plain breaks :=
  (plain_iff.mp h).2 child hchild

end Expr

end ComponentTemplate
