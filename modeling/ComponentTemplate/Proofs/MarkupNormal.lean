import ComponentTemplate.Proofs.Normal
import ComponentTemplate.Proofs.Reconciling
import ComponentTemplate.Proofs.Texts

/-!
# Normal forms of markup

Printing and reading keeps markup up to places, blanks between nodes, and the outcomes of waiting
that show nothing. The normal form of a node forgets these.
-/

namespace ComponentTemplate

open Node

open Text (Blank trim isBlankText)

def Node.isBlank : Node → Bool
  | .text _ data => isBlankText data.toList
  | _ => false

/-! ## Normal forms -/

def AttributePart.normal : AttributePart → AttributePart
  | .text data => .text data
  | .tag _ e => .tag default e.normal

def Attribute.normal : Attribute → Attribute
  | .plain _ name value doubleQuotes =>
    .plain default name (value.map (·.map AttributePart.normal)) doubleQuotes
  | .spread _ e => .spread default e.normal
  | .directive _ kind name modifiers e => .directive default kind name modifiers (e.map Expr.normal)

/-- An outcome of waiting and the name that it gives, unless there is nothing to show. -/
def keptOutcome (name : Option Expr) : Option (List Node) → Option Expr × Option (List Node)
  | some (n :: nodes) => (name, some (n :: nodes))
  | _ => (none, none)

/-- An awaiting block without its place. The outcome in the opening tag stays even if there is
nothing to show. -/
def Node.keptAwait (e : Expr) (value error : Option Expr) :
    (pending resolved rejected : Option (List Node)) → Node
  | some pending, resolved, rejected =>
    let resolved := keptOutcome value resolved
    let rejected := keptOutcome error rejected
    .awaitBlock default e resolved.1 rejected.1 (some pending) resolved.2 rejected.2
  | none, some resolved, rejected =>
    let rejected := keptOutcome error rejected
    .awaitBlock default e value rejected.1 none (some resolved) rejected.2
  | none, none, rejected => .awaitBlock default e value error none none rejected

mutual

/-- **The normal form of a node**, which forgets where it stands, the blanks around the texts and
comments in it, and the outcomes of waiting that show nothing. -/
def Node.normal : Node → Node
  | .text _ data => .text default (String.ofList (trim data.toList))
  | .comment _ data => .comment default (String.ofList (trim data.toList))
  | .element _ kind name attributes children =>
    .element default kind name (attributes.map Attribute.normal) (normals children)
  | .expressionTag _ e => .expressionTag default e.normal
  | .htmlTag _ e => .htmlTag default e.normal
  | .renderTag _ e => .renderTag default e.normal
  | .variableTag _ e => .variableTag default e.normal
  | .ifBlock _ isBranch test consequent alternate =>
    .ifBlock default isBranch test.normal (normals consequent)
      (match alternate with | none => none | some nodes => some (normals nodes))
  | .forBlock _ index name subject key body fallback =>
    .forBlock default (index.map Expr.normal) name.normal subject.normal (key.map Expr.normal)
      (normals body)
      (match fallback with | none => none | some nodes => some (normals nodes))
  | .keyBlock _ e body => .keyBlock default e.normal (normals body)
  | .snippetBlock _ name params body =>
    .snippetBlock default name (Expr.normals params) (normals body)
  | .awaitBlock _ e value error pending resolved rejected =>
    .keptAwait e.normal (value.map Expr.normal) (error.map Expr.normal)
      (match pending with | none => none | some nodes => some (normals nodes))
      (match resolved with | none => none | some nodes => some (normals nodes))
      (match rejected with | none => none | some nodes => some (normals nodes))

/-- **The normal form of a sequence of nodes**, without the texts of blanks only. -/
def Node.normals : List Node → List Node
  | [] => []
  | node :: rest => if node.isBlank then normals rest else node.normal :: normals rest

end

/-! ## Plain nodes -/

mutual

/-- **Plain nodes**: at every depth, no text ends with an opening brace, no element has raw text
or attributes, and all expressions are plain. -/
def Node.Plain (breaks : Breaks) : Node → Prop
  | .text _ data => (trim data.toList).getLast? ≠ some '\x7b'
  | .comment .. => True
  | .element _ _ name attributes children =>
    name ∉ rawElements ∧ attributes = [] ∧ AllPlain breaks children
  | .expressionTag _ e | .htmlTag _ e | .renderTag _ e | .variableTag _ e => e.Plain breaks
  | .ifBlock _ _ test consequent alternate =>
    test.Plain breaks ∧ AllPlain breaks consequent ∧
      (match alternate with | none => True | some nodes => AllPlain breaks nodes)
  | .forBlock _ _ _ subject key body fallback =>
    subject.Plain breaks ∧ (∀ e ∈ key, e.Plain breaks) ∧ AllPlain breaks body ∧
      (match fallback with | none => True | some nodes => AllPlain breaks nodes)
  | .keyBlock _ e body => e.Plain breaks ∧ AllPlain breaks body
  | .snippetBlock _ _ _ body => AllPlain breaks body
  | .awaitBlock _ e _ _ pending resolved rejected =>
    e.Plain breaks ∧
      (match pending with | none => True | some nodes => AllPlain breaks nodes) ∧
      (match resolved with | none => True | some nodes => AllPlain breaks nodes) ∧
      (match rejected with | none => True | some nodes => AllPlain breaks nodes)

def Node.AllPlain (breaks : Breaks) : List Node → Prop
  | [] => True
  | node :: rest => node.Plain breaks ∧ AllPlain breaks rest

end

lemma Node.allPlain_iff : AllPlain breaks nodes ↔ ∀ n ∈ nodes, n.Plain breaks := by
  induction nodes with
  | nil => simp [AllPlain]
  | cons n nodes ih => simp [AllPlain, ih]

/-! ## Nodes that are printed alike -/

def Node.sibling (p : Printing) : Node → Sibling Doc
  | .text _ data => .text data.toList
  | node => .node (node.doc p)

lemma Node.siblings_eq_map (p : Printing) (nodes : List Node) :
    siblings p nodes = nodes.map (sibling p) := by
  induction nodes with
  | nil => rw [siblings, List.map_nil]
  | cons n nodes ih => cases n <;> simp [siblings, sibling, ih]

lemma Node.sibling_of_not_isText {n : Node} (p : Printing) (h : n.isText = false) :
    n.sibling p = .node (n.doc p) := by
  cases n
  case text => cases h
  all_goals rfl

@[simp]
lemma Node.isBlank_sibling (p : Printing) (n : Node) : (n.sibling p).isBlank = n.isBlank := by
  cases n <;> rfl

lemma Node.isText_of_isBlank {n : Node} (h : n.isBlank = true) : n.isText = true := by
  cases n
  case text => rfl
  all_goals cases h

lemma Node.all_isBlank_siblings (p : Printing) (nodes : List Node) :
    (siblings p nodes).all Sibling.isBlank = nodes.all isBlank := by
  simp [siblings_eq_map, List.all_map, Function.comp_def]

lemma Node.normals_eq (nodes : List Node) :
    normals nodes = (nodes.filter (!·.isBlank)).map normal := by
  induction nodes with
  | nil => simp [normals]
  | cons n nodes ih =>
    rw [normals, List.filter_cons, ih]
    cases n.isBlank <;> simp

lemma Node.isEmpty_normals (nodes : List Node) :
    (normals nodes).isEmpty = nodes.all isBlank := by
  rw [normals_eq, Bool.eq_iff_iff]
  simp

lemma Sibling.isEmpty_reconcile {α : Type} (siblings : List (Sibling α)) :
    (Sibling.reconcile false siblings).isEmpty = siblings.all Sibling.isBlank := by
  rw [Bool.eq_iff_iff, List.isEmpty_iff, reconcile_eq_nil_iff, List.all_eq_true]

lemma Node.isEmptyFragment_eq (p : Printing) (nodes : List Node) :
    Sibling.isEmptyFragment (siblings p nodes) = (normals nodes).isEmpty := by
  rw [Sibling.isEmptyFragment, Sibling.isEmpty_reconcile, all_isBlank_siblings, isEmpty_normals]

/-- **A node is printed as another one**, and differs from it only in what the normal form
forgets. -/
structure Node.Reprints (p p' : Printing) (n n' : Node) : Prop where
  normal : n'.normal = n.normal
  write : ∀ w, (n'.doc p').write w = (n.doc p).write w

/-- **The content of an element or a block is printed as another one**, and differs from it only
in what the normal form forgets. -/
structure Node.ReprintsAll (p p' : Printing) (nodes nodes' : List Node) : Prop where
  normals : normals nodes' = normals nodes
  write : ∀ w, (Doc.fragment (siblings p' nodes')).write w =
    (Doc.fragment (siblings p nodes)).write w

lemma Node.ReprintsAll.isEmptyFragment_eq (h : ReprintsAll p p' nodes nodes') :
    Sibling.isEmptyFragment (siblings p' nodes') =
      Sibling.isEmptyFragment (Node.siblings p nodes) := by
  rw [Node.isEmptyFragment_eq, Node.isEmptyFragment_eq, h.normals]

end ComponentTemplate
