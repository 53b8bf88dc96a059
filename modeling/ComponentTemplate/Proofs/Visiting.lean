import ComponentTemplate.Proofs.Blocks
import ComponentTemplate.Proofs.TopLevel
import ComponentTemplate.Proofs.Visitor

/-!
# Visits are balanced

The steps of every kind of subject are those that write its document. So they never fail, and leave
the level and the path as they were, whatever the conditions are behind which they indent and
dedent. A visitor of a component comes out at the left margin and outside of everything, with the
text of its document.
-/

namespace ComponentTemplate

open List

namespace Render

/-- **The steps that write a document.** -/
def write : Doc → Render
  | .empty => pure ()
  | .text text => add text
  | .append a b => do write a; write b
  | .nest doc => do indent; write doc; dedent

variable {a b : Doc}

/-- **Writing does not fail**, and leaves the level and the path as they were. -/
theorem write_apply (doc : Doc) (v : Visitor) :
    write doc v = some ((), { v with writer := doc.write v.writer }) := by
  induction doc generalizing v with
  | empty => rfl
  | text text => rfl
  | append a b iha ihb =>
    show (write a v).bind (fun r => write b r.2) = _
    rw [iha, Option.bind_some, ihb]
    rfl
  | nest doc ih =>
    show (write doc { v with writer := v.writer.indent }).bind (fun r => dedent r.2) = _
    rw [ih, Option.bind_some, dedent, step, Writer.step?, Writer.dedent?, Doc.level_write]
    rfl

lemma write_congr (h : a.write = b.write) : write a = write b := by
  funext v
  rw [write_apply, write_apply, h]

/-! Steps that write are collected into one document. -/

@[simp]
lemma pure_eq_write : (pure () : Render) = write .empty := rfl

@[simp]
lemma add_eq_write (text : String) : add text = write text := rfl

@[simp]
lemma nl_eq_write : nl = write .line := rfl

@[simp]
lemma write_bind_write : (do write a; write b) = write (a ++ b) := rfl

@[simp]
lemma write_bind_bind (m : Render) : (do write a; write b; m) = (do write (a ++ b); m) := by
  rw [← write_bind_write, bind_assoc]

@[simp]
lemma indent_write_dedent : (do indent; write a; dedent) = write (.nest a) := rfl

@[simp]
lemma indent_write_dedent_write : (do indent; write a; dedent; write b) = write (.nest a ++ b) := by
  rw [← write_bind_write, ← indent_write_dedent, bind_assoc, bind_assoc]

@[simp]
lemma visit_write (subject : Subject) (doc : Doc) : visit subject (write doc) = write doc := by
  funext v
  show (write doc { v with path := subject :: v.path }).bind (fun r => leave r.2) = _
  rw [write_apply, write_apply]
  rfl

@[simp]
lemma onlyIf_write (condition : Bool) (doc : Doc) :
    onlyIf condition (write doc) = write (.onlyIf condition doc) := by
  cases condition <;> rfl

@[simp]
lemma each_write (docs : List Doc) : each (docs.map write) = write (.concat docs) := by
  induction docs with
  | nil => rfl
  | cons doc docs ih => rw [map_cons, each, ih, write_bind_write]; rfl

@[simp]
lemma commaSeparated_write (docs : List Doc) :
    commaSeparated (docs.map write) = write (.commas docs) := by
  induction docs with
  | nil => rfl
  | cons doc docs ih =>
    cases docs with
    | nil => rfl
    | cons next docs =>
      rw [map_cons, map_cons, commaSeparated, ← map_cons, ih] <;> simp
      rfl

lemma each_map_eq {α : Type} {f : α → Render} {g : α → Doc} (h : ∀ x, f x = write (g x))
    (xs : List α) : each (xs.map f) = write (.concat (xs.map g)) := by
  rw [← each_write, map_map]
  exact congrArg each (map_congr_left fun x _ => h x)

/-! ## Expressions -/

@[simp]
lemma expression_write (slot : Slot) (e : Expr) (doc : Doc) :
    expression slot e (write doc) = write (.parens slot e doc) := by
  unfold expression Doc.parens
  cases needsParens slot e <;> simp [Doc.onlyIf] <;> exact write_congr rfl

@[simp]
lemma visitExpr_write (slot : Slot) (e : Expr) (doc : Doc) :
    visitExpr slot e (write doc) = write (.parens slot e doc) := by
  simp [visitExpr]

@[simp]
lemma parens_enclosed (e : Expr) (doc : Doc) : Doc.parens .enclosed e doc = doc := rfl

lemma choice_write (multiline : Bool) (test consequent alternate : Doc) :
    choice multiline (write test) (write consequent) (write alternate) =
      write (.choice multiline test consequent alternate) := by
  cases multiline <;> simp [choice, Render.onlyIf] <;> exact write_congr rfl

lemma collection_write (opening closing : String) (padded multiline : Bool) (docs : List Doc) :
    collection opening closing padded multiline (docs.map write) =
      write (.collection opening closing (.onlyIf padded " ") multiline docs) := by
  have hentries : each ((docs.map write).map fun entry => do nl; entry; add ",") =
      write (.concat (docs.map fun entry => Doc.line ++ entry ++ ",")) := by
    rw [map_map]
    exact each_map_eq (fun entry => by simp; exact write_congr rfl) docs
  unfold collection Doc.collection
  rw [hentries, isEmpty_map]
  split
  · simp
  · split <;> simp <;> exact write_congr rfl

@[simp]
lemma property_write (e value : Expr) (keyDoc valueDoc : Doc) :
    property e value (write keyDoc) (write valueDoc) =
      write ((e.bareKey?.map Doc.text).getD keyDoc ++ ": " ++ valueDoc) := by
  unfold property key
  split <;> rename_i heq <;> simp [heq] <;> exact write_congr rfl

end Render

open Render

mutual

theorem Expr.render_eq (breaks : Breaks) (e : Expr) : e.render breaks = write (e.doc breaks) := by
  cases e with
  | identifier | string | number | null => rfl
  | boolean span value => cases value <;> rfl
  | unary span op argument =>
    simp [Expr.render, argument.render_eq breaks]
    exact write_congr rfl
  | binary span op left right =>
    simp [Expr.render, Expr.doc, left.render_eq breaks, right.render_eq breaks]
    exact write_congr rfl
  | conditional span test consequent alternate =>
    simp [Expr.render, test.render_eq breaks, consequent.render_eq breaks,
      alternate.render_eq breaks, choice_write]
    rfl
  | member span object property computed optional =>
    simp [Expr.render, object.render_eq breaks, property.render_eq breaks]
    exact write_congr (by cases computed <;> cases optional <;> rfl)
  | call span callee arguments optional =>
    simp [Expr.render, callee.render_eq breaks, Expr.visits_eq breaks arguments]
    exact write_congr rfl
  | filter span subject name arguments =>
    simp [Expr.render, subject.render_eq breaks, Expr.visits_eq breaks arguments]
    exact write_congr (by cases arguments <;> rfl)
  | arrow span params body =>
    simp [Expr.render, body.render_eq breaks, Expr.visits_eq breaks params]
    exact write_congr rfl
  | assignment span op target value =>
    simp [Expr.render, target.render_eq breaks, value.render_eq breaks]
    exact write_congr rfl
  | update span op leading argument =>
    simp [Expr.render, argument.render_eq breaks]
    exact write_congr (by cases leading <;> rfl)
  | array span elements =>
    rw [Expr.render, Expr.visits_eq breaks elements, collection_write]
    rfl
  | object span properties =>
    rw [Expr.render, Property.visits_eq breaks properties, collection_write]
    rfl

theorem Expr.visits_eq (breaks : Breaks) (es : List Expr) :
    Expr.visits breaks es = (Expr.docs breaks es).map write := by
  cases es with
  | nil => rfl
  | cons e es => simp [Expr.visits, Expr.docs, e.render_eq breaks, Expr.visits_eq breaks es]

theorem Property.visits_eq (breaks : Breaks) (ps : List Property) :
    Property.visits breaks ps = (Property.docs breaks ps).map write := by
  cases ps with
  | nil => rfl
  | cons property ps =>
    obtain ⟨key, value⟩ := property
    simp [Property.visits, Property.docs, key.render_eq breaks, value.render_eq breaks,
      Property.visits_eq breaks ps]

end

/-! ## Statements -/

mutual

theorem Statement.render_eq (breaks : Breaks) (s : Statement) :
    s.render breaks = write (s.doc breaks) := by
  cases s with
  | expression span e => simp [Statement.render, Statement.doc, e.render_eq breaks]
  | block span body =>
    simp [Statement.render, Statement.renderLines_eq breaks body]
    exact write_congr rfl

theorem Statement.renderLines_eq (breaks : Breaks) (body : List Statement) :
    Statement.renderLines breaks body = write (Statement.linesDoc breaks body) := by
  cases body with
  | nil => rfl
  | cons s body =>
    simp [Statement.renderLines, s.render_eq breaks, Statement.renderLines_eq breaks body]
    exact write_congr rfl

end

/-! ## Stylesheets -/

lemma Render.selectors_eq (selectors : List String) :
    Render.selectors selectors = write (selectorsDoc selectors) := by
  induction selectors with
  | nil => rfl
  | cons selector rest ih =>
    cases rest with
    | nil => rfl
    | cons next rest =>
      simp [Render.selectors, ih]
      exact write_congr rfl

lemma Render.styleBlock_write (nodes : Doc) :
    Render.styleBlock (write nodes) = write (.styleBlock nodes) := by
  simp [Render.styleBlock]
  exact write_congr rfl

mutual

theorem StyleNode.render_eq (n : StyleNode) : n.render = write n.doc := by
  cases n with
  | rule selectors nodes =>
    simp [StyleNode.render, StyleNode.doc, selectors_eq, StyleNode.renderBlock_eq nodes,
      styleBlock_write]
  | declaration property value important =>
    simp [StyleNode.render]
    exact write_congr rfl
  | atRule name params nodes =>
    cases nodes with
    | none =>
      simp [StyleNode.render, StyleNode.doc]
      exact write_congr rfl
    | some nodes =>
      simp [StyleNode.render, StyleNode.doc, StyleNode.renderBlock_eq nodes, styleBlock_write]
      exact write_congr rfl
  | comment text inline =>
    simp [StyleNode.render]
    exact write_congr (by cases inline <;> rfl)

theorem StyleNode.renderBlock_eq (nodes : List StyleNode) :
    StyleNode.renderBlock nodes = write (StyleNode.blockDoc nodes) := by
  cases nodes with
  | nil => rfl
  | cons n nodes =>
    cases nodes with
    | nil => simp [StyleNode.renderBlock, StyleNode.blockDoc, n.render_eq]
    | cons next rest =>
      simp [StyleNode.renderBlock, n.render_eq, StyleNode.renderBlock_eq (next :: rest)]
      exact write_congr rfl

end

lemma StyleNode.renderAfter_eq (previous : StyleNode) (nodes : List StyleNode) :
    previous.renderAfter nodes = write (previous.sheetDocAfter nodes) := by
  induction nodes generalizing previous with
  | nil => rfl
  | cons n nodes ih =>
    simp [StyleNode.renderAfter, n.render_eq, ih]
    exact write_congr rfl

lemma StyleNode.renderSheet_eq (nodes : List StyleNode) :
    StyleNode.renderSheet nodes = write (StyleNode.sheetDoc nodes) := by
  cases nodes with
  | nil => rfl
  | cons n nodes => simp [StyleNode.renderSheet, StyleNode.sheetDoc, n.render_eq, n.renderAfter_eq]

/-! ## Attributes -/

section Attributes

variable (breaks : Breaks)

lemma Render.expressionTag_eq (start : Nat) (e : Expr) :
    Render.expressionTag breaks start e = write (tagDoc breaks start e) := by
  unfold Render.expressionTag tagDoc
  cases breaks 1 (start + 2) e.span.start <;> simp [e.render_eq breaks] <;>
    exact write_congr rfl

lemma Render.tag_eq (opening : String) (e : Expr) (closing : String) :
    tag breaks opening e closing = write (opening ++ e.doc breaks ++ closing) := by
  simp [tag, e.render_eq breaks]
  exact write_congr rfl

lemma Render.attributePart_eq (part : AttributePart) :
    Render.attributePart breaks part = write (part.doc breaks) := by
  cases part with
  | text data => rfl
  | tag span e => exact expressionTag_eq breaks span.start e

lemma Render.plainAttribute_eq (name : String) (doubleQuotes : Bool)
    (value : Option (List AttributePart)) :
    plainAttribute breaks name doubleQuotes value =
      write (plainDoc breaks name value doubleQuotes) := by
  cases value with
  | none => rfl
  | some parts =>
    unfold plainAttribute plainDoc
    dsimp only
    rw [each_map_eq (attributePart_eq breaks) parts]
    split <;> simp <;> exact write_congr rfl

lemma Render.directive_eq (kind : DirectiveKind) (name : String) (modifiers : List String)
    (value : Option Expr) :
    Render.directive breaks kind name modifiers value =
      write (directiveDoc breaks kind name modifiers value) := by
  have hmodifiers : each (modifiers.map fun modifier => do add "|"; add modifier) = write _ :=
    each_map_eq (fun modifier => write_bind_write (a := "|") (b := .text modifier)) modifiers
  unfold Render.directive directiveDoc
  rw [hmodifiers]
  cases value with
  | none => simp; exact write_congr rfl
  | some e =>
    have he := tag_eq breaks "=\x7b\x7b " e " \x7d\x7d"
    rw [tag] at he
    dsimp only
    rw [he]
    simp
    exact write_congr rfl

lemma Attribute.render_eq (a : Attribute) : a.render breaks = write (a.doc breaks) := by
  cases a with
  | plain span name value doubleQuotes => exact plainAttribute_eq breaks name doubleQuotes value
  | spread span e =>
    simp [Attribute.render, e.render_eq breaks]
    exact write_congr rfl
  | directive span kind name modifiers value => exact directive_eq breaks kind name modifiers value

lemma Render.attributeList_eq (wrap : Bool) (previous : Option Attribute)
    (found : List Attribute) :
    attributeList breaks wrap previous found =
      write (if wrap then wrappedAttributes breaks previous found
        else .concat (found.map fun a => " " ++ a.doc breaks)) := by
  induction found generalizing previous with
  | nil => cases wrap <;> rfl
  | cons current rest ih =>
    simp [attributeList, visitAttribute, current.render_eq breaks, ih]
    exact write_congr (by cases wrap <;> rfl)

lemma Render.attributes_eq (start : Nat) (name : String) (found : List Attribute) :
    Render.attributes breaks start name found = write (attributesDoc breaks start name found) := by
  unfold Render.attributes attributesDoc
  dsimp only
  rw [attributeList_eq]
  cases wrapsAttributes breaks start name found with
  | false => simp [Render.onlyIf]; exact write_congr rfl
  | true => simp [Render.onlyIf]

end Attributes

/-! ## Siblings -/

section Siblings

variable {α β : Type}

def Sibling.map (f : α → β) : Sibling α → Sibling β
  | text data => .text data
  | node value => .node (f value)

def Padded.map (f : α → β) : Padded α → Padded β
  | text leading data trailing => .text leading data trailing
  | node value => .node (f value)

namespace Sibling

variable (f : α → β)

lemma isBlank_comp_map : isBlank ∘ Sibling.map f = isBlank := by
  funext x
  cases x <;> rfl

lemma padFrom_map (trim first : Bool) (xs : List (Sibling α)) :
    padFrom trim first (xs.map (Sibling.map f)) = (padFrom trim first xs).map (Padded.map f) := by
  induction xs generalizing first with
  | nil => rfl
  | cons x xs ih =>
    rw [map_cons, padFrom, ih, isEmpty_map]
    cases x <;> rfl

lemma reconcile_map (trim : Bool) (xs : List (Sibling α)) :
    reconcile trim (xs.map (Sibling.map f)) = (reconcile trim xs).map (Padded.map f) := by
  have hends : dropBlankEnds (xs.map (Sibling.map f)) = (dropBlankEnds xs).map (Sibling.map f) := by
    simp [dropBlankEnds, dropWhile_map, isBlank_comp_map, ← map_reverse]
  unfold reconcile
  rw [all_map, isBlank_comp_map]
  split
  · rfl
  · cases trim with
    | false => exact padFrom_map f false true xs
    | true => rw [if_pos rfl, hends, padFrom_map]; rfl

lemma isEmptyFragment_map (xs : List (Sibling α)) :
    isEmptyFragment (xs.map (Sibling.map f)) = isEmptyFragment xs := by
  rw [isEmptyFragment, reconcile_map, isEmpty_map]
  rfl

end Sibling

end Siblings

lemma Render.text_eq (leading : Padding) (data : List Char) (trailing : Padding) :
    Render.text leading data trailing = write (Padded.doc (.text leading data trailing)) := by
  simp [Render.text]
  exact write_congr rfl

lemma Render.each_padded (siblings : List (Padded Doc)) :
    each ((siblings.map (Padded.map write)).map padded) = write (.siblings siblings) := by
  rw [map_map]
  refine each_map_eq (fun x => ?_) siblings
  cases x with
  | text leading data trailing => simp [Padded.map, padded, text_eq]
  | node doc => rfl

lemma Render.fragment_write (siblings : List (Sibling Doc)) :
    fragment (siblings.map (Sibling.map write)) = write (.fragment siblings) := by
  unfold fragment Doc.fragment
  dsimp only
  rw [Sibling.reconcile_map, each_padded, isEmpty_map]
  split
  · rename_i hempty
    rw [isEmpty_iff.mp hempty]
    exact write_congr (a := .empty) rfl
  · simp

lemma Render.visitFragment_write (nodes : List Node)
    (h : visits = siblings.map (Sibling.map write)) :
    visitFragment nodes visits = write (.fragment siblings) := by
  rw [visitFragment, h, fragment_write, visit_write]

lemma Render.scriptBody_eq (script : String → String) (code : String) :
    scriptBody script code = write (scriptDoc script code) := by
  have hlines : each ((Text.lines (script code).toList).map
      fun line => do add (String.ofList line); nl) =
      write (.concat ((Text.lines (script code).toList).map
        fun line => .text (String.ofList line) ++ Doc.line)) :=
    each_map_eq (g := fun line => .text (String.ofList line) ++ Doc.line) (fun _ => rfl) _
  unfold scriptBody scriptDoc
  rw [hlines]
  cases Text.isBlankText code.toList <;> simp [Doc.onlyIf]

lemma Render.content_write (p : Printing) (code : Option String) (nodes : List Node)
    (siblings : List (Sibling Doc)) :
    content p code nodes (siblings.map (Sibling.map write)) =
      write ((code.map (scriptDoc p.script)).getD (.fragment siblings)) := by
  cases code with
  | none => exact visitFragment_write nodes rfl
  | some code => exact scriptBody_eq p.script code

lemma Render.element_write (p : Printing) (start : Nat) (kind : ElementKind) (name : String)
    (found : List Attribute) (nodes : List Node) (h : visits = siblings.map (Sibling.map write)) :
    element p start kind name found nodes visits =
      write (elementDoc p start kind name found (scriptCode? name nodes) siblings) := by
  subst h
  cases kind
  case regular =>
    simp only [element, regularElement, attributes_eq, content_write, elementDoc]
    split <;> simp <;> exact write_congr rfl
  case title =>
    simp [element, titleElement, attributes_eq, visitFragment_write _ rfl]
    exact write_congr rfl
  all_goals
    simp only [element, elementLike, attributes_eq, fragment_write, elementDoc,
      Sibling.isEmptyFragment_map]
    split <;> simp <;> exact write_congr rfl

/-! ## Nodes -/

section Blocks

variable (breaks : Breaks)

lemma Render.outcomeHead_eq (word : String) (name : Option Expr) :
    outcomeHead breaks word name = write (outcomeTag breaks word name) := by
  unfold outcomeHead outcomeTag
  cases name with
  | none => simp [binding]; exact write_congr rfl
  | some e => simp [binding, e.render_eq breaks]; exact write_congr rfl

lemma Render.loopHead_eq (index : Option Expr) (name subject : Expr) (key : Option Expr) :
    loopHead breaks index name subject key = write (loopTag breaks index name subject key) := by
  unfold loopHead loopTag
  cases index <;> cases key <;> simp [Expr.render_eq] <;> exact write_congr rfl

def Render.contents (found : Option (List Node × List (Sibling Doc))) :
    Option (List Node × List (Sibling Render)) :=
  found.map fun content => (content.1, content.2.map (Sibling.map write))

lemma Render.outcome_contents (word : String) (name : Option Expr)
    (found : Option (List Node × List (Sibling Doc))) :
    outcome breaks word name (contents found) =
      write (outcomeDoc breaks word name (found.map Prod.snd)) := by
  cases found with
  | none => rfl
  | some found =>
    simp [contents, outcome, Sibling.isEmptyFragment_map, outcomeHead_eq, visitFragment_write _ rfl]
    rfl

lemma Render.awaitBlock_contents (e : Expr) (value error : Option Expr)
    (pending resolved rejected : Option (List Node × List (Sibling Doc))) :
    awaitBlock breaks e (outcomes breaks value error (contents pending) (contents resolved)
        (contents rejected)) =
      write (awaitDoc breaks e value error (pending.map Prod.snd) (resolved.map Prod.snd)
        (rejected.map Prod.snd)) := by
  -- the first outcome that there is decides on the form of the block
  cases pending with
  | some pending =>
    rw [contents, Option.map_some, outcomes, outcome_contents, outcome_contents]
    simp [awaitBlock, e.render_eq breaks, visitFragment_write _ rfl]
    exact write_congr rfl
  | none =>
    cases resolved with
    | some resolved =>
      rw [contents, contents, Option.map_some, Option.map_none, outcomes, outcome_contents]
      simp [awaitBlock, e.render_eq breaks, visitFragment_write _ rfl, outcomeHead_eq]
      exact write_congr rfl
    | none =>
      cases rejected <;>
        simp [contents, outcomes, awaitBlock, e.render_eq breaks, visitFragment_write _ rfl,
          outcomeHead_eq] <;>
        exact write_congr rfl

section Bodies

variable {breaks} {body rest : Render} {a b : Doc}

lemma Render.elseBranch_write (h : body = write a) :
    elseBranch body = write ("\x7b% else %\x7d" ++ a) :=
  h ▸ rfl

lemma Render.ifBlock_write (isBranch : Bool) (test : Expr) (hbody : body = write a)
    (hrest : rest = write b) :
    ifBlock breaks isBranch test body rest =
      write (.text (if isBranch then "\x7b% elseif " else "\x7b% if ") ++ test.doc breaks ++
        " %\x7d" ++ a ++ b ++ .onlyIf (!isBranch) "\x7b% endif %\x7d") := by
  simp [ifBlock, tag_eq, hbody, hrest]
  exact write_congr rfl

lemma Render.forBlock_write (index : Option Expr) (name subject : Expr) (key : Option Expr)
    (hbody : body = write a) (hrest : rest = write b) :
    forBlock breaks index name subject key body rest =
      write (loopTag breaks index name subject key ++ a ++ b ++ "\x7b% endfor %\x7d") := by
  simp [forBlock, loopHead_eq, hbody, hrest]
  exact write_congr rfl

lemma Render.keyBlock_write (e : Expr) (h : body = write a) :
    keyBlock breaks e body =
      write ("\x7b% key " ++ e.doc breaks ++ " %\x7d" ++ a ++ "\x7b% endkey %\x7d") := by
  simp [keyBlock, tag_eq, h]
  exact write_congr rfl

lemma Render.snippetBlock_write (name : String) (params : List Expr) (h : body = write a) :
    snippetBlock breaks name params body =
      write (.text ("\x7b% snippet " ++ name ++ "(") ++ .commas (Expr.docs breaks params) ++
        ") %\x7d" ++ a ++ "\x7b% endsnippet %\x7d") := by
  simp [snippetBlock, Expr.visits_eq, h]
  exact write_congr rfl

end Bodies

end Blocks

lemma Node.render_awaitBlock {p : Printing} {span : Span} {e : Expr} {value error : Option Expr}
    {pending resolved rejected : Option (List Node)} :
    (Node.awaitBlock span e value error pending resolved rejected).render p =
      Render.awaitBlock p.breaks e (outcomes p.breaks value error
        (pending.map fun nodes => (nodes, Node.visits p nodes))
        (resolved.map fun nodes => (nodes, Node.visits p nodes))
        (rejected.map fun nodes => (nodes, Node.visits p nodes))) := by
  cases pending <;> cases resolved <;> cases rejected <;> rfl

mutual

theorem Node.render_eq (p : Printing) (n : Node) : n.render p = write (n.doc p) := by
  cases n with
  | text span data => exact add_eq_write data
  | comment span data => exact add_eq_write _
  | element span kind name attributes children =>
    exact element_write p span.start kind name attributes children (Node.visits_eq p children)
  | expressionTag span e => exact expressionTag_eq p.breaks span.start e
  | htmlTag span e | renderTag span e | variableTag span e => exact tag_eq p.breaks _ e _
  | ifBlock span isBranch test consequent alternate =>
    have hconsequent := visitFragment_write consequent (Node.visits_eq p consequent)
    cases alternate with
    | none => exact ifBlock_write isBranch test hconsequent pure_eq_write
    | some nodes =>
      have hbranch := Node.visitAll_eq p nodes
      have helse := elseBranch_write (visitFragment_write nodes (Node.visits_eq p nodes))
      have hrest : (if isSingleBranch nodes then Node.visitAll p nodes
          else Render.elseBranch (visitFragment nodes (Node.visits p nodes))) =
          write (if isSingleBranch nodes then Node.plainDocs p nodes
            else "\x7b% else %\x7d" ++ .fragment (Node.siblings p nodes)) := by
        rw [hbranch, helse, apply_ite write]
      exact ifBlock_write isBranch test hconsequent hrest
  | forBlock span index name subject key body fallback =>
    have hbody := visitFragment_write body (Node.visits_eq p body)
    cases fallback with
    | none => exact forBlock_write index name subject key hbody pure_eq_write
    | some nodes =>
      exact forBlock_write index name subject key hbody
        (elseBranch_write (visitFragment_write nodes (Node.visits_eq p nodes)))
  | keyBlock span e body =>
    exact keyBlock_write e (visitFragment_write body (Node.visits_eq p body))
  | snippetBlock span name params body =>
    exact snippetBlock_write name params (visitFragment_write body (Node.visits_eq p body))
  | awaitBlock span e value error pending resolved rejected =>
    rw [Node.render_awaitBlock, Node.contents_eq p pending, Node.contents_eq p resolved,
      Node.contents_eq p rejected, awaitBlock_contents,
      Node.doc_awaitBlock, Option.map_map, Option.map_map, Option.map_map]
    rfl

theorem Node.visits_eq (p : Printing) (nodes : List Node) :
    Node.visits p nodes = (Node.siblings p nodes).map (Sibling.map write) := by
  cases nodes with
  | nil => rfl
  | cons n nodes =>
    have hn := (congrArg (visit (.node n)) (n.render_eq p)).trans (visit_write ..)
    have hrest := Node.visits_eq p nodes
    cases n
    case text span data => exact congrArg (Sibling.text data.toList :: ·) hrest
    all_goals exact congrArg₂ (fun n rest => Sibling.node n :: rest) hn hrest

theorem Node.contents_eq (p : Printing) (found : Option (List Node)) :
    found.map (fun nodes => (nodes, Node.visits p nodes)) =
      contents (found.map fun nodes => (nodes, Node.siblings p nodes)) := by
  cases found with
  | none => rfl
  | some nodes => rw [Option.map_some, Node.visits_eq p nodes]; rfl

theorem Node.visitAll_eq (p : Printing) (nodes : List Node) :
    Node.visitAll p nodes = write (Node.plainDocs p nodes) := by
  cases nodes with
  | nil => rfl
  | cons n nodes =>
    have hn := (congrArg (visit (.node n)) (n.render_eq p)).trans (visit_write ..)
    exact congrArg₂ (fun n rest => (do n; rest)) hn (Node.visitAll_eq p nodes)

end

/-! ## Components -/

lemma Render.script_eq (breaks : Breaks) (block : ScriptBlock) :
    Render.script breaks block = write (block.doc breaks) := by
  simp [Render.script, Statement.renderLines_eq, ScriptBlock.doc]
  exact write_congr rfl

lemma Render.style_eq (breaks : Breaks) (block : StyleBlock) (sheet : List StyleNode) :
    Render.style breaks block sheet = write (block.doc breaks sheet) := by
  simp [Render.style, attributeList_eq, StyleNode.renderSheet_eq]
  exact write_congr (by cases sheet <;> rfl)

lemma Component.render_eq (p : Printing) (component : Component) (sheet : List StyleNode) :
    component.render p sheet = write (component.doc p sheet) := by
  unfold Component.render Component.doc
  dsimp only
  have himports : Render.imports component.imports =
      write (.concat (component.imports.map fun tag => tag.doc ++ Doc.line)) :=
    each_map_eq (fun tag => by simp [Import.render, Import.doc]) component.imports
  rw [Node.visits_eq, Sibling.reconcile_map, each_padded, isEmpty_map, himports]
  -- no document is written for a body that is empty
  have hbody : ∀ space : Bool, (onlyIf (!(Sibling.reconcile true
      (Node.siblings p component.nodes)).isEmpty) (do
        onlyIf space nl
        write (.siblings (Sibling.reconcile true (Node.siblings p component.nodes))))) =
      write (.onlyIf (!(Sibling.reconcile true (Node.siblings p component.nodes)).isEmpty && space)
        Doc.line ++ .siblings (Sibling.reconcile true (Node.siblings p component.nodes))) := by
    intro space
    cases Sibling.reconcile true (Node.siblings p component.nodes) with
    | nil => exact write_congr (a := .empty) rfl
    | cons first rest => simp [Doc.onlyIf]
  rw [hbody, Bool.and_assoc]
  cases component.script <;> cases component.style <;> simp [script_eq, style_eq] <;>
    exact write_congr rfl

/-! ## Visits -/

def Subject.doc (p : Printing) : Subject → Doc
  | .component c sheet => c.doc p sheet
  | .importTag tag => tag.doc
  | .fragment nodes => .fragment (Node.siblings p nodes)
  | .text leading data trailing => Padded.doc (.text leading data trailing)
  | .node n => n.doc p
  | .attr a => a.doc p.breaks
  | .expr slot e => .parens slot e (e.doc p.breaks)
  | .property (.mk key value) =>
    (key.bareKey?.map Doc.text).getD (key.doc p.breaks) ++ ": " ++ value.doc p.breaks
  | .statement s => s.doc p.breaks

lemma Subject.visit_eq (p : Printing) (subject : Subject) :
    subject.visit p = write (subject.doc p) := by
  have hrender : subject.render p = write (subject.doc p) := by
    cases subject with
    | component c sheet => exact c.render_eq p sheet
    | importTag tag => rfl
    | fragment nodes => rw [Subject.render, Node.visits_eq, fragment_write, Subject.doc]
    | text leading data trailing => exact text_eq leading data trailing
    | node n => exact n.render_eq p
    | attr a => exact a.render_eq p.breaks
    | expr slot e => rw [Subject.render, e.render_eq, expression_write, Subject.doc]
    | property property =>
      obtain ⟨key, value⟩ := property
      rw [Subject.render, key.render_eq, value.render_eq, property_write, Subject.doc]
    | statement s => exact s.render_eq p.breaks
  rw [Subject.visit, hrender, visit_write]

/-- **Steps return balanced**: they do not fail, and leave the level and the path as they were. -/
def Render.Balanced (steps : Render) : Prop :=
  ∀ v : Visitor, ∃ v', steps v = some ((), v') ∧ v'.writer.level = v.writer.level ∧ v'.path = v.path

lemma Render.balanced_write (doc : Doc) : (write doc).Balanced :=
  fun v => ⟨_, write_apply doc v, Doc.level_write doc v.writer, rfl⟩

lemma Component.visited?_eq_some (p : Printing) (unit : String) (component : Component)
    (sheet : List StyleNode) :
    component.visited? p unit sheet = some ((component.doc p sheet).render unit) := by
  have hlevel := Doc.level_write (component.doc p sheet) (.start unit)
  have hfinish : (⟨(component.doc p sheet).write (.start unit), []⟩ : Visitor).finish? =
      some ((component.doc p sheet).render unit) := by
    rw [Visitor.finish?, if_pos ⟨hlevel, rfl⟩, Doc.render]
  rw [Component.visited?, Subject.visit_eq, write_apply]
  exact hfinish

/-- **No visit of a component that is read fails.** Every visit, of whatever kind of subject, returns
at the level and the path that it was entered with. The visitor finishes at the left margin and
outside of everything, with the text that formatting gives. -/
theorem Component.balanced_of_parse {special source unit : String} {script : String → String}
    {component : Component} {sheet : List StyleNode}
    (hcomponent : Component.parse source special = .ok component)
    (hsheet : component.stylesheet source.toList = .ok sheet) :
    (∀ subject : Subject,
      (subject.visit ⟨(LineBreaks.ofSource source.toList).atLeast, script⟩).Balanced) ∧
    ∃ output, component.visited? ⟨(LineBreaks.ofSource source.toList).atLeast, script⟩ unit sheet =
        some output ∧ formatWith special unit script source = .ok output := by
  refine ⟨fun subject => subject.visit_eq _ ▸ balanced_write _, _, visited?_eq_some .., ?_⟩
  exact formatWith_of_eq_ok (parse_eq_ok_iff.mp hcomponent) hsheet

/-- Attributes and a tag on lines of their own, and a style. -/
theorem Component.exists_balanced_of_parse : ∃ source component sheet output,
    source = "<a\nb=\x7b\x7b\nc \x7d\x7d>\x7b\x7b [\n1] \x7d\x7d</a><style>d \x7b e: f \x7d</style>" ∧
      parse source "zvelte" = .ok component ∧ component.stylesheet source.toList = .ok sheet ∧
      component.visited? ⟨(LineBreaks.ofSource source.toList).atLeast, reindentScript⟩ "\t" sheet =
        some output ∧ formatWith "zvelte" "\t" reindentScript source = .ok output := by
  let source := "<a\nb=\x7b\x7b\nc \x7d\x7d>\x7b\x7b [\n1] \x7d\x7d</a><style>d \x7b e: f \x7d</style>"
  have hread : ((parse source "zvelte").toOption.any fun component =>
      (component.stylesheet source.toList).isOk) = true := by decide +kernel
  obtain ⟨component, hcomponent, hread⟩ := exists_eq_ok_of_any hread
  obtain ⟨sheet, hsheet⟩ := exists_eq_ok_of_isOk hread
  obtain ⟨-, output, hvisited, hformat⟩ :=
    @balanced_of_parse "zvelte" _ "\t" reindentScript _ _ hcomponent hsheet
  exact ⟨_, component, sheet, output, rfl, hcomponent, hsheet, hvisited, hformat⟩

end ComponentTemplate
