import ComponentTemplate.Proofs.Plain
import ComponentTemplate.Proofs.WellFormed
import ComponentTemplate.Proofs.Writing

/-!
# The pieces of expressions

The tokens that an expression is printed with, and the blanks before each of them. They follow
the document of the expression, without the levels of indentation.
-/

namespace ComponentTemplate

open Doc Piece List

/-! ## Operators -/

def UnaryOp.lexeme : UnaryOp → Lexeme
  | .not => .word "not"
  | .minus => .mark "-"
  | .plus => .mark "+"

def BinaryOp.lexeme : BinaryOp → Lexeme
  | .or => .word "or"
  | .and => .word "and"
  | .is _ => .word "is"
  | .isIn false => .word "in"
  | .isIn true => .word "not"
  | op => .mark op.symbol

def BinaryOp.second? : BinaryOp → Option Lexeme
  | .is true => some (.word "not")
  | .isIn true => some (.word "in")
  | _ => none

def BinaryOp.pieces (op : BinaryOp) (gap : Gap) : List Piece :=
  ⟨gap, op.lexeme⟩ :: (op.second?.map fun l => ⟨.space, l⟩).toList

def BinaryOp.gap (op : BinaryOp) : Gap := if op = .range then .none else .space

/-! ## Parts of documents -/

namespace Piece

def grouped (slot : Slot) (e : Expr) (pieces : Gap → List Piece) (gap : Gap) : List Piece :=
  if needsParens slot e then
    ⟨gap, .mark "("⟩ :: (pieces .none ++ [⟨.none, .mark ")"⟩])
  else pieces gap

def commas : Gap → List (Gap → List Piece) → List Piece
  | _, [] => []
  | gap, [entry] => entry gap
  | gap, entry :: entries => entry gap ++ ⟨.none, .mark ","⟩ :: commas .space entries

def lines : List (Gap → List Piece) → List Piece
  | [] => []
  | entry :: entries => entry .line ++ ⟨.none, .mark ","⟩ :: lines entries

def collection (opening closing : String) (pad : Gap) (broken : Bool)
    (entries : List (Gap → List Piece)) (gap : Gap) : List Piece :=
  ⟨gap, .mark opening⟩ ::
    if entries.isEmpty then [⟨.none, .mark closing⟩]
    else if broken then lines entries ++ [⟨.line, .mark closing⟩]
    else commas pad entries ++ [⟨pad, .mark closing⟩]

def choice (broken : Bool) (test consequent alternate : Gap → List Piece) (gap : Gap) :
    List Piece :=
  let mark : Gap := if broken then .line else .space
  test gap ++ ⟨mark, .mark "?"⟩ :: (consequent .space ++ ⟨mark, .mark ":"⟩ :: alternate .space)

def arguments (entries : List (Gap → List Piece)) : List Piece :=
  ⟨.none, .mark "("⟩ :: (commas .none entries ++ [⟨.none, .mark ")"⟩])

end Piece

/-! ## Expressions -/

mutual

/-- **The pieces of an expression**, after given blanks. -/
def Expr.pieces (breaks : Breaks) : Expr → Gap → List Piece
  | .identifier _ name, gap => [⟨gap, .word name⟩]
  | .string _ _ raw, gap => [⟨gap, .quoted raw⟩]
  | .number _ value _, gap => [⟨gap, .number (String.ofList value.text)⟩]
  | .boolean _ value, gap => [⟨gap, .word (if value then "true" else "false")⟩]
  | .null _, gap => [⟨gap, .word "null"⟩]
  | .unary _ op argument, gap =>
    ⟨gap, op.lexeme⟩ :: grouped (.argument op) argument (argument.pieces breaks)
      (if op = .not then .space else .none)
  | .binary _ op left right, gap =>
    grouped (.left op) left (left.pieces breaks) gap ++
      (op.pieces op.gap ++ grouped (.right op) right (right.pieces breaks) op.gap)
  | .conditional _ test consequent alternate, gap =>
    Piece.choice (breaks 1 test.span.stop consequent.span.start)
      (grouped .test test (test.pieces breaks)) (consequent.pieces breaks)
      (alternate.pieces breaks) gap
  | .member _ object property computed optional, gap =>
    grouped .head object (object.pieces breaks) gap ++
      match computed, optional with
      | true, true =>
        ⟨.none, .mark "?."⟩ :: ⟨.none, .mark "["⟩ ::
          (property.pieces breaks .none ++ [⟨.none, .mark "]"⟩])
      | true, false => ⟨.none, .mark "["⟩ :: (property.pieces breaks .none ++ [⟨.none, .mark "]"⟩])
      | false, true => ⟨.none, .mark "?."⟩ :: property.pieces breaks .none
      | false, false => ⟨.none, .mark "."⟩ :: property.pieces breaks .none
  | .call _ callee arguments optional, gap =>
    grouped .head callee (callee.pieces breaks) gap ++
      ((if optional then [⟨.none, .mark "?."⟩] else []) ++
        Piece.arguments (Expr.entries breaks arguments))
  | .filter _ subject name arguments, gap =>
    grouped .head subject (subject.pieces breaks) gap ++
      ⟨.none, .mark "|"⟩ :: ⟨.none, .word name⟩ ::
        (if arguments.isEmpty then [] else Piece.arguments (Expr.entries breaks arguments))
  | .arrow _ params body, gap =>
    ⟨gap, .mark "("⟩ :: (commas .none (Expr.entries breaks params) ++
      ⟨.none, .mark ")"⟩ :: ⟨.space, .mark "=>"⟩ ::
        grouped .body body (body.pieces breaks) .space)
  | .assignment _ op target value, gap =>
    target.pieces breaks gap ++ ⟨.space, .mark op.symbol⟩ :: value.pieces breaks .space
  | .update _ op leading argument, gap =>
    if leading then
      ⟨gap, .mark op.symbol⟩ :: grouped .head argument (argument.pieces breaks) .none
    else
      grouped .head argument (argument.pieces breaks) gap ++ [⟨.none, .mark op.symbol⟩]
  | .array span elements, gap =>
    collection "[" "]" .none (brokenAfterBracket breaks span elements)
      (Expr.entries breaks elements) gap
  | .object span properties, gap =>
    collection "\x7b" "\x7d" .space
      (brokenAfterBracket breaks span (properties.map Property.key))
      (Property.entries breaks properties) gap

def Expr.entries (breaks : Breaks) : List Expr → List (Gap → List Piece)
  | [] => []
  | e :: es => e.pieces breaks :: Expr.entries breaks es

def Property.entries (breaks : Breaks) : List Property → List (Gap → List Piece)
  | [] => []
  | .mk key value :: ps =>
    (fun gap => (match key.bareKey? with
      | some name => [⟨gap, .word name⟩]
      | none => key.pieces breaks gap) ++ ⟨.none, .mark ":"⟩ :: value.pieces breaks .space) ::
        Property.entries breaks ps

end

variable {e : Expr} {P : Gap → List Piece} {breaks : Breaks}

lemma Piece.exists_grouped_eq (h : ∃ l ps, ∀ gap, P gap = ⟨gap, l⟩ :: ps) (slot : Slot)
    (e : Expr) :
    ∃ l ps, ∀ gap, grouped slot e P gap = ⟨gap, l⟩ :: ps := by
  obtain ⟨l, ps, h⟩ := h
  unfold grouped
  split
  · exact ⟨_, _, fun _ => rfl⟩
  · exact ⟨l, ps, h⟩

/-- **The pieces of an expression** are a first token after the given blanks, and pieces that
do not depend on the blanks. -/
theorem Expr.exists_pieces_eq (breaks : Breaks) : ∀ e : Expr,
    ∃ l ps, ∀ gap, e.pieces breaks gap = ⟨gap, l⟩ :: ps
  | .identifier .. | .string .. | .number .. | .boolean .. | .null _ | .array .. | .object ..
  | .unary .. | .arrow .. => by exact ⟨_, _, fun _ => rfl⟩
  | .binary _ op left right => by
    obtain ⟨l, ps, h⟩ := exists_grouped_eq (left.exists_pieces_eq breaks) (.left op) left
    simp only [Expr.pieces, h, cons_append]
    exact ⟨_, _, fun _ => rfl⟩
  | .conditional _ test _ _ => by
    obtain ⟨l, ps, h⟩ := exists_grouped_eq (test.exists_pieces_eq breaks) .test test
    simp only [Expr.pieces, Piece.choice, h, cons_append]
    exact ⟨_, _, fun _ => rfl⟩
  | .member _ head _ computed optional => by
    obtain ⟨l, ps, h⟩ := exists_grouped_eq (head.exists_pieces_eq breaks) .head head
    all_goals
      simp only [Expr.pieces, h, cons_append]
      exact ⟨_, _, fun _ => rfl⟩
  | .call _ callee _ _ => by
    obtain ⟨l, ps, h⟩ := exists_grouped_eq (callee.exists_pieces_eq breaks) .head callee
    simp only [Expr.pieces, h, cons_append]
    exact ⟨_, _, fun _ => rfl⟩
  | .filter _ subject _ _ => by
    obtain ⟨l, ps, h⟩ := exists_grouped_eq (subject.exists_pieces_eq breaks) .head subject
    simp only [Expr.pieces, h, cons_append]
    exact ⟨_, _, fun _ => rfl⟩
  | .assignment _ _ target _ => by
    obtain ⟨l, ps, h⟩ := target.exists_pieces_eq breaks
    simp only [Expr.pieces, h, cons_append]
    exact ⟨_, _, fun _ => rfl⟩
  | .update _ _ leading argument => by
    obtain ⟨l, ps, h⟩ := exists_grouped_eq (argument.exists_pieces_eq breaks) .head argument
    cases leading with
    | true => exact ⟨_, _, fun _ => rfl⟩
    | false =>
      simp only [Expr.pieces, h, Bool.false_eq_true, if_false, cons_append]
      exact ⟨_, _, fun _ => rfl⟩

/-! ## Documents of parts -/

namespace Doc

variable {a b c : Doc} {P Q R : Gap → List Piece}

lemma prints_mark (text : String) (h : text ∈ marks) :
    (Doc.text text).Prints fun gap => [⟨gap, .mark text⟩] := by
  intro before ps gap w hw
  have hwritten : (Lexeme.mark text).IsWritten := h
  exact hw.token hwritten

lemma prints_word (text : String) (h : isName text.toList = true) :
    (Doc.text text).Prints fun gap => [⟨gap, .word text⟩] := by
  intro before ps gap w hw
  have hwritten : (Lexeme.word text).IsWritten := h
  exact hw.token hwritten

lemma Prints.parens (ha : a.Prints P) (slot : Slot) (e : Expr) :
    (Doc.parens slot e a).Prints (grouped slot e P) := by
  unfold Doc.parens
  intro before ps gap w h
  unfold grouped
  split
  · exact ((prints_mark "(" (by decide)).append ha).append (prints_mark ")" (by decide)) h
  · exact ha h

variable {docs : List Doc} {entries : List (Gap → List Piece)} {before : List Char}
  {ps : List Piece} {w : Writer}

lemma prints_commas (h : Forall₂ Prints docs entries) (hne : docs ≠ []) :
    (commas docs).Prints fun gap => Piece.commas gap entries := by
  induction h with
  | nil => exact absurd rfl hne
  | @cons doc entry docs entries hdoc hrest ih =>
    cases hrest with
    | nil => exact hdoc
    | cons hdoc' hrest' =>
      intro before ps gap w h
      have hcomma := (prints_mark "," (by decide) (hdoc h)).space
      have hnext := ih (cons_ne_nil _ _) hcomma
      have hsplit : (Doc.text ", ").write (doc.write w) =
          (Doc.text " ").write ((Doc.text ",").write (doc.write w)) :=
        write_text_append ", " "," " " rfl (by decide) _
      rw [commas, separated, write_append, write_append, hsplit]
      · exact hnext.congr (by simp [Piece.commas])
      · simp

lemma wrote_lines (h : Forall₂ Prints docs entries) (hw : w.Wrote before ps .none) :
    ((concat (docs.map fun entry => line ++ entry ++ ",")).write w).Wrote before
      (ps ++ lines entries) .none := by
  induction h generalizing ps w with
  | nil =>
    rw [lines, append_nil]
    exact hw
  | cons hdoc _ ih =>
    have hfirst := prints_mark "," (by decide) (hdoc hw.line)
    have hnext := ih hfirst
    exact hnext.congr (by simp [lines])

lemma prints_collection (hopening : opening ∈ marks) (hclosing : closing ∈ marks)
    (hpad : ∀ {before ps w}, Writer.Wrote before ps .none w → (pad.write w).Wrote before ps padGap)
    (h : Forall₂ Prints docs entries) (broken : Bool) :
    (collection opening closing pad broken docs).Prints
      (Piece.collection opening closing padGap broken entries) := by
  intro before ps gap w hw
  have hopen := prints_mark opening hopening hw
  have hempty : docs.isEmpty = entries.isEmpty := by cases h <;> rfl
  unfold collection Piece.collection
  rw [hempty]
  split
  · have hclose := prints_mark closing hclosing hopen
    simp only [append_assoc, cons_append, nil_append] at hclose
    exact hclose
  · rename_i hne
    split
    · have hlines := (wrote_lines h hopen.indent).nest
      have hclose := prints_mark closing hclosing hlines.line
      exact hclose.congr (by simp)
    · have hdocs : docs ≠ [] := by
        intro hnil
        rw [hnil] at hempty
        exact hne hempty.symm
      have hcommas := prints_commas h hdocs (hpad hopen)
      have hclose := prints_mark closing hclosing (hpad hcommas)
      exact hclose.congr (by simp)

lemma prints_choice (htest : test.Prints T) (hconsequent : consequent.Prints C)
    (halternate : alternate.Prints A) (broken : Bool) :
    (choice broken test consequent alternate).Prints (Piece.choice broken T C A) := by
  have hquestion (w : Writer) : (Doc.text "? ").write w =
      (Doc.text " ").write ((Doc.text "?").write w) := write_text_append "? " "?" " " rfl (by decide) w
  have hcolon (w : Writer) : (Doc.text ": ").write w =
      (Doc.text " ").write ((Doc.text ":").write w) := write_text_append ": " ":" " " rfl (by decide) w
  have hquestion' (w : Writer) : (Doc.text " ? ").write w =
      (Doc.text "? ").write ((Doc.text " ").write w) := write_text_append " ? " " " "? " rfl (by decide) w
  have hcolon' (w : Writer) : (Doc.text " : ").write w =
      (Doc.text ": ").write ((Doc.text " ").write w) := write_text_append " : " " " ": " rfl (by decide) w
  intro before ps gap w hw
  unfold choice Piece.choice
  cases broken with
  | true =>
    have h₁ := prints_mark "?" (by decide) (htest hw).indent.line
    have h₂ := prints_mark ":" (by decide) (hconsequent h₁.space).line
    have h₃ := halternate h₂.space
    refine Writer.Wrote.nest ?_
    simp only [write_append, hquestion, hcolon]
    exact h₃.congr (by simp)
  | false =>
    have h₁ := prints_mark "?" (by decide) (htest hw).space
    have h₂ := prints_mark ":" (by decide) (hconsequent h₁.space).space
    have h₃ := halternate h₂.space
    exact h₃.congr (by simp)

lemma wrote_commas (h : Forall₂ Prints docs entries) (hw : w.Wrote before ps .none) :
    ((commas docs).write w).Wrote before (ps ++ Piece.commas .none entries) .none := by
  cases h with
  | nil =>
    rw [Piece.commas, append_nil]
    exact hw
  | cons hdoc hrest => exact prints_commas (.cons hdoc hrest) (cons_ne_nil _ _) hw

lemma wrote_arguments (h : Forall₂ Prints docs entries) (hw : w.Wrote before ps .none) :
    (("(" ++ commas docs ++ ")" : Doc).write w).Wrote before
      (ps ++ Piece.arguments entries) .none := by
  have hopen := prints_mark "(" (by decide) hw
  have hclose := prints_mark ")" (by decide) (wrote_commas h hopen)
  exact hclose.congr (by simp [Piece.arguments])

end Doc

/-! ## The document of an expression -/

lemma isWritten_number {value : Binary64} (h : value.isShortWhole = true) :
    (Lexeme.number (String.ofList value.text)).IsWritten := by
  obtain ⟨n, htext, -⟩ := Binary64.text_of_isShortWhole h
  simp only [Lexeme.IsWritten, String.toList_ofList, htext]
  exact ⟨Nat.toDigits_ne_nil,
    fun c hc => Nat.isDigit_of_mem_toDigits (by norm_num) (by norm_num) hc⟩

lemma UnaryOp.prints (op : UnaryOp) : (Doc.text op.symbol).Prints fun gap => [⟨gap, op.lexeme⟩] := by
  cases op with
  | not => exact prints_word "not" (by decide)
  | minus => exact prints_mark "-" (by decide)
  | plus => exact prints_mark "+" (by decide)

lemma BinaryOp.prints (op : BinaryOp) : (Doc.text op.symbol).Prints op.pieces := by
  -- the two negated tests are two words, with a space between them
  have htwo {text first second : String} (hfirst : isName first.toList = true)
      (hsecond : isName second.toList = true) (htext : text = first ++ (" " ++ second))
      (hlast : first.toList.getLast?.any (· != '\n') = true) :
      (Doc.text text).Prints fun gap => [⟨gap, .word first⟩, ⟨.space, .word second⟩] := by
    intro before ps gap w hw
    have h := prints_word second hsecond (prints_word first hfirst hw).space
    rw [write_text_append text first (" " ++ second) htext hlast,
      write_text_append (" " ++ second) " " second rfl (by decide)]
    exact h.congr (by simp)
  cases op with
  | or => exact prints_word "or" (by decide)
  | and => exact prints_word "and" (by decide)
  | is negated =>
    cases negated with
    | false => exact prints_word "is" (by decide)
    | true => exact htwo (by decide) (by decide) rfl (by decide)
  | isIn negated =>
    cases negated with
    | false => exact prints_word "in" (by decide)
    | true => exact htwo (by decide) (by decide) rfl (by decide)
  | _ => exact prints_mark _ (by decide)

/-- **A binary operator between two documents.** -/
def Doc.operation (op : BinaryOp) (left right : Doc) : Doc :=
  left ++ onlyIf (op ≠ .range) " " ++ op.symbol ++ onlyIf (op ≠ .range) " " ++ right

lemma Expr.doc_binary (breaks : Breaks) (span : Span) (op : BinaryOp) (left right : Expr) :
    (Expr.binary span op left right).doc breaks = .operation op
      (.parens (.left op) left (left.doc breaks)) (.parens (.right op) right (right.doc breaks)) := by
  rw [Expr.doc]
  rfl

lemma Doc.prints_operation (op : BinaryOp) (ha : a.Prints P) (hb : b.Prints Q) :
    (operation op a b).Prints fun gap => P gap ++ (op.pieces op.gap ++ Q op.gap) := by
  intro before ps gap w hw
  unfold operation
  by_cases hop : op = .range
  · rw [show op.gap = .none from if_pos hop]
    simp only [hop, ne_eq, not_true_eq_false, decide_false, onlyIf, Bool.false_eq_true,
      if_false]
    exact (hb (BinaryOp.range.prints (ha hw))).congr (by simp)
  · rw [show op.gap = .space from if_neg hop]
    simp only [ne_eq, hop, not_false_eq_true, decide_true, onlyIf, if_true]
    exact (hb (op.prints (ha hw).space).space).congr (by simp)

lemma AssignmentOp.symbol_mem (op : AssignmentOp) : op.symbol ∈ marks := by cases op <;> decide

lemma UpdateOp.symbol_mem (op : UpdateOp) : op.symbol ∈ marks := by cases op <;> decide

lemma Expr.IsParam.wellFormed (h : e.IsParam) : e.WellFormed := by
  cases e with
  | identifier span name => exact h
  | _ => exact h.elim

lemma Expr.allWellFormed_of_isParam (h : ∀ e ∈ es, e.IsParam) : Expr.AllWellFormed es := by
  induction es with
  | nil => trivial
  | cons e es ih =>
    exact ⟨(h e (mem_cons_self ..)).wellFormed,
      ih fun e' he' => h e' (mem_cons_of_mem _ he')⟩

lemma Expr.isName_of_bareKey? {key : Expr} {name : String} (h : key.bareKey? = some name) :
    isName name.toList = true := by
  cases key with
  | string _ text _ =>
    simp only [Expr.bareKey?] at h
    split at h
    · rename_i hname
      cases h
      exact hname
    · cases h
  | _ => cases h

lemma Expr.IsWord.prints (h : e.IsWord) : (e.doc breaks).Prints (e.pieces breaks) := by
  cases e with
  | identifier span name => exact prints_word name h
  | _ => exact h.elim

lemma Expr.IsKey.prints (h : e.IsKey) (hp : e.Plain breaks) :
    (e.doc breaks).Prints (e.pieces breaks) := by
  intro before ps gap w hw
  cases e with
  | identifier span name => exact prints_word name h hw
  | string span value raw =>
    have hwritten : (Lexeme.quoted raw).IsWritten := h.1
    exact hw.token hwritten
  | number span value raw => exact hw.token (isWritten_number (Expr.plain_iff.mp hp).1)
  | _ => exact h.elim

mutual

variable {breaks : Breaks}

theorem Expr.prints :
    ∀ (e : Expr), e.WellFormed → e.Plain breaks → (e.doc breaks).Prints (e.pieces breaks)
  | .identifier _ name, hwf, _ => by
    intro before ps gap w hw
    exact prints_word name hwf.1 hw
  | .string _ value raw, hwf, _ => by
    intro before ps gap w hw
    have hwritten : (Lexeme.quoted raw).IsWritten := hwf.1
    exact hw.token hwritten
  | .number _ value _, _, hp => by
    intro before ps gap w hw
    exact hw.token (isWritten_number (Expr.plain_iff.mp hp).1)
  | .boolean _ value, _, _ => by
    intro before ps gap w hw
    cases value with
    | true => exact prints_word "true" (by decide) hw
    | false => exact prints_word "false" (by decide) hw
  | .null _, _, _ => by
    intro before ps gap w hw
    exact prints_word "null" (by decide) hw
  | .unary _ op argument, hwf, hp => by
    have hargument := (argument.prints hwf (hp.child (by simp [Expr.children]))).parens
      (.argument op) argument
    intro before ps gap w hw
    rw [Expr.doc, Expr.pieces]
    have hop := op.prints hw
    cases op with
    | not => exact (hargument hop.space).congr (by simp)
    | minus | plus => exact (hargument hop).congr (by simp)
  | .binary _ op left right, hwf, hp => by
    have hleft := (left.prints hwf.1 (hp.child (by simp [Expr.children]))).parens (.left op) left
    have hright := (right.prints hwf.2 (hp.child (by simp [Expr.children]))).parens (.right op) right
    intro before ps gap w hw
    exact prints_operation op hleft hright hw
  | .conditional _ test consequent alternate, hwf, hp => by
    have htest := (test.prints hwf.1 (hp.child (by simp [Expr.children]))).parens .test test
    have hconsequent := consequent.prints hwf.2.1 (hp.child (by simp [Expr.children]))
    have halternate := alternate.prints hwf.2.2 (hp.child (by simp [Expr.children]))
    intro before ps gap w hw
    exact prints_choice htest hconsequent halternate _ hw
  | .member _ object property computed optional, hwf, hp => by
    have hobject := (object.prints hwf.1 (hp.child (by simp [Expr.children]))).parens .head object
    have hproperty : (property.doc breaks).Prints (property.pieces breaks) := by
      cases computed with
      | true => exact property.prints hwf.2 (hp.child (by simp [Expr.children]))
      | false => exact Expr.IsWord.prints hwf.2
    intro before ps gap w hw
    have hhead := hobject hw
    cases computed with
    | true =>
      cases optional with
      | true =>
        have hmark := prints_mark "?." (by decide) hhead
        have hopen := prints_mark "[" (by decide) hmark
        have hclose := prints_mark "]" (by decide) (hproperty hopen)
        rw [Expr.doc, Expr.pieces]
        exact hclose.congr (by simp)
      | false =>
        have hopen := prints_mark "[" (by decide) hhead
        have hclose := prints_mark "]" (by decide) (hproperty hopen)
        rw [Expr.doc, Expr.pieces]
        exact hclose.congr (by simp)
    | false =>
      cases optional with
      | true =>
        rw [Expr.doc, Expr.pieces]
        exact (hproperty (prints_mark "?." (by decide) hhead)).congr (by simp)
      | false =>
        rw [Expr.doc, Expr.pieces]
        exact (hproperty (prints_mark "." (by decide) hhead)).congr (by simp)
  | .call _ callee arguments optional, hwf, hp => by
    have hcallee := (callee.prints hwf.1 (hp.child (by simp [Expr.children]))).parens .head callee
    have harguments := Expr.prints_all arguments hwf.2 fun e he => hp.child (by simp [Expr.children, he])
    intro before ps gap w hw
    rw [Expr.doc, Expr.pieces]
    have hhead := hcallee hw
    cases optional with
    | true =>
      have hmark := prints_mark "?." (by decide) hhead
      exact (wrote_arguments harguments hmark).congr (by simp)
    | false => exact (wrote_arguments harguments hhead).congr (by simp)
  | .filter _ subject name arguments, hwf, hp => by
    have hsubject := (subject.prints hwf.1 (hp.child (by simp [Expr.children]))).parens .head subject
    have harguments := Expr.prints_all arguments hwf.2.2 fun e he =>
      hp.child (by simp [Expr.children, he])
    intro before ps gap w hw
    rw [Expr.doc, Expr.pieces]
    have hname := prints_word name hwf.2.1 (prints_mark "|" (by decide) (hsubject hw))
    cases arguments with
    | nil => exact hname.congr (by simp)
    | cons => exact (wrote_arguments harguments hname).congr (by simp)
  | .arrow _ params body, hwf, hp => by
    have hparams := Expr.prints_all params (Expr.allWellFormed_of_isParam hwf.1) fun e he =>
      hp.child (by simp [Expr.children, he])
    have hbody := (body.prints hwf.2 (hp.child (by simp [Expr.children]))).parens .body body
    intro before ps gap w hw
    have hopen := prints_mark "(" (by decide) hw
    have hclose := prints_mark ")" (by decide) (wrote_commas hparams hopen)
    have hmark := prints_mark "=>" (by decide) hclose.space
    rw [Expr.doc, Expr.pieces]
    exact (hbody hmark.space).congr (by simp)
  | .assignment _ op target value, hwf, hp => by
    have htarget := target.prints hwf.2.1 (hp.child (by simp [Expr.children]))
    have hvalue := value.prints hwf.2.2 (hp.child (by simp [Expr.children]))
    intro before ps gap w hw
    rw [Expr.doc, Expr.pieces]
    have hop := prints_mark op.symbol op.symbol_mem (htarget hw).space
    exact (hvalue hop.space).congr (by simp)
  | .update _ op leading argument, hwf, hp => by
    have hargument := (argument.prints hwf (hp.child (by simp [Expr.children]))).parens .head argument
    intro before ps gap w hw
    rw [Expr.doc, Expr.pieces]
    cases leading with
    | true => exact (hargument (prints_mark op.symbol op.symbol_mem hw)).congr (by simp)
    | false => exact (prints_mark op.symbol op.symbol_mem (hargument hw)).congr (by simp)
  | .array span elements, hwf, hp => by
    have helements := Expr.prints_all elements hwf fun e he => hp.child (by simp [Expr.children, he])
    intro before ps gap w hw
    exact prints_collection (by decide) (by decide) (fun h => h) helements _ hw
  | .object span properties, hwf, hp => by
    have hproperties := Property.prints_all properties hwf fun e he =>
      hp.child (by simpa [Expr.children] using he)
    intro before ps gap w hw
    exact prints_collection (by decide) (by decide) (fun h => h.space) hproperties _ hw

theorem Expr.prints_all : ∀ (es : List Expr), Expr.AllWellFormed es →
    (∀ e ∈ es, e.Plain breaks) → Forall₂ Prints (Expr.docs breaks es)
      (Expr.entries breaks es)
  | [], _, _ => .nil
  | e :: es, hwf, hp => by
    exact .cons (e.prints hwf.1 (hp e (mem_cons_self ..)))
      (Expr.prints_all es hwf.2 fun e' he' => hp e' (mem_cons_of_mem _ he'))

theorem Property.prints_all : ∀ (ps : List Property),
    Property.AllWellFormed ps →
    (∀ e ∈ ps.flatMap (fun p => [p.key, p.value]), e.Plain breaks) →
    Forall₂ Prints (Property.docs breaks ps) (Property.entries breaks ps)
  | [], _, _ => .nil
  | .mk key value :: ps, hwf, hp => by
    have hvalue := value.prints hwf.2.1 (hp value (by simp [Property.value]))
    have hrest := Property.prints_all ps hwf.2.2 fun e he =>
      hp e (by exact mem_append_right _ he)
    refine .cons (fun before ps gap w hw => ?_) hrest
    cases hbare : key.bareKey? with
    | some name =>
      have h := prints_mark ":" (by decide)
        (prints_word name (Expr.isName_of_bareKey? hbare) hw)
      exact (hvalue h.space).congr (by simp)
    | none =>
      have hkey := Expr.IsKey.prints hwf.1 (hp key (by simp [Property.key]))
      have h := prints_mark ":" (by decide) (hkey hw)
      exact (hvalue h.space).congr (by simp)

end

end ComponentTemplate
