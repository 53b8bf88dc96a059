import ComponentTemplate.Proofs.Pieces

/-!
# Printed expressions are legible

No token of a printed expression runs into the next one. What has to be known of an expression
is only with which kinds of tokens it starts and ends: signs before an operand are the only
tokens that ask for care.
-/

namespace ComponentTemplate

open Lexeme List

def openingMarks : List String := ["(", "[", "\x7b"]

def closingMarks : List String := [")", "]", "\x7d"]

def signs : List String :=
  ["-", "+", "++", "--"]

/-- **The tokens that an expression starts with.** A `bare` one starts with no sign. -/
def Lexeme.Opens (bare : Bool) : Lexeme → Prop
  | .word _ | .number _ | .quoted _ => True
  | .mark text => text ∈ openingMarks ∨ (bare = false ∧ text ∈ signs)
  | .finish => False

/-- **The tokens that an expression ends with.** -/
def Lexeme.Closes : Lexeme → Prop
  | .word _ | .number _ | .quoted _ => True
  | .mark text => text ∈ closingMarks ∨ text ∈ ["++", "--"]
  | .finish => False

variable {l : Lexeme} {bare bare' : Bool} {text : String} {gap : Gap} {ps qs : List Piece}
  {breaks : Breaks} {e : Expr}

lemma Lexeme.Opens.weaken (h : l.Opens bare) : l.Opens false := by
  cases l with
  | mark text =>
    rcases h with h | ⟨-, h⟩
    · exact .inl h
    · exact .inr ⟨rfl, h⟩
  | _ => exact h

def tightMarks : List String :=
  [".", "?.", "[", "(", "|", "++", "--", "..", ",", ")", "]", "\x7d", ":"]

lemma Lexeme.Closes.joins (hl : l.Closes) (h : text ∈ tightMarks) :
    l.joins (.mark text) = true := by
  cases l with
  | word _ => rfl
  | number _ => rfl
  | quoted _ => rfl
  | finish => exact hl.elim
  | mark closing =>
    have hall : ∀ closing ∈ closingMarks ++ ["++", "--"], ∀ text ∈ tightMarks,
        (mark closing).joins (.mark text) = true := by
      decide +kernel
    exact hall closing (mem_append.mpr hl) text h

lemma Lexeme.Opens.joins (hl : l.Opens bare) (h : text ∈ openingMarks ++ [".."]) :
    (mark text).joins l = true := by
  cases l with
  | word _ => rfl
  | quoted _ => rfl
  | finish => exact hl.elim
  | number _ =>
    have hall : ∀ text ∈ openingMarks ++ [".."], (text != "." && text != "?.") = true := by
      decide +kernel
    exact hall text h
  | mark opening =>
    have hall : ∀ opening ∈ openingMarks ++ signs, ∀ text ∈ openingMarks ++ [".."],
        (mark text).joins (.mark opening) = true := by
      decide +kernel
    refine hall opening ?_ text h
    rcases hl with hl | ⟨-, hl⟩
    · exact mem_append_left _ hl
    · exact mem_append_right _ hl

lemma Lexeme.Opens.joins_sign (hl : l.Opens true) (h : text ∈ signs) :
    (mark text).joins l = true := by
  cases l with
  | word _ => rfl
  | quoted _ => rfl
  | finish => exact hl.elim
  | number _ =>
    have hall : ∀ text ∈ signs, (text != "." && text != "?.") = true := by decide +kernel
    exact hall text h
  | mark opening =>
    have hall : ∀ opening ∈ openingMarks, ∀ text ∈ signs,
        (mark text).joins (.mark opening) = true := by
      decide +kernel
    rcases hl with hl | ⟨hbare, -⟩
    · exact hall opening hl text h
    · cases hbare

/-! ## Runs of pieces -/

/-- **Legible pieces** after given blanks, with a first and a last token of given kinds. -/
structure Run (first last : Lexeme → Prop) (gap : Gap) (ps : List Piece) : Prop where
  legible : Legible ps
  head : ∃ p, ps.head? = some p ∧ p.gap = gap ∧ first p.lexeme
  getLast : ∃ p, ps.getLast? = some p ∧ last p.lexeme

namespace Run

variable {first first' last last' : Lexeme → Prop} {gap gap' : Gap} {ps qs : List Piece}
  {l : Lexeme}

lemma single (hl : l.IsWritten) : Run (· = l) (· = l) gap [⟨gap, l⟩] where
  legible := ⟨by simpa using hl, by simp⟩
  head := ⟨_, rfl, rfl, rfl⟩
  getLast := ⟨_, rfl, rfl⟩

lemma mono (h : Run first last gap ps) (hfirst : ∀ l, first l → first' l)
    (hlast : ∀ l, last l → last' l) : Run first' last' gap ps := by
  obtain ⟨p, hp, hgap, hfirst'⟩ := h.head
  obtain ⟨q, hq, hlast'⟩ := h.getLast
  exact ⟨h.legible, ⟨p, hp, hgap, hfirst _ hfirst'⟩, ⟨q, hq, hlast _ hlast'⟩⟩

/-- **Two runs in a row**, with blanks between them or with tokens that join. -/
theorem append (hps : Run first last gap ps) (hqs : Run first' last' gap' qs)
    (h : gap' ≠ .none ∨ ∀ a b, last a → first' b → a.joins b = true) :
    Run first last' gap (ps ++ qs) := by
  obtain ⟨p, hp, hpgap, hfirst⟩ := hps.head
  obtain ⟨p', hp', hlast⟩ := hps.getLast
  obtain ⟨q, hq, hqgap, hfirst'⟩ := hqs.head
  obtain ⟨q', hq', hlast'⟩ := hqs.getLast
  refine ⟨⟨fun r hr => ?_, isChain_append.mpr ⟨hps.legible.chain, hqs.legible.chain, ?_⟩⟩,
    ⟨p, by simp [hp], hpgap, hfirst⟩, ⟨q', by simp [getLast?_append, hq'], hlast'⟩⟩
  · rcases mem_append.mp hr with hr | hr
    · exact hps.legible.isWritten r hr
    · exact hqs.legible.isWritten r hr
  · intro a ha b hb
    obtain rfl : p' = a := Option.some.inj (hp'.symm.trans ha)
    obtain rfl : q = b := Option.some.inj (hq.symm.trans hb)
    rcases h with h | h
    · exact .inl (hqgap ▸ h)
    · exact .inr (h _ _ hlast hfirst')

lemma cons (gap : Gap) (hl : l.IsWritten) (hqs : Run first' last' gap' qs)
    (h : gap' ≠ .none ∨ ∀ b, first' b → l.joins b = true) :
    Run (· = l) last' gap (⟨gap, l⟩ :: qs) := by
  refine (single hl).append hqs (h.imp id fun h a b ha hb => ?_)
  rw [ha]
  exact h b hb

lemma snoc (hps : Run first last gap ps) (gap' : Gap) (hl : l.IsWritten)
    (h : gap' ≠ .none ∨ ∀ a, last a → a.joins l = true) :
    Run first (· = l) gap (ps ++ [⟨gap', l⟩]) := by
  refine hps.append (single hl) (h.imp id fun h a b ha hb => ?_)
  rw [hb]
  exact h a ha

end Run

lemma isWritten_mark (text : String) (h : text ∈ marks) : (mark text).IsWritten := h

/-- **The pieces of an operand.** -/
abbrev Operand (bare : Bool) (gap : Gap) (ps : List Piece) : Prop :=
  Run (Opens bare) Closes gap ps

namespace Operand

variable {bare : Bool} {gap : Gap} {ps : List Piece} {P Q R : Gap → List Piece}
  {entries : List (Gap → List Piece)}

lemma weaken (h : Operand bare gap ps) : Operand false gap ps :=
  h.mono (fun _ hl => hl.weaken) fun _ hl => hl

variable {opening closing text : String} {last : Lexeme → Prop} {qs : List Piece}

lemma mem_marks_of_bracket (h : text ∈ openingMarks ∨ text ∈ closingMarks) : text ∈ marks := by
  have hall : ∀ text ∈ openingMarks ++ closingMarks, text ∈ marks := by decide +kernel
  exact hall text (mem_append.mpr h)

lemma mem_tightMarks_of_closing (h : text ∈ closingMarks) : text ∈ tightMarks := by
  have hall : ∀ text ∈ closingMarks, text ∈ tightMarks := by decide +kernel
  exact hall text h

lemma enclosed (hopening : opening ∈ openingMarks) (hclosing : closing ∈ closingMarks)
    (hps : Run first last gap' ps)
    (hfirst : gap' ≠ .none ∨ ∀ b, first b → (mark opening).joins b = true) (gap'' : Gap)
    (hlast : gap'' ≠ .none ∨ ∀ a, last a → a.joins (mark closing) = true) (bare : Bool)
    (gap : Gap) : Operand bare gap (⟨gap, .mark opening⟩ :: (ps ++ [⟨gap'', .mark closing⟩])) := by
  have hclose := hps.snoc gap'' (isWritten_mark closing (mem_marks_of_bracket (.inr hclosing)))
    hlast
  have hopen := hclose.cons gap (isWritten_mark opening (mem_marks_of_bracket (.inl hopening)))
    hfirst
  refine hopen.mono (fun l hl => ?_) fun l hl => ?_
  · rw [hl]
    exact .inl hopening
  · rw [hl]
    exact .inl hclosing

lemma emptyBrackets (hopening : opening ∈ openingMarks) (hclosing : closing ∈ closingMarks)
    (bare : Bool) (gap : Gap) :
    Operand bare gap [⟨gap, .mark opening⟩, ⟨.none, .mark closing⟩] := by
  have hjoins : ∀ opening ∈ openingMarks, ∀ closing ∈ closingMarks,
      (mark opening).joins (.mark closing) = true := by
    decide +kernel
  have hclose : Run (· = .mark closing) (· = .mark closing) .none [⟨.none, .mark closing⟩] :=
    .single (isWritten_mark closing (mem_marks_of_bracket (.inr hclosing)))
  have hopen := hclose.cons gap (isWritten_mark opening (mem_marks_of_bracket (.inl hopening)))
    (.inr fun b hb => by rw [hb]; exact hjoins opening hopening closing hclosing)
  refine hopen.mono (fun l hl => ?_) fun l hl => ?_
  · rw [hl]
    exact .inl hopening
  · rw [hl]
    exact .inl hclosing

lemma parens (h : Operand bare .none ps) (bare' : Bool) (gap : Gap) :
    Operand bare' gap (⟨gap, .mark "("⟩ :: (ps ++ [⟨.none, .mark ")"⟩])) :=
  enclosed (by decide) (by decide) h (.inr fun _ hb => hb.joins (by decide)) _
    (.inr fun _ ha => ha.joins (by decide)) bare' gap

lemma commas (h : ∀ entry ∈ entries, ∀ gap, Operand false gap (entry gap)) (hne : entries ≠ [])
    (gap : Gap) : Operand false gap (Piece.commas gap entries) := by
  induction entries generalizing gap with
  | nil => exact absurd rfl hne
  | cons entry entries ih =>
    have hentry := h entry (mem_cons_self ..) gap
    cases entries with
    | nil => exact hentry
    | cons entry' entries' =>
      have hrest := ih (fun e he => h e (mem_cons_of_mem _ he)) (cons_ne_nil _ _) .space
      have hcomma := hrest.cons .none (isWritten_mark "," (by decide)) (.inl (by simp))
      refine hentry.append hcomma (.inr fun a b ha hb => ?_)
      rw [hb]
      exact ha.joins (by decide)

lemma lines (h : ∀ entry ∈ entries, ∀ gap, Operand false gap (entry gap)) (hne : entries ≠ []) :
    Run (Opens false) (· = .mark ",") .line (Piece.lines entries) := by
  induction entries with
  | nil => exact absurd rfl hne
  | cons entry entries ih =>
    have hentry := h entry (mem_cons_self ..) .line
    cases entries with
    | nil =>
      exact hentry.snoc .none (isWritten_mark "," (by decide)) (.inr fun a ha => ha.joins (by decide))
    | cons entry' entries' =>
      have hrest := ih (fun e he => h e (mem_cons_of_mem _ he)) (cons_ne_nil _ _)
      have hcomma := hrest.cons .none (isWritten_mark "," (by decide)) (.inl (by simp))
      refine hentry.append hcomma (.inr fun a b ha hb => ?_)
      rw [hb]
      exact ha.joins (by decide)

lemma collection (hopening : opening ∈ openingMarks) (hclosing : closing ∈ closingMarks)
    (pad : Gap) (broken : Bool) (h : ∀ entry ∈ entries, ∀ gap, Operand false gap (entry gap))
    (gap : Gap) : Operand true gap (Piece.collection opening closing pad broken entries gap) := by
  unfold Piece.collection
  split
  · exact emptyBrackets hopening hclosing true gap
  · rename_i hne
    have hne : entries ≠ [] := by simpa using hne
    split
    · exact enclosed hopening hclosing (lines h hne) (.inl (by simp)) _ (.inl (by simp)) true gap
    · exact enclosed hopening hclosing (commas h hne pad)
        (.inr fun _ hb => hb.joins (mem_append_left _ hopening)) _
        (.inr fun _ ha => ha.joins (mem_tightMarks_of_closing hclosing)) true gap

lemma parenthesised (h : ∀ entry ∈ entries, ∀ gap, Operand false gap (entry gap)) (gap : Gap)
    (hqs : Run (· = .mark ")") last .none qs) :
    Run (· = .mark "(") last gap (⟨gap, .mark "("⟩ :: (Piece.commas .none entries ++ qs)) := by
  have hopening := isWritten_mark "(" (by decide)
  by_cases hne : entries = []
  · subst hne
    exact hqs.cons gap hopening (.inr fun b hb => by rw [hb]; decide)
  · have hclose := (commas h hne .none).append hqs
      (.inr fun a b ha hb => by rw [hb]; exact ha.joins (by decide))
    exact hclose.cons gap hopening (.inr fun b hb => hb.joins (by decide))

lemma arguments (h : ∀ entry ∈ entries, ∀ gap, Operand false gap (entry gap)) :
    Run (· = .mark "(") Closes .none (Piece.arguments entries) := by
  have hclose : Run (· = .mark ")") (· = .mark ")") .none [⟨.none, .mark ")"⟩] :=
    .single (isWritten_mark ")" (by decide))
  have hcloses : (mark ")").Closes := .inl (by decide)
  exact parenthesised h .none (hclose.mono (fun _ hl => hl) fun l hl => hl ▸ hcloses)

lemma suffix (hps : Operand bare gap ps) (text : String) (htext : text ∈ tightMarks)
    (hqs : Run (· = .mark text) Closes .none qs) : Operand bare gap (ps ++ qs) := by
  refine hps.append hqs (.inr fun a b ha hb => ?_)
  rw [hb]
  exact ha.joins htext

lemma choice (hP : ∀ gap, Operand false gap (P gap)) (hQ : ∀ gap, Operand false gap (Q gap))
    (hR : ∀ gap, Operand false gap (R gap)) (broken : Bool) (gap : Gap) :
    Operand false gap (Piece.choice broken P Q R gap) := by
  have hmark : (if broken = true then Gap.line else .space) ≠ .none := by cases broken <;> simp
  have hcolon := (hR .space).cons (if broken then .line else .space)
    (isWritten_mark ":" (by decide)) (.inl (by simp))
  have hquestion := ((hQ .space).append hcolon (.inl hmark)).cons
    (if broken then .line else .space) (isWritten_mark "?" (by decide)) (.inl (by simp))
  exact (hP gap).append hquestion (.inl hmark)

lemma grouped (hP : ∀ gap, Operand bare gap (P gap)) (slot : Slot) (e : Expr) (gap : Gap) :
    Operand (needsParens slot e || bare) gap (Piece.grouped slot e P gap) := by
  unfold Piece.grouped
  cases needsParens slot e with
  | true => exact (hP .none).parens true gap
  | false => exact hP gap

lemma word (h : isName name.toList = true) (gap : Gap) : Operand true gap [⟨gap, .word name⟩] := by
  have hwritten : (Lexeme.word name).IsWritten := h
  exact (Run.single hwritten).mono (fun _ hl => hl ▸ trivial) fun _ hl => hl ▸ trivial

end Operand

/-! ## Expressions -/

def Expr.startsBare : Expr → Bool
  | .unary _ op _ => op = .not
  | .update _ _ leading _ => !leading
  | .binary .. => false
  | e => !e.isOpenEnded

lemma Expr.startsBare_head (e : Expr) : (needsParens .head e || e.startsBare) = true := by
  cases e <;> simp [needsParens, startsBare, isOpenEnded]

lemma Expr.startsBare_argument (h : op ≠ .not) (e : Expr) :
    (needsParens (.argument op) e || e.startsBare) = true := by
  cases e with
  | unary _ inner _ => cases inner <;> simp [needsParens, startsBare, h]
  | update _ _ leading _ => cases leading <;> simp [needsParens, startsBare, h]
  | _ => simp [needsParens, startsBare, isOpenEnded]

lemma UnaryOp.isWritten (op : UnaryOp) : op.lexeme.IsWritten := by
  cases op with
  | not => exact show isName "not".toList = true by decide
  | minus => exact isWritten_mark "-" (by decide)
  | plus => exact isWritten_mark "+" (by decide)

lemma BinaryOp.isWritten (op : BinaryOp) : ∀ p ∈ op.pieces op.gap, p.lexeme.IsWritten := by
  have hword {text : String} (h : isName text.toList = true) : (word text).IsWritten := h
  cases op with
  | or | and => simpa [pieces, second?, lexeme] using hword (by decide)
  | is negated =>
    cases negated <;> simp [pieces, second?, lexeme, hword (show isName "is".toList = true by decide),
      hword (show isName "not".toList = true by decide)]
  | isIn negated =>
    cases negated <;> simp [pieces, second?, lexeme, hword (show isName "in".toList = true by decide),
      hword (show isName "not".toList = true by decide)]
  | _ => simpa [pieces, second?, lexeme] using isWritten_mark _ (by decide)

lemma BinaryOp.run_space (op : BinaryOp) (hps : Operand bare gap ps)
    (hqs : Operand bare' .space qs) : Operand bare gap (ps ++ (op.pieces .space ++ qs)) := by
  have hwritten : ∀ p ∈ op.pieces .space, p.lexeme.IsWritten := by simpa [pieces] using op.isWritten
  unfold pieces at hwritten ⊢
  -- the tokens of the operator are words and marks with a space before each
  cases hsecond : op.second? with
  | none =>
    have hop := hqs.cons .space (hwritten _ (mem_cons_self ..)) (.inl (by simp))
    exact hps.append hop (.inl (by simp))
  | some l =>
    rw [hsecond] at hwritten
    have hlast := hqs.cons .space (hwritten ⟨.space, l⟩ (by simp)) (.inl (by simp))
    have hop := hlast.cons .space (hwritten _ (mem_cons_self ..)) (.inl (by simp))
    exact hps.append hop (.inl (by simp))

lemma BinaryOp.run (op : BinaryOp) (hps : Operand bare gap ps) (hqs : Operand bare' op.gap qs) :
    Operand bare gap (ps ++ (op.pieces op.gap ++ qs)) := by
  by_cases hrange : op = .range
  · subst hrange
    have hright := hqs.cons .none (isWritten_mark ".." (by decide))
      (.inr fun b hb => hb.joins (by decide))
    exact hps.suffix ".." (by decide) hright
  · have hspace : op.gap = .space := if_neg hrange
    rw [hspace] at hqs ⊢
    exact op.run_space hps hqs

lemma Expr.IsWord.run (h : e.IsWord) (htext : text ∈ marks) :
    Run (· = .mark text) Closes .none (⟨.none, .mark text⟩ :: e.pieces breaks .none) := by
  cases e with
  | identifier span name =>
    have hwritten : (word name).IsWritten := h
    have hname : Run (· = .word name) (· = .word name) .none [⟨.none, .word name⟩] := .single hwritten
    have hmark := hname.cons .none (isWritten_mark text htext) (.inr fun b hb => hb ▸ rfl)
    exact hmark.mono (fun _ hl => hl) fun _ hl => hl ▸ trivial
  | _ => exact h.elim

lemma Expr.IsKey.run (h : e.IsKey) (hp : e.Plain breaks) (gap : Gap) :
    Operand true gap (e.pieces breaks gap) := by
  cases e with
  | identifier span name => exact Operand.word h gap
  | string span value raw =>
    have hwritten : (quoted raw).IsWritten := h.1
    exact (Run.single hwritten).mono (fun _ hl => hl ▸ trivial) fun _ hl => hl ▸ trivial
  | number span value raw =>
    have hwritten := isWritten_number (Expr.plain_iff.mp hp).1
    exact (Run.single hwritten).mono (fun _ hl => hl ▸ trivial) fun _ hl => hl ▸ trivial
  | _ => exact h.elim

mutual

variable {breaks : Breaks}

theorem Expr.run : ∀ (e : Expr), e.WellFormed → e.Plain breaks → ∀ gap,
    Operand e.startsBare gap (e.pieces breaks gap)
  | .identifier _ name, hwf, _, gap => by exact Operand.word hwf.1 gap
  | .string span value raw, hwf, hp, gap => by
    exact Expr.IsKey.run (e := .string span value raw) hwf hp gap
  | .number span value raw, hwf, hp, gap => by
    exact Expr.IsKey.run (e := .number span value raw) hwf hp gap
  | .boolean _ value, _, _, gap => by
    cases value with
    | true | false => exact Operand.word (by decide) gap
  | .null _, _, _, gap => by exact Operand.word (by decide) gap
  | .unary _ op argument, hwf, hp, gap => by
    have hargument := Operand.grouped (argument.run hwf (hp.child (by simp [Expr.children])))
      (.argument op) argument
    rw [Expr.pieces]
    by_cases hop : op = .not
    · subst hop
      have h := (hargument .space).cons gap UnaryOp.not.isWritten (.inl (by simp))
      exact h.mono (fun _ hl => hl ▸ trivial) fun _ hl => hl
    · rw [if_neg hop]
      rw [Expr.startsBare_argument hop] at hargument
      have hsign : ∃ text ∈ signs, op.lexeme = .mark text ∧ (decide (op = .not)) = false := by
        cases op with
        | not => exact absurd rfl hop
        | minus => exact ⟨"-", by decide, rfl, rfl⟩
        | plus => exact ⟨"+", by decide, rfl, rfl⟩
      obtain ⟨text, htext, hlexeme, hbare⟩ := hsign
      have h := (hargument .none).cons gap op.isWritten
        (.inr fun b hb => hlexeme ▸ hb.joins_sign htext)
      refine h.mono (fun l hl => ?_) fun _ hl => hl
      rw [hl, hlexeme]
      exact .inr ⟨hbare, htext⟩
  | .binary _ op left right, hwf, hp, gap => by
    have hleft := Operand.grouped (left.run hwf.1 (hp.child (by simp [Expr.children])))
      (.left op) left gap
    have hright := Operand.grouped (right.run hwf.2 (hp.child (by simp [Expr.children])))
      (.right op) right op.gap
    exact (op.run hleft hright).weaken
  | .conditional _ test consequent alternate, hwf, hp, gap => by
    have htest := Operand.grouped (test.run hwf.1 (hp.child (by simp [Expr.children]))) .test test
    have hconsequent := consequent.run hwf.2.1 (hp.child (by simp [Expr.children]))
    have halternate := alternate.run hwf.2.2 (hp.child (by simp [Expr.children]))
    exact Operand.choice (fun gap => (htest gap).weaken) (fun gap => (hconsequent gap).weaken)
      (fun gap => (halternate gap).weaken) _ gap
  | .member _ object property computed optional, hwf, hp, gap => by
    have hobject := Operand.grouped (object.run hwf.1 (hp.child (by simp [Expr.children]))) .head
      object gap
    rw [Expr.startsBare_head] at hobject
    cases computed with
    | true =>
      have hproperty := property.run hwf.2 (hp.child (by simp [Expr.children])) .none
      have hclose := hproperty.snoc .none (isWritten_mark "]" (by decide))
        (.inr fun a ha => ha.joins (by decide))
      have hopen := hclose.cons .none (isWritten_mark "[" (by decide))
        (.inr fun b hb => hb.joins (by decide))
      have hcloses : (mark "]").Closes := .inl (by decide)
      have hbrackets : Run (· = .mark "[") Closes .none _ :=
        hopen.mono (fun _ hl => hl) fun l hl => hl ▸ hcloses
      cases optional with
      | true =>
        have hmark := hbrackets.cons .none (isWritten_mark "?." (by decide))
          (.inr fun b hb => by rw [hb]; decide)
        exact hobject.suffix "?." (by decide) hmark
      | false => exact hobject.suffix "[" (by decide) hbrackets
    | false =>
      cases optional with
      | true => exact hobject.suffix "?." (by decide) (Expr.IsWord.run hwf.2 (by decide))
      | false => exact hobject.suffix "." (by decide) (Expr.IsWord.run hwf.2 (by decide))
  | .call _ callee arguments optional, hwf, hp, gap => by
    have hcallee := Operand.grouped (callee.run hwf.1 (hp.child (by simp [Expr.children]))) .head
      callee gap
    rw [Expr.startsBare_head] at hcallee
    have harguments := Operand.arguments
      (Expr.run_all arguments hwf.2 fun e he => hp.child (by simp [Expr.children, he]))
    cases optional with
    | true =>
      have hmark := harguments.cons .none (isWritten_mark "?." (by decide))
        (.inr fun b hb => by rw [hb]; decide)
      exact hcallee.suffix "?." (by decide) hmark
    | false => exact hcallee.suffix "(" (by decide) harguments
  | .filter _ subject name arguments, hwf, hp, gap => by
    have hsubject := Operand.grouped (subject.run hwf.1 (hp.child (by simp [Expr.children]))) .head
      subject gap
    rw [Expr.startsBare_head] at hsubject
    have harguments := Operand.arguments
      (Expr.run_all arguments hwf.2.2 fun e he => hp.child (by simp [Expr.children, he]))
    have hname : (word name).IsWritten := hwf.2.1
    refine hsubject.suffix "|" (by decide) ?_
    split
    · have hword : Run (· = .word name) (· = .word name) .none [⟨.none, .word name⟩] := .single hname
      have hmark := hword.cons .none (isWritten_mark "|" (by decide)) (.inr fun b hb => hb ▸ rfl)
      exact hmark.mono (fun _ hl => hl) fun _ hl => hl ▸ trivial
    · have hword := harguments.cons .none hname (.inr fun b hb => hb ▸ rfl)
      exact hword.cons .none (isWritten_mark "|" (by decide)) (.inr fun b hb => hb ▸ rfl)
  | .arrow _ params body, hwf, hp, gap => by
    have hparams := Expr.run_all params (Expr.allWellFormed_of_isParam hwf.1) fun e he =>
      hp.child (by simp [Expr.children, he])
    have hbody := Operand.grouped (body.run hwf.2 (hp.child (by simp [Expr.children]))) .body body
      .space
    have hmark := hbody.cons .space (isWritten_mark "=>" (by decide)) (.inl (by simp))
    have hclose := hmark.cons .none (isWritten_mark ")" (by decide)) (.inl (by simp))
    have hopens : (mark "(").Opens false := .inl (by decide)
    exact (Operand.parenthesised hparams gap hclose).mono (fun l hl => hl ▸ hopens) fun _ hl => hl
  | .assignment _ op target value, hwf, hp, gap => by
    have htarget := target.run hwf.2.1 (hp.child (by simp [Expr.children])) gap
    have hvalue := value.run hwf.2.2 (hp.child (by simp [Expr.children])) .space
    have hop := hvalue.cons .space (isWritten_mark op.symbol op.symbol_mem) (.inl (by simp))
    exact (htarget.append hop (.inl (by simp))).mono (fun _ hl => hl.weaken) fun _ hl => hl
  | .update _ op leading argument, hwf, hp, gap => by
    have hargument := Operand.grouped (argument.run hwf (hp.child (by simp [Expr.children]))) .head
      argument
    rw [Expr.startsBare_head] at hargument
    have hop := isWritten_mark op.symbol op.symbol_mem
    cases leading with
    | true =>
      have hsign : op.symbol ∈ signs := by cases op <;> decide
      have h := (hargument .none).cons gap hop (.inr fun b hb => hb.joins_sign hsign)
      exact h.mono (fun l hl => hl ▸ .inr ⟨rfl, hsign⟩) fun _ hl => hl
    | false =>
      have htight : op.symbol ∈ tightMarks := by cases op <;> decide
      have hcloses : op.symbol ∈ ["++", "--"] := by cases op <;> decide
      have h := (hargument gap).snoc .none hop (.inr fun a ha => ha.joins htight)
      exact h.mono (fun _ hl => hl) fun l hl => hl ▸ .inr hcloses
  | .array span elements, hwf, hp, gap => by
    have helements := Expr.run_all elements hwf fun e he => hp.child (by simp [Expr.children, he])
    exact Operand.collection (by decide) (by decide) _ _ helements gap
  | .object span properties, hwf, hp, gap => by
    have hproperties := Property.run_all properties hwf fun e he =>
      hp.child (by simpa [Expr.children] using he)
    exact Operand.collection (by decide) (by decide) _ _ hproperties gap

theorem Expr.run_all : ∀ (es : List Expr), Expr.AllWellFormed es →
    (∀ e ∈ es, e.Plain breaks) → ∀ entry ∈ Expr.entries breaks es, ∀ gap,
      Operand false gap (entry gap)
  | [], _, _ => by simp [Expr.entries]
  | e :: es, hwf, hp => by
    have hfirst := e.run hwf.1 (hp e (mem_cons_self ..))
    have hrest := Expr.run_all es hwf.2 fun e' he' => hp e' (mem_cons_of_mem _ he')
    intro entry hentry gap
    rcases mem_cons.mp hentry with rfl | hentry
    · exact (hfirst gap).weaken
    · exact hrest entry hentry gap

theorem Property.run_all : ∀ (ps : List Property),
    Property.AllWellFormed ps →
    (∀ e ∈ ps.flatMap (fun p => [p.key, p.value]), e.Plain breaks) →
    ∀ entry ∈ Property.entries breaks ps, ∀ gap, Operand false gap (entry gap)
  | [], _, _ => by simp [Property.entries]
  | .mk key value :: ps, hwf, hp => by
    have hkey := Expr.IsKey.run hwf.1 (hp key (by simp [Property.key]))
    have hvalue := value.run hwf.2.1 (hp value (by simp [Property.value])) .space
    have hrest := Property.run_all ps hwf.2.2 fun e he => hp e (by exact mem_append_right _ he)
    intro entry hentry gap
    rcases mem_cons.mp hentry with rfl | hentry
    · have hcolon := hvalue.cons .none (isWritten_mark ":" (by decide)) (.inl (by simp))
      cases hbare : key.bareKey? with
      | some name =>
        exact ((Operand.word (Expr.isName_of_bareKey? hbare) gap).suffix ":" (by decide) hcolon).weaken
      | none => exact (hkey gap).weaken.suffix ":" (by decide) hcolon
    · exact hrest entry hentry gap

end

end ComponentTemplate
