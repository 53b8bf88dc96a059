import ComponentTemplate.Proofs.Levels

/-!
# Reading printed expressions

The pieces of an expression are read back as the expression they were printed from, with the
same line breaks between its parts. There is one lemma for each kind of expression, which takes
its parts to be read back.
-/

namespace ComponentTemplate

open Grammar

variable {lb : LineBreaks} {breaks : Breaks} {st st₁ st₂ st₃ st' : Stream} {gap : Gap}

/-! ## Operators -/

lemma UnaryOp.ofLexeme?_lexeme (op : UnaryOp) : UnaryOp.ofLexeme? op.lexeme = some op := by
  cases op <;> rfl

lemma UpdateOp.ofLexeme?_symbol (op : UpdateOp) :
    UpdateOp.ofLexeme? (.mark op.symbol) = some op := by
  cases op <;> rfl

lemma AssignmentOp.ofLexeme?_symbol (op : AssignmentOp) :
    AssignmentOp.ofLexeme? (.mark op.symbol) = some op := by
  cases op <;> rfl

/-- **The pieces of a binary operator are passed as the operator**, unless a word after a type
test negates it. -/
theorem BinaryOp.operator_of_covers (h : st.Covers lb (op.pieces gap) st')
    (hnot : op = .is false → st'.current.lexeme ≠ .word "not") : st.Operator op st' := by
  obtain ⟨st₁, hfirst, -, hrest⟩ := Stream.covers_cons.mp h
  have hone (hop : BinaryOp.ofLexeme? op.lexeme = some op) (hsecond : op.second? = none) :
      st.Operator op st' := by
    have hlexeme : st.current.lexeme = op.lexeme := hfirst.lexeme_eq
    rw [hsecond] at hrest
    cases hrest
    exact .single (hlexeme ▸ hop) hfirst.next hnot
  cases op with
  | is negated =>
    cases negated with
    | false => exact hone rfl rfl
    | true =>
      obtain ⟨st₂, hsecond, -, ⟨⟩⟩ := Stream.covers_cons.mp hrest
      exact .isNot hfirst hsecond
  | isIn negated =>
    cases negated with
    | false => exact hone rfl rfl
    | true =>
      obtain ⟨st₂, hsecond, -, ⟨⟩⟩ := Stream.covers_cons.mp hrest
      exact .notIn hfirst hsecond
  | _ => exact hone rfl rfl

namespace Expr

/-- **An expression is read back** between two streams, at a level. -/
def Rereads (lb : LineBreaks) (breaks : Breaks) (e : Expr) (level : Level) (st st' : Stream) :
    Prop :=
  ∃ e', e.Reprints breaks lb.atLeast e' ∧ Placed lb st e' st' ∧ level.Reads e.isBareFilter st e' st'

/-- **The pieces of an expression are read back** wherever they stand. -/
def Readable (lb : LineBreaks) (breaks : Breaks) (e : Expr) : Prop :=
  ∀ ⦃gap st st'⦄, st.Covers lb (e.pieces breaks gap) st' → e.Rereads lb breaks e.level st st'

variable {e argument object property : Expr} {span : Span} {optional : Bool} {raw : String}
  {value : Binary64}

/-- **A part is read back** at the level that its place asks for. -/
theorem Readable.grouped (h : e.Readable lb breaks) (slot : Slot)
    (hcovers : st.Covers lb (Piece.grouped slot e (e.pieces breaks) gap) st') :
    e.Rereads lb breaks slot.level st st' := by
  unfold Piece.grouped at hcovers
  split at hcovers
  · obtain ⟨st₁, hopen, hstands, hcovers⟩ := Stream.covers_cons.mp hcovers
    obtain ⟨st₂, hinner, hcovers⟩ := Stream.covers_append.mp hcovers
    obtain ⟨st₃, hclose, hlast, ⟨⟩⟩ := Stream.covers_cons.mp hcovers
    obtain ⟨e', hreprints, hplaced, hreads⟩ := h hinner
    obtain ⟨l, ps, hpieces⟩ := e.exists_pieces_eq breaks
    rw [hpieces] at hinner
    obtain ⟨-, -, hfirst, -⟩ := Stream.covers_cons.mp hinner
    have hends : st₂.Ends := .of_endsExpr (by rw [hclose.lexeme_eq]; decide)
    have hexpression : Derives (.expression e') st₁ st₂ :=
      hreads.of_admits (show Level.expression.Admits e.level from trivial) hends
    exact ⟨e', hreprints, hplaced.parens hopen hstands hfirst hclose hlast,
      .parens hopen hexpression hclose _⟩
  · rename_i hparens
    obtain ⟨e', hreprints, hplaced, hreads⟩ := h hcovers
    exact ⟨e', hreprints, hplaced,
      hreads.of_admits (Level.admits_of_needsParens (by simpa using hparens))⟩

/-! ## Expressions of one token -/

lemma Readable.atom (hpieces : ∀ gap, e.pieces breaks gap = [⟨gap, l⟩])
    (hlevel : e.level = .suffixed)
    (hatom : ∀ span, ∃ e', (Token.mk l span).atom? = some e' ∧ e'.span = span ∧
      e.Reprints breaks lb.atLeast e') :
    e.Readable lb breaks := by
  intro gap st st' hcovers
  rw [hpieces] at hcovers
  have hcovers' := hcovers
  obtain ⟨st₁, hpass, hstands, ⟨⟩⟩ := Stream.covers_cons.mp hcovers'
  obtain ⟨e', hatom, hspan, hreprints⟩ := hatom st.current.span
  have hlexeme : st.current.lexeme = l := hpass.lexeme_eq
  have hcurrent : st.current = ⟨l, st.current.span⟩ := by rw [← hlexeme]
  refine ⟨e', hreprints, .of_span hcovers (by simp) ?_, ?_⟩
  · rw [hspan, hpass.next.lastStop]
  · rw [hlevel]
    intro r st'' _ hrest
    exact .suffixed (.atom (by rw [hcurrent]; exact hatom) hpass.next) hrest

lemma readable_identifier (hfree : name ∉ reserved) :
    (identifier span name).Readable lb breaks := by
  refine .atom (l := .word name) (fun gap => by rw [pieces]) rfl fun span' => ?_
  refine ⟨.identifier span' name, ?_, rfl, by simp [normal], by simp [doc]⟩
  unfold Token.atom?
  split <;> simp_all [reserved]

lemma readable_string {value : String} (h : IsStringLiteral value raw) :
    (string span value raw).Readable lb breaks := by
  refine .atom (l := .quoted raw) (fun gap => by rw [pieces]) rfl fun span' => ?_
  refine ⟨.string span' value raw, ?_, rfl, by simp [normal], by simp [doc]⟩
  rw [h.2]
  rfl

lemma literal?_number (hcanonical : value.Canonical) (hshort : value.isShortWhole = true)
    (span : Span) :
    (Token.mk (.number (String.ofList value.text)) span).literal? =
      some (.number span value (String.ofList value.text)) := by
  obtain ⟨n, htext, hvalue⟩ := Binary64.text_of_isShortWhole hshort
  simp only [Token.literal?, String.toList_ofList, htext]
  rw [hvalue hcanonical]

lemma readable_number (hcanonical : value.Canonical) (hshort : value.isShortWhole = true) :
    (number span value raw).Readable lb breaks := by
  refine .atom (l := .number (String.ofList value.text)) (fun gap => by rw [pieces]) rfl
    fun span' => ?_
  exact ⟨_, Token.atom?_of_literal? (literal?_number hcanonical hshort span'), rfl,
    by simp [normal], by simp [doc]⟩

lemma readable_boolean {value : Bool} : (boolean span value).Readable lb breaks := by
  refine .atom (l := .word (if value then "true" else "false")) (fun gap => by rw [pieces]) rfl
    fun span' => ?_
  refine ⟨.boolean span' value, ?_, rfl, by simp [normal], by simp [doc]⟩
  cases value <;> rfl

lemma readable_null : (null span).Readable lb breaks := by
  refine .atom (l := .word "null") (fun gap => by rw [pieces]) rfl fun span' => ?_
  exact ⟨.null span', rfl, rfl, by simp [normal], by simp [doc]⟩

/-! ## Operators -/

lemma readable_unary (hargument : argument.Readable lb breaks) :
    (unary span op argument).Readable lb breaks := by
  intro gap st st' hcovers
  rw [pieces] at hcovers
  obtain ⟨st₁, hpass, -, hrest⟩ := Stream.covers_cons.mp hcovers
  obtain ⟨argument', hreprints, -, hreads⟩ := hargument.grouped _ hrest
  have hlexeme : st.current.lexeme = op.lexeme := hpass.lexeme_eq
  have hop : UnaryOp.ofLexeme? st.current.lexeme = some op := by
    rw [hlexeme]
    exact op.ofLexeme?_lexeme
  refine ⟨.unary ⟨st.current.span.start, st'.lastStop⟩ op argument', ⟨?_, ?_⟩,
    .of_span hcovers (by simp) rfl, fun hsuffix => ?_⟩
  · simp [hreprints.normal]
  · simp [doc, hreprints.parens]
  · exact .unary hop hpass.next (hreads hsuffix)

lemma readable_update (hargument : argument.Readable lb breaks) :
    (update span op leading argument).Readable lb breaks := by
  intro gap st st' hcovers
  rw [pieces] at hcovers
  cases leading with
  | true =>
    obtain ⟨st₁, hpass, -, hrest⟩ := Stream.covers_cons.mp hcovers
    obtain ⟨argument', hreprints, -, hreads⟩ := hargument.grouped .head hrest
    have hlexeme : st.current.lexeme = .mark op.symbol := hpass.lexeme_eq
    have hop : UpdateOp.ofLexeme? st.current.lexeme = some op := by
      rw [hlexeme]
      exact op.ofLexeme?_symbol
    have hunary : UnaryOp.ofLexeme? st.current.lexeme = none := by
      rw [hlexeme]
      cases op <;> rfl
    refine ⟨.update ⟨st.current.span.start, st'.lastStop⟩ op true argument', ⟨?_, ?_⟩,
      .of_span hcovers (by simp) rfl, fun hsuffix => ?_⟩
    · simp only [normal, hreprints.normal]
    · simp only [doc, hreprints.parens, if_true]
    · refine .leadingUpdate hunary hop hpass.next (hreads (fun _ hopen => ?_) (.suffixesEnd hsuffix))
      rw [hopen] at hsuffix
      exact absurd hsuffix (by decide)
  | false =>
    have hcovers' := hcovers
    obtain ⟨st₁, hhead, hrest⟩ := Stream.covers_append.mp hcovers'
    obtain ⟨st₂, hpass, -, ⟨⟩⟩ := Stream.covers_cons.mp hrest
    obtain ⟨argument', hreprints, -, hreads⟩ := hargument.grouped .head hhead
    have hlexeme : st₁.current.lexeme = .mark op.symbol := hpass.lexeme_eq
    have hop : UpdateOp.ofLexeme? st₁.current.lexeme = some op := by
      rw [hlexeme]
      exact op.ofLexeme?_symbol
    refine ⟨.update ⟨st.current.span.start, st'.lastStop⟩ op false argument', ⟨?_, ?_⟩,
      .of_span hcovers (by simp) rfl, fun _ => ?_⟩
    · simp [hreprints.normal]
    · simp [doc, hreprints.parens]
    · refine Level.operand_of_suffixed (hreads (fun _ hopen => ?_) (.trailingUpdate hop hpass.next))
      rw [hopen] at hop
      exact absurd hop (by simp [UpdateOp.ofLexeme?])

lemma ne_not_of_textIn (hwf : e.WellFormed) (hp : e.Plain breaks)
    (htext : beginsWithWord "not" (e.textIn breaks slot) = false)
    (hcovers : st.Covers lb (Piece.grouped slot e (e.pieces breaks) gap) st') :
    st.current.lexeme ≠ .word "not" := by
  intro hnot
  -- the text of the part starts with the same token, though after other blanks
  obtain ⟨l, ps, hpieces⟩ := Piece.exists_grouped_eq (e.exists_pieces_eq breaks) slot e
  rw [hpieces] at hcovers
  obtain ⟨_, hpass, -, -⟩ := Stream.covers_cons.mp hcovers
  have hlexeme : st.current.lexeme = l := hpass.lexeme_eq
  obtain rfl : l = .word "not" := hlexeme.symm.trans hnot
  have hstart : (Writer.start "").Wrote [] [] .none :=
    ⟨by simp [Writer.start], by simp [Writer.start, Writer.atLineStart], [], [],
      by simp [Writer.start], .nil, rfl⟩
  obtain ⟨cs, blanks, hwritten, hspells, rfl⟩ := ((e.prints hwf hp).parens slot e hstart).text
  have hlegible := (Operand.grouped (e.run hwf hp) slot e .none).legible
  have htextIn : e.textIn breaks slot = cs := by
    simpa [textIn, Doc.render, Writer.output] using hwritten
  rw [List.nil_append, hpieces] at hspells
  rw [hpieces] at hlegible
  cases hspells with
  | @cons p ps blanks cs hgap hrest =>
    obtain rfl : blanks = [] := hgap
    have hends : ∀ c ∈ (cs ++ []).head?, isWordChar c = false :=
      hlegible.endsBefore hrest fun q _ => Lexeme.endsBefore_of_blank _ (by simp)
    have hbegins : beginsWithWord "not" ("not".toList ++ cs) = true := by
      cases cs with
      | nil => decide
      | cons c cs => simpa [beginsWithWord] using hends
    rw [htextIn] at htext
    exact absurd (hbegins.symm.trans htext) (by simp)

lemma readable_binary (hleft : left.Readable lb breaks) (hright : right.Readable lb breaks)
    (hnot : ∀ ⦃gap : Gap⦄ ⦃st st' : Stream⦄, op = .is false →
      st.Covers lb (Piece.grouped (.right op) right (right.pieces breaks) gap) st' →
      st.current.lexeme ≠ .word "not") :
    (binary span op left right).Readable lb breaks := by
  intro gap st st' hcovers
  obtain ⟨st₁, hcoversLeft, hcovers⟩ := Stream.covers_append.mp hcovers
  obtain ⟨st₂, hcoversOp, hcoversRight⟩ := Stream.covers_append.mp hcovers
  obtain ⟨left', hreprints, hplaced, hreads⟩ := hleft.grouped _ hcoversLeft
  obtain ⟨right', hreprints', hplaced', hreads'⟩ := hright.grouped _ hcoversRight
  have hoperator := BinaryOp.operator_of_covers hcoversOp fun h => hnot h hcoversRight
  have hne : Piece.grouped (.right op) right (right.pieces breaks) op.gap ≠ [] := by
    obtain ⟨l, ps, hpieces⟩ := Piece.exists_grouped_eq (right.exists_pieces_eq breaks) (.right op) right
    simp [hpieces]
  have hle : st₁.lastStop ≤ st₂.current.span.start :=
    hcoversOp.lastStop_le.trans (hcoversRight.lastStop_le_start hne)
  refine ⟨.binary (left'.span.merge right'.span) op left' right', ⟨?_, ?_⟩,
    hplaced.merge hplaced' hle rfl, hreads.operation hoperator hreads'⟩
  · simp [hreprints.normal, hreprints'.normal]
  · simp [doc, hreprints.parens, hreprints'.parens]

/-! ## Choices and assignments -/

lemma Readable.expression (h : e.Readable lb breaks)
    (hcovers : st.Covers lb (e.pieces breaks gap) st') (hends : st'.Ends) :
    ∃ e', e.Reprints breaks lb.atLeast e' ∧ Placed lb st e' st' ∧
      Derives (.expression e') st st' := by
  obtain ⟨e', hreprints, hplaced, hreads⟩ := h hcovers
  have hexpression : Level.expression.Reads e.isBareFilter st e' st' :=
    hreads.of_admits (show Level.expression.Admits e.level from trivial)
  exact ⟨e', hreprints, hplaced, hexpression hends⟩

lemma stands_of_pieces (hcovers : st.Covers lb (e.pieces breaks gap) st') :
    ∃ l, st.Stands lb ⟨gap, l⟩ := by
  obtain ⟨l, ps, hpieces⟩ := e.exists_pieces_eq breaks
  rw [hpieces] at hcovers
  obtain ⟨_, -, hstands, -⟩ := Stream.covers_cons.mp hcovers
  exact ⟨l, hstands⟩

/-- **A choice is read back**, on as many lines as it is printed on. -/
theorem readable_conditional (htest : test.Readable lb breaks)
    (hconsequent : consequent.Readable lb breaks) (halternate : alternate.Readable lb breaks) :
    (conditional span test consequent alternate).Readable lb breaks := by
  intro gap st st' hcovers
  rw [pieces, Piece.choice] at hcovers
  generalize hbroken : breaks 1 test.span.stop consequent.span.start = broken at hcovers
  obtain ⟨st₁, hcoversTest, hcovers⟩ := Stream.covers_append.mp hcovers
  obtain ⟨st₂, hmark, hstands, hcovers⟩ := Stream.covers_cons.mp hcovers
  obtain ⟨st₃, hcoversConsequent, hcovers⟩ := Stream.covers_append.mp hcovers
  obtain ⟨st₄, hcolon, hstands', hcoversAlternate⟩ := Stream.covers_cons.mp hcovers
  have hlexeme : st₁.current.lexeme = .mark "?" := hmark.lexeme_eq
  have hlexeme' : st₃.current.lexeme = .mark ":" := hcolon.lexeme_eq
  obtain ⟨test', hreprints, hplaced, hreads⟩ := htest.grouped .test hcoversTest
  obtain ⟨consequent', hreprints₁, hplaced₁, hderives⟩ :=
    hconsequent.expression hcoversConsequent (.of_endsExpr (by rw [hlexeme']; decide))
  obtain ⟨alternate', hreprints₂, hplaced₂, hreads₂⟩ := halternate hcoversAlternate
  -- the line is broken before the mark or not at all
  have hlayout : lb.atLeast 1 test'.span.stop consequent'.span.start = broken := by
    obtain ⟨l, hfirst⟩ := stands_of_pieces hcoversConsequent
    have hbefore := hfirst.sameLine_before (by simp)
    rw [hmark.next.lastStop] at hbefore
    have hsame := ((hstands.sameLine_inside (by decide)).trans hbefore).trans hplaced₁.start
    rw [hplaced.stop.atLeast_left (hstands.lastStop_le.trans hsame.le) hsame.le_size,
      hsame.atLeast_right hstands.lastStop_le, hstands.before]
    cases broken <;> rfl
  have hle : st₁.lastStop ≤ st₄.current.span.start := by
    obtain ⟨l, hfirst⟩ := stands_of_pieces hcoversAlternate
    calc st₁.lastStop ≤ st₂.lastStop := hstands.lastStop_le_next hmark.next
      _ ≤ st₃.lastStop := hcoversConsequent.lastStop_le
      _ ≤ st₄.lastStop := hstands'.lastStop_le_next hcolon.next
      _ ≤ st₄.current.span.start := hfirst.lastStop_le
  refine ⟨.conditional (test'.span.merge alternate'.span) test' consequent' alternate', ⟨?_, ?_⟩,
    hplaced.merge hplaced₂ hle rfl, fun hends => ?_⟩
  · simp [hreprints.normal, hreprints₁.normal, hreprints₂.normal]
  · simp [doc, hreprints.parens, hreprints₁.doc, hreprints₂.doc, hlayout, hbroken]
  · have htest' : Derives (.binary 0 test') st st₁ :=
      hreads.derives_binary le_rfl (.of_endsOperand (by rw [hlexeme]; decide))
    have halternate' : Derives (.expression alternate') st₄ st' :=
      hreads₂.of_admits (show Level.expression.Admits alternate.level from trivial) hends
    have hchoice := Derives.conditional htest' hmark hderives hcolon halternate'
    exact .plain (atArrow_of_choice hchoice hends.stops.ne_arrow) hchoice hends.assignment

lemma readable_assignment {op : AssignmentOp} {target value : Expr}
    (hassignable : target.isAssignable = true) (htarget : target.Readable lb breaks)
    (hvalue : value.Readable lb breaks) : (assignment span op target value).Readable lb breaks := by
  intro gap st st' hcovers
  obtain ⟨st₁, hcoversTarget, hcovers⟩ := Stream.covers_append.mp hcovers
  obtain ⟨st₂, hmark, hstands, hcoversValue⟩ := Stream.covers_cons.mp hcovers
  have hlexeme : st₁.current.lexeme = .mark op.symbol := hmark.lexeme_eq
  obtain ⟨target', hreprints, hplaced, hreads⟩ := htarget hcoversTarget
  obtain ⟨value', hreprints', hplaced', hreads'⟩ := hvalue hcoversValue
  have hle : st₁.lastStop ≤ st₂.current.span.start := by
    obtain ⟨l, hfirst⟩ := stands_of_pieces hcoversValue
    exact (hstands.lastStop_le_next hmark.next).trans hfirst.lastStop_le
  refine ⟨.assignment (target'.span.merge value'.span) op target' value', ⟨?_, ?_⟩,
    hplaced.merge hplaced' hle rfl, fun hends => ?_⟩
  · simp [hreprints.normal, hreprints'.normal]
  · simp [doc, hreprints.doc, hreprints'.doc]
  · have hbinary : (Level.binary 0).Reads target.isBareFilter st target' st₁ := by
      refine hreads.of_admits ?_
      cases target <;> simp_all [isAssignable, level, Level.Admits]
    have hchoice : Derives (.choice target') st st₁ := by
      refine hbinary.derives_choice (.of_endsOperand ?_) ?_
      all_goals
        rw [hlexeme]
        cases op <;> decide
    have hop : AssignmentOp.ofLexeme? st₁.current.lexeme = some op := by
      rw [hlexeme]
      exact op.ofLexeme?_symbol
    have hne : st₁.current.lexeme ≠ .mark "=>" := by
      rw [hlexeme]
      cases op <;> decide
    exact .assignment (atArrow_of_choice hchoice hne) hchoice hop
      (hreprints.isAssignable_eq.trans hassignable) hmark.next
      (hreads'.of_admits (show Level.expression.Admits value.level from trivial) hends)

/-! ## Suffixes -/

/-- **A suffix is read back** if its own pieces are, after whatever they are applied to. -/
theorem Readable.suffix (hhead : head.Readable lb breaks)
    (hpieces : ∀ gap, e.pieces breaks gap = Piece.grouped .head head (head.pieces breaks) gap ++ qs)
    (hne : qs ≠ []) (hlevel : e.level = .suffixed)
    (hsuffix : ∀ ⦃st₁ st' : Stream⦄ (start : Nat) (head' : Expr),
      head.Reprints breaks lb.atLeast head' → st₁.Covers lb qs st' →
      (head.isBareFilter = true → st₁.current.lexeme ≠ .mark "(") ∧
      ∃ e', e'.span = ⟨start, st'.lastStop⟩ ∧ e.Reprints breaks lb.atLeast e' ∧
        ∀ r st'', (e.isBareFilter = true → st'.current.lexeme ≠ .mark "(") →
          Derives (.suffixes start e' r) st' st'' → Derives (.suffixes start head' r) st₁ st'') :
    e.Readable lb breaks := by
  intro gap st st' hcovers
  rw [hpieces] at hcovers
  have hcovers' := hcovers
  obtain ⟨st₁, hcoversHead, hcoversSuffix⟩ := Stream.covers_append.mp hcovers'
  obtain ⟨head', hreprints, -, hreads⟩ := hhead.grouped .head hcoversHead
  obtain ⟨hbare, e', hspan, hreprints', hderives⟩ :=
    hsuffix st.current.span.start head' hreprints hcoversSuffix
  refine ⟨e', hreprints', .of_span hcovers (by simp [hne]) hspan, ?_⟩
  rw [hlevel]
  intro r st'' hbare' hrest
  exact hreads hbare (hderives r st'' hbare' hrest)

lemma readable_member (hobject : object.Readable lb breaks) (hproperty : property.IsWord) :
    (member span object property false optional).Readable lb breaks := by
  cases property with
  | identifier place name =>
    have hpieces (gap : Gap) :
        (member span object (.identifier place name) false optional).pieces breaks gap =
          Piece.grouped .head object (object.pieces breaks) gap ++
            [⟨.none, .mark (if optional then "?." else ".")⟩, ⟨.none, .word name⟩] := by
      cases optional <;> simp [pieces]
    refine hobject.suffix hpieces (List.cons_ne_nil _ _) rfl
      fun st₁ st' start object' hreprints hcovers => ?_
    obtain ⟨st₂, hmark, -, hcovers⟩ := Stream.covers_cons.mp hcovers
    obtain ⟨st₃, hname, -, ⟨⟩⟩ := Stream.covers_cons.mp hcovers
    refine ⟨fun _ => ?_,
      .member ⟨start, st'.lastStop⟩ object' (.identifier st₂.current.span name) false optional, rfl,
      ⟨?_, ?_⟩, fun r st'' _ hrest => ?_⟩
    · rw [hmark.lexeme_eq]
      cases optional <;> decide
    · simp [hreprints.normal]
    · simp [doc, hreprints.parens]
    · cases optional with
      | true => exact .optional hmark (.optionalMember hname) hrest
      | false => exact .member hmark hname hrest
  | _ => exact hproperty.elim

lemma optional_of_covers (h : st.Covers lb (if optional then [⟨.none, .mark "?."⟩] else []) st₁) :
    (optional = true → st.Passes (.mark "?.") st₁) ∧ (optional = false → st = st₁) := by
  cases optional with
  | true =>
    obtain ⟨_, hmark, -, ⟨⟩⟩ := Stream.covers_cons.mp h
    exact ⟨fun _ => hmark, nofun⟩
  | false =>
    cases h
    exact ⟨nofun, fun _ => rfl⟩

lemma readable_computedMember (hobject : object.Readable lb breaks)
    (hproperty : property.Readable lb breaks) :
    (member span object property true optional).Readable lb breaks := by
  have hpieces (gap : Gap) : (member span object property true optional).pieces breaks gap =
      Piece.grouped .head object (object.pieces breaks) gap ++
        ((if optional then [⟨.none, .mark "?."⟩] else []) ++ ⟨.none, .mark "["⟩ ::
          (property.pieces breaks .none ++ [⟨.none, .mark "]"⟩])) := by
    cases optional <;> simp [pieces]
  refine hobject.suffix hpieces (by simp) rfl fun st₁ st' start object' hreprints hcovers => ?_
  obtain ⟨st₂, hoptional, hcovers⟩ := Stream.covers_append.mp hcovers
  obtain ⟨st₃, hopen, -, hcovers⟩ := Stream.covers_cons.mp hcovers
  obtain ⟨st₄, hcoversProperty, hcovers⟩ := Stream.covers_append.mp hcovers
  obtain ⟨st₅, hclose, -, ⟨⟩⟩ := Stream.covers_cons.mp hcovers
  have hlexeme : st₄.current.lexeme = .mark "]" := hclose.lexeme_eq
  obtain ⟨property', hreprints', -, hderives⟩ :=
    hproperty.expression hcoversProperty (.of_endsExpr (by rw [hlexeme]; decide))
  have hbefore := optional_of_covers hoptional
  refine ⟨fun _ => ?_, .member ⟨start, st'.lastStop⟩ object' property' true optional, rfl,
    ⟨?_, ?_⟩, fun r st'' _ hrest => ?_⟩
  · cases optional with
    | true =>
      rw [(hbefore.1 rfl).lexeme_eq]
      decide
    | false =>
      rw [hbefore.2 rfl, hopen.lexeme_eq]
      decide
  · simp [hreprints.normal, hreprints'.normal]
  · cases optional <;> simp only [doc, hreprints.parens, hreprints'.doc]
  · cases optional with
    | true => exact .optional (hbefore.1 rfl) (.optionalComputed hopen hderives hclose) hrest
    | false => exact .computed (hbefore.2 rfl ▸ hopen) hderives hclose hrest

end Expr

end ComponentTemplate
