import ComponentTemplate.Proofs.Lookahead
import ComponentTemplate.Proofs.Normal

/-!
# Levels of expressions

Each expression has a level: what it may be used for without parentheses. What is read of an
expression depends on what follows, so each level says under which condition an expression ends
where its last token does.
-/

namespace ComponentTemplate

open Grammar

/-! ## Where expressions end -/

lemma Lexeme.mem_of_startsSuffix {l : Lexeme} (h : l.startsSuffix = true) :
    l ∈ [.mark ".", .mark "?.", .mark "[", .mark "(", .mark "|", .mark "++", .mark "--"] := by
  simp only [startsSuffix, Bool.or_eq_true, decide_eq_true_eq] at h
  rcases h with h | h
  · exact List.mem_append_left [.mark "++", .mark "--"] h
  · unfold UpdateOp.ofLexeme? at h
    split at h
    · decide
    · decide
    · cases h

namespace Stream

variable {st st₁ st' : Stream}

/-- **An operand ends before a stream**: what stands there is no suffix, and no operator of at
least a given tier. -/
structure Stops (tier : Nat) (st : Stream) : Prop where
  startsSuffix : st.current.lexeme.startsSuffix = false
  ne_arrow : st.current.lexeme ≠ .mark "=>"
  operator? : ∃ found, st.operator? = .ok found ∧ ∀ op ∈ found, op.tier < tier

/-- **An expression ends before a stream.** -/
structure Ends (st : Stream) : Prop where
  stops : st.Stops 0
  ne_question : st.current.lexeme ≠ .mark "?"
  assignment : AssignmentOp.ofLexeme? st.current.lexeme = none

variable {tier : Nat}

lemma Stops.mono (h : st.Stops tier) (hle : tier ≤ tier') : st.Stops tier' := by
  obtain ⟨found, hfound, htier⟩ := h.operator?
  exact ⟨h.startsSuffix, h.ne_arrow, found, hfound, fun op hop => (htier op hop).trans_le hle⟩

lemma Operator.stops {op : BinaryOp} (h : st.Operator op st₁) (htier : op.tier < tier) :
    st.Stops tier := by
  obtain ⟨found, hfound, -, hop⟩ := passOperator_of_operator h
  refine ⟨?_, ?_, some found, hfound, ?_⟩
  · by_contra hsuffix
    have hmem := Lexeme.mem_of_startsSuffix (by simpa using hsuffix)
    cases h with
    | single hop _ _ =>
      have hnone : ∀ l ∈ [Lexeme.mark ".", .mark "?.", .mark "[", .mark "(", .mark "|",
          .mark "++", .mark "--"], BinaryOp.ofLexeme? l = none := by
        decide
      simp [hnone _ hmem] at hop
    | notIn hnot _ => simp [hnot.lexeme_eq] at hmem
    | isNot his _ => simp [his.lexeme_eq] at hmem
  · have hends := h.endsParam
    intro harrow
    rw [harrow] at hends
    exact absurd hends (by decide)
  · rintro _ ⟨⟩
    omega

lemma Stops.binaryRest (h : st.Stops tier) (left : Expr) :
    Derives (.binaryRest tier left left) st st := by
  obtain ⟨found, hfound, htier⟩ := h.operator?
  cases found with
  | none => exact .binaryEnd hfound
  | some op => exact .binaryWeaker hfound (htier op rfl)

end Stream

def Lexeme.endsOperand (l : Lexeme) : Bool :=
  !l.startsSuffix && l ≠ .mark "=>" && l ≠ .word "not" && BinaryOp.ofLexeme? l = none

def Lexeme.endsExpr (l : Lexeme) : Bool :=
  l.endsOperand && l ≠ .mark "?" && AssignmentOp.ofLexeme? l = none

lemma Stream.Stops.of_endsOperand {st : Stream} (h : st.current.lexeme.endsOperand = true) :
    st.Stops 0 := by
  simp only [Lexeme.endsOperand, Bool.and_eq_true, Bool.not_eq_true', decide_eq_true_eq] at h
  obtain ⟨⟨⟨hsuffix, harrow⟩, hnot⟩, hop⟩ := h
  refine ⟨hsuffix, harrow, none, ?_, by simp⟩
  unfold Stream.operator?
  rw [if_neg hnot, hop]

lemma Stream.Ends.of_endsExpr {st : Stream} (h : st.current.lexeme.endsExpr = true) : st.Ends := by
  simp only [Lexeme.endsExpr, Bool.and_eq_true, decide_eq_true_eq] at h
  obtain ⟨⟨hoperand, hquestion⟩, hassign⟩ := h
  exact ⟨.of_endsOperand hoperand, hquestion, hassign⟩

lemma Token.no_sign_of_atom? {t : Token} {e : Expr} (h : t.atom? = some e) :
    UnaryOp.ofLexeme? t.lexeme = none ∧ UpdateOp.ofLexeme? t.lexeme = none := by
  unfold atom? literal? at h
  constructor
  · unfold UnaryOp.ofLexeme?
    split <;> simp_all [reserved]
  · unfold UpdateOp.ofLexeme?
    split <;> simp_all

/-! ## Levels -/

/-- **What an expression may be used for** without parentheses: as an expression, as an operand
of operators up to a tier, as the operand of a sign, or before a suffix. -/
inductive Level where
  | expression
  | binary (tier : Nat)
  | unary
  | suffixed
  deriving DecidableEq, Repr

def Expr.level : Expr → Level
  | .conditional .. | .assignment .. | .arrow .. => .expression
  | .binary _ op _ _ => .binary op.tier
  | .unary .. | .update .. => .unary
  | _ => .suffixed

def Slot.level : Slot → Level
  | .enclosed | .body => .expression
  | .test => .binary 0
  | .left op => .binary op.tier
  | .right op => .binary (op.tier + 1)
  | .argument _ => .unary
  | .head => .suffixed

namespace Level

def Admits : Level → Level → Prop
  | expression, _ => True
  | binary tier, binary tier' => tier ≤ tier'
  | binary _, level => level ≠ expression
  | unary, level => level = unary ∨ level = suffixed
  | suffixed, level => level = suffixed

/-- **Parentheses are put around every part** that does not meet what its place asks for. -/
theorem admits_of_needsParens (h : needsParens slot e = false) : slot.level.Admits e.level := by
  cases slot <;> cases e <;>
    simp_all [needsParens, Slot.level, Expr.level, Admits, Expr.isOpenEnded]

/-- **An expression is read at a level** between two streams, in every context of this level
that ends or goes on at the second stream. A `bare` filter takes arguments if they follow. -/
def Reads (bare : Bool) (st : Stream) (e : Expr) (st' : Stream) : Level → Prop
  | expression => st'.Ends → Derives (.expression e) st st'
  | binary tier => ∀ ⦃tier' r st''⦄, tier' ≤ tier → st'.Stops (tier + 1) →
      Derives (.binaryRest tier' e r) st' st'' → Derives (.binary tier' r) st st''
  | unary => st'.current.lexeme.startsSuffix = false → Derives (.unary e) st st'
  | suffixed => ∀ ⦃r st''⦄, (bare = true → st'.current.lexeme ≠ .mark "(") →
      Derives (.suffixes st.current.span.start e r) st' st'' → Derives (.suffixed r) st st''

variable {bare : Bool} {st st' : Stream} {e : Expr}

lemma operand_of_suffixed (h : Derives (.suffixed e) st st') : Derives (.unary e) st st' := by
  obtain ⟨hunary, hupdate⟩ : UnaryOp.ofLexeme? st.current.lexeme = none ∧
      UpdateOp.ofLexeme? st.current.lexeme = none := by
    cases h with
    | suffixed hhead _ =>
      cases hhead with
      | atom hatom _ => exact Token.no_sign_of_atom? hatom
      | parens hopen _ _ | array hopen _ | object hopen _ _ => rw [hopen.lexeme_eq]; decide
  exact .operand hunary hupdate h

lemma Reads.unary_of_suffixed (h : suffixed.Reads bare st e st') : unary.Reads bare st e st' := by
  intro hsuffix
  refine operand_of_suffixed (h ?_ (.suffixesEnd hsuffix))
  intro _ hopen
  rw [hopen] at hsuffix
  exact absurd hsuffix (by decide)

lemma Reads.binary_of_unary (h : unary.Reads bare st e st') (tier : Nat) :
    (binary tier).Reads bare st e st' := by
  intro tier' r st'' _ hstops hrest
  exact .binary (h hstops.startsSuffix) hrest

variable {tier : Nat} {st₁ st₂ : Stream}

lemma Reads.derives_binary (h : (binary tier).Reads bare st e st') (hle : tier' ≤ tier)
    (hstops : st'.Stops tier') : Derives (.binary tier' e) st st' :=
  h hle (hstops.mono (by omega)) (hstops.binaryRest e)

/-- **An operator between operands is read** where both are read as its operands. -/
theorem Reads.operation (hleft : (binary op.tier).Reads bare st left st₁)
    (hop : st₁.Operator op st₂) (hright : (binary (op.tier + 1)).Reads bare' st₂ right st') :
    (binary op.tier).Reads bare'' st (.binary (left.span.merge right.span) op left right) st' := by
  intro tier r st'' htier hstops hrest
  have hderives : Derives (.binary (op.tier + 1) right) st₂ st' :=
    hright.derives_binary le_rfl hstops
  exact hleft htier (hop.stops (Nat.lt_succ_self _)) (.binaryStep hop htier hderives hrest)

lemma Reads.derives_choice (h : (binary tier).Reads bare st e st') (hstops : st'.Stops 0)
    (hne : st'.current.lexeme ≠ .mark "?") : Derives (.choice e) st st' :=
  .test (h.derives_binary (Nat.zero_le _) hstops) hne

lemma Reads.expression_of_binary (h : (binary tier).Reads bare st e st') :
    expression.Reads bare st e st' := by
  intro hends
  have hchoice := h.derives_choice hends.stops hends.ne_question
  exact .plain (atArrow_of_choice hchoice hends.stops.ne_arrow) hchoice hends.assignment

/-- **What is read at a level is read where less is asked for.** -/
theorem Reads.of_admits {level level' : Level} (h : level'.Reads bare st e st')
    (hadmits : level.Admits level') : level.Reads bare st e st' := by
  cases level' with
  | expression =>
    cases level with
    | expression => exact h
    | _ => simp [Admits] at hadmits
  | binary tier =>
    cases level with
    | expression => exact h.expression_of_binary
    | binary tier' =>
      intro tier'' r st'' hle hstops hrest
      have hle' : tier' ≤ tier := hadmits
      exact h (hle.trans hle') (hstops.mono (by omega)) hrest
    | _ => simp [Admits] at hadmits
  | unary =>
    cases level with
    | expression => exact (h.binary_of_unary 0).expression_of_binary
    | binary tier' => exact h.binary_of_unary tier'
    | unary => exact h
    | suffixed => simp [Admits] at hadmits
  | suffixed =>
    cases level with
    | expression => exact (h.unary_of_suffixed.binary_of_unary 0).expression_of_binary
    | binary tier' => exact h.unary_of_suffixed.binary_of_unary tier'
    | unary => exact h.unary_of_suffixed
    | suffixed => exact h

lemma Reads.parens {st₃ : Stream} (hopen : st.Passes (.mark "(") st₁)
    (h : Derives (.expression e) st₁ st₂) (hclose : st₂.Passes (.mark ")") st₃) (level : Level) :
    level.Reads bare st e st₃ := by
  have hsuffixed : suffixed.Reads bare st e st₃ := by
    intro r st'' _ hrest
    exact .suffixed (.parens hopen h hclose) hrest
  refine hsuffixed.of_admits ?_
  cases level <;> simp [Admits]

end Level

/-! ## Places of expressions -/

namespace Stream

variable {lb : LineBreaks} {st st₁ st' : Stream} {p : Piece} {ps : List Piece}

lemma Stands.sameLine_before (h : st.Stands lb p) (hgap : p.gap ≠ .line) :
    lb.SameLine st.lastStop st.current.span.start := by
  have hstop := h.stop_eq
  have hsize := h.stop_le
  exact ⟨h.lastStop_le, by omega, by simp [h.before, hgap]⟩

lemma Stands.sameLine_inside (h : st.Stands lb ⟨gap, l⟩) (hl : '\n' ∉ l.chars) :
    lb.SameLine st.current.span.start st.current.span.stop := by
  have hstop := h.stop_eq
  exact ⟨by omega, h.stop_le, by simp [h.inside, hl]⟩

lemma Stands.lastStop_le_next (h : st.Stands lb p) (hnext : st.Next st₁) :
    st.lastStop ≤ st₁.lastStop := by
  have hle := h.lastStop_le
  have hstop := h.stop_eq
  have hlast := hnext.lastStop
  omega

lemma Covers.lastStop_le_start (h : st.Covers lb ps st') (hne : ps ≠ []) :
    st.lastStop ≤ st.current.span.start := by
  cases h with
  | nil => exact absurd rfl hne
  | cons _ hstands _ => exact hstands.lastStop_le

lemma Covers.le (h : st.Covers lb ps st') (hne : ps ≠ []) :
    st.current.span.start ≤ st'.lastStop ∧ st'.lastStop ≤ lb.size := by
  induction h with
  | nil => exact absurd rfl hne
  | @cons st st₁ st' p ps hpass hstands hrest ih =>
    have hstop := hstands.stop_eq
    have hsize := hstands.stop_le
    have hlast := hpass.next.lastStop
    cases hrest with
    | nil => exact ⟨by omega, by omega⟩
    | cons hpass' hstands' hrest' =>
      have hle := hstands'.lastStop_le
      have hih := ih (List.cons_ne_nil _ _)
      exact ⟨by omega, hih.2⟩

lemma Covers.lastStop_le (h : st.Covers lb ps st') : st.lastStop ≤ st'.lastStop := by
  cases ps with
  | nil =>
    cases h
    exact le_rfl
  | cons p ps =>
    exact (h.lastStop_le_start (List.cons_ne_nil _ _)).trans (h.le (List.cons_ne_nil _ _)).1

end Stream

/-- **An expression stands between two streams**: its ends are on the lines of the first and
the last token. -/
structure Placed (lb : LineBreaks) (st : Stream) (e : Expr) (st' : Stream) : Prop where
  start : lb.SameLine st.current.span.start e.span.start
  le : e.span.start ≤ e.span.stop
  stop : lb.SameLine e.span.stop st'.lastStop

namespace Placed

variable {lb : LineBreaks} {st st₁ st₂ st₃ st' : Stream} {e : Expr} {ps : List Piece}

lemma of_span (h : st.Covers lb ps st') (hne : ps ≠ [])
    (hspan : e.span = ⟨st.current.span.start, st'.lastStop⟩) : Placed lb st e st' := by
  obtain ⟨hle, hsize⟩ := h.le hne
  refine ⟨?_, ?_, ?_⟩
  all_goals rw [hspan]
  · exact .refl (hle.trans hsize)
  · exact hle
  · exact .refl hsize

lemma merge (hleft : Placed lb st left st₁) (hright : Placed lb st₂ right st')
    (hle : st₁.lastStop ≤ st₂.current.span.start) (hspan : e.span = left.span.merge right.span) :
    Placed lb st e st' := by
  have hle₁ := hleft.le
  have hle₂ := hleft.stop.le
  have hle₃ := hright.start.le
  have hle₄ := hright.le
  have hmerge : e.span = ⟨left.span.start, right.span.stop⟩ := by
    rw [hspan, Span.merge, Nat.min_eq_left (by omega), Nat.max_eq_right (by omega)]
  refine ⟨?_, ?_, ?_⟩
  all_goals rw [hmerge]
  · exact hleft.start
  · show left.span.start ≤ right.span.stop
    omega
  · exact hright.stop

lemma parens {l : Lexeme} (h : Placed lb st₁ e st₂) (hopen : st.Passes (.mark "(") st₁)
    {gap : Gap} (hstands : st.Stands lb ⟨gap, .mark "("⟩) (hfirst : st₁.Stands lb ⟨.none, l⟩)
    (hclose : st₂.Passes (.mark ")") st₃) (hlast : st₂.Stands lb ⟨.none, .mark ")"⟩) :
    Placed lb st e st₃ where
  start := by
    have hbefore := hfirst.sameLine_before (by simp)
    rw [hopen.next.lastStop] at hbefore
    exact ((hstands.sameLine_inside (by decide)).trans hbefore).trans h.start
  le := h.le
  stop := by
    have hinside := hlast.sameLine_inside (by decide)
    rw [← hclose.next.lastStop] at hinside
    exact h.stop.trans ((hlast.sameLine_before (by simp)).trans hinside)

end Placed

end ComponentTemplate
