import ComponentTemplate.Proofs.Legibility

/-!
# What stands ahead

Whether an arrow function stands at a stream is decided before anything is read, by looking at
the tokens ahead. The decision agrees with the grammar: a choice that no arrow mark follows is
not taken for one, and parameters that it follows are.
-/

namespace ComponentTemplate

def Lexeme.endsParam (l : Lexeme) : Bool := l ∈ [.mark ",", .mark ")", .mark "=>"]

variable {l : Lexeme}

lemma Lexeme.endsParam_eq_false {P : Lexeme → Prop} (h : P l) (hcomma : ¬P (.mark ","))
    (hclose : ¬P (.mark ")")) (harrow : ¬P (.mark "=>")) : l.endsParam = false := by
  by_contra hne
  simp only [endsParam, List.mem_cons, List.not_mem_nil, or_false, Bool.not_eq_false,
    decide_eq_true_eq] at hne
  rcases hne with rfl | rfl | rfl
  · exact hcomma h
  · exact hclose h
  · exact harrow h

lemma Lexeme.Opens.endsParam (h : l.Opens bare) : l.endsParam = false := by
  cases l with
  | mark text =>
    have hall : ∀ text ∈ openingMarks ++ signs, (Lexeme.mark text).endsParam = false := by
      decide +kernel
    refine hall text ?_
    rcases h with h | ⟨-, h⟩
    · exact List.mem_append_left _ h
    · exact List.mem_append_right _ h
  | finish => exact h.elim
  | _ => simp [Lexeme.endsParam]

lemma UnaryOp.opens_of_ofLexeme? (h : UnaryOp.ofLexeme? l = some op) : l.Opens false := by
  unfold UnaryOp.ofLexeme? at h
  split at h
  · trivial
  · exact .inr ⟨rfl, by decide⟩
  · exact .inr ⟨rfl, by decide⟩
  · cases h

lemma UpdateOp.opens_of_ofLexeme? (h : UpdateOp.ofLexeme? l = some op) : l.Opens false := by
  unfold UpdateOp.ofLexeme? at h
  split at h
  · exact .inr ⟨rfl, by decide⟩
  · exact .inr ⟨rfl, by decide⟩
  · cases h

lemma Token.opens_of_atom? {t : Token} {e : Expr} (h : t.atom? = some e) : t.lexeme.Opens true := by
  unfold atom? literal? at h
  split at h <;> try split at h
  all_goals simp_all [Lexeme.Opens]

lemma Stream.Operator.endsParam {st st₁ : Stream} {op : BinaryOp} (h : st.Operator op st₁) :
    st.current.lexeme.endsParam = false := by
  cases h with
  | single hop _ _ =>
    exact Lexeme.endsParam_eq_false (P := fun l => (BinaryOp.ofLexeme? l).isSome = true)
      (by simp [hop]) (by decide) (by decide) (by decide)
  | notIn hnot _ => rw [hnot.lexeme_eq]; decide +kernel
  | isNot his _ => rw [his.lexeme_eq]; decide +kernel

namespace Grammar

def Phrase.Opens (l : Lexeme) : Phrase → Prop
  | .expression _ | .choice _ | .binary _ _ | .unary _ => l.Opens false
  | .suffixed _ | .primary _ => l.Opens true
  | _ => True

variable {phrase : Phrase} {st st' st₁ st₂ st₃ : Stream} {e : Expr} {params : List Expr}

lemma opens_of_derives (h : Derives phrase st st') : phrase.Opens st.current.lexeme := by
  induction h with
  | arrow _ hopen _ _ _ _ _ _ =>
    rw [hopen.lexeme_eq]
    exact .inl (by decide)
  | shortArrow _ hname _ _ _ _ =>
    rw [hname.lexeme_eq]
    trivial
  | plain _ _ _ ih => exact ih
  | assignment _ _ _ _ _ _ ih _ => exact ih
  | test _ _ ih => exact ih
  | conditional _ _ _ _ _ ih _ _ => exact ih
  | binary _ _ ih _ => exact ih
  | unary hop _ _ _ => exact UnaryOp.opens_of_ofLexeme? hop
  | leadingUpdate _ hop _ _ _ => exact UpdateOp.opens_of_ofLexeme? hop
  | operand _ _ _ ih => exact ih.weaken
  | suffixed _ _ ih _ => exact ih
  | atom hatom _ => exact Token.opens_of_atom? hatom
  | parens hopen _ _ _ | array hopen _ _ | object hopen _ _ _ =>
    rw [hopen.lexeme_eq]
    exact .inl (by decide)
  | _ => trivial

lemma ne_close_of_derives (h : Derives (.expression e) st st') (hclose : close ∈ closingMarks) :
    st.current.lexeme ≠ .mark close := by
  intro hlexeme
  have hopens : st.current.lexeme.Opens false := opens_of_derives h
  rw [hlexeme] at hopens
  have hall : ∀ close ∈ closingMarks, close ∉ openingMarks ++ signs := by decide
  refine hall close hclose (List.mem_append.mpr ?_)
  exact hopens.imp id And.right

/-- What stands after the first word of a phrase, or at its start if it continues another: the
end of the phrase, or a token that no parameter ends with. -/
def Phrase.Continues (st st' : Stream) : Phrase → Prop
  | .expression _ => ∀ ⦃name⦄, st.current.lexeme = .word name →
      ∃ st₁, st.Next st₁ ∧ (st₁ = st' ∨
        st₁.current.lexeme ≠ .mark "," ∧ st₁.current.lexeme ≠ .mark ")")
  | .choice _ | .binary _ _ | .unary _ | .suffixed _ | .primary _ =>
      ∀ ⦃name⦄, st.current.lexeme = .word name →
        ∃ st₁, st.Next st₁ ∧ (st₁ = st' ∨ st₁.current.lexeme.endsParam = false)
  | .suffixes .. | .binaryRest .. => st = st' ∨ st.current.lexeme.endsParam = false
  | _ => True

lemma afterWord_trans {P : Stream → Prop} {mid : Stream}
    (h : ∃ st₁, st.Next st₁ ∧ (st₁ = mid ∨ P st₁)) (hmid : mid = st' ∨ P mid) :
    ∃ st₁, st.Next st₁ ∧ (st₁ = st' ∨ P st₁) := by
  obtain ⟨st₁, hnext, rfl | hst₁⟩ := h
  · exact ⟨st₁, hnext, hmid⟩
  · exact ⟨st₁, hnext, .inr hst₁⟩

lemma ne_of_endsParam (h : l.endsParam = false) : l ≠ .mark "," ∧ l ≠ .mark ")" := by
  constructor
  · rintro rfl
    exact absurd h (by decide)
  · rintro rfl
    exact absurd h (by decide)

/-- **After the first word of a phrase** stands its end, or a token that no parameter ends
with. -/
theorem continues_of_derives (h : Derives phrase st st') : phrase.Continues st st' := by
  induction h with
  | arrow _ hopen _ _ _ _ _ _ =>
    intro name hname
    rw [hopen.lexeme_eq] at hname
    cases hname
  | shortArrow _ hname _ hmark _ _ =>
    intro _ _
    refine ⟨_, hname.next, .inr ?_⟩
    rw [hmark.lexeme_eq]
    decide
  | plain _ _ _ ih =>
    intro name hname
    obtain ⟨st₁, hnext, hst₁⟩ := ih hname
    exact ⟨st₁, hnext, hst₁.imp id ne_of_endsParam⟩
  | assignment _ _ hop _ _ _ ihleft _ =>
    intro name hname
    obtain ⟨st₁, hnext, hst₁⟩ := ihleft hname
    refine afterWord_trans ⟨st₁, hnext, hst₁.imp id ne_of_endsParam⟩ (.inr ?_)
    exact ne_of_endsParam (Lexeme.endsParam_eq_false
      (P := fun l => (AssignmentOp.ofLexeme? l).isSome = true)
      (by simp [hop]) (by decide) (by decide) (by decide))
  | test _ _ ih => exact ih
  | conditional _ hmark _ _ _ ih _ _ =>
    intro name hname
    refine afterWord_trans (ih hname) (.inr ?_)
    rw [hmark.lexeme_eq]
    decide
  | binary _ _ ihleft ihrest =>
    intro name hname
    exact afterWord_trans (ihleft hname) ihrest
  | binaryEnd _ | binaryWeaker _ _ => exact .inl rfl
  | binaryStep hop _ _ _ _ _ => exact .inr hop.endsParam
  | unary _ hnext hargument _ | leadingUpdate _ _ hnext hargument _ =>
    intro _ _
    exact ⟨_, hnext, .inr (opens_of_derives hargument).endsParam⟩
  | operand _ _ _ ih => exact ih
  | suffixed _ _ ihhead ihsuffixes =>
    intro name hname
    exact afterWord_trans (ihhead hname) ihsuffixes
  | member hmark _ _ _ | optional hmark _ _ _ _ =>
    refine .inr ?_
    rw [hmark.lexeme_eq]
    decide
  | computed hopen _ _ _ _ _ | call hopen _ _ _ _ =>
    refine .inr ?_
    rw [hopen.lexeme_eq]
    decide
  | filter hmark _ _ _ _ | filterCall hmark _ _ _ _ _ _ =>
    refine .inr ?_
    rw [hmark.lexeme_eq]
    decide
  | trailingUpdate hop _ => exact .inr (UpdateOp.opens_of_ofLexeme? hop).endsParam
  | suffixesEnd _ => exact .inl rfl
  | atom _ hnext =>
    intro _ _
    exact ⟨_, hnext, .inl rfl⟩
  | parens hopen _ _ _ | array hopen _ _ | object hopen _ _ _ =>
    intro name hname
    rw [hopen.lexeme_eq] at hname
    cases hname
  | _ => trivial

/-! ## Choices are not taken for arrow functions -/

lemma arrowMarkAt_of_next (h : st.Next st₁) :
    Stream.arrowMarkAt st.after = .ok (decide (st₁.current.lexeme = .mark "=>")) := by
  simp [Stream.arrowMarkAt, h.read, pure, Except.pure]

lemma paramsAhead_of_next (h : st.Next st₁) (wanted : Bool) :
    Stream.paramsAhead wanted st.after =
      match st₁.current.lexeme with
      | .word text =>
        if wanted && !reserved.contains text then Stream.paramsAhead false st₁.after else .ok false
      | .mark "," => if wanted then .ok false else Stream.paramsAhead true st₁.after
      | .mark ")" => Stream.arrowMarkAt st₁.after
      | _ => .ok false := by
  have hnext := h.read
  rw [Stream.paramsAhead]
  split
  · rename_i hread
    rw [hnext] at hread
    cases hread
  · split <;> simp_all

lemma paramsAhead_of_expression (hnext : st.Next st₁) (hinner : Derives (.expression e) st₁ st₂)
    (hclose : st₂.Passes (.mark ")") st₃) (hend : st₃.current.lexeme ≠ .mark "=>") :
    Stream.paramsAhead true st.after = .ok false := by
  rw [paramsAhead_of_next hnext]
  split
  · rename_i text hword
    split
    · -- after a word that may be a parameter stands the end of the expression, or what no
      -- parameter is followed by
      obtain ⟨s, hs, hafter⟩ := continues_of_derives hinner hword
      rw [paramsAhead_of_next hs]
      rcases hafter with rfl | ⟨hcomma, hparen⟩
      · simp [hclose.lexeme_eq, arrowMarkAt_of_next hclose.next, hend]
      · split
        · simp
        · exact absurd ‹_› hcomma
        · exact absurd ‹_› hparen
        · rfl
    · rfl
  · rfl
  · rename_i hmark
    have hopens := (opens_of_derives hinner).endsParam
    rw [hmark] at hopens
    exact absurd hopens (by decide)
  · rfl

/-- The parentheses that a phrase starts with hold an expression, and after them stands the end
of the phrase, or a token that no parameter ends with. -/
def Phrase.Encloses (st st' : Stream) : Phrase → Prop
  | .choice _ | .binary _ _ | .unary _ | .suffixed _ | .primary _ =>
      st.current.lexeme = .mark "(" →
        ∃ st₁ st₂ st₃ e, st.Next st₁ ∧ Derives (.expression e) st₁ st₂ ∧
          st₂.Passes (.mark ")") st₃ ∧ (st₃ = st' ∨ st₃.current.lexeme.endsParam = false)
  | _ => True

lemma encloses_of_derives (h : Derives phrase st st') : phrase.Encloses st st' := by
  -- a phrase that is continued keeps the parentheses of its first part
  have trans {st mid st' : Stream}
      (h : st.current.lexeme = .mark "(" → ∃ st₁ st₂ st₃ e, st.Next st₁ ∧
        Derives (.expression e) st₁ st₂ ∧ st₂.Passes (.mark ")") st₃ ∧
        (st₃ = mid ∨ st₃.current.lexeme.endsParam = false))
      (hmid : mid = st' ∨ mid.current.lexeme.endsParam = false) :
      st.current.lexeme = .mark "(" → ∃ st₁ st₂ st₃ e, st.Next st₁ ∧
        Derives (.expression e) st₁ st₂ ∧ st₂.Passes (.mark ")") st₃ ∧
        (st₃ = st' ∨ st₃.current.lexeme.endsParam = false) := by
    intro hopen
    obtain ⟨st₁, st₂, st₃, e, hnext, hinner, hclose, rfl | hend⟩ := h hopen
    · exact ⟨st₁, st₂, _, e, hnext, hinner, hclose, hmid⟩
    · exact ⟨st₁, st₂, st₃, e, hnext, hinner, hclose, .inr hend⟩
  induction h with
  | test _ _ ih => exact ih
  | conditional _ hmark _ _ _ ih _ _ =>
    refine trans ih (.inr ?_)
    rw [hmark.lexeme_eq]
    decide
  | binary _ hrest ih _ => exact trans ih (continues_of_derives hrest)
  | unary hop _ _ _ =>
    intro hopen
    simp [hopen, UnaryOp.ofLexeme?] at hop
  | leadingUpdate _ hop _ _ _ =>
    intro hopen
    simp [hopen, UpdateOp.ofLexeme?] at hop
  | operand _ _ _ ih => exact ih
  | suffixed _ hsuffixes ih _ => exact trans ih (continues_of_derives hsuffixes)
  | atom hatom _ =>
    intro hopen
    simp [Token.atom?, Token.literal?, hopen] at hatom
  | parens hopen hinner hclose _ =>
    intro _
    exact ⟨_, _, _, _, hopen.next, hinner, hclose, .inl rfl⟩
  | array hopen _ _ | object hopen _ _ _ =>
    intro hparen
    rw [hopen.lexeme_eq] at hparen
    exact absurd hparen (by decide)
  | _ => trivial

/-- **Choices are not taken for arrow functions** if no arrow mark follows them. -/
theorem atArrow_of_choice (h : Derives (.choice e) st st')
    (hend : st'.current.lexeme ≠ .mark "=>") :
    st.atArrow = .ok false := by
  have hne {l : Lexeme} (hl : l.endsParam = false) : l ≠ .mark "=>" := by
    rintro rfl
    exact absurd hl (by decide)
  unfold Stream.atArrow
  split
  · rename_i hword
    obtain ⟨st₁, hnext, hst₁⟩ := continues_of_derives h hword
    rw [arrowMarkAt_of_next hnext]
    rcases hst₁ with rfl | hst₁
    · simp [hend]
    · simp [hne hst₁]
  · rename_i hopen
    obtain ⟨st₁, st₂, st₃, inner, hnext, hinner, hclose, hst₃⟩ := encloses_of_derives h hopen
    refine paramsAhead_of_expression hnext hinner hclose ?_
    rcases hst₃ with rfl | hst₃
    · exact hend
    · exact hne hst₃
  · rfl

/-! ## Arrow functions are taken for what they are -/

lemma paramsAhead_of_params (hnext : st.Next st₁) (hparams : Derives (.params params) st₁ st₂)
    (hclose : st₂.Passes (.mark ")") st₃) (hmark : st₃.current.lexeme = .mark "=>") :
    Stream.paramsAhead true st.after = .ok true := by
  generalize hphrase : Phrase.params params = phrase at hparams
  induction hparams generalizing st params with
  | paramsNil _ =>
    rw [paramsAhead_of_next hnext]
    simp [hclose.lexeme_eq, arrowMarkAt_of_next hclose.next, hmark]
  | paramsLast hname hfree _ =>
    rw [paramsAhead_of_next hnext]
    simp only [hname.lexeme_eq]
    rw [if_pos (by simpa using hfree), paramsAhead_of_next hname.next]
    simp [hclose.lexeme_eq, arrowMarkAt_of_next hclose.next, hmark]
  | paramsCons hname hfree hcomma _ ih =>
    rw [paramsAhead_of_next hnext]
    simp only [hname.lexeme_eq]
    rw [if_pos (by simpa using hfree), paramsAhead_of_next hname.next]
    simp only [hcomma.lexeme_eq]
    exact ih hcomma.next hclose rfl
  | _ => cases hphrase

lemma atArrow_of_params (hopen : st.Passes (.mark "(") st₁)
    (hparams : Derives (.params params) st₁ st₂) (hclose : st₂.Passes (.mark ")") st₃)
    (hmark : st₃.current.lexeme = .mark "=>") : st.atArrow = .ok true := by
  unfold Stream.atArrow
  simp only [hopen.lexeme_eq]
  exact paramsAhead_of_params hopen.next hparams hclose hmark

end Grammar

end ComponentTemplate
