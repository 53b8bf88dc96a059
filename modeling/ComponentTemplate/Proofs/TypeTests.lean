import ComponentTemplate.Proofs.BareOperands
import ComponentTemplate.Proofs.ReadBack

/-!
# Type tests

A type test is printed with its operands on both sides of the word `is`, and of the word `not` after
it if the test is negated. What is read depends on the first word of the right operand: after a test
that is not negated, the word `not` is taken for its negation. This is the only way in which a type
test whose operands are read back is not read back itself.
-/

namespace ComponentTemplate

open Grammar Text
open OperatorTree (expr items node root?)

/-! ## Rows in the middle of a text -/

namespace Grammar

variable {source : List Char} {s : Surroundings source} {st st' : Stream} {phrase : Phrase}

/-- **The row of operators of a phrase**, in the surroundings of its text. What continues a row has
to be no stronger than the operator at the root of what stands before it. -/
def Phrase.RowAmid (s : Surroundings source) (st st' : Stream) : Phrase → Prop
  | .binary tier e => ∃ t : OperatorTree, t.Climbs ∧ t.expr.normal = e.normal ∧
      (∀ op ∈ t.root?, tier ≤ op.tier) ∧ (st.amid s).Row t.items (st'.amid s)
  | .binaryRest tier left e => ∀ (tl : OperatorTree) ⦃st₀ : Stream⦄, tl.Climbs →
      tl.expr.normal = left.normal → (∀ op ∈ tl.root?, tier ≤ op.tier) →
      (∀ root ∈ tl.root?, ∀ op st₁, st.Operator op st₁ → op.tier ≤ root.tier) →
      st₀.Row tl.items (st.amid s) →
      ∃ t : OperatorTree, t.Climbs ∧ t.expr.normal = e.normal ∧
        (∀ op ∈ t.root?, tier ≤ op.tier) ∧ st₀.Row t.items (st'.amid s)
  | _ => True

/-- **An operand of operators is a row** in the middle of a text, grouped by tiers, if what follows
is no suffix. -/
theorem exists_row_amid (s : Surroundings source) (h : Derives phrase st st')
    (hst : st.IsIn source) (hends : (st'.amid s).current.lexeme.startsSuffix = false) :
    phrase.RowAmid s st st' := by
  induction h with
  | binary hleft hrest _ ihrest =>
    have hst₁ := (hleft.steps trivial).isIn hst
    have hsuffix := startsSuffix_amid_of_binaryRest hrest hst₁ hends
    have hfirst := hleft.amid s hst hsuffix
    exact ihrest hst₁ hends (.leaf _) trivial (Expr.normal_mapSpans _ _)
      (by simp [root?]) (by simp [root?]) (.leaf hfirst)
  | binaryEnd _ | binaryWeaker _ _ =>
    intro tl st₀ hclimbs hnormal htier _ hrow
    exact ⟨tl, hclimbs, hnormal, htier, hrow⟩
  | @binaryStep st st₁ st₂ st₃ tier left right e op hop htier hright hrest ihright ihrest =>
    intro tl st₀ hclimbs hnormal _ hroot hrow
    have hst₁ := hop.steps.isIn hst
    have hst₂ := (hright.steps trivial).isIn hst₁
    -- the right operand ends where the row goes on, and what goes on is no stronger
    have hlt {op' : BinaryOp} {st' : Stream} (hop' : st₂.Operator op' st') :
        op'.tier < op.tier + 1 :=
      hright.tier_lt (.inl ⟨_, rfl⟩) hop'
    have hsuffix := startsSuffix_amid_of_binaryRest hrest hst₂ hends
    obtain ⟨tr, hclimbs', hnormal', htier', hrow'⟩ := ihright hst₁ hsuffix
    have hop' := hop.amid s hst (ne_finish_of_opens (opens_of_derives hright))
    refine ihrest hst₂ hends (.node op tl tr) ⟨fun inner hinner => hroot inner hinner _ _ hop,
      htier', hclimbs, hclimbs'⟩ (by simp [expr, hnormal, hnormal']) ?_ ?_
      (.node hrow hop' hrow')
    · rintro _ ⟨⟩
      exact htier
    · rintro _ ⟨⟩ op' st' hop'
      exact Nat.lt_succ_iff.mp (hlt hop')
  | _ => trivial

end Grammar

lemma OperatorTree.le_root_of_admits {t : OperatorTree} {e : Expr}
    (hnormal : t.expr.normal = e.normal) {tier : Nat} (h : (Level.binary tier).Admits e.level) :
    ∀ op ∈ t.root?, tier ≤ op.tier := by
  cases t with
  | leaf _ => simp [root?]
  | node op left right =>
    rintro _ ⟨⟩
    rw [← e.level_normal, ← hnormal, Expr.level_normal] at h
    exact h

namespace Stream

variable {st st' : Stream} {t : OperatorTree}

lemma Row.of_lastStop (h : st.Row t.items st') (lastStop : Nat) :
    (⟨st.current, st.after, lastStop⟩ : Stream).Row t.items st' := by
  obtain ⟨e, rest, hitems⟩ := t.exists_items_eq
  rw [hitems] at h ⊢
  cases h with
  | operand hoperand hrest => exact .operand (hoperand.of_lastStop rfl lastStop) hrest

end Stream

/-! ## Operands in the middle of a text -/

/-- **The tree of an operand stands between two streams**, grouped by tiers and with no operator at
its root that is weaker than a given tier. -/
structure OperatorTree.StandsFor (t : OperatorTree) (tier : Nat) (e : Expr) (st st' : Stream) :
    Prop where
  climbs : t.Climbs
  normal : t.expr.normal = e.normal
  le_root : ∀ op ∈ t.root?, tier ≤ op.tier
  row : st.Row t.items st'

namespace Expr

variable {breaks : Breaks} {unit : String} {level : Nat} {e left right : Expr} {slot : Slot}

/-- **An operand that is read back is a row in the middle of a text**, with operators that its slot
admits. -/
theorem ReadsBack.exists_standsFor (h : e.ReadsBack breaks unit level) {tier : Nat}
    (hslot : slot.level = .binary tier) {o : Nat} {tail : List Char} {st' : Stream}
    (hat : st'.At ⟨o + byteLength (e.textInSlot breaks unit level slot), tail⟩)
    (hapart : TokensApart (e.textInSlot breaks unit level slot) tail)
    (hsuffix : st'.current.lexeme.startsSuffix = false)
    (hassign : AssignmentOp.ofLexeme? st'.current.lexeme = none) :
    ∃ (st : Stream) (t : OperatorTree) (lastStop : Nat),
      st.At ⟨o, e.textInSlot breaks unit level slot ++ tail⟩ ∧
      t.StandsFor tier e st ⟨st'.current, st'.after, lastStop⟩ := by
  by_cases hparens : needsParens slot e = true
  · -- parentheses make one operand of whatever is in them
    obtain ⟨st, e', hst, hnormal, hderives⟩ := h.exists_parens hparens hat
    have hunary := Level.operand_of_suffixed (.suffixed hderives (.suffixesEnd hsuffix))
    exact ⟨st, .leaf e', st'.lastStop, hst, trivial, hnormal, by simp [root?],
      .leaf hunary⟩
  · rw [Bool.not_eq_true] at hparens
    have hadmits := Level.admits_of_needsParens hparens
    rw [hslot] at hadmits
    rw [textInSlot_of_needsParens hparens] at hat hapart ⊢
    obtain ⟨s, e', st, fin, lastStop, hnormal, hderives, hin, hst, hfin⟩ :=
      h.exists_amid hat hapart hassign
    have hlevel : e'.level ≠ .expression := by
      rw [← e'.level_normal, hnormal, e.level_normal]
      intro hlevel
      simp [hlevel, Level.Admits] at hadmits
    obtain ⟨t, hclimbs, hexpr, -, hrow⟩ := exists_row_amid s
      (binary_of_expression hderives hlevel) hin (by rw [hfin]; exact hsuffix)
    rw [hfin] at hrow
    exact ⟨st.amid s, t, lastStop, hst, hclimbs, hexpr.trans hnormal,
      OperatorTree.le_root_of_admits (hexpr.trans hnormal) hadmits, hrow⟩

end Expr

/-! ## The first word of a text -/

def firstWord (cs : List Char) : List Char := (trimStart cs).takeWhile isWordChar

lemma Token.lexeme_eq_word_iff (h : Token.read cur = .ok (t, after))
    (hword : isName word.toList = true) :
    t.lexeme = .word word ↔ firstWord cur.rest = word.toList := by
  have hskip : cur.skipBlanks.rest = trimStart cur.rest := by
    have happend := skipBlanks_append (blank_blankStart cur.rest)
      (head_trimStart cur.rest) cur.offset
    rw [blankStart_append_trimStart] at happend
    rw [happend]
  rw [firstWord, ← hskip]
  unfold read at h
  unfold readAt at h
  split at h
  · rename_i hrest
    cases h
    rw [hrest]
    constructor
    · rintro ⟨⟩
    · intro hnil
      rw [← hnil] at hword
      cases hword
  · rename_i c cs hrest
    rw [hrest]
    by_cases hc : isWordStart c = true
    · rw [if_pos hc] at h
      obtain ⟨rfl, -⟩ := h
      have htake : (c :: cs).take ((c :: cs).takeWhile isWordChar).length =
          (c :: cs).takeWhile isWordChar :=
        (List.prefix_iff_eq_take.mp (List.takeWhile_prefix _)).symm
      rw [hrest, htake]
      constructor
      · intro heq
        have htext := Lexeme.word.inj heq
        rw [← htext, String.toList_ofList]
      · intro heq
        rw [heq, String.ofList_toList]
    · -- a word starts with none of the characters that start another token
      rw [if_neg hc] at h
      have hne : (c :: cs).takeWhile isWordChar ≠ word.toList := by
        intro heq
        rw [← heq, List.takeWhile_cons] at hword
        split at hword
        · simp only [isName, Bool.and_eq_true] at hword
          exact hc hword.1
        · cases hword
      simp only [hne, iff_false]
      repeat' split at h
      all_goals cases h
      all_goals exact Lexeme.noConfusion

/-! ## Type tests -/

lemma BinaryOp.goesOn_operation (hop : op ≠ .range) (ha : a.GoesOn unit level cs)
    (hb : b.GoesOn unit level ds) :
    (Doc.operation op a b).GoesOn unit level (cs ++ ' ' :: (op.symbol.toList ++ ' ' :: ds)) := by
  have hspace : (Doc.onlyIf (op ≠ .range) " ").GoesOn unit level [' '] := by
    rw [Doc.onlyIf, if_pos (by simpa using hop)]
    exact Doc.goesOn_text (by decide)
  have hsymbol : (Doc.text op.symbol).GoesOn unit level op.symbol.toList := by
    refine Doc.goesOn_text ?_
    cases op with
    | is negated | isIn negated => cases negated <;> decide
    | _ => decide
  have h := (((ha.append hspace).append hsymbol).append hspace).append hb
  rw [List.append_assoc, List.append_assoc, List.append_assoc] at h
  exact h

/-- **The words of a type test are passed**: the word `is`, and the word `not` if it is negated. -/
def Stream.PassesTest (negated : Bool) (st st' : Stream) : Prop :=
  ∃ mid : Stream, st.Passes (.word "is") mid ∧
    if negated then mid.Passes (.word "not") st' else mid = st'

lemma Stream.exists_passesTest (negated : Bool)
    (hat : st₂.At ⟨o + 1 + byteLength (BinaryOp.is negated).symbol.toList, ' ' :: rest⟩) :
    ∃ st₁ : Stream, st₁.At ⟨o, ' ' :: ((BinaryOp.is negated).symbol.toList ++ ' ' :: rest)⟩ ∧
      st₁.PassesTest negated st₂ := by
  have hends (word : String) (rest : List Char) : (Lexeme.word word).EndsBefore (' ' :: rest) := by
    rintro c ⟨⟩
    exact isWordChar_eq_false_of_isBlank isBlank_space
  have hwords : isName "is".toList = true ∧ isName "not".toList = true := by decide
  cases negated with
  | false =>
    obtain ⟨st₁, hat₁, hpass⟩ := exists_passes (l := .word "is") hwords.1 blank_space
      (hends _ _) hat
    exact ⟨st₁, hat₁, st₂, hpass, rfl⟩
  | true =>
    obtain ⟨mid, hmid, hnot⟩ := exists_passes (l := .word "not") (o := o + 3) hwords.2
      blank_space (hends _ _) hat
    obtain ⟨st₁, hat₁, hpass⟩ := exists_passes (l := .word "is") hwords.1 blank_space
      (hends _ _) hmid
    exact ⟨st₁, hat₁, mid, hpass, hnot⟩

namespace Expr

variable {breaks : Breaks} {unit : String} {level : Nat} {left right : Expr}

lemma exists_standsFor_typeTest (hleft : left.ReadsBack breaks unit level)
    (hright : right.ReadsBack breaks unit level) (span : Span) (negated : Bool) :
    ∃ (st st₁ st₂ fin : Stream) (tl tr : OperatorTree),
      st.At (.ofSource ((binary span (.is negated) left right).textAt breaks unit level)) ∧
      tl.StandsFor (BinaryOp.is negated).tier left st st₁ ∧ st₁.PassesTest negated st₂ ∧
      tr.StandsFor ((BinaryOp.is negated).tier + 1) right st₂ fin ∧
      fin.current.lexeme = .finish ∧ (st₂.current.lexeme = .word "not" ↔
        firstWord (right.textInSlot breaks unit level (.right (.is negated))) = "not".toList) := by
  let cs := left.textInSlot breaks unit level (.left (.is negated))
  let ds := right.textInSlot breaks unit level (.right (.is negated))
  have hfin := Stream.at_finish
    (byteLength cs + 1 + byteLength (BinaryOp.is negated).symbol.toList + 1 + byteLength ds)
  obtain ⟨st₂, tr, _, hat₂, htr⟩ := hright.exists_standsFor rfl hfin (.nil _) rfl rfl
  rw [List.append_nil] at hat₂
  -- the blank before the right operand belongs to its first token
  obtain ⟨st₁, hat₁, mid, his, hnot⟩ :=
    Stream.exists_passesTest negated (hat₂.before_blanks blank_space)
  rw [← Nat.zero_add (byteLength cs)] at hat₁
  obtain ⟨st, tl, _, hat, htl⟩ := hleft.exists_standsFor rfl hat₁ (.of_blank _ isBlank_space)
    (by rw [his.lexeme_eq]; rfl) (by rw [his.lexeme_eq]; rfl)
  refine ⟨st, _, _, _, tl, tr, ?_, htl, ⟨mid, his.of_lastStop, hnot⟩, ⟨htr.climbs, htr.normal,
    htr.le_root, htr.row.of_lastStop _⟩, rfl, Token.lexeme_eq_word_iff hat₂.read (by decide)⟩
  have htext : (binary span (.is negated) left right).textAt breaks unit level = _ :=
    (BinaryOp.goesOn_operation (by simp) (hleft.goesOn_parens _)
      (hright.goesOn_parens _)).renderAt_eq
  rw [htext]
  exact hat

/-- **Whether a type test loses its right operand's negation**: it is not negated itself, and the
text of the operand starts with the word `not`. -/
def losesNegation (breaks : Breaks) (unit : String) (level : Nat) (negated : Bool) (right : Expr) :
    Bool :=
  !negated && firstWord (right.textInSlot breaks unit level (.right (.is negated))) == "not".toList

lemma readsBack_of_losesNegation (hleft : left.ReadsBack breaks unit level)
    (hright : right.ReadsBack breaks unit level) (span : Span)
    (h : losesNegation breaks unit level negated right = false) :
    (binary span (.is negated) left right).ReadsBack breaks unit level := by
  obtain ⟨st, st₁, st₂, fin, tl, tr, hat, htl, ⟨mid, his, hnot⟩, htr, hfinish, hword⟩ :=
    exists_standsFor_typeTest hleft hright span negated
  have hop : st₁.Operator (.is negated) st₂ := by
    cases negated with
    | true => exact .isNot his hnot
    | false =>
      -- the operator is `is` alone only because the right operand does not start with `not`
      obtain rfl : mid = st₂ := hnot
      refine .single (by rw [his.lexeme_eq]; rfl) his.next fun _ hlexeme => ?_
      simp [losesNegation, hword.mp hlexeme] at h
  have hclimbs : (node (.is negated) tl tr).Climbs :=
    ⟨htl.le_root, htr.le_root, htl.climbs, htr.climbs⟩
  refine ⟨_, parse_of_climbs hclimbs (.node htl.row hop htr.row) hat hfinish, ?_⟩
  simp only [expr, normal, htl.normal, htr.normal]

lemma exists_parse_of_losesNegation (hleft : left.ReadsBack breaks unit level)
    (hright : right.ReadsBack breaks unit level) (span : Span) {negated : Bool}
    (h : losesNegation breaks unit level negated right = true) :
    ∃ e' right',
      Expr.parse (((binary span (.is negated) left right).doc breaks).renderAt unit level) =
        .ok e' ∧
        e'.normal = (binary span (.is true) left right').normal := by
  obtain ⟨st, st₁, st₂, fin, tl, tr, hat, htl, ⟨mid, his, hnot⟩, htr, hfinish, hword⟩ :=
    exists_standsFor_typeTest hleft hright span negated
  simp only [losesNegation, Bool.and_eq_true, Bool.not_eq_true', beq_iff_eq] at h
  obtain ⟨rfl, hfirst⟩ := h
  obtain rfl : mid = st₂ := hnot
  obtain ⟨st₃, t, hpass, hrow, hops⟩ := OperatorTree.exists_row_after_not htr.row (hword.mpr hfirst)
  -- what follows the negation has the operators of the right operand, so the test is at the root
  have hclimbs : (node (.is true) tl t.climb).Climbs := by
    refine ⟨htl.le_root, fun op hop => ?_, htl.climbs, t.climbs_climb⟩
    have hmem : .inr op ∈ tr.items := hops op (t.items_climb ▸ OperatorTree.mem_items_of_root? hop)
    cases tr with
    | leaf e => simp [items] at hmem
    | node root left right => exact (htr.le_root root rfl).trans (htr.climbs.root_le rfl hmem)
  have hrow' : st₃.Row t.climb.items fin := t.items_climb.symm ▸ hrow
  refine ⟨_, t.climb.expr, parse_of_climbs hclimbs (.node htl.row (.isNot his hpass) hrow') hat
    hfinish, ?_⟩
  simp [expr, htl.normal]

/-- **The type tests that are read back.** A type test whose operands are read back is read back,
with the same negation and the same operands, exactly if it does not lose the negation of its right
operand; if it does, it is read as a negated one. Of the others, two that are printed alike have the
same negation and the same operands. -/
theorem readsBack_typeTest (hleft : left.ReadsBack breaks unit level)
    (hright : right.ReadsBack breaks unit level) (span : Span) (negated : Bool) :
    ((binary span (.is negated) left right).ReadsBack breaks unit level ↔
      losesNegation breaks unit level negated right = false) ∧
    (losesNegation breaks unit level negated right = true → ∃ e' right',
      Expr.parse (((binary span (.is negated) left right).doc breaks).renderAt unit level) =
        .ok e' ∧
        e'.normal = (binary span (.is true) left right').normal) ∧
    ∀ (span' : Span) (negated' : Bool) (left' right' : Expr), left'.ReadsBack breaks unit level →
      right'.ReadsBack breaks unit level → losesNegation breaks unit level negated right = false →
      losesNegation breaks unit level negated' right' = false →
      (binary span (.is negated) left right).textAt breaks unit level =
        (binary span' (.is negated') left' right').textAt breaks unit level →
      negated = negated' ∧ left.normal = left'.normal ∧ right.normal = right'.normal := by
  refine ⟨⟨fun hreads => ?_, readsBack_of_losesNegation hleft hright span⟩,
    exists_parse_of_losesNegation hleft hright span,
    fun span' negated' left' right' hleft' hright' hkeeps hkeeps' htext => ?_⟩
  · by_contra hloses
    rw [Bool.not_eq_false] at hloses
    obtain ⟨e', right', hparse, hnormal⟩ := exists_parse_of_losesNegation hleft hright span hloses
    have hsame := hreads.normal_of_parse hparse
    rw [hnormal] at hsame
    simp only [losesNegation, Bool.and_eq_true, Bool.not_eq_true'] at hloses
    simp [normal, hloses.1] at hsame
  · have hreads := readsBack_of_losesNegation hleft hright span hkeeps
    have hreads' := readsBack_of_losesNegation hleft' hright' span' hkeeps'
    obtain ⟨found, hparse, hfound⟩ := hreads
    have hnormal := hfound.symm.trans (hreads'.normal_of_parse (String.toList_inj.mp htext ▸ hparse))
    simp only [normal, binary.injEq, true_and, BinaryOp.is.injEq] at hnormal
    exact hnormal

/-- Type tests of a negated sum: the one that is negated itself is read back, the other one is
not. -/
theorem readsBack_typeTest_sum :
    let x : Expr := .identifier ⟨0, 1⟩ "x"
    let negation : Expr := .unary ⟨10, 20⟩ .not
      (.binary ⟨15, 19⟩ .add (.identifier ⟨15, 16⟩ "a") (.identifier ⟨18, 19⟩ "b"))
    x.ReadsBack (fun _ _ _ => false) "  " 1 ∧ negation.ReadsBack (fun _ _ _ => false) "  " 1 ∧
      (binary ⟨0, 20⟩ (.is true) x negation).ReadsBack (fun _ _ _ => false) "  " 1 ∧
      ¬ (binary ⟨0, 20⟩ (.is false) x negation).ReadsBack (fun _ _ _ => false) "  " 1 := by
  intro x negation
  have hunit : ∀ c ∈ "  ".toList, isBlank c = true := by simp [isBlank]
  have hx : x.ReadsBack (fun _ _ _ => false) "  " 1 :=
    exists_parse_doc (by simp only [x, WellFormed]; decide)
      (by simp [x, Plain, outline, inSlot, parts, KeepsShape]) hunit 1
  have hnegation : negation.ReadsBack (fun _ _ _ => false) "  " 1 :=
    exists_parse_doc (by simp only [negation, WellFormed]; decide)
      (by simp [negation, Plain, outline, inSlot, parts, KeepsShape]) hunit 1
  refine ⟨hx, hnegation, (readsBack_typeTest hx hnegation ⟨0, 20⟩ true).1.mpr rfl, fun hreads => ?_⟩
  have hkeeps := (readsBack_typeTest hx hnegation ⟨0, 20⟩ false).1.mp hreads
  have hloses : losesNegation (fun _ _ _ => false) "  " 1 false negation = true := by decide +kernel
  exact absurd (hkeeps.symm.trans hloses) (by decide)

def polarity? : Expr → Option Bool
  | binary _ (.is negated) _ _ => some negated
  | _ => none

/-- **A type test may lose the negation of its right operand**: it is printed as a negated test, and
as another test is. -/
theorem parse_typeTest_sum :
    ((Expr.parse "x is (not (a + b))").toOption.map fun e =>
        (e.polarity?, (e.doc fun _ _ _ => false).renderAt "" 0)) =
      some (some false, "x is not (a + b)") ∧
    (Expr.parse "x is not (a + b)").toOption.map polarity? = some (some true) ∧
    ((Expr.parse "x is (not a)").toOption.map fun e =>
        (e.polarity?, (e.doc fun _ _ _ => false).renderAt "" 0)) = some (some false, "x is not a") ∧
    ((Expr.parse "x is not a").toOption.map fun e =>
        (e.polarity?, (e.doc fun _ _ _ => false).renderAt "" 0)) =
      some (some true, "x is not a") := by
  decide +kernel

end Expr

end ComponentTemplate
