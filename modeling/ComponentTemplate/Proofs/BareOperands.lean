import ComponentTemplate.Proofs.OperatorTrees

/-!
# Operands without parentheses

An operation that is an operand of another one is put in parentheses exactly where it has to be:
without them the text is read as something else. What is read is the tree of a row of operands
and operators, which is grouped by tiers, so that the operator that was printed at the root is
not read as the root, or does not have the operands that it was printed with.
-/

namespace ComponentTemplate

open Grammar OperatorTree List

/-! ## Sizes of rows -/

/-- The number of operators of an operation, without those inside of other operands. -/
def Expr.operations : Expr → Nat
  | .binary _ _ left right => left.operations + right.operations + 1
  | _ => 0

lemma Expr.operations_normal : ∀ e : Expr, e.normal.operations = e.operations
  | .binary _ _ left right => by simp [operations, left.operations_normal, right.operations_normal]
  | .identifier .. | .string .. | .number .. | .boolean .. | .null .. | .unary .. => by
    simp [operations]
  | .conditional .. | .member .. | .call .. | .filter .. | .arrow .. => by simp [operations]
  | .assignment .. | .update .. | .array .. | .object .. => by simp [operations]

def rowOperations (items : List (Expr ⊕ BinaryOp)) : Nat :=
  (items.map (Sum.elim Expr.operations fun _ => 1)).sum

namespace OperatorTree

variable {t left right : OperatorTree} {op op' : BinaryOp} {span : Span} {l r : Expr}

lemma operations_expr (t : OperatorTree) : t.expr.operations = rowOperations t.items := by
  induction t with
  | leaf e => simp [expr, items, rowOperations]
  | node op left right ihleft ihright =>
    simp [expr, Expr.operations, items, rowOperations, ihleft, ihright]
    omega

/-- **Where a tree is split**: if it is grouped by tiers, and its left operand has as many
operators as what stands before an operator of its row, then this operator is its root. -/
theorem Climbs.eq_node (h : t.Climbs) (hitems : t.items = (node op left right).items)
    (hexpr : t.expr.normal = (Expr.binary span op' l r).normal)
    (hsize : left.expr.operations = l.operations) :
    op = op' ∧ ∃ left' right', t = node op left' right' ∧ left'.items = left.items ∧
      right'.items = right.items := by
  cases t with
  | leaf e =>
    obtain ⟨e', rest, hleft⟩ := left.exists_items_eq
    simp [items, hleft] at hitems
  | node root left' right' =>
    simp only [expr, Expr.normal, Expr.binary.injEq, true_and] at hexpr
    obtain ⟨rfl, hleft, -⟩ := hexpr
    have hsize' : rowOperations left'.items = rowOperations left.items := by
      rw [← operations_expr, ← operations_expr, hsize, ← l.operations_normal, ← hleft,
        Expr.operations_normal]
    -- a longer left operand would have one more operator
    obtain ⟨hleft', rfl, hright'⟩ :
        left'.items = left.items ∧ root = op ∧ right'.items = right.items := by
      refine eq_of_split hitems (fun between hl _ => ?_) fun between hl _ => ?_
      · simp [hl, rowOperations] at hsize'
      · simp [hl, rowOperations] at hsize'
    exact ⟨rfl, left', right', rfl, hleft', hright'⟩

lemma tiers_of_climb (hexpr : (node op left right).climb.expr.normal =
      (Expr.binary span op' l r).normal) (hleft : left.expr.normal = l.normal) :
    op = op' ∧ (∀ inner, .inr inner ∈ left.items → op.tier ≤ inner.tier) ∧
      ∀ inner, .inr inner ∈ right.items → op.tier < inner.tier := by
  have hsize : left.expr.operations = l.operations := by
    rw [← Expr.operations_normal, hleft, Expr.operations_normal]
  have hclimbs := (node op left right).climbs_climb
  obtain ⟨hop, left', right', htree, hl, hr⟩ := hclimbs.eq_node (items_climb _) hexpr hsize
  rw [htree] at hclimbs
  exact ⟨hop, fun _ hinner => hclimbs.le_left (hl ▸ hinner),
    fun _ hinner => hclimbs.lt_right (hr ▸ hinner)⟩

end OperatorTree

/-! ## Parts of expressions -/

variable {e : Expr} {breaks : Breaks} {unit : String}

lemma Expr.AllWellFormed.mem (h : Expr.AllWellFormed es) (hmem : e ∈ es) : e.WellFormed := by
  induction es with
  | nil => cases hmem
  | cons first es ih =>
    rcases mem_cons.mp hmem with rfl | hmem
    · exact h.1
    · exact ih h.2 hmem

lemma Property.AllWellFormed.mem {properties : List Property}
    (h : Property.AllWellFormed properties)
    (hmem : e ∈ properties.flatMap fun p => [p.key, p.value]) : e.IsKey ∨ e.WellFormed := by
  induction properties with
  | nil => cases hmem
  | cons p properties ih =>
    obtain ⟨key, value⟩ := p
    simp only [flatMap_cons, mem_append, mem_cons, not_mem_nil, or_false,
      Property.key, Property.value] at hmem
    rcases hmem with (rfl | rfl) | hmem
    · exact .inl h.1
    · exact .inr h.2.1
    · exact ih h.2.2 hmem

lemma Expr.WellFormed.child {child : Expr} (h : e.WellFormed) (hmem : child ∈ e.children) :
    child.WellFormed ∨ child.children = [] := by
  cases e with
  | member _ object property computed =>
    simp only [Expr.children, mem_cons, not_mem_nil, or_false] at hmem
    rcases hmem with rfl | rfl
    · exact .inl h.1
    · cases computed with
      | true => exact .inl h.2
      | false =>
        cases child with
        | identifier => exact .inr rfl
        | _ => exact h.2.elim
  | call _ callee arguments =>
    rcases mem_cons.mp hmem with rfl | hmem
    · exact .inl h.1
    · exact .inl (Expr.AllWellFormed.mem h.2 hmem)
  | filter _ subject name arguments =>
    rcases mem_cons.mp hmem with rfl | hmem
    · exact .inl h.1
    · exact .inl (Expr.AllWellFormed.mem h.2.2 hmem)
  | arrow _ params body =>
    rcases mem_append.mp hmem with hmem | hmem
    · exact .inl (h.1 child hmem).wellFormed
    · obtain rfl := mem_singleton.mp hmem
      exact .inl h.2
  | array _ elements => exact .inl (Expr.AllWellFormed.mem h hmem)
  | object _ properties =>
    rcases Property.AllWellFormed.mem h hmem with hkey | hvalue
    · cases child with
      | identifier | string | number => exact .inr rfl
      | _ => exact hkey.elim
    · exact .inl hvalue
  | _ =>
    rw [Expr.WellFormed] at h
    simp only [Expr.children] at hmem
    grind

lemma Expr.wellFormed_of_mem_outline {part : Grouping} (hwf : e.WellFormed) (hp : e.Plain breaks)
    (hpart : part ∈ e.outline) (hchildren : part.expr.children ≠ []) :
    part.expr.WellFormed ∧ part.expr.Plain breaks := by
  have hchild : ∀ e : Expr, (e.WellFormed ∨ e.children = []) ∧ e.Plain breaks →
      ∀ child ∈ e.children, (child.WellFormed ∨ child.children = []) ∧ child.Plain breaks := by
    rintro e ⟨hwf | hnil, hp⟩ child hmem
    · exact ⟨hwf.child hmem, hp.child hmem⟩
    · simp [hnil] at hmem
  obtain ⟨hwf', hp'⟩ := Expr.forall_mem_outline hchild e ⟨.inl hwf, hp⟩ part hpart
  exact ⟨hwf'.resolve_right hchildren, hp'⟩

/-! ## Texts of expressions -/

lemma Writer.wrote_start (hunit : ∀ c ∈ unit.toList, Text.isBlank c = true) (level : Nat) :
    (⟨unit.toList, level, []⟩ : Writer).Wrote [] [] .none :=
  ⟨hunit, by simp [Writer.atLineStart], [], [], rfl, .nil, rfl⟩

lemma Expr.exists_parse_doc (hwf : e.WellFormed) (hplain : e.Plain breaks)
    (hunit : ∀ c ∈ unit.toList, Text.isBlank c = true) (level : Nat) :
    ∃ e', Expr.parse ((e.doc breaks).renderAt unit level) = .ok e' ∧ e'.normal = e.normal := by
  obtain ⟨e', he', hreprints⟩ := Expr.exists_ofChars_eq hwf hplain (Writer.wrote_start hunit level)
  refine ⟨e', Expr.parse_eq_ok_iff.mpr ?_, hreprints.normal⟩
  simpa only [Doc.renderAt, Writer.output, String.toList_ofList] using he'

/-! ## Operations as rows -/

namespace Expr

variable {lb : LineBreaks} {breaks : Breaks} {st st' : Stream} {gap : Gap} {e : Expr}

/-- **The pieces of an expression are a row** of operands and operators, with the operator of the
expression at the root. -/
def Rows (lb : LineBreaks) (breaks : Breaks) (e : Expr) : Prop :=
  ∀ ⦃gap : Gap⦄ ⦃st st' : Stream⦄, st.Covers lb (e.pieces breaks gap) st' →
    st'.current.lexeme.startsSuffix = false →
    ∃ t : OperatorTree, st.Row t.items st' ∧ t.expr.normal = e.normal ∧ t.root? = e.tree.root?

lemma Rows.grouped (hslot : slot.level = .binary tier) (hreadable : e.Readable lb breaks)
    (hrows : e.level ≠ .expression → e.Rows lb breaks)
    (hcovers : st.Covers lb (Piece.grouped slot e (e.pieces breaks) gap) st')
    (hsuffix : st'.current.lexeme.startsSuffix = false) :
    ∃ t : OperatorTree, st.Row t.items st' ∧ t.expr.normal = e.normal := by
  unfold Piece.grouped at hcovers
  split at hcovers
  · obtain ⟨st₁, hopen, -, hcovers⟩ := Stream.covers_cons.mp hcovers
    obtain ⟨st₂, hinner, hcovers⟩ := Stream.covers_append.mp hcovers
    obtain ⟨st₃, hclose, -, ⟨⟩⟩ := Stream.covers_cons.mp hcovers
    obtain ⟨e', hreprints, -, hderives⟩ :=
      hreadable.expression hinner (.of_endsExpr (by rw [hclose.lexeme_eq]; decide))
    have hreads : Level.unary.Reads false st e' st' := .parens hopen hderives hclose _
    exact ⟨.leaf e', .leaf (hreads hsuffix), hreprints.normal⟩
  · rename_i hparens
    have hadmits := Level.admits_of_needsParens (by simpa using hparens)
    rw [hslot] at hadmits
    have hlevel : e.level ≠ .expression := by
      intro hlevel
      simp [hlevel, Level.Admits] at hadmits
    obtain ⟨t, hrow, hnormal, -⟩ := hrows hlevel hcovers hsuffix
    exact ⟨t, hrow, hnormal⟩

lemma Readable.derives_unary (h : e.Readable lb breaks) (hlevel : e.level ≠ .expression)
    (htier : e.tier? = none) (hcovers : st.Covers lb (e.pieces breaks gap) st')
    (hsuffix : st'.current.lexeme.startsSuffix = false) :
    ∃ e', e'.normal = e.normal ∧ Derives (.unary e') st st' := by
  obtain ⟨e', hreprints, -, hreads⟩ := h hcovers
  have hadmits : Level.unary.Admits e.level := by cases e <;> simp_all [level, Level.Admits, tier?]
  have hunary : Level.unary.Reads e.isBareFilter st e' st' := hreads.of_admits hadmits
  exact ⟨e', hreprints.normal, hunary hsuffix⟩

lemma operator_of_plain {span : Span} {op : BinaryOp} {left right : Expr} {st₁ st₂ : Stream}
    {gap' : Gap} (hwf : (binary span op left right).WellFormed)
    (hp : (binary span op left right).Plain breaks)
    (hcovers : st₁.Covers lb (op.pieces gap) st₂)
    (hright : st₂.Covers lb (Piece.grouped (.right op) right (right.pieces breaks) gap') st') :
    st₁.Operator op st₂ := by
  rw [WellFormed] at hwf
  refine BinaryOp.operator_of_covers hcovers fun hop => ?_
  exact ne_not_of_textIn hwf.2 (hp.child (by simp [children])) ((plain_iff.mp hp).1 hop) hright

lemma rows (e : Expr) (hwf : e.WellFormed) (hp : e.Plain breaks) (hlevel : e.level ≠ .expression) :
    e.Rows lb breaks := by
  intro gap st st' hcovers hsuffix
  cases e with
  | binary span op left right =>
    have hoperator {st₁ st₂ : Stream} := @operator_of_plain lb breaks st' op.gap span op left right
      st₁ st₂ op.gap hwf hp
    have hpl : left.Plain breaks := hp.child (by simp [children])
    have hpr : right.Plain breaks := hp.child (by simp [children])
    obtain ⟨st₁, hcoversLeft, hcovers⟩ := Stream.covers_append.mp hcovers
    obtain ⟨st₂, hcoversOp, hcoversRight⟩ := Stream.covers_append.mp hcovers
    have hop := hoperator hcoversOp hcoversRight
    obtain ⟨tl, hrowLeft, hnormalLeft⟩ := Rows.grouped rfl (left.readable hwf.1 hpl)
      (left.rows hwf.1 hpl) hcoversLeft (hop.stops (Nat.lt_succ_self _)).startsSuffix
    obtain ⟨tr, hrowRight, hnormalRight⟩ := Rows.grouped rfl (right.readable hwf.2 hpr)
      (right.rows hwf.2 hpr) hcoversRight hsuffix
    exact ⟨.node op tl tr, .node hrowLeft hop hrowRight,
      by simp [expr, hnormalLeft, hnormalRight], rfl⟩
  | _ =>
    obtain ⟨e', hnormal, hderives⟩ :=
      (Expr.readable _ hwf hp).derives_unary hlevel rfl hcovers hsuffix
    exact ⟨.leaf e', .leaf hderives, hnormal, rfl⟩
termination_by sizeOf e

/-! ## Texts of operations -/

lemma exists_covers_operation (ha : a.Prints P) (hb : b.Prints Q)
    (hrunLeft : Operand bare .none (P .none)) (hrunRight : Operand bare' op.gap (Q op.gap))
    (hunit : ∀ c ∈ unit.toList, Text.isBlank c = true) (level : Nat) :
    ∃ (lb : LineBreaks) (st st₁ st₂ st' : Stream), st.Covers lb (P .none) st₁ ∧
      st₁.Covers lb (op.pieces op.gap) st₂ ∧ st₂.Covers lb (Q op.gap) st' ∧ st'.Ends ∧
      ∀ e, Derives (.expression e) st st' →
        Expr.parse ((Doc.operation op a b).renderAt unit level) = .ok e := by
  have hstart := Writer.wrote_start hunit level
  obtain ⟨cs, blanks, hwritten, hspells, rfl⟩ := (Doc.prints_operation op ha hb hstart).text
  simp only [nil_append, append_nil] at hspells hwritten
  obtain ⟨st, st', hcovers, hends, hread⟩ :=
    Expr.exists_covers_ofChars hspells (op.run hrunLeft hrunRight).legible
  obtain ⟨st₁, hcoversLeft, hcovers⟩ := Stream.covers_append.mp hcovers
  obtain ⟨st₂, hcoversOp, hcoversRight⟩ := Stream.covers_append.mp hcovers
  refine ⟨_, st, st₁, st₂, st', hcoversLeft, hcoversOp, hcoversRight, hends, fun e hderives => ?_⟩
  refine Expr.parse_eq_ok_iff.mpr ?_
  rw [Doc.renderAt, Writer.output, String.toList_ofList, hwritten]
  exact hread e hderives

variable {span : Span} {op : BinaryOp} {left right : Expr} {unit : String}

lemma not_parse_bareLeft (hwf : (binary span op left right).WellFormed)
    (hp : (binary span op left right).Plain breaks) {inner : BinaryOp} {place : Span}
    {left₁ left₂ : Expr} (hleft : left = binary place inner left₁ left₂)
    (htier : inner.tier < op.tier) (hunit : ∀ c ∈ unit.toList, Text.isBlank c = true) (level : Nat) :
    ¬ ∃ e', Expr.parse ((Doc.operation op (left.doc breaks)
        (.parens (.right op) right (right.doc breaks))).renderAt unit level) = .ok e' ∧
      e'.normal = (binary span op left right).normal := by
  rintro ⟨e', hparse, hnormal⟩
  have hpl : left.Plain breaks := hp.child (by simp [children])
  have hpr : right.Plain breaks := hp.child (by simp [children])
  obtain ⟨lb, st, st₁, st₂, st', hcoversLeft, hcoversOp, hcoversRight, hends, hread⟩ :=
    exists_covers_operation (left.prints hwf.1 hpl) ((right.prints hwf.2 hpr).parens (.right op) right)
      (left.run hwf.1 hpl .none) (Operand.grouped (right.run hwf.2 hpr) (.right op) right op.gap)
      hunit level
  have hop := operator_of_plain hwf hp hcoversOp hcoversRight
  obtain ⟨tl, hrowLeft, hnormalLeft, hroot⟩ := left.rows hwf.1 hpl (by simp [hleft, Expr.level])
    hcoversLeft (hop.stops (Nat.lt_succ_self _)).startsSuffix
  obtain ⟨tr, hrowRight, -⟩ := Rows.grouped rfl (right.readable hwf.2 hpr)
    (right.rows hwf.2 hpr) hcoversRight hends.stops.startsSuffix
  -- what is read is the tree of the row, which has the operator of the left operand in it
  have hexpr := hread _ (derives_climb _ (.node hrowLeft hop hrowRight) hends)
  obtain rfl := Except.ok.inj (hexpr.symm.trans hparse)
  obtain ⟨-, hle, -⟩ := tiers_of_climb hnormal hnormalLeft
  have hmem : .inr inner ∈ tl.items := mem_items_of_root? (by rw [hroot, hleft]; rfl)
  exact absurd (hle inner hmem) (by omega)

lemma not_parse_bareRight (hwf : (binary span op left right).WellFormed)
    (hp : (binary span op left right).Plain breaks) {inner : BinaryOp} {place : Span}
    {right₁ right₂ : Expr} (hright : right = binary place inner right₁ right₂)
    (htier : inner.tier ≤ op.tier) (hunit : ∀ c ∈ unit.toList, Text.isBlank c = true) (level : Nat) :
    ¬ ∃ e', Expr.parse ((Doc.operation op (.parens (.left op) left (left.doc breaks))
        (right.doc breaks)).renderAt unit level) = .ok e' ∧
      e'.normal = (binary span op left right).normal := by
  rintro ⟨e', hparse, hnormal⟩
  have hpl : left.Plain breaks := hp.child (by simp [children])
  have hpr : right.Plain breaks := hp.child (by simp [children])
  obtain ⟨lb, st, st₁, st₂, st', hcoversLeft, hcoversOp, hcoversRight, hends, hread⟩ :=
    exists_covers_operation ((left.prints hwf.1 hpl).parens (.left op) left) (right.prints hwf.2 hpr)
      (Operand.grouped (left.run hwf.1 hpl) (.left op) left .none) (right.run hwf.2 hpr op.gap)
      hunit level
  obtain ⟨tr, hrowRight, -, hroot⟩ := right.rows hwf.2 hpr (by simp [hright, Expr.level])
    hcoversRight hends.stops.startsSuffix
  have hmem : .inr inner ∈ tr.items := mem_items_of_root? (by rw [hroot, hright]; rfl)
  -- the left operand, before whatever operator is read
  have hleft {op' : BinaryOp} {st₃ : Stream} (hop : st₁.Operator op' st₃) :
      ∃ tl : OperatorTree, st.Row tl.items st₁ ∧ tl.expr.normal = left.normal :=
    Rows.grouped rfl (left.readable hwf.1 hpl) (left.rows hwf.1 hpl) hcoversLeft
      (hop.stops (Nat.lt_succ_self _)).startsSuffix
  by_cases hnot : op = .is false ∧ st₂.current.lexeme = .word "not"
  · -- the right operand starts with a negation, which negates the test
    obtain ⟨rfl, hnot⟩ := hnot
    obtain ⟨st₃, t', hpass, hrow, -⟩ := exists_row_after_not hrowRight hnot
    obtain ⟨_, his, -, ⟨⟩⟩ := Stream.covers_cons.mp hcoversOp
    have hop : st₁.Operator (.is true) st₃ := .isNot his hpass
    obtain ⟨tl, hrowLeft, hnormalLeft⟩ := hleft hop
    have hexpr := hread _ (derives_climb _ (.node hrowLeft hop hrow) hends)
    obtain rfl := Except.ok.inj (hexpr.symm.trans hparse)
    obtain ⟨hne, -⟩ := tiers_of_climb hnormal hnormalLeft
    exact absurd hne (by decide)
  · have hop : st₁.Operator op st₂ :=
      BinaryOp.operator_of_covers hcoversOp fun his hword => hnot ⟨his, hword⟩
    obtain ⟨tl, hrowLeft, hnormalLeft⟩ := hleft hop
    have hexpr := hread _ (derives_climb _ (.node hrowLeft hop hrowRight) hends)
    obtain rfl := Except.ok.inj (hexpr.symm.trans hparse)
    obtain ⟨-, -, hlt⟩ := tiers_of_climb hnormal hnormalLeft
    exact absurd (hlt inner hmem) (by omega)

/-! ## Parentheses -/

lemma needsParens_left_iff (hwf : (binary span op left right).WellFormed)
    (hp : (binary span op left right).Plain breaks) (htier : left.tier?.isSome = true)
    (hunit : ∀ c ∈ unit.toList, Text.isBlank c = true) (level : Nat) :
    needsParens (.left op) left = true ↔ ¬ ∃ e', Expr.parse ((Doc.operation op (left.doc breaks)
        (.parens (.right op) right (right.doc breaks))).renderAt unit level) = .ok e' ∧
      e'.normal = (binary span op left right).normal := by
  constructor
  · intro hparens
    cases left with
    | binary place inner left₁ left₂ =>
      exact not_parse_bareLeft hwf hp rfl (by simpa [needsParens] using hparens) hunit level
    | _ => cases htier
  · intro hbare
    by_contra hparens
    refine hbare ?_
    have hdoc : Doc.parens (.left op) left (left.doc breaks) = left.doc breaks := if_neg hparens
    rw [← hdoc, ← doc_binary]
    exact exists_parse_doc hwf hp hunit level

lemma needsParens_right_iff (hwf : (binary span op left right).WellFormed)
    (hp : (binary span op left right).Plain breaks) (htier : right.tier?.isSome = true)
    (hunit : ∀ c ∈ unit.toList, Text.isBlank c = true) (level : Nat) :
    needsParens (.right op) right = true ↔ ¬ ∃ e', Expr.parse ((Doc.operation op
        (.parens (.left op) left (left.doc breaks)) (right.doc breaks)).renderAt unit level) = .ok e' ∧
      e'.normal = (binary span op left right).normal := by
  constructor
  · intro hparens
    cases right with
    | binary place inner right₁ right₂ =>
      exact not_parse_bareRight hwf hp rfl (by simpa [needsParens] using hparens) hunit level
    | _ => cases htier
  · intro hbare
    by_contra hparens
    refine hbare ?_
    have hdoc : Doc.parens (.right op) right (right.doc breaks) = right.doc breaks := if_neg hparens
    rw [← hdoc, ← doc_binary]
    exact exists_parse_doc hwf hp hunit level

/-- **Parentheses around operations are exact**: in an expression that was read and is plain, an
operation that is an operand of an operation, at any depth, is put in parentheses if and only if
the outer operation without these parentheses, and with all others, is not read, or is read as
another expression. -/
theorem needsParens_iff_of_parse {source : String} {e : Expr} (hparse : Expr.parse source = .ok e)
    {breaks : Breaks} (hplain : e.Plain breaks) {span : Span} {op : BinaryOp} {left right : Expr}
    {parens : Bool} (hpart : ⟨.binary span op left right, parens⟩ ∈ e.outline) (unit : String)
    (hunit : ∀ c ∈ unit.toList, Text.isBlank c = true) (level : Nat) :
    (left.tier?.isSome = true → (needsParens (.left op) left = true ↔
      ¬ ∃ e', Expr.parse ((Doc.operation op (left.doc breaks)
          (.parens (.right op) right (right.doc breaks))).renderAt unit level) = .ok e' ∧
        e'.normal = (binary span op left right).normal)) ∧
    (right.tier?.isSome = true → (needsParens (.right op) right = true ↔
      ¬ ∃ e', Expr.parse ((Doc.operation op (.parens (.left op) left (left.doc breaks))
          (right.doc breaks)).renderAt unit level) = .ok e' ∧
        e'.normal = (binary span op left right).normal)) := by
  have hwf := Expr.wellFormed_of_ofChars (Expr.parse_eq_ok_iff.mp hparse)
  obtain ⟨hwf', hp'⟩ := wellFormed_of_mem_outline hwf hplain hpart (cons_ne_nil _ _)
  exact ⟨fun htier => needsParens_left_iff hwf' hp' htier hunit level,
    fun htier => needsParens_right_iff hwf' hp' htier hunit level⟩

/-- Parentheses around a comparison that starts with a negation: without them, the negation
becomes one of the type test before it. -/
theorem needsParens_iff_of_parse_negation :
    ∃ e span left right parens, Expr.parse "a is (not b == c)" = .ok e ∧
      e.Plain (fun _ _ _ => false) ∧
      (⟨.binary span (.is false) left right, parens⟩ : Grouping) ∈ e.outline ∧
      right.tier?.isSome = true ∧ needsParens (.right (.is false)) right = true ∧
      ¬ ∃ e', Expr.parse "a is not b == c" = .ok e' ∧
        e'.normal = (binary span (.is false) left right).normal := by
  let right : Expr := .binary ⟨6, 16⟩ .equal (.unary ⟨6, 11⟩ .not (.identifier ⟨10, 11⟩ "b"))
    (.identifier ⟨15, 16⟩ "c")
  have hparse : Expr.parse "a is (not b == c)" =
      .ok (.binary ⟨0, 16⟩ (.is false) (.identifier ⟨0, 1⟩ "a") right) := by
    with_unfolding_all rfl
  have hplain : (Expr.binary ⟨0, 16⟩ (.is false) (.identifier ⟨0, 1⟩ "a") right).Plain
      fun _ _ _ => false := by
    have hshape : beginsWithWord "not" (right.textIn (fun _ _ _ => false) (.right (.is false))) =
        false := by cbv
    simp [Plain, outline, inSlot, parts, KeepsShape, hshape, right]
  have hexact := (needsParens_iff_of_parse hparse hplain (mem_cons_self ..) ""
    (by simp) 0).2 rfl
  exact ⟨_, _, _, _, _, hparse, hplain, mem_cons_self .., rfl, rfl, hexact.mp rfl⟩

end Expr

end ComponentTemplate
