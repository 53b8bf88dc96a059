import ComponentTemplate.Proofs.ExprRoundTrip

/-!
# Trees of operators

A row of operands with binary operators between them is read as one tree, and the tiers of the
operators decide which one. The operands of a row are whole: what they are inside does not
matter, so that an operation in parentheses is one operand.
-/

namespace ComponentTemplate

open Grammar List

/-- **A tree of binary operators** over operands that are whole. -/
inductive OperatorTree where
  | leaf (e : Expr)
  | node (op : BinaryOp) (left right : OperatorTree)

namespace OperatorTree

/-- **The row of a tree**: its operands and operators in order. -/
def items : OperatorTree → List (Expr ⊕ BinaryOp)
  | leaf e => [.inl e]
  | node op left right => left.items ++ .inr op :: right.items

def root? : OperatorTree → Option BinaryOp
  | leaf _ => none
  | node op _ _ => some op

/-- **A tree is grouped by the tiers of its operators**: at every operator, the one at the root of
the left operand is at least as strong, and the one at the root of the right operand is
stronger. -/
def Climbs : OperatorTree → Prop
  | leaf _ => True
  | node op left right =>
    (∀ inner ∈ left.root?, op.tier ≤ inner.tier) ∧ (∀ inner ∈ right.root?, op.tier < inner.tier) ∧
      left.Climbs ∧ right.Climbs

def expr : OperatorTree → Expr
  | leaf e => e
  | node op left right => .binary (left.expr.span.merge right.expr.span) op left.expr right.expr

variable {t t' left right : OperatorTree} {op inner outer : BinaryOp}

/-! ## One tree for a row -/

lemma Climbs.root_le (h : t.Climbs) (houter : outer ∈ t.root?) (hinner : .inr inner ∈ t.items) :
    outer.tier ≤ inner.tier := by
  induction t generalizing outer with
  | leaf e => cases houter
  | node op left right ihleft ihright =>
    obtain ⟨hl, hr, hleft, hright⟩ := h
    obtain rfl : op = outer := Option.some.inj houter
    rcases mem_append.mp hinner with hmem | hmem
    · cases left with
      | leaf e => simp [items] at hmem
      | node op' _ _ => exact (hl op' rfl).trans (ihleft hleft rfl hmem)
    · rcases mem_cons.mp hmem with heq | hmem
      · exact (Sum.inr.inj heq).symm ▸ le_rfl
      · cases right with
        | leaf e => simp [items] at hmem
        | node op' _ _ => exact (hr op' rfl).le.trans (ihright hright rfl hmem)

lemma Climbs.le_left (h : (node op left right).Climbs) (hinner : .inr inner ∈ left.items) :
    op.tier ≤ inner.tier :=
  h.root_le rfl (mem_append_left _ hinner)

lemma Climbs.lt_right (h : (node op left right).Climbs) (hinner : .inr inner ∈ right.items) :
    op.tier < inner.tier := by
  obtain ⟨-, hr, -, hright⟩ := h
  cases right with
  | leaf e => simp [items] at hinner
  | node op' _ _ => exact (hr op' rfl).trans_le (hright.root_le rfl hinner)

lemma mem_items_of_root? (h : op ∈ t.root?) : .inr op ∈ t.items := by
  cases t with
  | leaf e => cases h
  | node root left right =>
    obtain rfl := Option.some.inj h
    simp [items]

lemma exists_items_eq (t : OperatorTree) : ∃ e rest, t.items = .inl e :: rest := by
  induction t with
  | leaf e => exact ⟨e, [], rfl⟩
  | node op left right ihleft _ =>
    obtain ⟨e, rest, hitems⟩ := ihleft
    exact ⟨e, _, by rw [items, hitems]; rfl⟩

lemma eq_of_split {l l' r r' : List (Expr ⊕ BinaryOp)} {op' : BinaryOp}
    (h : l ++ .inr op :: r = l' ++ .inr op' :: r')
    (hlong : ∀ between, l' = l ++ .inr op :: between → r = between ++ .inr op' :: r' → False)
    (hshort : ∀ between, l = l' ++ .inr op' :: between → r' = between ++ .inr op :: r → False) :
    l = l' ∧ op = op' ∧ r = r' := by
  rcases append_eq_append_iff.mp h with ⟨between, hl, hr⟩ | ⟨between, hl, hr⟩
  · cases between with
    | nil => exact ⟨by simpa using hl.symm, by simpa using hr⟩
    | cons item between =>
      obtain ⟨rfl, hrest⟩ := cons.inj hr
      exact (hlong between hl hrest).elim
  · cases between with
    | nil => exact ⟨by simpa using hl, by simpa [eq_comm] using hr⟩
    | cons item between =>
      obtain ⟨rfl, hrest⟩ := cons.inj hr
      exact (hshort between hl hrest).elim

/-- **A row has at most one tree** that is grouped by the tiers of its operators. -/
theorem Climbs.eq_of_items_eq (h : t.Climbs) (h' : t'.Climbs) (hitems : t.items = t'.items) :
    t = t' := by
  induction t generalizing t' with
  | leaf e =>
    cases t' with
    | leaf e' => simpa [items] using hitems
    | node op' l' r' =>
      obtain ⟨e', rest, hl'⟩ := l'.exists_items_eq
      simp [items, hl'] at hitems
  | node op l r ihl ihr =>
    cases t' with
    | leaf e' =>
      obtain ⟨e, rest, hl⟩ := l.exists_items_eq
      simp [items, hl] at hitems
    | node op' l' r' =>
      -- of two operators, each in an operand of the other one, neither is the stronger one
      obtain ⟨hleft, rfl, hright⟩ : l.items = l'.items ∧ op = op' ∧ r.items = r'.items := by
        refine eq_of_split hitems (fun between hl' hr => ?_) fun between hl hr' => ?_
        · have hlt : op.tier < op'.tier := h.lt_right (hr ▸ by simp)
          have hle : op'.tier ≤ op.tier := h'.le_left (hl' ▸ by simp)
          omega
        · have hlt : op'.tier < op.tier := h'.lt_right (hr' ▸ by simp)
          have hle : op.tier ≤ op'.tier := h.le_left (hl ▸ by simp)
          omega
      obtain ⟨-, -, hl, hr⟩ := h
      obtain ⟨-, -, hl', hr'⟩ := h'
      rw [ihl hl hl' hleft, ihr hr hr' hright]

/-! ## A tree for every row -/

def push (op : BinaryOp) (e : Expr) : OperatorTree → OperatorTree
  | leaf first => node op (leaf first) (leaf e)
  | node inner left right =>
    if inner.tier < op.tier then node inner left (right.push op e)
    else node op (node inner left right) (leaf e)

/-- A tree with one more operator and the row of another tree on the right. -/
def graft (t : OperatorTree) (op : BinaryOp) : OperatorTree → OperatorTree
  | leaf e => t.push op e
  | node inner left right => (t.graft op left).graft inner right

/-- **The tree over the same row** that is grouped by the tiers of its operators. -/
def climb : OperatorTree → OperatorTree
  | leaf e => leaf e
  | node op left right => left.climb.graft op right

lemma items_push (t : OperatorTree) (op : BinaryOp) (e : Expr) :
    (t.push op e).items = t.items ++ [.inr op, .inl e] := by
  induction t with
  | leaf first => rfl
  | node inner left right _ ih =>
    rw [push]
    split
    · simp [items, ih]
    · simp [items]

lemma items_graft (t : OperatorTree) (op : BinaryOp) (s : OperatorTree) :
    (t.graft op s).items = t.items ++ .inr op :: s.items := by
  induction s generalizing t op with
  | leaf e => exact t.items_push op e
  | node inner left right ihleft ihright => simp [graft, items, ihleft, ihright]

lemma items_climb (t : OperatorTree) : t.climb.items = t.items := by
  induction t with
  | leaf e => rfl
  | node op left right ih _ => rw [climb, items_graft, ih, items]

lemma root?_push (t : OperatorTree) (op : BinaryOp) (e : Expr) :
    (t.push op e).root? = some op ∨ (t.push op e).root? = t.root? := by
  cases t with
  | leaf first => exact .inl rfl
  | node inner left right =>
    rw [push]
    split
    · exact .inr rfl
    · exact .inl rfl

lemma Climbs.push (h : t.Climbs) (op : BinaryOp) (e : Expr) : (t.push op e).Climbs := by
  induction t with
  | leaf first => simp [OperatorTree.push, Climbs, root?]
  | node inner left right _ ih =>
    obtain ⟨hl, hr, hleft, hright⟩ := h
    rw [OperatorTree.push]
    split
    · rename_i hlt
      refine ⟨hl, fun op' hop' => ?_, hleft, ih hright⟩
      rcases right.root?_push op e with hroot | hroot
      · rw [hroot] at hop'
        cases hop'
        exact hlt
      · exact hr op' (hroot ▸ hop')
    · rename_i hle
      refine ⟨fun op' hop' => ?_, by simp [root?], ⟨hl, hr, hleft, hright⟩, trivial⟩
      cases hop'
      exact not_lt.mp hle

lemma Climbs.graft (h : t.Climbs) (op : BinaryOp) (s : OperatorTree) : (t.graft op s).Climbs := by
  induction s generalizing t op with
  | leaf e => exact h.push op e
  | node inner left right ihleft ihright => exact ihright (ihleft h op) inner

lemma climbs_climb (t : OperatorTree) : t.climb.Climbs := by
  induction t with
  | leaf e => trivial
  | node op left right ih _ => exact ih.graft op right

end OperatorTree

/-! ## Reading a row -/

/-- **The operands and operators between two streams.** -/
inductive Stream.Row : Stream → List (Expr ⊕ BinaryOp) → Stream → Prop
  | nil {st : Stream} : Row st [] st
  | operand {st st₁ st' : Stream} {e : Expr} {items : List (Expr ⊕ BinaryOp)}
      (hoperand : Derives (.unary e) st st₁) (hrest : Row st₁ items st') :
      Row st (.inl e :: items) st'
  | operator {st st₁ st' : Stream} {op : BinaryOp} {items : List (Expr ⊕ BinaryOp)}
      (hop : st.Operator op st₁) (hrest : Row st₁ items st') : Row st (.inr op :: items) st'

namespace Stream

variable {st st₁ st₂ st' : Stream} {items items' : List (Expr ⊕ BinaryOp)} {op : BinaryOp} {e : Expr}

lemma Row.append (h : st.Row items st₁) (h' : st₁.Row items' st') :
    st.Row (items ++ items') st' := by
  induction h with
  | nil => exact h'
  | operand hoperand _ ih => exact .operand hoperand (ih h')
  | operator hop _ ih => exact .operator hop (ih h')

lemma Row.exists_of_append (h : st.Row (items ++ items') st') :
    ∃ st₁, st.Row items st₁ ∧ st₁.Row items' st' := by
  induction items generalizing st with
  | nil => exact ⟨st, .nil, h⟩
  | cons item items ih =>
    cases h with
    | operand hoperand hrest =>
      obtain ⟨st₁, hfirst, hsecond⟩ := ih hrest
      exact ⟨st₁, .operand hoperand hfirst, hsecond⟩
    | operator hop hrest =>
      obtain ⟨st₁, hfirst, hsecond⟩ := ih hrest
      exact ⟨st₁, .operator hop hfirst, hsecond⟩

lemma Row.leaf (h : Derives (.unary e) st st') : st.Row (OperatorTree.leaf e).items st' :=
  .operand h .nil

lemma Row.node (hleft : st.Row left.items st₁) (hop : st₁.Operator op st₂)
    (hright : st₂.Row right.items st') : st.Row (OperatorTree.node op left right).items st' :=
  hleft.append (.operator hop hright)

end Stream

namespace OperatorTree

variable {st st' : Stream} {t : OperatorTree}

def level : OperatorTree → Level
  | leaf _ => .unary
  | node op _ _ => .binary op.tier

lemma admits_level (h : ∀ op ∈ t.root?, tier ≤ op.tier) : (Level.binary tier).Admits t.level := by
  cases t with
  | leaf e => simp [level, Level.Admits]
  | node op left right => exact h op rfl

lemma Climbs.reads (h : t.Climbs) (hrow : st.Row t.items st') (bare : Bool) :
    t.level.Reads bare st t.expr st' := by
  induction t generalizing st st' with
  | leaf e =>
    intro _
    cases hrow with
    | operand hoperand hrest =>
      cases hrest
      exact hoperand
  | node op left right ihleft ihright =>
    obtain ⟨hl, hr, hleft, hright⟩ := h
    obtain ⟨st₁, hrow₁, hrow⟩ := hrow.exists_of_append
    cases hrow with
    | operator hop hrow₂ =>
      have hreads := (ihleft hleft hrow₁).of_admits (admits_level hl)
      have hadmits : (Level.binary (op.tier + 1)).Admits right.level := admits_level hr
      have hreads' := (ihright hright hrow₂).of_admits hadmits
      exact hreads.operation hop hreads'

/-- **A row before the end of an expression is read as one expression**, grouped by tiers. -/
theorem derives_climb (t : OperatorTree) (hrow : st.Row t.items st') (hends : st'.Ends) :
    Derives (.expression t.climb.expr) st st' := by
  have hreads := t.climbs_climb.reads (t.items_climb.symm ▸ hrow) false
  exact hreads.of_admits (show Level.expression.Admits t.climb.level from trivial) hends

lemma exists_items_cons (h : t.items = .inl e :: rest) (e' : Expr) :
    ∃ t' : OperatorTree, t'.items = .inl e' :: rest := by
  induction t generalizing rest with
  | leaf _ =>
    obtain ⟨-, rfl⟩ := cons.inj h
    exact ⟨leaf e', rfl⟩
  | node op left right ihleft _ =>
    obtain ⟨first, more, hleft⟩ := left.exists_items_eq
    rw [items, hleft, cons_append] at h
    obtain ⟨hfirst, rfl⟩ := cons.inj h
    obtain rfl := Sum.inl.inj hfirst
    obtain ⟨left', hleft'⟩ := ihleft hleft
    exact ⟨node op left' right, by rw [items, hleft', cons_append]⟩

lemma exists_row_after_not (hrow : st.Row t.items st') (hnot : st.current.lexeme = .word "not") :
    ∃ (st₁ : Stream) (t' : OperatorTree), st.Passes (.word "not") st₁ ∧ st₁.Row t'.items st' ∧
      ∀ op, .inr op ∈ t'.items → .inr op ∈ t.items := by
  obtain ⟨e, rest, hitems⟩ := t.exists_items_eq
  rw [hitems] at hrow
  cases hrow with
  | operand hoperand hrest =>
    cases hoperand with
    | unary _ hnext hargument =>
      obtain ⟨t', ht'⟩ := exists_items_cons hitems _
      exact ⟨_, t', ⟨hnot, hnext⟩, ht' ▸ .operand hargument hrest, by simp [hitems, ht']⟩
    | leadingUpdate hunary _ _ _ | operand hunary _ _ => simp [hnot, UnaryOp.ofLexeme?] at hunary

/-! ## Expressions as trees -/

def normal : OperatorTree → OperatorTree
  | leaf e => leaf e.normal
  | node op left right => node op left.normal right.normal

lemma items_normal (t : OperatorTree) : t.normal.items = t.items.map (Sum.map Expr.normal id) := by
  induction t with
  | leaf e => rfl
  | node op left right ihleft ihright => simp [normal, items, ihleft, ihright]

lemma root?_normal (t : OperatorTree) : t.normal.root? = t.root? := by cases t <;> rfl

lemma Climbs.normal (h : t.Climbs) : t.normal.Climbs := by
  induction t with
  | leaf e => trivial
  | node op left right ihleft ihright =>
    obtain ⟨hl, hr, hleft, hright⟩ := h
    exact ⟨left.root?_normal ▸ hl, right.root?_normal ▸ hr, ihleft hleft, ihright hright⟩

end OperatorTree

/-- **An expression as a tree of operators**, down to the operands that are no operations. -/
def Expr.tree : Expr → OperatorTree
  | .binary _ op left right => .node op left.tree right.tree
  | e => .leaf e

variable {name : String} {e : Expr} {gap : Gap} {st : Stream} {rest : List (BinaryOp × String)}

lemma Expr.tree_normal (h : e.tier? = none) : e.normal.tree = .leaf e.normal := by
  cases e with
  | binary => cases h
  | _ => rfl

lemma OperatorTree.tree_normal_expr {t : OperatorTree}
    (h : ∀ e, .inl e ∈ t.items → e.tier? = none) : t.expr.normal.tree = t.normal := by
  induction t with
  | leaf e => exact Expr.tree_normal (h e (by simp [items]))
  | node op left right ihleft ihright =>
    have hleft := ihleft fun e he => h e (mem_append_left _ he)
    have hright := ihright fun e he => h e (mem_append_right _ (mem_cons_of_mem _ he))
    simp [expr, normal, Expr.tree, hleft, hright]

/-! ## Rows of names -/

/-- A row of names and operators. -/
def rowText (name : String) : List (BinaryOp × String) → String
  | [] => name
  | (op, next) :: rest => name ++ " " ++ op.symbol ++ " " ++ rowText next rest

def rowItems (name : String) : List (BinaryOp × String) → List (Expr ⊕ BinaryOp)
  | [] => [.inl (.identifier default name)]
  | (op, next) :: rest => .inl (.identifier default name) :: .inr op :: rowItems next rest

def rowPieces (gap : Gap) (name : String) : List (BinaryOp × String) → List Piece
  | [] => [⟨gap, .word name⟩]
  | (op, next) :: rest => ⟨gap, .word name⟩ :: (op.pieces .space ++ rowPieces .space next rest)

def IsFreeName (name : String) : Prop := isName name.toList = true ∧ name ∉ reserved

instance : DecidablePred IsFreeName := fun _ => inferInstanceAs (Decidable (_ ∧ _))

lemma BinaryOp.spells (op : BinaryOp) : Spells (op.pieces .space) (' ' :: op.symbol.toList) := by
  have hword {p : Piece} (hgap : p.gap = .space) : Spells [p] (' ' :: p.lexeme.chars) := by
    have h : Spells [p] ([' '] ++ (p.lexeme.chars ++ [])) := .cons (hgap ▸ rfl) .nil
    simpa using h
  cases op with
  | is negated =>
    cases negated with
    | false => exact hword rfl
    | true =>
      have his : Spells [⟨.space, .word "is"⟩] " is".toList := hword rfl
      exact his.append (hword rfl)
  | isIn negated =>
    cases negated with
    | false => exact hword rfl
    | true =>
      have hnot : Spells [⟨.space, .word "not"⟩] " not".toList := hword rfl
      exact hnot.append (hword rfl)
  | _ => exact hword rfl

lemma spells_rowPieces (hgap : gap.Fits blanks) (name : String) (rest : List (BinaryOp × String)) :
    Spells (rowPieces gap name rest) (blanks ++ (rowText name rest).toList) := by
  induction rest generalizing gap blanks name with
  | nil => simpa [rowText, rowPieces] using Spells.cons (p := ⟨gap, .word name⟩) hgap .nil
  | cons item rest ih =>
    obtain ⟨op, next⟩ := item
    have hnext := ih (show Gap.space.Fits [' '] from rfl) next
    have h := Spells.cons (p := ⟨gap, .word name⟩) hgap (op.spells.append hnext)
    simpa [rowText, rowPieces] using h

lemma operand_rowPieces (gap : Gap) (name : String) (rest : List (BinaryOp × String))
    (h : ∀ n ∈ name :: rest.map Prod.snd, IsFreeName n) :
    Operand true gap (rowPieces gap name rest) := by
  induction rest generalizing gap name with
  | nil => exact Operand.word (h name (by simp)).1 gap
  | cons item rest ih =>
    obtain ⟨op, next⟩ := item
    have hrest := ih .space next fun n hn => h n (mem_cons_of_mem _ hn)
    exact op.run_space (Operand.word (h name (by simp)).1 gap) hrest

lemma IsFreeName.derives (h : IsFreeName name) (hpass : st.Passes (.word name) st₁)
    (hsuffix : st₁.current.lexeme.startsSuffix = false) :
    Derives (.unary (.identifier st.current.span name)) st st₁ := by
  have hatom : st.current.atom? = some (.identifier st.current.span name) := by
    have hfree := h.2
    unfold Token.atom?
    rw [hpass.lexeme_eq]
    split <;> simp_all [reserved]
  exact Level.operand_of_suffixed (.suffixed (.atom hatom hpass.next) (.suffixesEnd hsuffix))

lemma exists_row (h : ∀ n ∈ name :: rest.map Prod.snd, IsFreeName n)
    (hcovers : st.Covers lb (rowPieces gap name rest) st')
    (hsuffix : st'.current.lexeme.startsSuffix = false) :
    st.current.lexeme = .word name ∧
      ∃ t : OperatorTree, st.Row t.items st' ∧ t.normal.items = rowItems name rest := by
  induction rest generalizing st gap name with
  | nil =>
    obtain ⟨st₁, hpass, -, ⟨⟩⟩ := Stream.covers_cons.mp hcovers
    exact ⟨hpass.lexeme_eq, .leaf _, .leaf ((h name (by simp)).derives hpass hsuffix),
      by simp [OperatorTree.normal, OperatorTree.items, rowItems]⟩
  | cons item rest ih =>
    obtain ⟨op, next⟩ := item
    obtain ⟨st₁, hpass, -, hcovers⟩ := Stream.covers_cons.mp hcovers
    obtain ⟨st₂, hcoversOp, hcovers⟩ := Stream.covers_append.mp hcovers
    have hrest : ∀ n ∈ next :: rest.map Prod.snd, IsFreeName n := fun n hn =>
      h n (mem_cons_of_mem _ hn)
    obtain ⟨hnext, t, hrow, hitems⟩ := ih hrest hcovers
    have hop : st₁.Operator op st₂ := by
      -- no name is the word that negates a type test
      refine BinaryOp.operator_of_covers hcoversOp fun _ hnot => (hrest next (by simp)).2 ?_
      rw [hnext, Lexeme.word.injEq] at hnot
      rw [hnot]
      decide
    have hfirst := (h name (by simp)).derives hpass (hop.stops (Nat.lt_succ_self _)).startsSuffix
    refine ⟨hpass.lexeme_eq, .node op (.leaf _) t, .node (.leaf hfirst) hop hrow, ?_⟩
    rw [rowItems, ← hitems]
    simp [OperatorTree.normal, OperatorTree.items]

lemma tier?_eq_none_of_mem_rowItems (h : .inl e ∈ rowItems name rest) : e.tier? = none := by
  induction rest generalizing name with
  | nil =>
    obtain rfl : e = .identifier default name := by simpa [rowItems] using h
    rfl
  | cons item rest ih =>
    simp only [rowItems, mem_cons, Sum.inl.injEq, reduceCtorEq, false_or] at h
    rcases h with rfl | h
    · rfl
    · exact ih h

/-- **A row of names is read as the one tree that is grouped by tiers**: reading succeeds, and the
trees over the row at every operator of which the left operand binds at least as strongly and the
right operand binds more strongly are exactly the tree that is read. -/
theorem Expr.exists_parse_rowText (name : String) (rest : List (BinaryOp × String))
    (hnames : ∀ n ∈ name :: rest.map Prod.snd, IsFreeName n) :
    ∃ e, Expr.parse (rowText name rest) = .ok e ∧
      ∀ t : OperatorTree, t.items = rowItems name rest ∧ t.Climbs ↔ t = e.normal.tree := by
  have hspells := spells_rowPieces (show Gap.none.Fits [] from rfl) name rest
  obtain ⟨st, st', hcovers, hends, hread⟩ :=
    Expr.exists_covers_ofChars hspells (operand_rowPieces .none name rest hnames).legible
  obtain ⟨-, t, hrow, hitems⟩ := exists_row hnames hcovers hends.stops.startsSuffix
  refine ⟨t.climb.expr, Expr.parse_eq_ok_iff.mpr (hread _ (t.derives_climb hrow hends)), ?_⟩
  -- the tree that is read has the row, and names for operands
  have hrowItems : t.climb.normal.items = rowItems name rest := by
    rw [OperatorTree.items_normal, OperatorTree.items_climb, ← OperatorTree.items_normal, hitems]
  have htree : t.climb.expr.normal.tree = t.climb.normal := by
    refine OperatorTree.tree_normal_expr fun e he => ?_
    have hmem : Sum.inl e.normal ∈ t.climb.normal.items := by
      rw [OperatorTree.items_normal]
      exact mem_map_of_mem he
    have htier := tier?_eq_none_of_mem_rowItems (hrowItems ▸ hmem)
    cases e with
    | binary => cases htier
    | _ => rfl
  rw [htree]
  intro t'
  constructor
  · rintro ⟨hitems', hclimbs⟩
    exact hclimbs.eq_of_items_eq t.climbs_climb.normal (hitems'.trans hrowItems.symm)
  · rintro rfl
    exact ⟨hrowItems, t.climbs_climb.normal⟩

/-- The tree of a row with operators of three tiers, one of them written in two words. -/
theorem Expr.exists_parse_rowText_mixed :
    (∀ n ∈ ["a", "b", "c", "d"], IsFreeName n) ∧
      ∃ e, Expr.parse "a + b is not c * d" = .ok e ∧
        e.normal.tree = .node (.is true)
          (.node .add (.leaf (.identifier default "a")) (.leaf (.identifier default "b")))
          (.node .mul (.leaf (.identifier default "c")) (.leaf (.identifier default "d"))) := by
  have hnames : ∀ n ∈ ["a", "b", "c", "d"], IsFreeName n := by decide
  obtain ⟨e, hparse, htree⟩ :=
    Expr.exists_parse_rowText "a" [(.add, "b"), (.is true, "c"), (.mul, "d")] hnames
  refine ⟨hnames, e, hparse, ((htree _).mp ⟨rfl, ?_⟩).symm⟩
  simp [OperatorTree.Climbs, OperatorTree.root?, BinaryOp.tier]

end ComponentTemplate
