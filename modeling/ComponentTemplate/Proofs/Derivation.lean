import ComponentTemplate.Proofs.Passing

/-!
# Derivations of expressions

The grammar of expressions as a relation between two streams: which phrase stands between
them, and what it stands for. What the reading functions give is proved by induction on a
derivation.
-/

namespace ComponentTemplate

def Lexeme.startsSuffix (l : Lexeme) : Bool :=
  l ∈ [.mark ".", .mark "?.", .mark "[", .mark "(", .mark "|"] || (UpdateOp.ofLexeme? l).isSome

namespace Grammar

/-- **The phrases of the grammar**, one for each reading function, with the values that they
are given and that they stand for. -/
inductive Phrase where
  | expression (e : Expr)
  | choice (e : Expr)
  | binary (tier : Nat) (e : Expr)
  | binaryRest (tier : Nat) (left e : Expr)
  | unary (e : Expr)
  | suffixed (e : Expr)
  | suffixes (start : Nat) (head e : Expr)
  | optionalSuffix (start : Nat) (head e : Expr)
  | primary (e : Expr)
  | elements (close : String) (es : List Expr)
  | properties (ps : List Property)
  | params (params : List Expr)

/-- **The phrase between two streams.** -/
inductive Derives : Phrase → Stream → Stream → Prop
  | arrow {st st₁ st₂ st₃ st₄ st₅} {params} {body}
      (hat : st.atArrow = .ok true) (hopen : st.Passes (.mark "(") st₁)
      (hparams : Derives (.params params) st₁ st₂) (hclose : st₂.Passes (.mark ")") st₃)
      (hmark : st₃.Passes (.mark "=>") st₄) (hbody : Derives (.expression body) st₄ st₅) :
      Derives (.expression (.arrow ⟨st.current.span.start, st₅.lastStop⟩ params body)) st st₅
  | shortArrow {st st₁ st₂ st₃} {name} {body}
      (hat : st.atArrow = .ok true) (hname : st.Passes (.word name) st₁) (hfree : name ∉ reserved)
      (hmark : st₁.Passes (.mark "=>") st₂) (hbody : Derives (.expression body) st₂ st₃) :
      Derives (.expression (.arrow ⟨st.current.span.start, st₃.lastStop⟩
        [.identifier st.current.span name] body)) st st₃
  | plain {st st₁} {e} (hat : st.atArrow = .ok false)
      (hchoice : Derives (.choice e) st st₁)
      (hop : AssignmentOp.ofLexeme? st₁.current.lexeme = none) :
      Derives (.expression e) st st₁
  | assignment {st st₁ st₂ st₃} {left right} {op}
      (hat : st.atArrow = .ok false) (hleft : Derives (.choice left) st st₁)
      (hop : AssignmentOp.ofLexeme? st₁.current.lexeme = some op)
      (hassignable : left.isAssignable = true) (hnext : st₁.Next st₂)
      (hright : Derives (.expression right) st₂ st₃) :
      Derives (.expression (.assignment (left.span.merge right.span) op left right)) st st₃
  | test {st st₁} {e} (htest : Derives (.binary 0 e) st st₁)
      (hmark : st₁.current.lexeme ≠ .mark "?") : Derives (.choice e) st st₁
  | conditional {st st₁ st₂ st₃ st₄ st₅} {test consequent alternate}
      (htest : Derives (.binary 0 test) st st₁) (hmark : st₁.Passes (.mark "?") st₂)
      (hconsequent : Derives (.expression consequent) st₂ st₃)
      (hcolon : st₃.Passes (.mark ":") st₄)
      (halternate : Derives (.expression alternate) st₄ st₅) :
      Derives
        (.choice (.conditional (test.span.merge alternate.span) test consequent alternate)) st st₅
  | binary {st st₁ st₂} {tier} {left e}
      (hleft : Derives (.unary left) st st₁) (hrest : Derives (.binaryRest tier left e) st₁ st₂) :
      Derives (.binary tier e) st st₂
  | binaryEnd {st} {tier} {left} (hop : st.operator? = .ok none) :
      Derives (.binaryRest tier left left) st st
  | binaryWeaker {st} {tier} {left} {op}
      (hop : st.operator? = .ok (some op)) (htier : op.tier < tier) :
      Derives (.binaryRest tier left left) st st
  | binaryStep {st st₁ st₂ st₃} {tier} {left right e} {op}
      (hop : st.Operator op st₁) (htier : tier ≤ op.tier)
      (hright : Derives (.binary (op.tier + 1) right) st₁ st₂)
      (hrest : Derives
        (.binaryRest tier (.binary (left.span.merge right.span) op left right) e) st₂ st₃) :
      Derives (.binaryRest tier left e) st st₃
  | unary {st st₁ st₂} {op} {argument}
      (hop : UnaryOp.ofLexeme? st.current.lexeme = some op) (hnext : st.Next st₁)
      (hargument : Derives (.unary argument) st₁ st₂) :
      Derives (.unary (.unary ⟨st.current.span.start, st₂.lastStop⟩ op argument)) st st₂
  | leadingUpdate {st st₁ st₂} {op} {argument}
      (hunary : UnaryOp.ofLexeme? st.current.lexeme = none)
      (hop : UpdateOp.ofLexeme? st.current.lexeme = some op) (hnext : st.Next st₁)
      (hargument : Derives (.suffixed argument) st₁ st₂) :
      Derives (.unary (.update ⟨st.current.span.start, st₂.lastStop⟩ op true argument)) st st₂
  | operand {st st₁} {e} (hunary : UnaryOp.ofLexeme? st.current.lexeme = none)
      (hupdate : UpdateOp.ofLexeme? st.current.lexeme = none)
      (hsuffixed : Derives (.suffixed e) st st₁) : Derives (.unary e) st st₁
  | suffixed {st st₁ st₂} {head e} (hhead : Derives (.primary head) st st₁)
      (hsuffixes : Derives (.suffixes st.current.span.start head e) st₁ st₂) :
      Derives (.suffixed e) st st₂
  | member {st st₁ st₂ st₃} {start} {head e} {name}
      (hmark : st.Passes (.mark ".") st₁) (hname : st₁.Passes (.word name) st₂)
      (hrest : Derives (.suffixes start (.member ⟨start, st₂.lastStop⟩ head
        (.identifier st₁.current.span name) false false) e) st₂ st₃) :
      Derives (.suffixes start head e) st st₃
  | optional {st st₁ st₂ st₃} {start} {head applied e}
      (hmark : st.Passes (.mark "?.") st₁)
      (happlied : Derives (.optionalSuffix start head applied) st₁ st₂)
      (hrest : Derives (.suffixes start applied e) st₂ st₃) :
      Derives (.suffixes start head e) st st₃
  | computed {st st₁ st₂ st₃ st₄} {start} {head property e}
      (hopen : st.Passes (.mark "[") st₁) (hproperty : Derives (.expression property) st₁ st₂)
      (hclose : st₂.Passes (.mark "]") st₃)
      (hrest : Derives
        (.suffixes start (.member ⟨start, st₃.lastStop⟩ head property true false) e) st₃ st₄) :
      Derives (.suffixes start head e) st st₄
  | call {st st₁ st₂ st₃} {start} {head e} {arguments}
      (hopen : st.Passes (.mark "(") st₁) (harguments : Derives (.elements ")" arguments) st₁ st₂)
      (hrest : Derives
        (.suffixes start (.call ⟨start, st₂.lastStop⟩ head arguments false) e) st₂ st₃) :
      Derives (.suffixes start head e) st st₃
  | filter {st st₁ st₂ st₃} {start} {head e} {name}
      (hmark : st.Passes (.mark "|") st₁) (hname : st₁.Passes (.word name) st₂)
      (hopen : st₂.current.lexeme ≠ .mark "(")
      (hrest : Derives (.suffixes start (.filter ⟨start, st₂.lastStop⟩ head name []) e) st₂ st₃) :
      Derives (.suffixes start head e) st st₃
  | filterCall {st st₁ st₂ st₃ st₄ st₅} {start} {head e} {name}
      {arguments} (hmark : st.Passes (.mark "|") st₁)
      (hname : st₁.Passes (.word name) st₂) (hopen : st₂.Passes (.mark "(") st₃)
      (harguments : Derives (.elements ")" arguments) st₃ st₄)
      (hrest : Derives
        (.suffixes start (.filter ⟨start, st₄.lastStop⟩ head name arguments) e) st₄ st₅) :
      Derives (.suffixes start head e) st st₅
  | trailingUpdate {st st₁} {start} {head} {op}
      (hop : UpdateOp.ofLexeme? st.current.lexeme = some op) (hnext : st.Next st₁) :
      Derives (.suffixes start head (.update ⟨start, st₁.lastStop⟩ op false head)) st st₁
  | suffixesEnd {st} {start} {head}
      (hend : st.current.lexeme.startsSuffix = false) : Derives (.suffixes start head head) st st
  | optionalCall {st st₁ st₂} {start} {head} {arguments}
      (hopen : st.Passes (.mark "(") st₁) (harguments : Derives (.elements ")" arguments) st₁ st₂) :
      Derives (.optionalSuffix start head (.call ⟨start, st₂.lastStop⟩ head arguments true)) st st₂
  | optionalComputed {st st₁ st₂ st₃} {start} {head property}
      (hopen : st.Passes (.mark "[") st₁) (hproperty : Derives (.expression property) st₁ st₂)
      (hclose : st₂.Passes (.mark "]") st₃) :
      Derives
        (.optionalSuffix start head (.member ⟨start, st₃.lastStop⟩ head property true true)) st st₃
  | optionalMember {st st₁} {start} {head} {name}
      (hname : st.Passes (.word name) st₁) :
      Derives (.optionalSuffix start head (.member ⟨start, st₁.lastStop⟩ head
        (.identifier st.current.span name) false true)) st st₁
  | atom {st st₁} {e} (hatom : st.current.atom? = some e) (hnext : st.Next st₁) :
      Derives (.primary e) st st₁
  | parens {st st₁ st₂ st₃} {e} (hopen : st.Passes (.mark "(") st₁)
      (hinner : Derives (.expression e) st₁ st₂) (hclose : st₂.Passes (.mark ")") st₃) :
      Derives (.primary e) st st₃
  | array {st st₁ st₂} {items} (hopen : st.Passes (.mark "[") st₁)
      (hitems : Derives (.elements "]" items) st₁ st₂) :
      Derives (.primary (.array ⟨st.current.span.start, st₂.lastStop⟩ items)) st st₂
  | object {st st₁ st₂ st₃} {entries}
      (hopen : st.Passes (.mark "\x7b") st₁) (hentries : Derives (.properties entries) st₁ st₂)
      (hclose : st₂.Passes (.mark "\x7d") st₃) :
      Derives (.primary (.object ⟨st.current.span.start, st₃.lastStop⟩ entries)) st st₃
  | elementsNil {st st₁} {close} (hclose : st.Passes (.mark close) st₁) :
      Derives (.elements close []) st st₁
  | elementsLast {st st₁ st₂} {close} {e}
      (hopen : st.current.lexeme ≠ .mark close) (hfirst : Derives (.expression e) st st₁)
      (hcomma : st₁.current.lexeme ≠ .mark ",") (hclose : st₁.Passes (.mark close) st₂) :
      Derives (.elements close [e]) st st₂
  | elementsCons {st st₁ st₂ st₃} {close} {e} {es}
      (hopen : st.current.lexeme ≠ .mark close) (hfirst : Derives (.expression e) st st₁)
      (hcomma : st₁.Passes (.mark ",") st₂) (hrest : Derives (.elements close es) st₂ st₃) :
      Derives (.elements close (e :: es)) st st₃
  | propertiesNil {st} (hclose : st.current.lexeme = .mark "\x7d") : Derives (.properties []) st st
  | propertiesLast {st st₁ st₂ st₃} {key value}
      (hkey : st.current.key? = some key) (hnext : st.Next st₁)
      (hcolon : st₁.Passes (.mark ":") st₂) (hvalue : Derives (.expression value) st₂ st₃)
      (hcomma : st₃.current.lexeme ≠ .mark ",") : Derives (.properties [.mk key value]) st st₃
  | propertiesCons {st st₁ st₂ st₃ st₄ st₅} {key value} {ps}
      (hkey : st.current.key? = some key) (hnext : st.Next st₁)
      (hcolon : st₁.Passes (.mark ":") st₂) (hvalue : Derives (.expression value) st₂ st₃)
      (hcomma : st₃.Passes (.mark ",") st₄) (hrest : Derives (.properties ps) st₄ st₅) :
      Derives (.properties (.mk key value :: ps)) st st₅
  | paramsNil {st} (hclose : st.current.lexeme = .mark ")") : Derives (.params []) st st
  | paramsLast {st st₁} {name} (hname : st.Passes (.word name) st₁)
      (hfree : name ∉ reserved) (hcomma : st₁.current.lexeme ≠ .mark ",") :
      Derives (.params [.identifier st.current.span name]) st st₁
  | paramsCons {st st₁ st₂ st₃} {name} {params}
      (hname : st.Passes (.word name) st₁) (hfree : name ∉ reserved)
      (hcomma : st₁.Passes (.mark ",") st₂) (hrest : Derives (.params params) st₂ st₃) :
      Derives (.params (.identifier st.current.span name :: params)) st st₃

/-! ## What is read has a derivation -/

/-- **A phrase is read**: its reading function gives what the phrase stands for. -/
def Reads : Phrase → Stream → Stream → Prop
  | .expression e, st, st' => Gives (expression st) e st'
  | .choice e, st, st' => Gives (choice st) e st'
  | .binary tier e, st, st' => Gives (binary tier st) e st'
  | .binaryRest tier left e, st, st' => Gives (binaryRest tier left st) e st'
  | .unary e, st, st' => Gives (unary st) e st'
  | .suffixed e, st, st' => Gives (suffixed st) e st'
  | .suffixes start head e, st, st' => Gives (suffixes start head st) e st'
  | .optionalSuffix start head e, st, st' => Gives (optionalSuffix start head st) e st'
  | .primary e, st, st' => Gives (primary st) e st'
  | .elements close es, st, st' => Gives (elements close st) es st'
  | .properties ps, st, st' => Gives (properties st) ps st'
  | .params ps, st, st' => Gives st.params ps st'

@[grind =]
def Phrase.rank : Phrase → Nat
  | .primary _ => 1
  | .suffixed _ => 2
  | .unary _ => 3
  | .binary .. => 4
  | .choice _ => 5
  | .expression _ => 6
  | .elements .. => 7
  | _ => 0

/-- **What is read has a derivation.** The recursion follows the reading functions: a part is
read later in the stream, or there and by a function of a lower rank. -/
theorem derives_of_reads (h : Reads phrase st st') : Derives phrase st st' := by
  induction hn : st.remaining * 8 + phrase.rank using Nat.strong_induction_on
    generalizing phrase st st' with
  | _ n ih =>
  subst hn
  have ih {part : Phrase} {st₁ st₂ : Stream} (h : Reads part st₁ st₂)
      (hlt : st₁.remaining * 8 + part.rank < st.remaining * 8 + phrase.rank) :
      Derives part st₁ st₂ :=
    ih _ hlt h rfl
  cases phrase with
  | expression e =>
    rw [Reads, expression, gives_bind_ok] at h
    obtain ⟨_ | _, hat, h⟩ := h
    · simp only [Bool.false_eq_true, if_false, gives_bind] at h
      obtain ⟨left, st₁, hleft, h⟩ := h
      have hleft : Derives (.choice left) st st₁ := ih hleft (by grind)
      split at h
      · obtain ⟨rfl, rfl⟩ := gives_pure.mp h
        exact .plain hat hleft ‹_›
      · split at h
        · simp only [gives_bind, gives_next_iff, gives_pure] at h
          obtain ⟨_, _, ⟨-, hnext⟩, _, _, hright, rfl, rfl⟩ := h
          exact .assignment hat hleft ‹_› ‹_› hnext (ih hright (by grind))
        · exact absurd h not_gives_error
    · simp only [if_true, arrowParams, gives_bind, gives_acceptMark_iff, gives_expectMark_iff,
        gives_identifierExpr_iff, gives_pure] at h
      obtain ⟨_, _, ⟨-, _, _, ⟨_, rfl, hfree, hname⟩, rfl, rfl⟩ |
        ⟨_, hopen, _, _, hparams, _, _, ⟨-, hclose⟩, rfl, rfl⟩, _, _, ⟨-, hmark⟩, _, _, hbody, rfl,
        rfl⟩ := h
      · exact .shortArrow hat hname hfree hmark (ih hbody (by grind))
      · exact .arrow hat hopen (ih hparams (by grind)) hclose hmark (ih hbody (by grind))
  | choice e =>
    rw [Reads, choice] at h
    simp only [gives_bind, gives_acceptMark_iff, gives_expectMark_iff, gives_pure] at h
    obtain ⟨test, _, htest, ⟨hmark, rfl, rfl⟩ | ⟨_, hmark, _, _, hconsequent, _, _, ⟨-, hcolon⟩, _,
      _, halternate, rfl, rfl⟩⟩ := h
    · exact .test (ih htest (by grind)) hmark
    · exact .conditional (ih htest (by grind)) hmark (ih hconsequent (by grind)) hcolon
        (ih halternate (by grind))
  | binary tier e =>
    rw [Reads, binary] at h
    simp only [gives_bind, gives_pure] at h
    obtain ⟨left, _, hleft, _, _, hrest, rfl, rfl⟩ := h
    exact .binary (ih hleft (by grind)) (ih hrest (by grind))
  | binaryRest tier left e =>
    rw [Reads, binaryRest] at h
    split at h
    · exact absurd h not_gives_error
    · obtain ⟨rfl, rfl⟩ := gives_ok.mp h
      exact .binaryEnd ‹_›
    · rename_i found hop
      split at h
      · obtain ⟨rfl, rfl⟩ := gives_ok.mp h
        exact .binaryWeaker hop ‹_›
      · simp only [gives_bind, gives_pure] at h
        obtain ⟨op, _, hpass, _, _, hright, _, _, hrest, rfl, rfl⟩ := h
        obtain ⟨hoperator, htier⟩ := Stream.operator_of_passOperator hop hpass
        exact .binaryStep hoperator (by omega) (ih hright (by grind)) (ih hrest (by grind))
  | unary e =>
    rw [Reads, unary] at h
    split at h
    · simp only [gives_bind, gives_next_iff, gives_pure] at h
      obtain ⟨_, _, ⟨-, hnext⟩, _, _, hargument, rfl, rfl⟩ := h
      exact .unary ‹_› hnext (ih hargument (by grind))
    · split at h
      · simp only [gives_bind, gives_next_iff, gives_pure] at h
        obtain ⟨_, _, ⟨-, hnext⟩, _, _, hargument, rfl, rfl⟩ := h
        exact .leadingUpdate ‹_› ‹_› hnext (ih hargument (by grind))
      · exact .operand ‹_› ‹_› (ih h (by grind))
  | suffixed e =>
    rw [Reads, suffixed] at h
    simp only [gives_bind, gives_pure] at h
    obtain ⟨head, _, hhead, _, _, hsuffixes, rfl, rfl⟩ := h
    exact .suffixed (ih hhead (by grind)) (ih hsuffixes (by grind))
  | suffixes start head e =>
    rw [Reads, suffixes] at h
    split at h
    case h_6 =>
      split at h
      · simp only [gives_bind, gives_next_iff, gives_pure] at h
        obtain ⟨_, _, ⟨-, hnext⟩, rfl, rfl⟩ := h
        exact .trailingUpdate ‹_› hnext
      · obtain ⟨rfl, rfl⟩ := gives_ok.mp h
        exact .suffixesEnd (by simp_all [Lexeme.startsSuffix])
    all_goals
      rename_i hlexeme
      simp only [gives_bind, gives_next_iff, gives_nameExpr_iff, gives_expectMark_iff,
        gives_name_iff, gives_acceptMark_iff, gives_pure] at h
      obtain ⟨_, _, ⟨-, hnext⟩, h⟩ := h
    · obtain ⟨_, _, ⟨_, rfl, hname⟩, _, _, hrest, rfl, rfl⟩ := h
      exact .member ⟨hlexeme, hnext⟩ hname (ih hrest (by grind))
    · obtain ⟨_, _, happlied, _, _, hrest, rfl, rfl⟩ := h
      exact .optional ⟨hlexeme, hnext⟩ (ih happlied (by grind)) (ih hrest (by grind))
    · obtain ⟨_, _, hproperty, _, _, ⟨-, hclose⟩, _, _, hrest, rfl, rfl⟩ := h
      exact .computed ⟨hlexeme, hnext⟩ (ih hproperty (by grind)) hclose (ih hrest (by grind))
    · obtain ⟨_, _, harguments, _, _, hrest, rfl, rfl⟩ := h
      exact .call ⟨hlexeme, hnext⟩ (ih harguments (by grind)) (ih hrest (by grind))
    · obtain ⟨_, _, ⟨_, rfl, hname⟩, ⟨hopen, _, _, hrest, rfl, rfl⟩ |
        ⟨_, hopen, _, _, harguments, _, _, hrest, rfl, rfl⟩⟩ := h
      · exact .filter ⟨hlexeme, hnext⟩ hname hopen (ih hrest (by grind))
      · exact .filterCall ⟨hlexeme, hnext⟩ hname hopen (ih harguments (by grind))
          (ih hrest (by grind))
  | optionalSuffix start head e =>
    rw [Reads, optionalSuffix] at h
    split at h
    all_goals
      simp only [gives_bind, gives_next_iff, gives_nameExpr_iff, gives_expectMark_iff,
        gives_pure] at h
    · obtain ⟨_, _, ⟨-, hnext⟩, _, _, harguments, rfl, rfl⟩ := h
      exact .optionalCall ⟨‹_›, hnext⟩ (ih harguments (by grind))
    · obtain ⟨_, _, ⟨-, hnext⟩, _, _, hproperty, _, _, ⟨-, hclose⟩, rfl, rfl⟩ := h
      exact .optionalComputed ⟨‹_›, hnext⟩ (ih hproperty (by grind)) hclose
    · obtain ⟨_, _, ⟨_, rfl, hname⟩, rfl, rfl⟩ := h
      exact .optionalMember hname
  | primary e =>
    rw [Reads, primary] at h
    split at h
    case h_1 =>
      obtain ⟨hatom, hnext⟩ := gives_wordPrimary_iff.mp h
      exact .atom hatom hnext
    case h_5 =>
      cases hsome : literal? st with
      | none => exact absurd (by simpa [hsome] using h) not_gives_error
      | some result =>
        rw [hsome, Option.getD_some] at h
        obtain ⟨hliteral, hnext⟩ := gives_literal_iff.mp ⟨result, hsome, h⟩
        exact .atom (Token.atom?_of_literal? hliteral) hnext
    all_goals simp only [gives_bind, gives_next_iff, gives_expectMark_iff, gives_pure] at h
    · obtain ⟨_, _, ⟨-, hnext⟩, _, _, hinner, _, _, ⟨-, hclose⟩, rfl, rfl⟩ := h
      exact .parens ⟨‹_›, hnext⟩ (ih hinner (by grind)) hclose
    · obtain ⟨_, _, ⟨rfl, hnext⟩, _, _, hitems, rfl, rfl⟩ := h
      exact .array ⟨‹_›, hnext⟩ (ih hitems (by grind))
    · obtain ⟨_, _, ⟨rfl, hnext⟩, _, _, hentries, _, _, ⟨-, hclose⟩, rfl, rfl⟩ := h
      exact .object ⟨‹_›, hnext⟩ (ih hentries (by grind)) hclose
  | elements close es =>
    rw [Reads, elements] at h
    simp only [gives_bind, gives_acceptMark_iff, gives_expectMark_iff, gives_pure] at h
    obtain ⟨hopen, _, _, hfirst, ⟨hcomma, _, _, ⟨-, hclose⟩, rfl, rfl⟩ |
      ⟨_, hcomma, _, _, hrest, rfl, rfl⟩⟩ | ⟨_, hclose, rfl, rfl⟩ := h
    · exact .elementsLast hopen (ih hfirst (by grind)) hcomma hclose
    · exact .elementsCons hopen (ih hfirst (by grind)) hcomma (ih hrest (by grind))
    · exact .elementsNil hclose
  | properties ps =>
    rw [Reads, properties] at h
    split at h
    · obtain ⟨rfl, rfl⟩ := gives_pure.mp h
      exact .propertiesNil (Stream.atMark_iff.mp ‹_›)
    · simp only [gives_bind, gives_key_iff, gives_acceptMark_iff, gives_expectMark_iff,
        gives_pure] at h
      obtain ⟨_, _, ⟨hkey, hnext⟩, _, _, ⟨-, hcolon⟩, _, _, hvalue, ⟨hcomma, rfl, rfl⟩ |
        ⟨_, hcomma, _, _, hrest, rfl, rfl⟩⟩ := h
      · exact .propertiesLast hkey hnext hcolon (ih hvalue (by grind)) hcomma
      · exact .propertiesCons hkey hnext hcolon (ih hvalue (by grind)) hcomma (ih hrest (by grind))
  | params ps =>
    rw [Reads, Stream.params] at h
    split at h
    · obtain ⟨rfl, rfl⟩ := gives_pure.mp h
      exact .paramsNil (Stream.atMark_iff.mp ‹_›)
    · simp only [gives_bind, gives_identifierExpr_iff, gives_acceptMark_iff, gives_pure] at h
      obtain ⟨_, _, ⟨_, rfl, hfree, hname⟩, ⟨hcomma, rfl, rfl⟩ |
        ⟨_, hcomma, _, _, hrest, rfl, rfl⟩⟩ := h
      · exact .paramsLast hname hfree hcomma
      · exact .paramsCons hname hfree hcomma (ih hrest (by grind))

end Grammar

end ComponentTemplate
