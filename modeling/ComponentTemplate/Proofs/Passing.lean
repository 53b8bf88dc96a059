import Mathlib
import ComponentTemplate.Expr.Parser

/-!
# Passing tokens

What the moves of a stream do, as facts about the token that is passed and the stream that is
left. A reading function succeeds with a value and a stream; the proof that the stream is
nearer to the end is left out of the statements.
-/

namespace ComponentTemplate

open BinaryOp (ofLexeme?)

variable {α β : Type}

lemma bind_eq_ok {ε : Type} {x : Except ε α} {f : α → Except ε β} {b : β} :
    (x >>= f) = .ok b ↔ ∃ a, x = .ok a ∧ f a = .ok b := by
  cases x with
  | error failure | ok a => simp [bind, Except.bind]

@[simp]
lemma ok_bind {ε : Type} (a : α) (f : α → Except ε β) : (Except.ok a >>= f) = f a := rfl

section Gives

variable {σ : Type} {size : σ → Nat} {n : Nat} {a b : α} {s s' : σ}

/-- **Reading gives a value and leaves a state**: a stream, or a place in the source. -/
def Gives (result : Except Failure (Progress σ size n α)) (a : α) (s : σ) : Prop :=
  ∃ lt, result = .ok ⟨a, s, lt⟩

variable {result : Except Failure (Progress σ size n α)}

lemma Gives.of_eq_ok (h : result = .ok p) : Gives result p.value p.next := ⟨p.lt, h⟩

@[grind →]
lemma Gives.lt (h : Gives result a s) : size s < n := h.1

lemma Gives.unique (h : Gives result a s) (h' : Gives result b s') : a = b ∧ s = s' := by
  obtain ⟨_, rfl⟩ := h
  obtain ⟨_, h'⟩ := h'
  cases h'
  exact ⟨rfl, rfl⟩

/-- **Reading in two steps**: the second one starts where the first one ended. -/
theorem gives_bind {τ : Type} {size' : τ → Nat} {m : Nat} {t : τ} {c : β}
    {f : Progress σ size n α → Except Failure (Progress τ size' m β)} :
    Gives (result >>= f) c t ↔ ∃ a s, ∃ h : Gives result a s, Gives (f ⟨a, s, h.lt⟩) c t := by
  constructor
  · rintro ⟨lt, h⟩
    obtain ⟨⟨a, s, lt'⟩, hfirst, hsecond⟩ := bind_eq_ok.mp h
    exact ⟨a, s, ⟨lt', hfirst⟩, lt, hsecond⟩
  · rintro ⟨a, s, ⟨lt', hfirst⟩, lt, hsecond⟩
    exact ⟨lt, bind_eq_ok.mpr ⟨_, hfirst, hsecond⟩⟩

lemma gives_pure : Gives (pure p) a s ↔ p.value = a ∧ p.next = s := by
  constructor
  · rintro ⟨lt, h⟩
    cases h
    exact ⟨rfl, rfl⟩
  · rintro ⟨rfl, rfl⟩
    exact ⟨p.lt, rfl⟩

lemma gives_ok : Gives (.ok p) a s ↔ p.value = a ∧ p.next = s := gives_pure

lemma gives_ite [Decidable c] :
    Gives (if c then result else result') a s ↔
      if c then Gives result a s else Gives result' a s := by
  split <;> rfl

lemma not_gives_error {failure : Failure} :
    ¬ Gives (.error failure : Except Failure (Progress σ size n α)) a s :=
  fun ⟨_, h⟩ => nomatch h

lemma gives_bind_ok {x : Except Failure β} {f : β → Except Failure (Progress σ size n α)} :
    Gives (x >>= f) a s ↔ ∃ b, x = .ok b ∧ Gives (f b) a s := by
  simp only [Gives, bind_eq_ok]
  constructor
  · rintro ⟨lt, b, hb, h⟩
    exact ⟨b, hb, lt, h⟩
  · rintro ⟨b, hb, lt, h⟩
    exact ⟨lt, b, hb, h⟩

end Gives

namespace Stream

variable {st st₁ st₂ : Stream}

/-- **The next stream**: the current token is passed, and another one is read. -/
structure Next (st st₁ : Stream) : Prop where
  ne_finish : st.current.lexeme ≠ .finish
  read : Token.read st.after = .ok (st₁.current, st₁.after)
  lastStop : st₁.lastStop = st.current.span.stop

/-- **A given token is passed.** -/
structure Passes (st : Stream) (lexeme : Lexeme) (st₁ : Stream) : Prop where
  lexeme_eq : st.current.lexeme = lexeme
  next : st.Next st₁

attribute [grind →] Passes.lexeme_eq Passes.next

lemma next_eq_ok_iff : st.next h = .ok p ↔ p.value = st.current ∧ st.Next p.next := by
  obtain ⟨t, ⟨current, after, lastStop⟩, lt⟩ := p
  unfold next
  split
  · rename_i t' after' hread
    simp only [Except.ok.injEq, Progress.mk.injEq, Stream.mk.injEq]
    constructor
    · rintro ⟨rfl, rfl, rfl, rfl⟩
      exact ⟨rfl, h, hread, rfl⟩
    · rintro ⟨rfl, hnext⟩
      have hread' := hnext.read
      rw [hread] at hread'
      simp only [Except.ok.injEq, Prod.mk.injEq] at hread'
      exact ⟨rfl, hread'.1, hread'.2, hnext.lastStop.symm⟩
  · rename_i failure hread
    simp only [reduceCtorEq, false_iff, not_and]
    intro _ hnext
    have hread' := hnext.read
    rw [hread] at hread'
    cases hread'

@[grind →]
lemma Next.remaining_lt (h : st.Next st₁) : st₁.remaining < st.remaining := by
  rw [remaining_of_ne h.ne_finish]
  exact remaining_read_lt h.read

lemma Next.unique (h : st.Next st₁) (h' : st.Next st₂) : st₁ = st₂ := by
  have hread := h.read.symm.trans h'.read
  simp only [Except.ok.injEq, Prod.mk.injEq] at hread
  rw [Stream.mk.injEq]
  exact ⟨hread.1, hread.2, h.lastStop.trans h'.lastStop.symm⟩

lemma Passes.ne_mark {name : String} (h : st.Passes (.word name) st₁) (text : String) :
    st.current.lexeme ≠ .mark text := by
  simp [h.lexeme_eq]

lemma atMark_iff : st.atMark text = true ↔ st.current.lexeme = .mark text := decide_eq_true_iff

end Stream

/-! ## Tokens that may stand there or have to -/

section Moves

variable {st st₁ : Stream} {lexeme : Lexeme} {text : String} {σ : Type} {size : σ → Nat} {n : Nat}
  {a : α} {s : σ} {f : Option (Parsed st.remaining Token) → Except Failure (Progress σ size n α)}
  {t : Token} {e : Expr}

lemma gives_next_iff : Gives (st.next h) t st₁ ↔ t = st.current ∧ st.Next st₁ :=
  ⟨fun ⟨_, h⟩ => Stream.next_eq_ok_iff.mp h,
    fun h => ⟨h.2.remaining_lt, Stream.next_eq_ok_iff.mpr h⟩⟩

lemma gives_accept (hne : lexeme ≠ .finish) :
    Gives ((if h : st.current.lexeme = lexeme then some <$> st.next (h ▸ hne) else .ok none) >>= f)
        a s ↔
      (st.current.lexeme ≠ lexeme ∧ Gives (f none) a s) ∨
      ∃ st₁, ∃ h : st.Passes lexeme st₁,
        Gives (f (some ⟨st.current, st₁, h.next.remaining_lt⟩)) a s := by
  split
  · rename_i hlexeme
    simp only [hlexeme, ne_eq, not_true_eq_false, false_and, false_or, map_eq_pure_bind,
      bind_assoc, pure_bind, gives_bind, gives_next_iff]
    constructor
    · rintro ⟨_, st₁, ⟨rfl, hnext⟩, h⟩
      exact ⟨st₁, ⟨hlexeme, hnext⟩, h⟩
    · rintro ⟨st₁, hpasses, h⟩
      exact ⟨_, st₁, ⟨rfl, hpasses.next⟩, h⟩
  · rename_i hlexeme
    constructor
    · exact fun h => .inl ⟨hlexeme, h⟩
    · rintro (⟨-, h⟩ | ⟨_, hpasses, -⟩)
      · exact h
      · exact absurd hpasses.lexeme_eq hlexeme

lemma gives_acceptMark_iff :
    Gives (st.acceptMark text >>= f) a s ↔
      (st.current.lexeme ≠ .mark text ∧ Gives (f none) a s) ∨
      ∃ st₁, ∃ h : st.Passes (.mark text) st₁,
        Gives (f (some ⟨st.current, st₁, h.next.remaining_lt⟩)) a s :=
  gives_accept (by simp)

lemma gives_acceptWord_iff :
    Gives (st.acceptWord text >>= f) a s ↔
      (st.current.lexeme ≠ .word text ∧ Gives (f none) a s) ∨
      ∃ st₁, ∃ h : st.Passes (.word text) st₁,
        Gives (f (some ⟨st.current, st₁, h.next.remaining_lt⟩)) a s :=
  gives_accept (by simp)

lemma gives_expect {failure : Failure} (hne : lexeme ≠ .finish) :
    Gives (if h : st.current.lexeme = lexeme then st.next (h ▸ hne) else .error failure) t st₁ ↔
      t = st.current ∧ st.Passes lexeme st₁ := by
  split
  · rename_i hlexeme
    rw [gives_next_iff]
    exact ⟨fun h => ⟨h.1, hlexeme, h.2⟩, fun h => ⟨h.1, h.2.next⟩⟩
  · rename_i hlexeme
    exact ⟨fun h => absurd h not_gives_error, fun h => absurd h.2.lexeme_eq hlexeme⟩

lemma gives_expectMark_iff :
    Gives (st.expectMark text) t st₁ ↔ t = st.current ∧ st.Passes (.mark text) st₁ :=
  gives_expect (by simp)

lemma gives_expectWord_iff :
    Gives (st.expectWord text) t st₁ ↔ t = st.current ∧ st.Passes (.word text) st₁ :=
  gives_expect (by simp)

lemma gives_name_iff {found : String × Span} :
    Gives st.name found st₁ ↔
      ∃ name, found = (name, st.current.span) ∧ st.Passes (.word name) st₁ := by
  unfold Stream.name
  split
  · rename_i text hword
    simp only [gives_bind, gives_next_iff, gives_pure, Progress.map]
    constructor
    · rintro ⟨_, _, ⟨rfl, hnext⟩, rfl, rfl⟩
      exact ⟨text, rfl, hword, hnext⟩
    · rintro ⟨name, rfl, hpasses⟩
      obtain rfl : text = name := by simpa using hword.symm.trans hpasses.lexeme_eq
      exact ⟨_, _, ⟨rfl, hpasses.next⟩, rfl, rfl⟩
  · rename_i hword
    constructor
    · exact fun h => absurd h not_gives_error
    · rintro ⟨_, _, hpasses⟩
      exact absurd hpasses.lexeme_eq (hword _)

lemma Stream.identifier_eq (st : Stream) :
    st.identifier =
      if ∃ text ∈ reserved, st.current.lexeme = .word text then .error (st.unexpected .identifier)
      else st.name := by
  unfold identifier name
  split <;> split <;> simp_all

lemma gives_identifierExpr_iff :
    Gives st.identifierExpr e st₁ ↔
      ∃ name, e = .identifier st.current.span name ∧ name ∉ reserved ∧
        st.Passes (.word name) st₁ := by
  unfold Stream.identifierExpr
  rw [Stream.identifier_eq]
  split
  · rename_i hreserved
    obtain ⟨text, hreserved, hword⟩ := hreserved
    constructor
    · rintro ⟨_, h⟩
      cases h
    · rintro ⟨name, -, hfree, hpasses⟩
      obtain rfl : text = name := by simpa using hword.symm.trans hpasses.lexeme_eq
      exact absurd hreserved hfree
  · rename_i hfree
    simp only [gives_bind, gives_name_iff, gives_pure]
    constructor
    · rintro ⟨_, _, ⟨name, rfl, hpasses⟩, rfl, rfl⟩
      exact ⟨name, rfl, fun h => hfree ⟨name, h, hpasses.lexeme_eq⟩, hpasses⟩
    · rintro ⟨name, rfl, -, hpasses⟩
      exact ⟨_, _, ⟨name, rfl, hpasses⟩, rfl, rfl⟩

lemma gives_nameExpr_iff :
    Gives st.nameExpr e st₁ ↔
      ∃ name, e = .identifier st.current.span name ∧ st.Passes (.word name) st₁ := by
  unfold Stream.nameExpr
  simp only [gives_bind, gives_name_iff, gives_pure]
  constructor
  · rintro ⟨_, _, ⟨name, rfl, hpasses⟩, rfl, rfl⟩
    exact ⟨name, rfl, hpasses⟩
  · rintro ⟨name, rfl, hpasses⟩
    exact ⟨_, _, ⟨name, rfl, hpasses⟩, rfl, rfl⟩

lemma gives_string_iff :
    Gives st.string text st₁ ↔
      ∃ raw, st.Passes (.quoted raw) st₁ ∧ text = String.ofList (unquote raw.toList) := by
  unfold Stream.string
  split
  · rename_i raw hquoted
    simp only [gives_bind, gives_next_iff, gives_pure, Progress.map]
    constructor
    · rintro ⟨_, _, ⟨-, hnext⟩, rfl, rfl⟩
      exact ⟨raw, ⟨hquoted, hnext⟩, rfl⟩
    · rintro ⟨raw', hpass, rfl⟩
      obtain rfl : raw = raw' := by simpa [hquoted] using hpass.lexeme_eq
      exact ⟨_, _, ⟨rfl, hpass.next⟩, rfl, rfl⟩
  · rename_i hquoted
    constructor
    · exact fun h => absurd h not_gives_error
    · rintro ⟨raw, hpass, -⟩
      exact absurd hpass.lexeme_eq (hquoted raw)

end Moves

/-! ## Expressions of one token -/

def Token.literal? (t : Token) : Option Expr :=
  match t.lexeme with
  | .number raw => some (.number t.span (.ofLiteral raw.toList) raw)
  | .quoted raw => some (.string t.span (String.ofList (unquote raw.toList)) raw)
  | _ => none

/-- **The expression that one token writes**: a literal, a constant or an identifier. -/
def Token.atom? (t : Token) : Option Expr :=
  match t.lexeme with
  | .word "true" => some (.boolean t.span true)
  | .word "false" => some (.boolean t.span false)
  | .word "null" => some (.null t.span)
  | .word name => if name ∈ reserved then none else some (.identifier t.span name)
  | _ => t.literal?

lemma Token.atom?_of_literal? {t : Token} {e : Expr} (h : t.literal? = some e) :
    t.atom? = some e := by
  unfold atom?
  split <;> simp_all [literal?]

def Token.key? (t : Token) : Option Expr :=
  match t.lexeme with
  | .word name => some (.identifier t.span name)
  | _ => t.literal?

namespace Grammar

variable {st st₁ : Stream} {e : Expr}

lemma gives_literal_iff :
    (∃ result, literal? st = some result ∧ Gives result e st₁) ↔
      st.current.literal? = some e ∧ st.Next st₁ := by
  unfold literal? Token.literal?
  split
  all_goals
    rename_i hlexeme
    simp only [hlexeme, Option.some.injEq, exists_eq_left', gives_bind, gives_pure,
      gives_next_iff, reduceCtorEq, false_and, exists_false]
    try grind

lemma gives_wordPrimary_iff {text : String} {h : st.current.lexeme = .word text} :
    Gives (wordPrimary st text h) e st₁ ↔ st.current.atom? = some e ∧ st.Next st₁ := by
  unfold wordPrimary Token.atom?
  split
  case h_4 htrue hfalse hnull =>
    rw [gives_identifierExpr_iff]
    simp only [h]
    constructor
    · rintro ⟨name, rfl, hfree, hpasses⟩
      obtain rfl : text = name := by simpa using h.symm.trans hpasses.lexeme_eq
      refine ⟨?_, hpasses.next⟩
      split <;> simp_all
    · rintro ⟨hatom, hnext⟩
      have hfree : text ∉ reserved ∧ .identifier st.current.span text = e := by
        split at hatom <;> simp_all
      exact ⟨text, hfree.2.symm, hfree.1, h, hnext⟩
  all_goals
    rename_i hword
    simp only [hword, Option.some.injEq, gives_bind, gives_pure, gives_next_iff]
    grind

lemma gives_key_iff : Gives (key st) e st₁ ↔ st.current.key? = some e ∧ st.Next st₁ := by
  unfold key
  split
  · rename_i name hword
    rw [gives_nameExpr_iff, Token.key?, hword]
    constructor
    · rintro ⟨name', rfl, hpasses⟩
      obtain rfl : name = name' := by simpa using hword.symm.trans hpasses.lexeme_eq
      exact ⟨rfl, hpasses.next⟩
    · rintro ⟨he, hnext⟩
      exact ⟨name, (Option.some.inj he).symm, hword, hnext⟩
  · rename_i hword
    have hkey : st.current.key? = st.current.literal? := by
      unfold Token.key?
      split
      · exact absurd ‹_› (hword _)
      · rfl
    rw [hkey, ← gives_literal_iff]
    cases literal? st with
    | none => simp [Gives]
    | some result => simp

end Grammar

/-! ## Binary operators -/

namespace Stream

variable {st st₁ : Stream} {op found : BinaryOp}

/-- **The tokens of a binary operator are passed.** Two of the operators have two tokens, and
the first token of one of them is an operator of its own unless the second one follows. -/
inductive Operator (st : Stream) : BinaryOp → Stream → Prop
  | single {st₁ : Stream} {op : BinaryOp} (hop : ofLexeme? st.current.lexeme = some op)
      (hnext : st.Next st₁) (hnot : op = .is false → st₁.current.lexeme ≠ .word "not") :
      st.Operator op st₁
  | notIn {st₁ st₂ : Stream} (hnot : st.Passes (.word "not") st₁)
      (hin : st₁.Passes (.word "in") st₂) : st.Operator (.isIn true) st₂
  | isNot {st₁ st₂ : Stream} (his : st.Passes (.word "is") st₁)
      (hnot : st₁.Passes (.word "not") st₂) : st.Operator (.is true) st₂

lemma eq_word_of_ofLexeme?_is (h : ofLexeme? l = some (.is negated)) :
    l = .word "is" ∧ negated = false := by
  unfold ofLexeme? at h
  split at h <;> simp_all

lemma ofLexeme?_ne_notIn (l : Lexeme) : ofLexeme? l ≠ some (.isIn true) := by
  unfold ofLexeme?
  split <;> simp

lemma operator_of_passOperator (hop : st.operator? = .ok (some found))
    (h : Gives (st.passOperator found (ne_finish_of_operator hop)) op st₁) :
    st.Operator op st₁ ∧ op.tier = found.tier := by
  unfold passOperator at h
  obtain ⟨_, st₂, hpass, h⟩ := gives_bind.mp h
  have hnext := (gives_next_iff.mp hpass).2
  dsimp only at h
  unfold operator? at hop
  split at hop
  · rename_i hnot
    obtain ⟨t, -, hop⟩ := bind_eq_ok.mp hop
    obtain rfl : found = .isIn true := by
      simp only [pure, Except.pure, Except.ok.injEq] at hop
      split at hop <;> simp_all
    simp only [gives_bind, gives_expectWord_iff, gives_pure] at h
    obtain ⟨_, _, ⟨-, hin⟩, rfl, rfl⟩ := h
    exact ⟨.notIn ⟨hnot, hnext⟩ hin, rfl⟩
  · have hop := Except.ok.inj hop
    split at h
    · exact absurd hop (ofLexeme?_ne_notIn _)
    · obtain ⟨his, rfl⟩ := eq_word_of_ofLexeme?_is hop
      simp only [gives_acceptWord_iff, gives_pure] at h
      obtain ⟨hnot, rfl, rfl⟩ | ⟨_, hnot, rfl, rfl⟩ := h
      · exact ⟨.single hop hnext fun _ => hnot, rfl⟩
      · exact ⟨.isNot ⟨his, hnext⟩ hnot, rfl⟩
    · rename_i his
      obtain ⟨rfl, rfl⟩ := gives_pure.mp h
      exact ⟨.single hop hnext fun h => absurd h (his _), rfl⟩

lemma passOperator_of_operator (h : st.Operator op st₁) :
    ∃ found, ∃ hop : st.operator? = .ok (some found),
      Gives (st.passOperator found (ne_finish_of_operator hop)) op st₁ ∧ op.tier = found.tier := by
  unfold passOperator
  simp only [gives_bind, gives_next_iff]
  cases h with
  | single hop hnext hnot =>
    have hop' : st.operator? = .ok (some op) := by
      unfold operator?
      rw [if_neg, hop]
      intro hword
      simp [hword, ofLexeme?] at hop
    refine ⟨op, hop', ⟨_, _, ⟨rfl, hnext⟩, ?_⟩, rfl⟩
    split
    · exact absurd hop (ofLexeme?_ne_notIn _)
    · obtain ⟨_, rfl⟩ := eq_word_of_ofLexeme?_is hop
      exact gives_acceptWord_iff.mpr (.inl ⟨hnot rfl, gives_pure.mpr ⟨rfl, rfl⟩⟩)
    · exact gives_pure.mpr ⟨rfl, rfl⟩
  | notIn hnot hin =>
    have hop : st.operator? = .ok (some (.isIn true)) := by
      unfold operator?
      simp only [hnot.lexeme_eq, if_true, peek, hnot.next.read]
      simp [Functor.map, Except.map, ok_bind, pure, Except.pure, hin.lexeme_eq]
    exact ⟨.isIn true, hop, ⟨_, _, ⟨rfl, hnot.next⟩, gives_bind.mpr
      ⟨_, _, gives_expectWord_iff.mpr ⟨rfl, hin⟩, gives_pure.mpr ⟨rfl, rfl⟩⟩⟩, rfl⟩
  | isNot his hnot =>
    have hop : st.operator? = .ok (some (.is false)) := by
      unfold operator?
      simp [his.lexeme_eq, ofLexeme?]
    exact ⟨.is false, hop, ⟨_, _, ⟨rfl, his.next⟩, gives_acceptWord_iff.mpr
      (.inr ⟨_, hnot, gives_pure.mpr ⟨rfl, rfl⟩⟩)⟩, rfl⟩

end Stream

end ComponentTemplate
