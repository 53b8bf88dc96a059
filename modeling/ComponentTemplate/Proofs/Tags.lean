import ComponentTemplate.Markup.Parser
import ComponentTemplate.Proofs.Reading
import ComponentTemplate.Proofs.Spelling

/-!
# Reading tags

What the functions that read the inside of a tag do, as facts about the tokens that they pass.
Each fact goes both ways: it says what has been read, and what will be.
-/

namespace ComponentTemplate

namespace Stream

variable {st st₁ : Stream} {next : Cursor}

/-- **A block tag ends** with the current token, before a place. -/
structure EndsBlock (st : Stream) (next : Cursor) : Prop where
  lexeme_eq : st.current.lexeme = .mark "%\x7d"
  next_eq : next = st.after

/-- **An inline tag ends** with the current token and the brace after it, before a place. -/
structure EndsInline (st : Stream) (next : Cursor) : Prop where
  lexeme_eq : st.current.lexeme = .mark "\x7d"
  head_eq : st.after.rest.head? = some '}'
  next_eq : next = st.after.skip 1

/-- **A name is passed** that is not reserved, as an expression. -/
def PassesParam (st : Stream) (e : Expr) (st₁ : Stream) : Prop :=
  ∃ name, e = .identifier st.current.span name ∧ name ∉ reserved ∧ st.Passes (.word name) st₁

end Stream

section Ends

variable {st : Stream} {next : Cursor} {u : Unit}

lemma gives_closeBlock_iff : Gives st.closeBlock u next ↔ st.EndsBlock next := by
  unfold Stream.closeBlock
  split
  · rw [gives_ok]
    exact ⟨fun h => ⟨‹_›, h.2.symm⟩, fun h => ⟨rfl, h.next_eq.symm⟩⟩
  · exact ⟨fun h => absurd h not_gives_error, fun h => absurd h.lexeme_eq ‹_›⟩

lemma gives_closeInline_iff : Gives st.closeInline u next ↔ st.EndsInline next := by
  unfold Stream.closeInline
  split
  · rename_i hmark
    rw [gives_ok]
    exact ⟨fun h => ⟨hmark.1, hmark.2, h.2.symm⟩, fun h => ⟨rfl, h.next_eq.symm⟩⟩
  · rename_i hmark
    exact ⟨fun h => absurd h not_gives_error, fun h => absurd ⟨h.lexeme_eq, h.head_eq⟩ hmark⟩

end Ends

namespace MarkupGrammar

open Grammar (gives_expression_iff)

variable {st st' : Stream} {cur next : Cursor} {e : Expr} {word : String} {u : Unit}
  {name : Option Expr} {node : Node}

lemma gives_openTag_iff : Gives (openTag cur) u st ↔ st.At (cur.skip 2) := by
  unfold openTag
  simp only [gives_bind, gives_pure]
  constructor
  · rintro ⟨_, _, ⟨_, h⟩, -, rfl⟩
    exact .of_start h
  · intro h
    exact ⟨_, _, h.start_eq, trivial, rfl⟩

/-- **A block tag starts with a word**, and its other tokens follow. -/
def OpensTag (word : String) (cur : Cursor) (st : Stream) : Prop :=
  ∃ st₀ : Stream, st₀.At (cur.skip 2) ∧ st₀.Passes (.word word) st

/-- **A block tag is one word.** -/
def WordTag (word : String) (cur next : Cursor) : Prop :=
  ∃ st, OpensTag word cur st ∧ st.EndsBlock next

lemma gives_wordTag_iff : Gives (wordTag word cur) u next ↔ WordTag word cur next := by
  unfold wordTag
  simp only [gives_bind, gives_openTag_iff, gives_expectWord_iff, gives_closeBlock_iff, gives_pure]
  constructor
  · rintro ⟨_, st, hat, _, st₁, ⟨-, hword⟩, _, _, hend, -, rfl⟩
    exact ⟨st₁, ⟨st, hat, hword⟩, hend⟩
  · rintro ⟨st₁, ⟨st, hat, hword⟩, hend⟩
    exact ⟨(), st, hat, _, st₁, ⟨rfl, hword⟩, (), next, hend, trivial, rfl⟩

/-- **A name for the outcome of waiting is passed**, unless the tag ends. -/
def Binds (st : Stream) : Option Expr → Stream → Prop
  | none, st' => st.current.lexeme = .mark "%\x7d" ∧ st' = st
  | some e, st' => st.PassesParam e st'

lemma gives_binding_iff : Gives (binding st) name st' ↔ Binds st name st' := by
  unfold binding
  split
  · rename_i hmark
    have hlexeme := Stream.atMark_iff.mp hmark
    rw [gives_pure]
    cases name with
    | none => simp [Binds, hlexeme, eq_comm]
    | some e =>
      simp only [reduceCtorEq, false_and, Binds, false_iff]
      rintro ⟨_, -, -, hname⟩
      exact hname.ne_mark _ hlexeme
  · rename_i hmark
    simp only [gives_bind, gives_identifierExpr_iff, gives_pure]
    constructor
    · rintro ⟨e, _, h, rfl, rfl⟩
      exact h
    · intro h
      cases name with
      | none => exact absurd (Stream.atMark_iff.mpr h.1) hmark
      | some e => exact ⟨e, st', h, rfl, rfl⟩

/-- **A block tag is one word and perhaps a name.** -/
def BindingTag (word : String) (name : Option Expr) (cur next : Cursor) : Prop :=
  ∃ st st', OpensTag word cur st ∧ Binds st name st' ∧ st'.EndsBlock next

lemma gives_bindingTag_iff :
    Gives (bindingTag word cur) name next ↔ BindingTag word name cur next := by
  unfold bindingTag
  simp only [gives_bind, gives_openTag_iff, gives_expectWord_iff, gives_binding_iff,
    gives_closeBlock_iff, gives_pure]
  constructor
  · rintro ⟨_, st, hat, _, st₁, ⟨-, hword⟩, _, st₂, hname, _, _, hend, rfl, rfl⟩
    exact ⟨st₁, st₂, ⟨st, hat, hword⟩, hname, hend⟩
  · rintro ⟨st₁, st₂, ⟨st, hat, hword⟩, hname, hend⟩
    exact ⟨(), st, hat, _, st₁, ⟨rfl, hword⟩, name, st₂, hname, (), next, hend, rfl, rfl⟩

/-- **The opening tag of an awaiting block goes on** after the value: it ends, or one of the two
outcomes stands in it. -/
inductive OpensAwait (st : Stream) (next : Cursor) : AwaitOpening → Prop
  | pending (hend : st.EndsBlock next) : OpensAwait st next .pending
  | resolved {name : Option Expr} {st₁ st₂ : Stream} (hword : st.Passes (.word "then") st₁)
      (hname : Binds st₁ name st₂) (hend : st₂.EndsBlock next) : OpensAwait st next (.resolved name)
  | rejected {name : Option Expr} {st₁ st₂ : Stream} (hword : st.Passes (.word "catch") st₁)
      (hname : Binds st₁ name st₂) (hend : st₂.EndsBlock next) : OpensAwait st next (.rejected name)

lemma gives_awaitOpening_iff :
    Gives (awaitOpening st) opening next ↔ OpensAwait st next opening := by
  unfold awaitOpening
  simp only [gives_acceptWord_iff, gives_bind, gives_binding_iff, gives_closeBlock_iff, gives_pure]
  constructor
  · rintro (⟨-, ⟨-, _, _, hend, rfl, rfl⟩ | ⟨_, hcatch, _, _, hname, _, _, hend, rfl, rfl⟩⟩ |
      ⟨_, hthen, _, _, hname, _, _, hend, rfl, rfl⟩)
    · exact .pending hend
    · exact .rejected hcatch hname hend
    · exact .resolved hthen hname hend
  · rintro (hend | ⟨hword, hname, hend⟩ | ⟨hword, hname, hend⟩)
    · exact .inl ⟨by simp [hend.lexeme_eq], .inl ⟨by simp [hend.lexeme_eq], (), _, hend, rfl, rfl⟩⟩
    · exact .inr ⟨_, hword, _, _, hname, (), _, hend, rfl, rfl⟩
    · exact .inl ⟨by simp [hword.lexeme_eq], .inr ⟨_, hword, _, _, hname, (), _, hend, rfl, rfl⟩⟩

/-- **The names in the opening tag of a loop**: the item, or the index and the item. -/
inductive LoopNames (st : Stream) : Option Expr → Expr → Stream → Prop
  | item {item} {st₁} (hitem : st.PassesParam item st₁)
      (hne : st₁.current.lexeme ≠ .mark ",") : LoopNames st none item st₁
  | both {index item} {st₁ st₂ st₃} (hindex : st.PassesParam index st₁)
      (hcomma : st₁.Passes (.mark ",") st₂) (hitem : st₂.PassesParam item st₃) :
      LoopNames st (some index) item st₃

lemma gives_loopNames_iff {index : Option Expr} {name : Expr} :
    Gives (loopNames st) (index, name) st' ↔ LoopNames st index name st' := by
  unfold loopNames
  simp only [gives_bind, gives_identifierExpr_iff, gives_acceptMark_iff, gives_pure, Prod.mk.injEq]
  constructor
  · rintro ⟨_, _, hfirst, ⟨hcomma, ⟨rfl, rfl⟩, rfl⟩ | ⟨_, hcomma, _, _, hitem, ⟨rfl, rfl⟩, rfl⟩⟩
    · exact .item hfirst hcomma
    · exact .both hfirst hcomma hitem
  · rintro (⟨hitem, hne⟩ | ⟨hindex, hcomma, hitem⟩)
    · exact ⟨_, _, hitem, .inl ⟨hne, ⟨rfl, rfl⟩, rfl⟩⟩
    · exact ⟨_, _, hindex, .inr ⟨_, hcomma, _, _, hitem, ⟨rfl, rfl⟩, rfl⟩⟩

/-- **The key in the opening tag of a loop**, if there is one. -/
inductive LoopKey (st : Stream) : Option Expr → Stream → Prop
  | none (hne : st.current.lexeme ≠ .mark "#") : LoopKey st none st
  | some {key} {st₁ st₂ st₃ st₄} (hhash : st.Passes (.mark "#") st₁)
      (hopen : st₁.Passes (.mark "(") st₂) (hkey : Grammar.Derives (.expression key) st₂ st₃)
      (hclose : st₃.Passes (.mark ")") st₄) : LoopKey st (some key) st₄

lemma gives_loopKey_iff : Gives (loopKey st) key st' ↔ LoopKey st key st' := by
  unfold loopKey
  simp only [gives_acceptMark_iff, gives_bind, gives_expectMark_iff, gives_expression_iff,
    gives_pure]
  constructor
  · rintro (⟨hne, rfl, rfl⟩ | ⟨_, hhash, _, _, ⟨-, hopen⟩, _, _, hkey, _, _, ⟨-, hclose⟩, rfl, rfl⟩)
    · exact .none hne
    · exact .some hhash hopen hkey hclose
  · rintro (hne | ⟨hhash, hopen, hkey, hclose⟩)
    · exact .inl ⟨hne, rfl, rfl⟩
    · exact .inr ⟨_, hhash, _, _, ⟨rfl, hopen⟩, _, _, hkey, _, _, ⟨rfl, hclose⟩, rfl, rfl⟩

lemma gives_lastExpression_iff :
    Gives (lastExpression st) e next ↔
      ∃ st₁, Grammar.Derives (.expression e) st st₁ ∧ st₁.EndsBlock next := by
  unfold lastExpression
  simp only [gives_bind, gives_expression_iff, gives_closeBlock_iff, gives_pure]
  constructor
  · rintro ⟨_, st₁, he, _, _, hend, rfl, rfl⟩
    exact ⟨st₁, he, hend⟩
  · rintro ⟨st₁, he, hend⟩
    exact ⟨e, st₁, he, (), next, hend, rfl, rfl⟩

lemma gives_variableTag_iff :
    Gives (variableTag cur st) node next ↔
      ∃ e st₁, Grammar.Derives (.expression e) st st₁ ∧ e.isAssignment = true ∧
        st₁.EndsBlock next ∧ node = .variableTag (cur.spanTo next) e := by
  unfold variableTag
  simp only [gives_bind, gives_expression_iff]
  constructor
  · rintro ⟨e, st₁, he, h⟩
    split at h
    · simp only [gives_bind, gives_closeBlock_iff, gives_pure] at h
      obtain ⟨_, _, hend, rfl, rfl⟩ := h
      exact ⟨e, st₁, he, ‹_›, hend, rfl⟩
    · exact absurd h not_gives_error
  · rintro ⟨e, st₁, he, hassignment, hend, rfl⟩
    refine ⟨e, st₁, he, ?_⟩
    simp only [hassignment, if_true, gives_bind, gives_closeBlock_iff, gives_pure]
    exact ⟨(), next, hend, rfl, rfl⟩

lemma gives_importTag_iff :
    Gives (importTag cur st) tag next ↔ ∃ (st₁ st₂ st₃ : Stream) (raw : String),
      st.Passes (.word tag.specifier) st₁ ∧ st₁.Passes (.word "from") st₂ ∧
      st₂.Passes (.quoted raw) st₃ ∧ st₃.EndsBlock next ∧
      tag = ⟨cur.spanTo next, tag.specifier, String.ofList (unquote raw.toList)⟩ := by
  unfold importTag
  simp only [gives_bind, gives_name_iff, gives_expectWord_iff, gives_string_iff,
    gives_closeBlock_iff, gives_pure]
  constructor
  · rintro ⟨_, _, ⟨_, rfl, hname⟩, _, _, ⟨-, hfrom⟩, _, _, ⟨_, htext, rfl⟩, _, _, hend, rfl, rfl⟩
    exact ⟨_, _, _, _, hname, hfrom, htext, hend, rfl⟩
  · rintro ⟨_, _, _, _, hname, hfrom, htext, hend, htag⟩
    exact ⟨_, _, ⟨_, rfl, hname⟩, _, _, ⟨rfl, hfrom⟩, _, _, ⟨_, htext, rfl⟩, (), next, hend,
      htag.symm, rfl⟩

/-- **The tokens of an inline tag**: an expression, or a word after an at sign and an
expression. -/
inductive InlineTag (cur next : Cursor) : Node → Prop
  | expression {e : Expr} {st st₁ : Stream} (hat : st.At (cur.skip 2))
      (hne : st.current.lexeme ≠ .mark "@") (he : Grammar.Derives (.expression e) st st₁)
      (hend : st₁.EndsInline next) : InlineTag cur next (.expressionTag (cur.spanTo next) e)
  | html {e : Expr} {st st₁ st₂ st₃ : Stream} (hat : st.At (cur.skip 2))
      (hsign : st.Passes (.mark "@") st₁) (hword : st₁.Passes (.word "html") st₂)
      (he : Grammar.Derives (.expression e) st₂ st₃) (hend : st₃.EndsInline next) :
      InlineTag cur next (.htmlTag (cur.spanTo next) e)
  | render {e : Expr} {st st₁ st₂ st₃ : Stream} (hat : st.At (cur.skip 2))
      (hsign : st.Passes (.mark "@") st₁) (hword : st₁.Passes (.word "render") st₂)
      (he : Grammar.Derives (.expression e) st₂ st₃) (hcall : e.isCall = true)
      (hend : st₃.EndsInline next) : InlineTag cur next (.renderTag (cur.spanTo next) e)

lemma gives_inlineNode_iff : Gives (inlineNode cur) node next ↔ InlineTag cur next node := by
  unfold inlineNode
  simp only [gives_bind, gives_openTag_iff, gives_acceptMark_iff, gives_expression_iff,
    gives_name_iff]
  constructor
  · rintro ⟨_, st, hat, ⟨hne, e, st₁, he, _, _, hend, h⟩ |
      ⟨st₁, hsign, _, st₂, ⟨word, rfl, hword⟩, e, st₃, he, h⟩⟩
    · obtain ⟨rfl, rfl⟩ := gives_pure.mp h
      exact .expression hat hne he (gives_closeInline_iff.mp hend)
    · dsimp only at h
      split at h
      · simp only [pure_bind, gives_bind, gives_closeInline_iff, gives_pure] at h
        obtain ⟨_, _, hend, rfl, rfl⟩ := h
        exact .html hat hsign hword he hend
      · split at h
        · simp only [pure_bind, gives_bind, gives_closeInline_iff, gives_pure] at h
          obtain ⟨_, _, hend, rfl, rfl⟩ := h
          exact .render hat hsign hword he ‹_› hend
        · exact absurd h not_gives_error
      · exact absurd h not_gives_error
  · intro h
    cases h with
    | expression hat hne he hend =>
      exact ⟨(), _, hat, .inl ⟨hne, _, _, he, (), next, gives_closeInline_iff.mpr hend,
        gives_pure.mpr ⟨rfl, rfl⟩⟩⟩
    | html hat hsign hword he hend =>
      refine ⟨(), _, hat, .inr ⟨_, hsign, _, _, ⟨_, rfl, hword⟩, _, _, he, ?_⟩⟩
      exact gives_bind.mpr ⟨(), next, gives_closeInline_iff.mpr hend, gives_pure.mpr ⟨rfl, rfl⟩⟩
    | render hat hsign hword he hcall hend =>
      refine ⟨(), _, hat, .inr ⟨_, hsign, _, _, ⟨_, rfl, hword⟩, _, _, he, ?_⟩⟩
      simp only [hcall, if_true, pure_bind]
      exact gives_bind.mpr ⟨(), next, gives_closeInline_iff.mpr hend, gives_pure.mpr ⟨rfl, rfl⟩⟩

lemma Token.eq_of_read_word (h : Token.read cur = .ok (t, after)) (ht : t.lexeme = .word word) :
    word = String.ofList ((Text.trimStart cur.rest).takeWhile isWordChar) := by
  unfold Token.read Token.readAt at h
  rw [Cursor.skipBlanks, Cursor.rest_skipRun] at h
  have htake (kind : String → Lexeme) (start : Cursor) (n : Nat)
      (htake : Token.take kind start n = (t, after)) :
      t.lexeme = kind (String.ofList (start.rest.take n)) := by
    obtain ⟨rfl, -⟩ := Prod.mk.inj htake
    rfl
  split at h
  · cases h
    cases ht
  · rename_i c cs hrest
    have htrim : Text.trimStart cur.rest = c :: cs := hrest
    split at h
    · have hlexeme := htake _ _ _ (Except.ok.inj h)
      rw [ht, Cursor.rest_skipRun, hrest, Lexeme.word.injEq] at hlexeme
      rw [hlexeme, htrim, ← List.prefix_iff_eq_take.mp (List.takeWhile_prefix _)]
    · split at h
      · have hlexeme := htake _ _ _ (Except.ok.inj h)
        rw [ht] at hlexeme
        cases hlexeme
      · split at h
        · split at h
          · have hlexeme := htake _ _ _ (Except.ok.inj h)
            rw [ht] at hlexeme
            cases hlexeme
          · cases h
        · split at h
          · have hlexeme := htake _ _ _ (Except.ok.inj h)
            rw [ht] at hlexeme
            cases hlexeme
          · cases h

/-- **The word of a block tag is known** before the tag is read. -/
theorem blockKeyword?_eq (hrest : cur.rest = '{' :: '%' :: cs) (h : OpensTag word cur st) :
    blockKeyword? cur = some word := by
  obtain ⟨st₀, hat, hword⟩ := h
  have heq := Token.eq_of_read_word hat.read hword.lexeme_eq
  rw [Cursor.rest_skip, hrest] at heq
  simp only [blockKeyword?, hrest]
  rw [heq]
  rfl

end MarkupGrammar

end ComponentTemplate
