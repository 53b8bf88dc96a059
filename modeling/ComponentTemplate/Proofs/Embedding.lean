import ComponentTemplate.Proofs.ExprRoundTrip
import ComponentTemplate.Proofs.Siblings
import ComponentTemplate.Proofs.Surroundings
import ComponentTemplate.Proofs.TopLevel

/-!
# Expressions inside a tag

An expression is read from an inline tag as it is read from a text of its own. Where the text
ends, the tag has a blank and its closing braces: the blank prolongs no token, and a closing
brace continues no expression.
-/

namespace ComponentTemplate

open Component

/-! ## Places and streams inside a tag -/

/-- **A place of a text, once the text stands in a tag**: a number of bytes later, and with a
blank and the end of the tag after the text. -/
def Cursor.inTag (k : Nat) (tail : List Char) (cur : Cursor) : Cursor :=
  ⟨cur.offset + k, cur.rest ++ ' ' :: '}' :: '}' :: tail⟩

/-- **A stream of a text, once the text stands in a tag.** At the end of the text stands the first
brace that closes the tag. -/
def Stream.inTag (k : Nat) (tail : List Char) (st : Stream) : Stream :=
  if st.current.lexeme = .finish then
    ⟨⟨.mark "\x7d", ⟨st.after.offset + k + 1, st.after.offset + k + 2⟩⟩,
      ⟨st.after.offset + k + 2, '}' :: tail⟩, st.lastStop + k⟩
  else ⟨⟨st.current.lexeme, st.current.span.shift k⟩, st.after.inTag k tail, st.lastStop + k⟩

lemma Token.read_tagEnd (source : List Char) (k : Nat) (tail : List Char) :
    Token.read ⟨k + byteLength source, ' ' :: '}' :: '}' :: tail⟩ =
      .ok (⟨.mark "\x7d", ⟨k + byteLength source + 1, k + byteLength source + 2⟩⟩,
        ⟨k + byteLength source + 2, '}' :: tail⟩) := by
  have hends : (Lexeme.mark "\x7d").EndsBefore ('}' :: tail) := by
    rintro c ⟨⟩
    decide +kernel
  exact Token.read_append (l := .mark "\x7d") (by decide +kernel : "\x7d" ∈ marks)
    (show Text.Blank [' '] by simp [Text.Blank, Text.isBlank]) hends (k + byteLength source)

/-- **What stands around a text in a tag**: a blank and the end of the tag after it. -/
def Surroundings.ofTag (source : List Char) (k : Nat) (tail : List Char) : Surroundings source where
  before := k
  tail := ' ' :: '}' :: '}' :: tail
  first := ⟨.mark "\x7d", ⟨k + byteLength source + 1, k + byteLength source + 2⟩⟩
  after := ⟨k + byteLength source + 2, '}' :: tail⟩
  apart := .of_blank source Text.isBlank_space
  read := Token.read_tagEnd source k tail
  assignment := rfl

variable {source : List Char} {k : Nat} {tail : List Char} {st st' : Stream}

lemma Stream.inTag_eq_amid (hst : st.IsIn source) :
    st.inTag k tail = st.amid (.ofTag source k tail) := by
  unfold inTag amid
  split
  · rename_i hfinish
    rw [hst.after.offset_of_rest (hst.rest_eq_nil hfinish), Nat.add_comm (byteLength source)]
    rfl
  · rfl

/-- **An expression of a text is one of the tag** that the text stands in. -/
theorem Grammar.Derives.inTag {e : Expr} (h : Derives (.expression e) st st')
    (hst : st.IsIn source) (hfinish : st'.current.lexeme = .finish) :
    Derives (.expression (e.mapSpans (.shift k))) (st.inTag k tail) (st'.inTag k tail) := by
  rw [Stream.inTag_eq_amid hst, Stream.inTag_eq_amid ((h.steps trivial).isIn hst)]
  refine h.amid (.ofTag source k tail) hst (endsAt_of_endsExpr (e := e) ?_)
  rw [Stream.amid_of_finish hfinish]
  show (Lexeme.mark "\x7d").endsExpr = true
  decide

/-! ## Whole tags -/

namespace MarkupGrammar

lemma derives_inlineTag {ctx : MarkupContext} {source : List Char} {e : Expr} {st st₁ : Stream}
    (hat : st.At (.ofSource source)) (he : Grammar.Derives (.expression e) st st₁)
    (hfinish : st₁.current.lexeme = .finish) (tail : List Char) :
    Derives (.item ctx (.node (.expressionTag ⟨0, byteLength source + 6⟩ (e.mapSpans (.shift 3)))))
      ⟨0, '{' :: '{' :: ' ' :: (source ++ ' ' :: '}' :: '}' :: tail)⟩
      ⟨byteLength source + 6, tail⟩ := by
  -- the stream of the tag starts at the blank and not at the text
  let first : Stream := ⟨(st.inTag 3 tail).current, (st.inTag 3 tail).after, 2⟩
  have hst : st.IsIn source := hat.isIn (Cursor.isIn_ofSource source)
  have hfirst : first.At ⟨2, ' ' :: (source ++ ' ' :: '}' :: '}' :: tail)⟩ := by
    have hread := (hat.amid (.ofTag source 3 tail)).read
    rw [← Stream.inTag_eq_amid hst] at hread
    have hblank : Text.Blank [' '] := by simp [Text.Blank, Text.isBlank]
    exact ⟨(Token.read_blanks hblank _ _).trans hread, rfl⟩
  have hinside : Grammar.Derives (.expression (e.mapSpans (.shift 3))) first (st₁.inTag 3 tail) :=
    Grammar.Derives.of_lastStop (he.inTag hst hfinish) rfl 2
  have hne : first.current.lexeme ≠ .mark "@" := by
    have hopens : first.current.lexeme.Opens false := Grammar.opens_of_derives hinside
    intro hsign
    rw [hsign] at hopens
    simp [Lexeme.Opens, openingMarks, signs] at hopens
  have hend : (st₁.inTag 3 tail).EndsInline ⟨byteLength source + 6, tail⟩ := by
    have hst₁ : st₁.IsIn source := (he.steps trivial).isIn hst
    have hoffset := hst₁.after.offset_of_rest (hst₁.rest_eq_nil hfinish)
    rw [Stream.inTag, if_pos hfinish, hoffset]
    exact ⟨rfl, rfl, rfl⟩
  exact .inlineTag rfl (.expression hfirst hne hinside hend)

end MarkupGrammar

/-- **A text that is an expression is one between braces**, a blank apart from them, with all its
places moved by the braces and the blank before it. -/
theorem Component.parse_inlineTag {source : String} {e : Expr} (h : Expr.parse source = .ok e)
    (special : String) :
    parse ("\x7b\x7b " ++ source ++ " \x7d\x7d") special =
      .ok ⟨[], none, [.expressionTag ⟨0, byteLength ("\x7b\x7b " ++ source ++ " \x7d\x7d").toList⟩
        (e.mapSpans (.shift 3))], none⟩ := by
  obtain ⟨st, st₁, hat, hgives, hfinish⟩ := Expr.ofChars_eq_ok_iff.mp (Expr.parse_eq_ok_iff.mp h)
  have hderives := Grammar.gives_expression_iff.mp hgives
  have hlength : byteLength ("\x7b\x7b " ++ source ++ " \x7d\x7d").toList =
      byteLength source.toList + 6 := by
    rw [String.toList_append, String.toList_append, byteLength_append, byteLength_append,
      show byteLength "\x7b\x7b ".toList = 3 from rfl, show byteLength " \x7d\x7d".toList = 3 from rfl]
    omega
  rw [hlength]
  have htag : MarkupGrammar.Derives _ _ _ :=
    @MarkupGrammar.derives_inlineTag { special } _ _ _ _ hat hderives hfinish []
  have hgoes : MarkupGrammar.GoesOn none _ := MarkupGrammar.goesOn_of_item htag trivial
  have hcomponent : Derives { special } false false _ _ _ :=
    .cons hgoes htag (.node _) (.stop rfl)
  have hsource : ("\x7b\x7b " ++ source ++ " \x7d\x7d").toList =
      '{' :: '{' :: ' ' :: (source.toList ++ [' ', '}', '}']) := by
    rw [String.toList_append, String.toList_append]
    rfl
  rw [parse_eq_ok_iff, ofChars_eq_ok_iff, hsource]
  exact ⟨_, hcomponent⟩

/-- An object in braces of its own, before a string of more bytes than characters. -/
theorem Component.parse_inlineTag_object :
    ∃ e, Expr.parse "\x7b a: \"é\" \x7d.a" = .ok e ∧
      parse ("\x7b\x7b " ++ "\x7b a: \"é\" \x7d.a" ++ " \x7d\x7d") "zvelte" =
        .ok ⟨[], none, [.expressionTag ⟨0, 19⟩ (e.mapSpans (.shift 3))], none⟩ := by
  have hok : (Expr.parse "\x7b a: \"é\" \x7d.a").isOk = true := by decide +kernel
  have hlength : byteLength ("\x7b\x7b " ++ "\x7b a: \"é\" \x7d.a" ++ " \x7d\x7d").toList = 19 := by
    decide +kernel
  obtain ⟨e, he⟩ := exists_eq_ok_of_isOk hok
  exact ⟨e, he, hlength ▸ parse_inlineTag he "zvelte"⟩

end ComponentTemplate
