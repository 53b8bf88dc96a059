import ComponentTemplate.Proofs.Collections
import ComponentTemplate.Proofs.Reading

/-!
# Printing and reading expressions

An expression that was read and is plain is read again from the text it is printed as, at any
level of indentation and with any layout.
-/

namespace ComponentTemplate

open Grammar

/-- The text of a document at a level. -/
def Doc.renderAt (unit : String) (level : Nat) (doc : Doc) : String :=
  (doc.write ⟨unit.toList, level, []⟩).output

variable {e : Expr} {source : List Char}

/-- **A text is read as an expression** if its tokens are, up to the last one. -/
theorem Expr.ofChars_eq_ok_iff :
    Expr.ofChars source = .ok e ↔ ∃ st st₁ : Stream, st.At (.ofSource source) ∧
      Gives (expression st) e st₁ ∧ st₁.current.lexeme = .finish := by
  unfold Expr.ofChars
  constructor
  · intro h
    obtain ⟨⟨_, st, _⟩, hstart, h⟩ := bind_eq_ok.mp h
    obtain ⟨⟨e', st₁, _⟩, hexpression, h⟩ := bind_eq_ok.mp h
    dsimp only at h
    split at h
    · rename_i hfinish
      cases h
      exact ⟨st, st₁, .of_start hstart, .of_eq_ok hexpression, decide_eq_true_iff.mp hfinish⟩
    · cases h
  · rintro ⟨st, st₁, hat, ⟨lt, hexpression⟩, hfinish⟩
    obtain ⟨lt', hstart⟩ := hat.start_eq
    have hat' : st₁.atFinish = true := decide_eq_true_iff.mpr hfinish
    rw [hstart]
    simp only [ok_bind, hexpression, hat', if_true]
    rfl

lemma Expr.parse_eq_ok_iff {source : String} :
    Expr.parse source = .ok e ↔ Expr.ofChars source.toList = .ok e := by
  unfold Expr.parse
  cases Expr.ofChars source.toList with
  | ok e' | error failure => simp [Except.mapError]

lemma Expr.wellFormed_of_ofChars (h : Expr.ofChars source = .ok e) : e.WellFormed := by
  obtain ⟨st, st₁, hat, hexpression, -⟩ := Expr.ofChars_eq_ok_iff.mp h
  exact (wellFormed_of_derives (gives_expression_iff.mp hexpression) hat.isSound).1

lemma Stream.at_finish (offset : Nat) :
    (⟨⟨.finish, ⟨offset, offset⟩⟩, ⟨offset, []⟩, offset⟩ : Stream).At ⟨offset, []⟩ :=
  ⟨rfl, rfl⟩

lemma Expr.exists_covers_ofChars (hspells : Spells ps cs) (hlegible : Legible ps) :
    ∃ st st' : Stream, st.Covers (LineBreaks.ofSource cs) ps st' ∧ st'.Ends ∧
      ∀ e, Derives (.expression e) st st' → Expr.ofChars cs = .ok e := by
  obtain ⟨st, hat, hcovers⟩ := exists_covers hspells hlegible
    (fun p _ => Lexeme.endsBefore_of_blank _ (by simp)) [] (Stream.at_finish _)
  simp only [List.nil_append, List.append_nil, byteLength_nil, Nat.zero_add] at hat hcovers
  refine ⟨st, _, hcovers, .of_endsExpr (show Lexeme.finish.endsExpr = true by decide),
    fun e hderives => ?_⟩
  exact Expr.ofChars_eq_ok_iff.mpr ⟨st, _, hat, reads_of_derives hderives, rfl⟩

lemma Expr.exists_ofChars_eq (hwf : e.WellFormed) (hp : e.Plain breaks) (hw : w.Wrote [] [] .none) :
    ∃ e', Expr.ofChars ((e.doc breaks).write w).written.reverse = .ok e' ∧
      e.Reprints breaks
        (LineBreaks.ofSource ((e.doc breaks).write w).written.reverse).atLeast e' := by
  obtain ⟨cs, blanks, hwritten, hspells, rfl⟩ := (e.prints hwf hp hw).text
  rw [hwritten]
  simp only [List.nil_append, List.append_nil] at hspells ⊢
  -- the pieces are read up to the end of the text
  obtain ⟨st, st', hcovers, hends, hread⟩ :=
    Expr.exists_covers_ofChars hspells (e.run hwf hp .none).legible
  obtain ⟨e', hreprints, -, hderives⟩ := (e.readable hwf hp).expression hcovers hends
  exact ⟨e', hread e' hderives, hreprints⟩

/-- **Printing and reading an expression gives the expression again**, up to its places, the way
its numbers are written and the quotes of its keys: for every text that was read, every unit and
level of indentation and every layout. -/
theorem Expr.exists_parse_renderAt {source : String} {e : Expr} (hparse : Expr.parse source = .ok e)
    {breaks : Breaks} (hplain : e.Plain breaks) (unit : String)
    (hunit : ∀ c ∈ unit.toList, Text.isBlank c = true) (level : Nat) :
    ∃ e', Expr.parse ((e.doc breaks).renderAt unit level) = .ok e' ∧ e'.normal = e.normal := by
  have hread := Expr.parse_eq_ok_iff.mp hparse
  have hstart : (⟨unit.toList, level, []⟩ : Writer).Wrote [] [] .none :=
    ⟨hunit, by simp [Writer.atLineStart], [], [], rfl, .nil, rfl⟩
  obtain ⟨e', he', hreprints⟩ :=
    Expr.exists_ofChars_eq (Expr.wellFormed_of_ofChars hread) hplain hstart
  refine ⟨e', Expr.parse_eq_ok_iff.mpr ?_, hreprints.normal⟩
  simpa only [Doc.renderAt, Writer.output, String.toList_ofList] using he'

/-- The round trip of a sign, a type test and a filter. -/
theorem Expr.exists_parse_renderAt_test :
    ∃ e e', Expr.parse "-1 is a|f" = .ok e ∧ e.Plain (fun _ _ _ => true) ∧
      Expr.parse ((e.doc fun _ _ _ => true).renderAt "\t" 2) = .ok e' ∧ e'.normal = e.normal := by
  let e : Expr := .binary ⟨0, 9⟩ (.is false)
    (.unary ⟨0, 2⟩ .minus (.number ⟨1, 2⟩ (.ofLiteral ['1']) "1"))
    (.filter ⟨6, 9⟩ (.identifier ⟨6, 7⟩ "a") "f" [])
  have hparse : Expr.parse "-1 is a|f" = .ok e := by with_unfolding_all rfl
  have hplain : e.Plain fun _ _ _ => true := by
    have hone : (Binary64.ofLiteral ['1']).isShortWhole = true := by decide +kernel
    have hnot : beginsWithWord "not" ((Expr.filter ⟨6, 9⟩ (.identifier ⟨6, 7⟩ "a") "f" []).textIn
        (fun _ _ _ => true) (.right (.is false))) = false := by cbv
    simp [Expr.Plain, Expr.outline, Expr.inSlot, Expr.parts, Expr.partsList, Expr.KeepsShape, hone,
      hnot, e]
  obtain ⟨e', he', hnormal⟩ := Expr.exists_parse_renderAt hparse hplain "\t" (by simp [Text.isBlank]) 2
  exact ⟨_, e', hparse, hplain, he', hnormal⟩

end ComponentTemplate
