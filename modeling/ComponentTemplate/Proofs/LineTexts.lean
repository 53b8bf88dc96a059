import ComponentTemplate.Proofs.BodyReading
import ComponentTemplate.Proofs.ReadBack

/-!
# Documents within a line

A document that neither starts nor ends with a line break is written as one text, after the
indentation of its line if it comes first there. Expressions and tags are such documents, so the
text between the braces of a tag is that of its expression alone, wherever the tag stands.
-/

namespace ComponentTemplate

open Doc Text
open Writer (add atLineStart front)

/-- **The indentation of a level.** -/
def indentationAt (unit : String) (level : Nat) : List Char :=
  (List.replicate level unit.toList).flatten

lemma blank_indentationAt (h : Blank unit.toList) (level : Nat) :
    Blank (indentationAt unit level) :=
  Writer.isBlank_indentation (w := ⟨unit.toList, level, []⟩) h

@[simp]
lemma indentationAt_zero (unit : String) : indentationAt unit 0 = [] := rfl

/-! ## Documents that stand in a line -/

namespace Doc

/-- **A document opens in its line**: at every level it starts with a text, which goes after the
indentation of the line. -/
structure OpensInLine (doc : Doc) : Prop where
  written_ne : ∀ unit level, (doc.write ⟨unit, level, []⟩).written ≠ []
  write_eq : ∀ w, doc.write w = (doc.write ⟨w.unit, w.level, []⟩).after w.front.reverse

variable {unit : String} {level : Nat} {a b : Doc} {cs ds : List Char} {c : Char} {text : String}

lemma opensInLine_text (hhead : text.toList.head? = some c) (hc : c ≠ '\n') :
    (Doc.text text).OpensInLine := by
  have hne : text.toList ≠ [] := fun hnil => by simp [hnil] at hhead
  have hfeed : text.toList.head? ≠ some '\n' := by simpa [hhead] using hc
  refine ⟨fun unit level => ?_, fun w => ?_⟩
  · have hwritten := Writer.reverse_written_add (w := ⟨unit, level, []⟩) hne hfeed
    intro hnil
    rw [write_text] at hnil
    rw [hnil] at hwritten
    simp [front, atLineStart, hne] at hwritten
  · obtain ⟨d, ds, htext⟩ := List.exists_cons_of_ne_nil hne
    obtain rfl : d = c := by simpa [htext] using hhead
    have hfresh : (⟨w.unit, w.level, []⟩ : Writer).atLineStart = false := by
      simp [atLineStart]
    rw [write_text, write_text, htext]
    cases hstart : w.atLineStart <;>
      simp [add, Writer.after, front, hstart, hfresh, hc]

lemma OpensInLine.append (ha : a.OpensInLine) (b : Doc) : (a ++ b).OpensInLine := by
  refine ⟨fun unit level => written_ne_nil b (ha.written_ne unit level), fun w => ?_⟩
  rw [write_append, write_append, ha.write_eq]
  exact write_after b (ha.written_ne w.unit w.level) _

lemma OpensInLine.parens (h : a.OpensInLine) (slot : Slot) (e : Expr) :
    (Doc.parens slot e a).OpensInLine := by
  unfold Doc.parens
  split
  · exact ((opensInLine_text (c := '(') rfl (by decide)).append _).append _
  · exact h

lemma opensInLine_collection {opening : String} (closing pad : Doc) (broken : Bool)
    (entries : List Doc) (hhead : opening.toList.head? = some c) (hc : c ≠ '\n') :
    (collection opening closing pad broken entries).OpensInLine := by
  have hopening := opensInLine_text hhead hc
  unfold collection
  split
  · exact hopening.append _
  · split
    · exact ((hopening.append _).append _).append _
    · exact (((hopening.append _).append _).append _).append _

lemma OpensInLine.choice (h : a.OpensInLine) (broken : Bool) (consequent alternate : Doc) :
    (Doc.choice broken a consequent alternate).OpensInLine := by
  unfold Doc.choice
  split
  · exact h.append _
  · exact (((h.append _).append _).append _).append _

/-- **A document stands as a text** at a level of indentation, at the start of a line and within
it, and does not end the line. -/
def Stands (unit : String) (level : Nat) (doc : Doc) (cs : List Char) : Prop :=
  ∀ w : Writer, w.unit = unit.toList → w.level = level →
    (doc.write w).written.reverse = w.front ++ cs ∧ (doc.write w).atLineStart = false

lemma Stands.goesOn (h : a.Stands unit level cs) : a.GoesOn unit level cs := by
  intro w hunit hlevel hstart
  rw [← Writer.front_of_not_atLineStart hstart]
  exact h w hunit hlevel

/-- **A document that opens in its line** stands as the text that it goes on with. -/
theorem GoesOn.stands (h : a.GoesOn unit level cs) (hopens : a.OpensInLine) :
    a.Stands unit level cs := by
  intro w hunit hlevel
  obtain ⟨hwritten, hstart⟩ := h ⟨unit.toList, level, []⟩ rfl rfl (by simp [atLineStart])
  have hne := hopens.written_ne unit.toList level
  rw [hopens.write_eq w, hunit, hlevel]
  refine ⟨?_, ?_⟩
  · simp [Writer.after, hwritten]
  · rw [atLineStart] at hstart ⊢
    rwa [Writer.after, List.head?_append_of_ne_nil _ hne]

lemma Stands.append (ha : a.Stands unit level cs) (hb : b.GoesOn unit level ds) :
    (a ++ b).Stands unit level (cs ++ ds) := by
  intro w hunit hlevel
  obtain ⟨hfirst, hstart⟩ := ha w hunit hlevel
  obtain ⟨hsecond, hend⟩ := hb (a.write w) (by simpa using hunit) (by simpa using hlevel) hstart
  exact ⟨by rw [write_append, hsecond, hfirst, List.append_assoc], hend⟩

lemma stands_text (hhead : text.toList.head? = some c) (hc : c ≠ '\n')
    (hlast : text.toList.getLast? ≠ some '\n') : (Doc.text text).Stands unit level text.toList :=
  (goesOn_text hlast).stands (opensInLine_text hhead hc)

lemma stands_renderAt (hopens : a.OpensInLine) (hends : a.EndsInLine) :
    a.Stands unit level (a.renderAt unit level).toList :=
  (goesOn_renderAt hends).stands hopens

def indentationAfter (unit : String) (level : Nat) (text : List Char) : List Char :=
  if text.getLast? = some '\n' then indentationAt unit level else []

/-- **A text goes on** with what stands after it, and with indentation between them if the text
ends its line. -/
theorem Stands.goesOn_text_append (hb : b.Stands unit level cs) (text : String) :
    (Doc.text text ++ b).GoesOn unit level
      (text.toList ++ (indentationAfter unit level text.toList ++ cs)) := by
  intro w hunit hlevel hstart
  obtain ⟨hwritten, hend⟩ := hb (w.add text.toList) (by simpa using hunit) (by simpa using hlevel)
  refine ⟨?_, hend⟩
  have hindentation : (w.add text.toList).indentation = indentationAt unit level := by
    simp [Writer.indentation, indentationAt, hunit, hlevel]
  rw [write_append, write_text, hwritten, front, hindentation]
  by_cases hne : text.toList = []
  · rw [hne]
    simp [add, hstart, indentationAfter]
  · rw [Writer.atLineStart_add hne, Writer.add_of_not_atLineStart hstart]
    simp [indentationAfter]

lemma Stands.goesOn_line_append (hb : b.Stands unit level cs) :
    (line ++ b).GoesOn unit level ('\n' :: (indentationAt unit level ++ cs)) :=
  hb.goesOn_text_append "\n"

lemma Stands.goesOn_line_nest (ha : a.Stands unit (level + 1) cs) :
    (line ++ nest a).GoesOn unit level
      ('\n' :: (indentationAt unit (level + 1) ++ cs)) := by
  intro w hunit hlevel hstart
  have hline : (w.add ['\n']).indent = w.indent.add ['\n'] := by
    simp [add, Writer.indent, atLineStart]
  have hnested := ha.goesOn_line_append w.indent hunit (congrArg (· + 1) hlevel) hstart
  refine ⟨?_, ?_⟩
  · show (a.write (w.add ['\n']).indent).written.reverse = _
    rw [hline]
    exact hnested.1
  · show (a.write (w.add ['\n']).indent).atLineStart = false
    rw [hline]
    exact hnested.2

end Doc

/-! ## Expressions that start in their line -/

lemma Lexeme.IsWritten.opensInLine {l : Lexeme} (h : l.IsWritten) {text : String}
    (htext : l.chars = text.toList) : (Doc.text text).OpensInLine := by
  obtain ⟨c, cs, hcs, hblank⟩ := h.exists_cons
  refine opensInLine_text (c := c) (by rw [← htext, hcs]; rfl) ?_
  rintro rfl
  exact absurd hblank (by decide)

lemma Expr.opensInLine (breaks : Breaks) : ∀ {e : Expr}, e.normal.WellFormed →
    (e.doc breaks).OpensInLine
  | .identifier _ name, h => by exact Lexeme.IsWritten.opensInLine (l := .word name) h.1 rfl
  | .string _ _ raw, h => by exact Lexeme.IsWritten.opensInLine (l := .quoted raw) h.1 rfl
  | .number _ value _, _ => by
    obtain ⟨d, hlast, -⟩ := value.getLast?_text
    have hne : value.text ≠ [] := fun hnil => by simp [hnil] at hlast
    obtain ⟨c, cs, hcs⟩ := List.exists_cons_of_ne_nil hne
    refine opensInLine_text (c := c) (by rw [String.toList_ofList, hcs]; rfl) ?_
    rintro rfl
    exact value.not_lineFeed_text (by simp [hcs])
  | .boolean _ value, _ => by
    cases value with
    | true => exact opensInLine_text (c := 't') rfl (by decide)
    | false => exact opensInLine_text (c := 'f') rfl (by decide)
  | .null _, _ => by exact opensInLine_text (c := 'n') rfl (by decide)
  | .unary _ op argument, _ => by
    have hop : (Doc.text op.symbol).OpensInLine := by
      cases op with
      | not => exact opensInLine_text (c := 'n') rfl (by decide)
      | minus => exact opensInLine_text (c := '-') rfl (by decide)
      | plus => exact opensInLine_text (c := '+') rfl (by decide)
    exact (hop.append _).append _
  | .binary _ op left right, h => by
    exact (((((Expr.opensInLine breaks h.1).parens _ _).append _).append _).append _).append _
  | .conditional _ test consequent alternate, h => by
    exact ((Expr.opensInLine breaks h.1).parens _ _).choice _ _ _
  | .member _ head property computed optional, h => by
    have hhead : head.normal.WellFormed := by
      cases computed <;> exact (by rwa [Expr.normal, Expr.WellFormed] at h : _ ∧ _).1
    have hopens := (Expr.opensInLine breaks hhead).parens .head head
    cases computed <;> cases optional <;> rw [Expr.doc] <;> exact hopens.append _
  | .call _ callee arguments optional, h => by
    exact (((((Expr.opensInLine breaks h.1).parens _ _).append _).append _).append _).append _
  | .filter _ subject name arguments, h => by
    exact ((((Expr.opensInLine breaks h.1).parens _ _).append _).append _).append _
  | .arrow _ params body, _ => by
    exact (((opensInLine_text (c := '(') rfl (by decide)).append _).append _).append _
  | .assignment _ op target value, h => by
    exact ((((Expr.opensInLine breaks h.2.1).append _).append _).append _).append _
  | .update _ op leading argument, h => by
    rw [Expr.normal, Expr.WellFormed] at h
    have hwritten : (Lexeme.mark op.symbol).IsWritten := op.symbol_mem
    cases leading with
    | true => exact (hwritten.opensInLine rfl).append _
    | false => exact ((Expr.opensInLine breaks h).parens _ _).append _
  | .array span elements, _ => by
    exact opensInLine_collection (c := '[') _ _ _ _ rfl (by decide)
  | .object span properties, _ => by
    exact opensInLine_collection (c := '\x7b') _ _ _ _ rfl (by decide)

/-! ## Expressions between braces -/

section Tags

variable {breaks : Breaks} {unit : String} {level : Nat} {e : Expr}

/-- **An expression stands as its text alone**, at the start of a line and within it. -/
theorem Expr.stands (breaks : Breaks) (h : e.normal.WellFormed) :
    (e.doc breaks).Stands unit level (e.textAt breaks unit level) :=
  stands_renderAt (Expr.opensInLine breaks h) (Expr.endsInLine breaks h)

/-- **The text of an expression between double braces**, with blanks on both sides. -/
def Expr.Braced (breaks : Breaks) (unit : String) (e : Expr) (cs : List Char) : Prop :=
  ∃ level before after, Blank before ∧ Blank after ∧ after ≠ [] ∧
    cs = "\x7b\x7b".toList ++
      (before ++ (e.textAt breaks unit level ++ (after ++ "\x7d\x7d".toList)))

lemma Doc.GoesOn.congr {a b : Doc} {cs : List Char} (h : a.GoesOn unit level cs)
    (hwrite : ∀ w, b.write w = a.write w) : b.GoesOn unit level cs := by
  intro w hunit hlevel hstart
  rw [hwrite]
  exact h w hunit hlevel hstart

lemma Expr.goesOn_closing (breaks : Breaks) (h : e.normal.WellFormed) :
    (e.doc breaks ++ " \x7d\x7d").GoesOn unit level
      (e.textAt breaks unit level ++ " \x7d\x7d".toList) :=
  (Expr.stands breaks h).goesOn.append (goesOn_text (by decide))

lemma stands_tagDoc (breaks : Breaks) (start : Nat) (e : Expr) :
    (tagDoc breaks start e).Stands unit level
      ((tagDoc breaks start e).renderAt unit level).toList := by
  refine stands_renderAt ?_ ?_
  · have hopening : (Doc.text "\x7b\x7b").OpensInLine :=
      opensInLine_text (c := '\x7b') rfl (by decide)
    unfold tagDoc
    split
    · exact (((hopening.append _).append _).append _).append _
    · exact ((opensInLine_text (c := '\x7b') rfl (by decide)).append _).append _
  · unfold tagDoc
    split
    · exact .append _ (endsInLine_text (d := '\x7d') (by decide) (by decide))
    · exact .append _ (endsInLine_text (d := '\x7d') (by decide) (by decide))

/-- **A tag is written as its expression between double braces**, in one line or in three. -/
theorem braced_tagDoc (h : e.normal.WellFormed) (hunit : Blank unit.toList) (start : Nat) :
    e.Braced breaks unit ((tagDoc breaks start e).renderAt unit level).toList := by
  have hfeed : Blank ['\n'] := by simp [Blank, isBlank]
  unfold tagDoc
  split
  · have hopening : (Doc.text "\x7b\x7b").GoesOn unit level "\x7b\x7b".toList :=
      goesOn_text (by decide)
    have hclosing : (Doc.text "\x7d\x7d").Stands unit level "\x7d\x7d".toList :=
      stands_text (c := '\x7d') rfl (by decide) (by decide)
    have hall := hopening.append ((Stands.goesOn_line_nest (Expr.stands breaks h)).append
      hclosing.goesOn_line_append)
    rw [(hall.congr (b := "\x7b\x7b" ++ line ++ .nest (e.doc breaks) ++ line ++ "\x7d\x7d")
      fun _ => rfl).renderAt_eq]
    refine ⟨level + 1, '\n' :: indentationAt unit (level + 1), '\n' :: indentationAt unit level,
      hfeed.append (blank_indentationAt hunit _), hfeed.append (blank_indentationAt hunit _),
      List.cons_ne_nil _ _, ?_⟩
    simp
  · have hopening : (Doc.text "\x7b\x7b ").GoesOn unit level "\x7b\x7b ".toList :=
      goesOn_text (by decide)
    have hall := hopening.append (Expr.goesOn_closing breaks h)
    rw [(hall.congr (b := "\x7b\x7b " ++ e.doc breaks ++ " \x7d\x7d") fun _ => rfl).renderAt_eq]
    exact ⟨level, [' '], [' '], blank_space, blank_space, List.cons_ne_nil _ _, rfl⟩

end Tags

/-! ## Reading tags again -/

section Reading

open MarkupGrammar

variable {breaks : Breaks} {unit : String} {level : Nat} {e : Expr}

/-- **Plain expressions are read back**, at every level of indentation. -/
theorem Expr.readsBack_of_plain (hwf : e.WellFormed) (hplain : e.Plain breaks)
    (hunit : Blank unit.toList) (level : Nat) : e.ReadsBack breaks unit level := by
  have hstart : (⟨unit.toList, level, []⟩ : Writer).Wrote [] [] .none :=
    ⟨hunit, by simp [atLineStart], [], [], rfl, .nil, rfl⟩
  obtain ⟨e', he', hreprints⟩ := Expr.exists_ofChars_eq hwf hplain hstart
  refine ⟨e', Expr.parse_eq_ok_iff.mpr ?_, hreprints.normal⟩
  simpa only [renderAt, Writer.output, String.toList_ofList] using he'

lemma Expr.ReadsBack.exists_endsInline (h : e.ReadsBack breaks unit level)
    (hafter : Blank after) (hne : after ≠ []) (o : Nat) (rest : List Char) :
    ∃ (st st₁ : Stream) (e' : Expr),
      st.At ⟨o, e.textAt breaks unit level ++ (after ++ ("\x7d\x7d".toList ++ rest))⟩ ∧
      e'.normal = e.normal ∧ Grammar.Derives (.expression e') st st₁ ∧
      st₁.EndsInline
        ⟨o + byteLength (e.textAt breaks unit level) + byteLength after + 2, rest⟩ := by
  obtain ⟨c, cs, rfl⟩ := List.exists_cons_of_ne_nil hne
  have hread := Token.read_append (isWritten_mark "\x7d" (by decide)) hafter
    (endsBefore_closing "\x7d" (by decide) ('\x7d' :: rest))
    (o + byteLength (e.textAt breaks unit level))
  obtain ⟨st', hat, hlexeme, hrest⟩ : ∃ st' : Stream,
      st'.At ⟨o + byteLength (e.textAt breaks unit level), c :: cs ++ ("\x7d\x7d".toList ++ rest)⟩ ∧
      st'.current.lexeme = .mark "\x7d" ∧
      st'.after = ⟨o + byteLength (e.textAt breaks unit level) + byteLength (c :: cs) + 1,
        '\x7d' :: rest⟩ :=
    ⟨⟨_, _, _⟩, ⟨hread, rfl⟩, rfl, rfl⟩
  obtain ⟨st, e', lastStop, hst, hnormal, hderives⟩ := h.exists_expression hat
    (.of_blank _ (hafter c (List.mem_cons_self ..))) (by rw [hlexeme]; decide)
  refine ⟨st, _, e', hst, hnormal, hderives, hlexeme, by rw [hrest]; rfl, ?_⟩
  rw [hrest]
  rfl

/-- **The text of a tag is read as its expression**, whatever follows. -/
theorem Expr.Braced.exists_embeds (h : e.Braced breaks unit cs)
    (hread : ∀ level, e.ReadsBack breaks unit level) (o : Nat) (rest : List Char) :
    ∃ e', e'.normal = e.normal ∧ Embeds ⟨o, cs ++ rest⟩ e' ⟨o + byteLength cs, rest⟩ := by
  obtain ⟨level, before, after, hbefore, hafter, hne, rfl⟩ := h
  obtain ⟨st, st₁, e', hat, hnormal, hderives, hend⟩ :=
    (hread level).exists_endsInline hafter hne (o + 2 + byteLength before) rest
  have hbraces : byteLength "\x7b\x7b".toList = 2 ∧ byteLength "\x7d\x7d".toList = 2 := by decide
  refine ⟨e', hnormal, _, st₁, ?_, hderives.of_lastStop rfl (o + 2), ?_⟩
  · have hskip := Cursor.skip_append o "\x7b\x7b".toList
      (before ++ (e.textAt breaks unit level ++ (after ++ ("\x7d\x7d".toList ++ rest))))
    simp only [List.append_assoc, hbraces.1] at hskip ⊢
    exact hskip ▸ hat.before_blanks hbefore
  · convert hend using 2
    simp only [byteLength_append, hbraces]
    omega

end Reading

end ComponentTemplate
