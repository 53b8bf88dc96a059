import ComponentTemplate.Proofs.OperatorTrees
import ComponentTemplate.Proofs.Surroundings

/-!
# Expressions that are read back

What an expression is printed as in the middle of a line is what it is printed as alone. If the
text alone is read as the expression, then so is the text in the middle of another one, wherever
what follows it does not continue it. Nothing else is asked of the expression.
-/

namespace ComponentTemplate

open Grammar Writer List

/-! ## Documents in the middle of a line -/

namespace Doc

lemma exists_written (doc : Doc) (w w' : Writer) (hunit : w.unit = w'.unit)
    (hlevel : w.level = w'.level) (hstart : w.atLineStart = w'.atLineStart) :
    ∃ text, (doc.write w).written = text ++ w.written ∧
      (doc.write w').written = text ++ w'.written := by
  induction doc generalizing w w' with
  | empty => exact ⟨[], rfl, rfl⟩
  | text s =>
    rw [write_text, write_text]
    cases s.toList with
    | nil => exact ⟨[], rfl, rfl⟩
    | cons c cs =>
      have hindentation : w.indentation = w'.indentation := by
        rw [indentation, hunit, hlevel, indentation]
      refine ⟨(c :: cs).reverse ++
        (if w.atLineStart && c ≠ '\n' then w.indentation else []).reverse, ?_, ?_⟩
      · simp [add]
      · simp [add, hstart, hindentation]
  | append a b iha ihb =>
    obtain ⟨first, ha, ha'⟩ := iha w w' hunit hlevel hstart
    have hstart' : (a.write w).atLineStart = (a.write w').atLineStart := by
      rw [atLineStart, atLineStart, ha, ha']
      cases first with
      | nil => exact hstart
      | cons c cs => rfl
    obtain ⟨second, hb, hb'⟩ := ihb _ _ (by simpa using hunit) (by simpa using hlevel) hstart'
    refine ⟨second ++ first, ?_, ?_⟩
    · rw [write, hb, ha, append_assoc]
    · rw [write, hb', ha', append_assoc]
  | nest d ih => exact ih w.indent w'.indent hunit (congrArg (· + 1) hlevel) hstart

/-- **A document goes on with a text** in the middle of a line, at a level of indentation, and does
not end the line. -/
def GoesOn (unit : String) (level : Nat) (doc : Doc) (cs : List Char) : Prop :=
  ∀ w : Writer, w.unit = unit.toList → w.level = level → w.atLineStart = false →
    (doc.write w).written.reverse = w.written.reverse ++ cs ∧ (doc.write w).atLineStart = false

def EndsInLine (doc : Doc) : Prop := ∀ w : Writer, (doc.write w).atLineStart = false

variable {unit : String} {level : Nat} {a b : Doc} {cs ds : List Char}

lemma GoesOn.append (ha : a.GoesOn unit level cs) (hb : b.GoesOn unit level ds) :
    (a ++ b).GoesOn unit level (cs ++ ds) := by
  intro w hunit hlevel hstart
  obtain ⟨hfirst, hstart'⟩ := ha w hunit hlevel hstart
  obtain ⟨hsecond, hend⟩ := hb (a.write w) (by simpa using hunit) (by simpa using hlevel) hstart'
  exact ⟨by rw [write_append, hsecond, hfirst, append_assoc], hend⟩

lemma goesOn_empty : Doc.empty.GoesOn unit level [] :=
  fun _ _ _ hstart => ⟨(append_nil _).symm, hstart⟩

lemma goesOn_text {text : String} (hlast : text.toList.getLast? ≠ some '\n') :
    (Doc.text text).GoesOn unit level text.toList := by
  intro w _ _ hstart
  rw [write_text]
  by_cases hne : text.toList = []
  · rw [hne, append_nil]
    exact ⟨rfl, hstart⟩
  · rw [atLineStart_add hne, add_of_not_atLineStart hstart]
    exact ⟨by simp, by simpa using hlast⟩

lemma GoesOn.onlyIf (h : a.GoesOn unit level cs) (condition : Bool) :
    (Doc.onlyIf condition a).GoesOn unit level (if condition then cs else []) := by
  cases condition with
  | true => exact h
  | false => exact goesOn_empty

lemma GoesOn.renderAt_eq (h : a.GoesOn unit level cs) : (a.renderAt unit level).toList = cs := by
  have hwritten := (h ⟨unit.toList, level, []⟩ rfl rfl (by simp [atLineStart])).1
  simpa [renderAt, output] using hwritten

/-- **The text of a document alone** is what it goes on with in the middle of a line. -/
theorem goesOn_renderAt (h : a.EndsInLine) :
    a.GoesOn unit level (a.renderAt unit level).toList := by
  rintro w hunit hlevel hstart
  refine ⟨?_, h w⟩
  obtain ⟨text, hw, halone⟩ := a.exists_written w ⟨unit.toList, level, []⟩ hunit hlevel
    (by simpa [atLineStart] using hstart)
  rw [append_nil] at halone
  rw [renderAt, output, String.toList_ofList, halone, hw, reverse_append]

def commaText : List (List Char) → List Char
  | [] => []
  | [cs] => cs
  | cs :: rest => cs ++ ',' :: ' ' :: commaText rest

lemma goesOn_commas (h : Forall₂ (GoesOn unit level) docs texts) :
    (Doc.commas docs).GoesOn unit level (commaText texts) := by
  induction h with
  | nil => exact goesOn_empty
  | @cons doc cs docs texts hfirst hrest ih =>
    cases hrest with
    | nil => exact hfirst
    | cons _ _ =>
      have hcomma : (Doc.text ", ").GoesOn unit level [',', ' '] := goesOn_text (by decide)
      exact hfirst.append (hcomma.append ih)

lemma EndsInLine.append (a : Doc) (hb : b.EndsInLine) : (a ++ b).EndsInLine :=
  fun w => hb (a.write w)

lemma EndsInLine.nest (ha : a.EndsInLine) : (Doc.nest a).EndsInLine := fun w => ha w.indent

lemma endsInLine_text {text : String} {d : Char} (hlast : text.toList.getLast? = some d)
    (hd : d ≠ '\n') : (Doc.text text).EndsInLine := by
  intro w
  have hne : text.toList ≠ [] := fun hnil => by simp [hnil] at hlast
  rw [write_text, atLineStart_add hne, hlast]
  simpa using hd

lemma EndsInLine.parens (h : a.EndsInLine) (slot : Slot) (e : Expr) :
    (Doc.parens slot e a).EndsInLine := by
  unfold Doc.parens
  split
  · exact .append _ (endsInLine_text (d := ')') (by decide) (by decide))
  · exact h

lemma endsInLine_collection (opening pad : Doc) {closing : String} {d : Char} (broken : Bool)
    (entries : List Doc) (hlast : closing.toList.getLast? = some d) (hd : d ≠ '\n') :
    (Doc.collection opening closing pad broken entries).EndsInLine := by
  have hclosing := endsInLine_text hlast hd
  unfold Doc.collection
  split
  · exact .append _ hclosing
  · split
    · exact .append _ hclosing
    · exact .append _ hclosing

lemma EndsInLine.choice (test consequent : Doc) (ha : a.EndsInLine) (broken : Bool) :
    (Doc.choice broken test consequent a).EndsInLine := by
  unfold Doc.choice
  split
  · exact .append _ (.nest (.append _ ha))
  · exact .append _ ha

end Doc

/-! ## The texts of numbers -/

variable {e : Expr} {l : Lexeme} {mark unit : String} {o level : Nat}
  {rest cs blanks tail : List Char} {st₁ st' : Stream} {c : Char} {breaks : Breaks}

lemma isWordChar_of_mem_natText (hc : c ∈ natText n) : isWordChar c = true :=
  isWordChar_of_isDigit (Nat.isDigit_of_mem_toDigits (by norm_num) (by norm_num) hc)

lemma not_lineFeed_of_isWordChar (h : ∀ c ∈ cs, isWordChar c = true) : '\n' ∉ cs :=
  fun hmem => absurd (h _ hmem) (by decide)

/-- **A text of a number**: digits or letters, after other characters of one line. -/
def IsNumberText (cs : List Char) : Prop :=
  ∃ front back, cs = front ++ back ∧ '\n' ∉ front ∧ back ≠ [] ∧ ∀ c ∈ back, isWordChar c = true

lemma isNumberText_natText (n : Nat) : IsNumberText (natText n) :=
  ⟨[], _, rfl, not_mem_nil, Nat.toDigits_ne_nil, fun _ hc => isWordChar_of_mem_natText hc⟩

lemma Decimal.isNumberText_positional (d : Decimal) : IsNumberText d.positional := by
  have hdigits : ∀ c ∈ natText d.digits, isWordChar c = true :=
    fun c hc => isWordChar_of_mem_natText hc
  have hne : natText d.digits ≠ [] := Nat.toDigits_ne_nil
  unfold positional
  dsimp only
  split
  · refine ⟨[], _, rfl, not_mem_nil, by simp [hne], fun c hc => ?_⟩
    rcases mem_append.mp hc with hc | hc
    · exact hdigits c hc
    · rw [eq_of_mem_replicate hc]
      decide
  · split
    · -- at least one digit stands after the point
      have hlength :
          (natText d.digits).length - (-d.exponent).toNat < (natText d.digits).length := by
        omega
      have hfeed (n : Nat) : '\n' ∉ (natText d.digits).take n :=
        not_lineFeed_of_isWordChar fun c hc => hdigits c (mem_of_mem_take hc)
      exact ⟨_, _, append_cons .., by simpa using hfeed _, by simpa using hlength,
        fun c hc => hdigits c (mem_of_mem_drop hc)⟩
    · exact ⟨_, _, by rw [← cons_append, ← cons_append], by simp, hne, hdigits⟩

lemma Binary64.isNumberText (value : Binary64) : IsNumberText value.text := by
  have hpositional : IsNumberText value.positional := by
    unfold positional
    split
    · split
      · exact ⟨[], ['0'], rfl, by decide, by decide, all_eq_true.mp (by decide)⟩
      · exact Decimal.isNumberText_positional _
    · exact ⟨[], "inf".toList, rfl, by decide, by decide, all_eq_true.mp (by decide)⟩
  unfold text
  split
  · split
    · exact isNumberText_natText _
    · exact hpositional
  · exact hpositional

/-- **A number ends with a digit**, or with a letter if it is infinite. -/
theorem Binary64.getLast?_text (value : Binary64) :
    ∃ c, value.text.getLast? = some c ∧ isWordChar c = true := by
  obtain ⟨front, back, htext, -, hne, hback⟩ := value.isNumberText
  rw [htext]
  obtain ⟨d, hd⟩ : ∃ d, back.getLast? = some d := ⟨_, getLast?_eq_some_getLast hne⟩
  exact ⟨d, by simp [getLast?_append, hd], hback d (mem_of_getLast? hd)⟩

lemma Binary64.not_lineFeed_text (value : Binary64) : '\n' ∉ value.text := by
  obtain ⟨front, back, htext, hfront, -, hback⟩ := value.isNumberText
  rw [htext, mem_append, not_or]
  exact ⟨hfront, not_lineFeed_of_isWordChar hback⟩

/-! ## Expressions that do not end their line -/

lemma Expr.IsKey.normal {key : Expr} (h : key.IsKey) :
    ((key.bareKey?.map (Expr.identifier default)).getD key.normal).IsKey := by
  cases hbare : key.bareKey? with
  | none =>
    cases key with
    | identifier _ _ => exact h
    | string _ _ _ => exact h
    | number _ _ _ => exact h
    | _ => exact h.elim
  | some name => exact Expr.isName_of_bareKey? hbare

lemma Expr.IsWord.normal (h : e.IsWord) : e.normal.IsWord := by
  cases e with
  | identifier _ _ => exact h
  | _ => exact h.elim

lemma Expr.IsParam.normal (h : e.IsParam) : e.normal.IsParam := by
  cases e with
  | identifier _ _ => exact h
  | _ => exact h.elim

lemma Expr.normals_eq_map (es : List Expr) : Expr.normals es = es.map Expr.normal := by
  induction es with
  | nil => rfl
  | cons e es ih => rw [Expr.normals, ih, map_cons]

mutual

/-- **The normal form of a well-formed expression** is well-formed. -/
theorem Expr.WellFormed.normal : ∀ {e : Expr}, e.WellFormed → e.normal.WellFormed
  | .identifier .., h | .string .., h | .number .., h | .boolean .., h | .null _, h => by
    rw [Expr.WellFormed] at h
    rw [Expr.normal, Expr.WellFormed]
    exact h
  | .unary _ _ _, h | .update _ _ _ _, h => by
    rw [Expr.WellFormed] at h
    exact h.normal
  | .binary _ _ _ _, h => by exact ⟨h.1.normal, h.2.normal⟩
  | .conditional _ _ _ _, h => by exact ⟨h.1.normal, h.2.1.normal, h.2.2.normal⟩
  | .member _ _ _ true _, h => by exact ⟨h.1.normal, h.2.normal⟩
  | .member _ _ _ false _, h => by exact ⟨h.1.normal, h.2.normal⟩
  | .call _ _ _ _, h => by exact ⟨h.1.normal, Expr.AllWellFormed.normals h.2⟩
  | .filter _ _ _ _, h => by exact ⟨h.1.normal, h.2.1, Expr.AllWellFormed.normals h.2.2⟩
  | .arrow _ params _, h => by
    refine ⟨fun param hparam => ?_, h.2.normal⟩
    rw [Expr.normals_eq_map] at hparam
    obtain ⟨param, hmem, rfl⟩ := mem_map.mp hparam
    exact (h.1 param hmem).normal
  | .assignment _ _ target _, h => by
    rw [Expr.normal, Expr.WellFormed, Expr.isAssignable_normal]
    exact ⟨h.1, h.2.1.normal, h.2.2.normal⟩
  | .array _ _, h => by exact Expr.AllWellFormed.normals h
  | .object _ _, h => by exact Property.AllWellFormed.normals h

theorem Expr.AllWellFormed.normals : ∀ {es : List Expr}, Expr.AllWellFormed es →
    Expr.AllWellFormed (Expr.normals es)
  | [], _ => trivial
  | _ :: _, h => by exact ⟨h.1.normal, Expr.AllWellFormed.normals h.2⟩

theorem Property.AllWellFormed.normals : ∀ {ps : List Property}, Property.AllWellFormed ps →
    Property.AllWellFormed (Property.normals ps)
  | [], _ => trivial
  | .mk _ _ :: _, h => by exact ⟨h.1.normal, h.2.1.normal, Property.AllWellFormed.normals h.2.2⟩

end

lemma Lexeme.IsWritten.endsInLine (h : l.IsWritten) (htext : l.chars = text.toList) :
    (Doc.text text).EndsInLine := by
  have hlast := h.getLast?_ne
  obtain ⟨c, cs, hcs, -⟩ := h.exists_cons
  rw [hcs] at htext
  obtain ⟨d, hd⟩ : ∃ d, text.toList.getLast? = some d :=
    ⟨_, getLast?_eq_some_getLast (htext ▸ cons_ne_nil c cs)⟩
  refine Doc.endsInLine_text hd ?_
  rintro rfl
  exact hlast (by rw [hcs, htext, hd])

lemma Expr.endsInLine (breaks : Breaks) : ∀ {e : Expr}, e.normal.WellFormed →
    (e.doc breaks).EndsInLine
  | .identifier _ name, h => by exact Lexeme.IsWritten.endsInLine (l := .word name) h.1 rfl
  | .string _ _ raw, h => by exact Lexeme.IsWritten.endsInLine (l := .quoted raw) h.1 rfl
  | .number _ value _, _ => by
    obtain ⟨d, hlast, hd⟩ := value.getLast?_text
    refine Doc.endsInLine_text (by rw [String.toList_ofList, hlast]) ?_
    rintro rfl
    exact absurd hd (by decide)
  | .boolean _ value, _ => by
    cases value with
    | true | false => exact Doc.endsInLine_text (d := 'e') (by decide) (by decide)
  | .null _, _ => by exact Doc.endsInLine_text (d := 'l') (by decide) (by decide)
  | .unary _ op argument, h => by
    rw [Expr.normal, Expr.WellFormed] at h
    exact .append _ ((Expr.endsInLine breaks h).parens _ _)
  | .binary _ op left right, h => by exact .append _ ((Expr.endsInLine breaks h.2).parens _ _)
  | .conditional _ test consequent alternate, h => by
    exact .choice _ _ (Expr.endsInLine breaks h.2.2) _
  | .member _ head property true optional, _ => by
    have hclosing : (Doc.text "]").EndsInLine :=
      Doc.endsInLine_text (d := ']') (by decide) (by decide)
    cases optional with
    | true | false => exact .append _ (.append _ hclosing)
  | .member _ head property false optional, h => by
    have hproperty : (property.doc breaks).EndsInLine := by
      cases property with
      | identifier _ name => exact Lexeme.IsWritten.endsInLine (l := .word name) h.2 rfl
      | _ => exact h.2.elim
    cases optional with
    | true | false => exact .append _ (.append _ hproperty)
  | .call _ callee arguments optional, _ => by
    exact .append _ (Doc.endsInLine_text (d := ')') (by decide) (by decide))
  | .filter _ subject name arguments, h => by
    cases arguments with
    | nil =>
      intro w
      exact Lexeme.IsWritten.endsInLine (l := .word name) h.2.1 rfl _
    | cons first rest =>
      exact .append _ (.append _ (Doc.endsInLine_text (d := ')') (by decide) (by decide)))
  | .arrow _ params body, h => by exact .append _ ((Expr.endsInLine breaks h.2).parens _ _)
  | .assignment _ op target value, h => by exact .append _ (Expr.endsInLine breaks h.2.2)
  | .update _ op leading argument, h => by
    rw [Expr.normal, Expr.WellFormed] at h
    cases leading with
    | true => exact .append _ ((Expr.endsInLine breaks h).parens _ _)
    | false =>
      have hwritten : (Lexeme.mark op.symbol).IsWritten := op.symbol_mem
      exact .append _ (hwritten.endsInLine rfl)
  | .array span elements, _ => by
    exact Doc.endsInLine_collection _ _ (d := ']') _ _ (by decide) (by decide)
  | .object span properties, _ => by
    exact Doc.endsInLine_collection _ _ (d := '}') _ _ (by decide) (by decide)

/-! ## Expressions that are read back -/

namespace Expr

variable {breaks : Breaks} {unit : String} {level : Nat} {e : Expr}

def textAt (breaks : Breaks) (unit : String) (level : Nat) (e : Expr) : List Char :=
  ((e.doc breaks).renderAt unit level).toList

/-- **An expression is read back**: its text is read as the expression, up to places, the way
numbers are written and the quotes of keys. -/
def ReadsBack (breaks : Breaks) (unit : String) (level : Nat) (e : Expr) : Prop :=
  ∃ e', Expr.parse ((e.doc breaks).renderAt unit level) = .ok e' ∧ e'.normal = e.normal

lemma ReadsBack.wellFormed (h : e.ReadsBack breaks unit level) : e.normal.WellFormed := by
  obtain ⟨e', hparse, hnormal⟩ := h
  rw [← hnormal]
  exact (wellFormed_of_ofChars (parse_eq_ok_iff.mp hparse)).normal

lemma ReadsBack.normal_of_parse (h : e.ReadsBack breaks unit level)
    (hparse : Expr.parse ((e.doc breaks).renderAt unit level) = .ok e') : e'.normal = e.normal := by
  obtain ⟨e'', hparse', hnormal⟩ := h
  obtain rfl := Except.ok.inj (hparse.symm.trans hparse')
  exact hnormal

/-- **An expression that is read back** is printed in the middle of a line as it is alone. -/
theorem ReadsBack.goesOn (h : e.ReadsBack breaks unit level) :
    (e.doc breaks).GoesOn unit level (e.textAt breaks unit level) :=
  Doc.goesOn_renderAt (Expr.endsInLine breaks h.wellFormed)

lemma ReadsBack.exists_derives (h : e.ReadsBack breaks unit level) :
    ∃ e' st fin, e'.normal = e.normal ∧ st.At (.ofSource (e.textAt breaks unit level)) ∧
      Derives (.expression e') st fin ∧ fin.current.lexeme = .finish := by
  obtain ⟨e', hparse, hnormal⟩ := h
  obtain ⟨st, fin, hat, hread, hfinish⟩ := ofChars_eq_ok_iff.mp (parse_eq_ok_iff.mp hparse)
  exact ⟨e', st, fin, hnormal, hat, gives_expression_iff.mp hread, hfinish⟩

/-- The text of an expression in a slot, with the parentheses that it needs there. -/
def textInSlot (breaks : Breaks) (unit : String) (level : Nat) (slot : Slot) (e : Expr) :
    List Char :=
  if needsParens slot e then '(' :: (e.textAt breaks unit level ++ [')'])
  else e.textAt breaks unit level

lemma textInSlot_of_needsParens (h : needsParens slot e = false) :
    e.textInSlot breaks unit level slot = e.textAt breaks unit level := by
  rw [textInSlot, h, if_neg Bool.false_ne_true]

lemma ReadsBack.goesOn_parens (h : e.ReadsBack breaks unit level) (slot : Slot) :
    (Doc.parens slot e (e.doc breaks)).GoesOn unit level (e.textInSlot breaks unit level slot) := by
  unfold Doc.parens textInSlot
  split
  · have hopening : (Doc.text "(").GoesOn unit level ['('] := Doc.goesOn_text (by decide)
    have hclosing : (Doc.text ")").GoesOn unit level [')'] := Doc.goesOn_text (by decide)
    exact (hopening.append h.goesOn).append hclosing
  · exact h.goesOn

/-! ## Expressions in the middle of a text -/

lemma parse_of_climbs {source : String} {t : OperatorTree} {st fin : Stream} (h : t.Climbs)
    (hrow : st.Row t.items fin) (hat : st.At (.ofSource source.toList))
    (hfinish : fin.current.lexeme = .finish) : Expr.parse source = .ok t.expr := by
  have hends : fin.Ends := .of_endsExpr (by rw [hfinish]; rfl)
  have hadmits : Level.expression.Admits t.level := trivial
  have hderives : Derives (.expression t.expr) st fin :=
    (h.reads hrow false).of_admits hadmits hends
  refine parse_eq_ok_iff.mpr (ofChars_eq_ok_iff.mpr ?_)
  exact ⟨st, fin, hat, reads_of_derives hderives, hfinish⟩

lemma level_normal (e : Expr) : e.normal.level = e.level := by cases e <;> rfl

lemma binary_of_expression (h : Derives (.expression e) st st') (hlevel : e.level ≠ .expression) :
    Derives (.binary 0 e) st st' := by
  cases h with
  | arrow | shortArrow | assignment => exact absurd rfl hlevel
  | plain _ hchoice _ =>
    cases hchoice with
    | conditional => exact absurd rfl hlevel
    | test htest _ => exact htest

section

variable {o : Nat} {tail : List Char} {st' : Stream}

lemma ReadsBack.exists_amid (h : e.ReadsBack breaks unit level)
    (hat : st'.At ⟨o + byteLength (e.textAt breaks unit level), tail⟩)
    (hapart : TokensApart (e.textAt breaks unit level) tail)
    (hassign : AssignmentOp.ofLexeme? st'.current.lexeme = none) :
    ∃ (s : Surroundings (e.textAt breaks unit level)) (e' : Expr) (st fin : Stream)
      (lastStop : Nat), e'.normal = e.normal ∧ Derives (.expression e') st fin ∧
      st.IsIn (e.textAt breaks unit level) ∧
      (st.amid s).At ⟨o, e.textAt breaks unit level ++ tail⟩ ∧
      fin.amid s = ⟨st'.current, st'.after, lastStop⟩ := by
  obtain ⟨e', st, fin, hnormal, hst, hderives, hfinish⟩ := h.exists_derives
  -- the end of the expression's own text becomes the first token of what follows
  let s : Surroundings _ := .ofAt hat hapart hassign
  exact ⟨s, e', st, fin, fin.lastStop + o, hnormal, hderives, hst.isIn (Cursor.isIn_ofSource _),
    hst.amid s, Stream.amid_of_finish hfinish⟩

/-- **An expression that is read back is read in the middle of a text**, before a token that ends
every expression. -/
theorem ReadsBack.exists_expression (h : e.ReadsBack breaks unit level)
    (hat : st'.At ⟨o + byteLength (e.textAt breaks unit level), tail⟩)
    (hapart : TokensApart (e.textAt breaks unit level) tail)
    (hends : st'.current.lexeme.endsExpr = true) :
    ∃ st e' lastStop, st.At ⟨o, e.textAt breaks unit level ++ tail⟩ ∧ e'.normal = e.normal ∧
      Derives (.expression e') st ⟨st'.current, st'.after, lastStop⟩ := by
  obtain ⟨s, e', st, fin, lastStop, hnormal, hderives, hin, hst, hfin⟩ :=
    h.exists_amid hat hapart (Stream.Ends.of_endsExpr hends).assignment
  refine ⟨st.amid s, e'.mapSpans (.shift s.before), lastStop, hst,
    (e'.normal_mapSpans _).trans hnormal, ?_⟩
  rw [← hfin]
  refine hderives.amid s hin (endsAt_of_endsExpr (e := e') ?_)
  rw [hfin]
  exact hends

end

end Expr

lemma prolongsMark_eq_false_of_longest (hpoint : mark ≠ "." ∧ mark ≠ "?.")
    (h : ∀ longer ∈ marks, mark.toList.isPrefixOf longer.toList = true → longer = mark) (c : Char) :
    prolongsMark mark c = false := by
  simp only [prolongsMark, Bool.or_eq_false_iff, Bool.and_eq_false_iff, any_eq_false,
    beq_eq_false_iff_ne]
  refine ⟨.inl hpoint, fun longer hlonger hbegins => ?_⟩
  have hlength := (List.isPrefixOf_iff_prefix.mp hbegins).length_le
  obtain rfl : longer = mark := h longer hlonger
    (List.isPrefixOf_iff_prefix.mpr ((prefix_append ..).trans
      (List.isPrefixOf_iff_prefix.mp hbegins)))
  simp at hlength

/-- The marks that enclose and separate expressions, which nothing prolongs. -/
def enclosingMarks : List String := ["(", ")", "[", "]", ","]

lemma endsBefore_of_enclosing (h : mark ∈ enclosingMarks) (rest : List Char) :
    (Lexeme.mark mark).EndsBefore rest := by
  have hpoint : ∀ mark ∈ enclosingMarks, mark ≠ "." ∧ mark ≠ "?." := by decide
  have hlongest : ∀ mark ∈ enclosingMarks, ∀ longer ∈ marks,
      mark.toList.isPrefixOf longer.toList = true → longer = mark := by decide +kernel
  exact fun c _ => prolongsMark_eq_false_of_longest (hpoint mark h) (hlongest mark h) c

lemma TokensApart.of_enclosing (cs : List Char) (h : mark ∈ enclosingMarks) (rest : List Char) :
    TokensApart cs (mark.toList ++ rest) := by
  have hone : ∀ mark ∈ enclosingMarks, ∃ c, mark.toList = [c] ∧ isWordChar c = false ∧ c ≠ '.' ∧
      ∀ longer ∈ marks, c ∉ longer.toList.tail := by
    intro mark hmark
    simp only [enclosingMarks, mem_cons, not_mem_nil, or_false] at hmark
    rcases hmark with rfl | rfl | rfl | rfl | rfl
    all_goals exact ⟨_, rfl, by decide, by decide, by decide +kernel⟩
  obtain ⟨c, hc, hword, hpoint, hmarks⟩ := hone mark h
  rw [hc]
  refine .of_head cs hword ?_ hmarks
  simp [startsNumber, isDigit_eq_false_of_isWordChar hword, hpoint]

lemma Stream.At.before_blanks (hblanks : Text.Blank blanks) {st : Stream}
    (hat : st.At ⟨o + byteLength blanks, cs⟩) :
    (⟨st.current, st.after, o⟩ : Stream).At ⟨o, blanks ++ cs⟩ :=
  ⟨(Token.read_blanks hblanks o cs).trans hat.read, rfl⟩

lemma Stream.exists_passes (hl : l.IsWritten) (hblanks : Text.Blank blanks)
    (hend : l.EndsBefore rest) (hat : st₁.At ⟨o + byteLength blanks + byteLength l.chars, rest⟩) :
    ∃ st : Stream, st.At ⟨o, blanks ++ (l.chars ++ rest)⟩ ∧ st.Passes l st₁ := by
  have hread := Token.read_append hl hblanks hend o
  have hne : l ≠ .finish := by
    rintro rfl
    exact hl
  let st : Stream := ⟨⟨l, ⟨o + byteLength blanks, o + byteLength blanks + byteLength l.chars⟩⟩,
    ⟨o + byteLength blanks + byteLength l.chars, rest⟩, o⟩
  have hst : st.At ⟨o, blanks ++ (l.chars ++ rest)⟩ := ⟨hread, rfl⟩
  exact ⟨st, hst, rfl, hst.next hne hat⟩

lemma Stream.exists_passes_joined (hl : l.IsWritten) (hend : l.EndsBefore rest)
    (hat : st₁.At ⟨o + byteLength l.chars, rest⟩) :
    ∃ st : Stream, st.At ⟨o, l.chars ++ rest⟩ ∧ st.Passes l st₁ :=
  Stream.exists_passes hl (show Text.Blank [] from .nil) hend hat

lemma Stream.exists_passes_enclosing (mark : String) (h : mark ∈ enclosingMarks)
    (hat : st₁.At ⟨o + 1, rest⟩) :
    ∃ st : Stream, st.At ⟨o, mark.toList ++ rest⟩ ∧ st.Passes (.mark mark) st₁ := by
  have hmarks : ∀ mark ∈ enclosingMarks, mark ∈ marks ∧ byteLength mark.toList = 1 := by decide
  obtain ⟨hmem, hlength⟩ := hmarks mark h
  refine Stream.exists_passes_joined (l := .mark mark) hmem (endsBefore_of_enclosing h rest) ?_
  rwa [Lexeme.chars_mark, hlength]

lemma byteLength_enclosed (hc : c.utf8Size = 1) (hd : d.utf8Size = 1) (cs : List Char) :
    byteLength (c :: (cs ++ [d])) = byteLength cs + 2 := by
  rw [byteLength_cons, byteLength_append, byteLength_cons, byteLength_nil, hc, hd]
  omega

lemma Expr.ReadsBack.exists_enclosed (h : e.ReadsBack breaks unit level)
    (opening closing : String) (hopening : opening ∈ enclosingMarks)
    (hclosing : closing ∈ enclosingMarks) (hends : (Lexeme.mark closing).endsExpr = true)
    (hat : st'.At ⟨o + (byteLength (e.textAt breaks unit level) + 2), tail⟩) :
    ∃ (st st₁ st₂ : Stream) (e' : Expr),
      st.At ⟨o, opening.toList ++ (e.textAt breaks unit level ++ (closing.toList ++ tail))⟩ ∧
      st.Passes (.mark opening) st₁ ∧ Derives (.expression e') st₁ st₂ ∧
      st₂.Passes (.mark closing) st' ∧ e'.normal = e.normal := by
  have hlength : o + 1 + byteLength (e.textAt breaks unit level) + 1 =
      o + (byteLength (e.textAt breaks unit level) + 2) := by
    omega
  rw [← hlength] at hat
  obtain ⟨st₂, hat₂, hclose⟩ := Stream.exists_passes_enclosing closing hclosing hat
  obtain ⟨st₁, e', lastStop, hat₁, hnormal, hderives⟩ := h.exists_expression hat₂
    (.of_enclosing _ hclosing tail) (by rwa [hclose.lexeme_eq])
  obtain ⟨st, hat, hopen⟩ := Stream.exists_passes_enclosing opening hopening hat₁
  exact ⟨st, st₁, _, e', hat, hopen, hderives, hclose.of_lastStop, hnormal⟩

lemma Expr.ReadsBack.exists_parens (h : e.ReadsBack breaks unit level)
    (hparens : needsParens slot e = true)
    (hat : st'.At ⟨o + byteLength (e.textInSlot breaks unit level slot), tail⟩) :
    ∃ st e', st.At ⟨o, e.textInSlot breaks unit level slot ++ tail⟩ ∧ e'.normal = e.normal ∧
      Derives (.primary e') st st' := by
  rw [Expr.textInSlot, if_pos hparens] at hat ⊢
  rw [byteLength_enclosed rfl rfl] at hat
  obtain ⟨st, _, _, e', hst, hopen, hderives, hclose, hnormal⟩ :=
    h.exists_enclosed "(" ")" (by decide) (by decide) (by decide) hat
  refine ⟨st, e', ?_, hnormal, .parens hopen hderives hclose⟩
  rw [cons_append, append_assoc]
  exact hst

end ComponentTemplate
