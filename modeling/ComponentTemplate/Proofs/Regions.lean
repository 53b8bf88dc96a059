import ComponentTemplate.Proofs.Derivation
import ComponentTemplate.Proofs.Spelling

/-!
# Regions of the source

What is read keeps the regions that it was read from. Every region starts and stops between two
characters of the source and does not stop before it starts, since reading goes through the source
token by token and never back.
-/

namespace ComponentTemplate

open Token

variable {source : List Char}

/-- **A place between two characters** of a source, or at one of its ends. -/
def IsBoundary (source : List Char) (offset : Nat) : Prop :=
  ∃ before after, source = before ++ after ∧ offset = byteLength before

lemma IsBoundary.append (h : IsBoundary source offset) (tail : List Char) :
    IsBoundary (source ++ tail) offset := by
  obtain ⟨before, after, rfl, rfl⟩ := h
  exact ⟨before, after ++ tail, List.append_assoc .., rfl⟩

/-- **A region of a source**: it starts and stops between characters, in this order. -/
structure Span.IsIn (source : List Char) (span : Span) : Prop where
  start : IsBoundary source span.start
  stop : IsBoundary source span.stop
  le : span.start ≤ span.stop

variable {span : Span} {cur after : Cursor} {t : Token} {e : Expr} {spans : List Span}

@[grind =]
lemma Span.isIn_iff : span.IsIn source ↔
    IsBoundary source span.start ∧ IsBoundary source span.stop ∧ span.start ≤ span.stop :=
  ⟨fun h => ⟨h.start, h.stop, h.le⟩, fun h => ⟨h.1, h.2.1, h.2.2⟩⟩

lemma Span.IsIn.merge {a b : Span} (ha : a.IsIn source) (hb : b.IsIn source) :
    (a.merge b).IsIn source where
  start := by
    rcases Nat.le_total a.start b.start with h | h
    · simpa [Span.merge, h] using ha.start
    · simpa [Span.merge, h] using hb.start
  stop := by
    rcases Nat.le_total a.stop b.stop with h | h
    · simpa [Span.merge, h] using hb.stop
    · simpa [Span.merge, h] using ha.stop
  le := (Nat.min_le_left ..).trans (ha.le.trans (Nat.le_max_left ..))

lemma Span.IsIn.append (h : span.IsIn source) (tail : List Char) : span.IsIn (source ++ tail) :=
  ⟨h.start.append tail, h.stop.append tail, h.le⟩

/-! ## Places -/

lemma byteLength_pos (hne : cs ≠ []) : 0 < byteLength cs := by
  cases cs with
  | nil => exact absurd rfl hne
  | cons c cs => exact Nat.add_pos_left (Char.utf8Size_pos c) _

namespace Cursor

variable {cur mid next : Cursor} {part : List Char}

/-- **A text stands between two places.** -/
structure Reads (cur : Cursor) (part : List Char) (next : Cursor) : Prop where
  rest_eq : cur.rest = part ++ next.rest
  offset_eq : next.offset = cur.offset + byteLength part

lemma Reads.trans {part' : List Char} (h : cur.Reads part mid) (h' : mid.Reads part' next) :
    cur.Reads (part ++ part') next where
  rest_eq := by rw [h.rest_eq, h'.rest_eq, List.append_assoc]
  offset_eq := by rw [h'.offset_eq, h.offset_eq, byteLength_append, Nat.add_assoc]

lemma Reads.eq_of_nil (h : cur.Reads [] next) : cur = next := by
  obtain ⟨hrest, hoffset⟩ := h
  exact congrArg₂ Cursor.mk hoffset.symm hrest

lemma Reads.ne_nil_of_lt (h : cur.Reads part next) (hlt : next.remaining < cur.remaining) :
    part ≠ [] := by
  rintro rfl
  rw [h.eq_of_nil] at hlt
  exact Nat.lt_irrefl _ hlt

lemma Reads.offset_lt (h : cur.Reads part next) (hlt : next.remaining < cur.remaining) :
    cur.offset < next.offset := by
  rw [h.offset_eq]
  exact Nat.lt_add_of_pos_right (byteLength_pos (h.ne_nil_of_lt hlt))

lemma reads_skip (cur : Cursor) (n : Nat) : cur.Reads (cur.rest.take n) (cur.skip n) :=
  ⟨(List.take_append_drop n cur.rest).symm, rfl⟩

lemma reads_skipRun (cur : Cursor) (p : Char → Bool) : cur.Reads (cur.run p) (cur.skipRun p) := by
  have h := cur.reads_skip (cur.run p).length
  rwa [run, ← List.prefix_iff_eq_take.mp (List.takeWhile_prefix p)] at h

lemma reads_of_rest {rest : List Char} (h : cur.rest = part ++ rest) :
    cur.Reads part (cur.skip part.length) := by
  have hskip := cur.reads_skip part.length
  rwa [h, List.take_left] at hskip

/-- **A place is followed by another one** of the same text. -/
def Reaches (cur next : Cursor) : Prop := ∃ part, cur.Reads part next

lemma Reads.reaches (h : cur.Reads part next) : cur.Reaches next := ⟨part, h⟩

lemma Reaches.refl (cur : Cursor) : cur.Reaches cur := ⟨[], rfl, rfl⟩

lemma Reaches.trans (h : cur.Reaches mid) (h' : mid.Reaches next) : cur.Reaches next := by
  obtain ⟨part, hpart⟩ := h
  obtain ⟨part', hpart'⟩ := h'
  exact ⟨_, hpart.trans hpart'⟩

lemma reaches_skip (cur : Cursor) (n : Nat) : cur.Reaches (cur.skip n) := (cur.reads_skip n).reaches

lemma reaches_skipBlanks (cur : Cursor) : cur.Reaches cur.skipBlanks := cur.reaches_skip _

lemma Reaches.offset_le (h : cur.Reaches next) : cur.offset ≤ next.offset := by
  obtain ⟨part, hpart⟩ := h
  rw [hpart.offset_eq]
  exact Nat.le_add_right ..

/-- **A place of a source.** -/
def IsIn (source : List Char) (cur : Cursor) : Prop := (ofSource source).Reaches cur

lemma isIn_ofSource (source : List Char) : (ofSource source).IsIn source := Reaches.refl _

lemma IsIn.trans (h : cur.IsIn source) (hnext : cur.Reaches next) : next.IsIn source :=
  Reaches.trans h hnext

lemma IsIn.isBoundary (h : cur.IsIn source) : IsBoundary source cur.offset := by
  obtain ⟨part, hrest, hoffset⟩ := h
  exact ⟨part, cur.rest, hrest, by simpa [ofSource] using hoffset⟩

lemma IsIn.offset_of_rest (h : cur.IsIn source) (hrest : cur.rest = []) :
    cur.offset = byteLength source := by
  obtain ⟨part, hpart, hoffset⟩ := h
  rw [hrest, List.append_nil] at hpart
  rw [hoffset, ← hpart]
  exact Nat.zero_add _

lemma IsIn.spanTo (h : cur.IsIn source) (hnext : cur.Reaches next) :
    (cur.spanTo next).IsIn source :=
  ⟨h.isBoundary, (h.trans hnext).isBoundary, hnext.offset_le⟩

end Cursor

/-- **The text of a source between two places.** -/
def textBetween (source : List Char) (start stop : Nat) : List Char :=
  (Cursor.within source ⟨start, stop⟩).rest

lemma exists_append_of_reads {part : List Char} {next : Cursor} (hcur : cur.IsIn source)
    (h : cur.Reads part next) :
    ∃ before, cur.offset = byteLength before ∧ source = before ++ (part ++ next.rest) := by
  obtain ⟨before, hbefore⟩ := hcur
  refine ⟨before, hbefore.offset_eq.trans (Nat.zero_add _), ?_⟩
  rw [← h.rest_eq]
  exact hbefore.rest_eq

/-- The text between two places is what is read from one to the other. -/
theorem textBetween_of_reads {part : List Char} {next : Cursor} (hcur : cur.IsIn source)
    (h : cur.Reads part next) :
    textBetween source cur.offset next.offset = part := by
  obtain ⟨before, hoffset, hsource⟩ := exists_append_of_reads hcur h
  rw [textBetween, h.offset_eq, hoffset, hsource, Cursor.within_append]

/-! ## Streams -/

lemma Token.reads_of_take (hkind : ∀ text, (kind text).chars = text.toList)
    (h : take kind cur n = (t, after)) : cur.Reads t.lexeme.chars after := by
  obtain ⟨rfl, rfl⟩ := Prod.mk.inj h
  simpa [hkind] using cur.reads_skip n

/-- **A token is its characters**, at the place where it is read. -/
theorem Token.reads_of_readAt (h : readAt cur = .ok (t, after)) :
    cur.Reads t.lexeme.chars after := by
  unfold readAt at h
  split at h
  · cases h
    exact ⟨rfl, rfl⟩
  · split at h
    · exact reads_of_take Lexeme.chars_word (Except.ok.inj h)
    · split at h
      · exact reads_of_take Lexeme.chars_number (Except.ok.inj h)
      · split at h
        · split at h
          · exact reads_of_take Lexeme.chars_quoted (Except.ok.inj h)
          · cases h
        · split at h
          · exact reads_of_take Lexeme.chars_mark (Except.ok.inj h)
          · cases h

lemma Token.rest_of_read_finish (h : read cur = .ok (t, after)) (ht : t.lexeme = .finish) :
    after.rest = [] := by
  unfold read readAt at h
  split at h
  · rename_i hrest
    cases h
    exact hrest
  · repeat' split at h
    all_goals cases h
    all_goals cases ht

namespace Stream

variable {st st₁ st' : Stream}

/-- **A stream of a source**: the place after its token and the region of the token are in the
source, the token before it ended before that, and nothing follows the last one. All others have
characters. -/
structure IsIn (source : List Char) (st : Stream) : Prop where
  after : st.after.IsIn source
  span : st.current.span.IsIn source
  lastStop : IsBoundary source st.lastStop
  le : st.lastStop ≤ st.current.span.start
  stop_eq : st.current.span.stop = st.after.offset
  rest_eq_nil : st.current.lexeme = .finish → st.after.rest = []
  lt : st.current.lexeme ≠ .finish → st.current.span.start < st.current.span.stop

variable {cur : Cursor}

lemma At.reads (h : st.At cur) : cur.skipBlanks.Reads st.current.lexeme.chars st.after :=
  reads_of_readAt h.read

lemma At.reaches (h : st.At cur) : cur.Reaches st.after :=
  cur.reaches_skipBlanks.trans h.reads.reaches

lemma At.isIn (h : st.At cur) (hcur : cur.IsIn source) : st.IsIn source := by
  have hspan : st.current.span = cur.skipBlanks.spanTo st.after := (readAt_spec h.read).2
  have hblanks := hcur.trans cur.reaches_skipBlanks
  have hafter := h.reads.reaches
  refine ⟨hblanks.trans hafter, ?_, ?_, ?_, h.span_stop, rest_of_read_finish h.read,
    fun hne => ?_⟩
  · rw [hspan]
    exact hblanks.spanTo hafter
  · rw [h.lastStop]
    exact hcur.isBoundary
  · rw [h.lastStop, hspan]
    exact cur.reaches_skipBlanks.offset_le
  · rw [hspan]
    exact h.reads.offset_lt (readAt_remaining_lt h.read hne)

lemma Next.isIn (h : st.Next st₁) (hst : st.IsIn source) : st₁.IsIn source :=
  At.isIn ⟨h.read, by rw [h.lastStop, hst.stop_eq]⟩ hst.after

attribute [grind →] Next.isIn Next.lastStop IsIn.le IsIn.span IsIn.lastStop

/-- **A token is passed that does not end a block tag.** -/
structure StepsInside (st st₁ : Stream) : Prop where
  next : st.Next st₁
  ne_close : st.current.lexeme ≠ .mark "%\x7d"

abbrev Steps : Stream → Stream → Prop := Relation.ReflTransGen StepsInside

lemma Steps.isIn (h : Steps st st') (hst : st.IsIn source) : st'.IsIn source := by
  induction h with
  | refl => exact hst
  | tail _ hstep ih => exact hstep.next.isIn ih

lemma Steps.lastStop_le (h : Steps st st') (hst : st.IsIn source) : st.lastStop ≤ st'.lastStop := by
  induction h with
  | refl => exact Nat.le_refl _
  | tail hsteps hstep ih =>
    have hmid := Steps.isIn hsteps hst
    rw [hstep.next.lastStop]
    exact ih.trans (hmid.le.trans hmid.span.le)

lemma Passes.stepsInside (h : st.Passes l st₁) (hl : l ≠ .mark "%\x7d") : st.StepsInside st₁ :=
  ⟨h.next, by rwa [h.lexeme_eq]⟩

lemma Next.stepsInside {α : Type} {ofLexeme? : Lexeme → Option α} {op : α} (h : st.Next st₁)
    (hop : ofLexeme? st.current.lexeme = some op) (hclose : ofLexeme? (.mark "%\x7d") = none) :
    st.StepsInside st₁ := by
  refine ⟨h, ?_⟩
  intro hmark
  rw [hmark, hclose] at hop
  cases hop

lemma Operator.steps {op : BinaryOp} (h : st.Operator op st₁) : Steps st st₁ := by
  cases h with
  | single hop hnext _ => exact .single (hnext.stepsInside hop rfl)
  | notIn hnot hin => exact .head (hnot.stepsInside nofun) (.single (hin.stepsInside nofun))
  | isNot his hnot => exact .head (his.stepsInside nofun) (.single (hnot.stepsInside nofun))

end Stream

/-! ## Expressions -/

mutual

/-- **The regions in an expression**, at every depth. -/
def Expr.spans : Expr → List Span
  | .identifier span _ | .string span _ _ | .number span _ _ | .boolean span _ | .null span => [span]
  | .unary span _ argument | .update span _ _ argument => span :: argument.spans
  | .binary span _ left right | .assignment span _ left right => span :: (left.spans ++ right.spans)
  | .conditional span test consequent alternate =>
    span :: (test.spans ++ (consequent.spans ++ alternate.spans))
  | .member span object property _ _ => span :: (object.spans ++ property.spans)
  | .call span callee arguments _ => span :: (callee.spans ++ Expr.spansList arguments)
  | .filter span subject _ arguments => span :: (subject.spans ++ Expr.spansList arguments)
  | .arrow span params body => span :: (Expr.spansList params ++ body.spans)
  | .array span elements => span :: Expr.spansList elements
  | .object span properties => span :: Property.spansList properties

def Expr.spansList : List Expr → List Span
  | [] => []
  | e :: es => e.spans ++ Expr.spansList es

def Property.spansList : List Property → List Span
  | [] => []
  | .mk key value :: ps => key.spans ++ (value.spans ++ Property.spansList ps)

end

/-- **All regions of a list are in a source.** -/
def SpansIn (source : List Char) (spans : List Span) : Prop := ∀ span ∈ spans, span.IsIn source

@[simp, grind .]
lemma spansIn_nil : SpansIn source [] := by simp [SpansIn]

@[simp, grind =]
lemma spansIn_cons : SpansIn source (span :: spans) ↔ span.IsIn source ∧ SpansIn source spans :=
  List.forall_mem_cons

@[simp, grind =]
lemma spansIn_append :
    SpansIn source (spans ++ spans') ↔ SpansIn source spans ∧ SpansIn source spans' :=
  List.forall_mem_append

lemma Expr.span_mem_spans (e : Expr) : e.span ∈ e.spans := by
  cases e <;> simp [Expr.span, Expr.spans]

lemma Token.spans_of_literal? (h : t.literal? = some e) : e.spans = [t.span] := by
  unfold literal? at h
  split at h <;> cases h <;> rfl

lemma Token.spans_of_atom? (h : t.atom? = some e) : e.spans = [t.span] := by
  unfold atom? at h
  split at h
  · cases h; rfl
  · cases h; rfl
  · cases h; rfl
  · split at h <;> cases h
    rfl
  · exact spans_of_literal? h

lemma Token.spans_of_key? (h : t.key? = some e) : e.spans = [t.span] := by
  unfold key? at h
  split at h
  · cases h; rfl
  · exact spans_of_literal? h

namespace Grammar

variable {phrase : Phrase} {st st' : Stream}

def Phrase.ClosesInside : Phrase → Prop
  | .elements close _ => close ≠ "%\x7d"
  | _ => True

lemma ne_close_of_atom? (h : t.atom? = some e) : t.lexeme ≠ .mark "%\x7d" := by
  intro hclose
  simp [Token.atom?, Token.literal?, hclose] at h

lemma ne_close_of_key? (h : t.key? = some e) : t.lexeme ≠ .mark "%\x7d" := by
  intro hclose
  simp [Token.key?, Token.literal?, hclose] at h

/-- **A phrase is passed token by token**, and none of its tokens ends a block tag. -/
theorem Derives.steps (h : Derives phrase st st') (hphrase : phrase.ClosesInside) :
    Stream.Steps st st' := by
  have hword {st st₁ : Stream} {name : String} (h : st.Passes (.word name) st₁) :
      Stream.Steps st st₁ := .single (h.stepsInside nofun)
  have hmark {st st₁ : Stream} {text : String} (h : st.Passes (.mark text) st₁)
      (ht : text ≠ "%\x7d") : Stream.Steps st st₁ := .single (h.stepsInside (by simpa using ht))
  -- the steps of the parts, one after another
  induction h with
  | atom hatom hnext => exact .single ⟨hnext, ne_close_of_atom? hatom⟩
  | propertiesLast hkey hnext
  | propertiesCons hkey hnext =>
    have hstep := Relation.ReflTransGen.single (Stream.StepsInside.mk hnext (ne_close_of_key? hkey))
    grind [Phrase.ClosesInside, Relation.ReflTransGen.trans]
  | assignment _ _ hop _ hnext
  | unary hop hnext
  | leadingUpdate _ hop hnext
  | trailingUpdate hop hnext =>
    have hstep := Relation.ReflTransGen.single (hnext.stepsInside hop rfl)
    grind [Phrase.ClosesInside, Relation.ReflTransGen.trans]
  | binaryStep hop _ _ _ ihright ihrest =>
    exact hop.steps.trans ((ihright trivial).trans (ihrest trivial))
  | _ => grind [Phrase.ClosesInside, Relation.ReflTransGen.trans]

/-- The regions in what a phrase stands for are those of the source. What goes on from an
expression keeps the regions that are there already. -/
def Phrase.IsIn (source : List Char) (st : Stream) : Phrase → Prop
  | .expression e | .choice e | .binary _ e | .unary e | .suffixed e | .primary e =>
    SpansIn source e.spans
  | .binaryRest _ left e => SpansIn source left.spans → SpansIn source e.spans
  | .suffixes start head e | .optionalSuffix start head e =>
    Span.IsIn source ⟨start, st.lastStop⟩ → SpansIn source head.spans → SpansIn source e.spans
  | .elements _ es => SpansIn source (Expr.spansList es)
  | .properties ps => SpansIn source (Property.spansList ps)
  | .params ps => SpansIn source (Expr.spansList ps)

def Phrase.StartsItself (st st' : Stream) : Phrase → Prop
  | .primary _ => st.current.span.start ≤ st'.lastStop
  | _ => True

lemma isIn_merge {a b : Expr} (ha : SpansIn source a.spans) (hb : SpansIn source b.spans) :
    (a.span.merge b.span).IsIn source :=
  (ha _ a.span_mem_spans).merge (hb _ b.span_mem_spans)

@[grind →]
lemma isIn_of_operator (h : st.Operator op st') (hst : st.IsIn source) :
    st'.IsIn source ∧ st.lastStop ≤ st'.lastStop :=
  ⟨h.steps.isIn hst, h.steps.lastStop_le hst⟩

lemma Derives.isIn_all (h : Derives phrase st st') (hst : st.IsIn source) :
    st'.IsIn source ∧ st.lastStop ≤ st'.lastStop ∧ phrase.StartsItself st st' ∧
      phrase.IsIn source st := by
  -- every region starts with a token and stops before a later one, so that it is enough to follow
  -- the streams
  induction h with
  | _ =>
    simp only [Phrase.IsIn, Phrase.StartsItself, Expr.spans, Expr.spansList, Property.spansList,
      spansIn_cons, spansIn_append, spansIn_nil, and_true] at *
    grind [spans_of_atom?, spans_of_key?, isIn_merge]

lemma Derives.isIn (h : Derives phrase st st') (hst : st.IsIn source) : phrase.IsIn source st :=
  (h.isIn_all hst).2.2.2

end Grammar

end ComponentTemplate
