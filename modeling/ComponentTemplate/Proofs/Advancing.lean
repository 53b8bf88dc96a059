import ComponentTemplate.Proofs.LongestTokens
import ComponentTemplate.Proofs.MarkupFailures

/-!
# Readers move on

Every reader of a token, a node, an attribute or a style takes at least one character and stops
between two characters of its text.
-/

set_option mvcgen.warning false

namespace ComponentTemplate

open Std.Do Cursor

variable {source : List Char} {cur next : Cursor}

lemma Cursor.IsIn.reads (h : cur.IsIn source) (hnext : next.IsIn source)
    (hlt : next.remaining < cur.remaining) : ∃ part, part ≠ [] ∧ cur.Reads part next := by
  obtain ⟨before, hbefore, hoffset⟩ := h
  obtain ⟨before', hbefore', hoffset'⟩ := hnext
  have hsource : before ++ cur.rest = before' ++ next.rest := hbefore.symm.trans hbefore'
  have hlength := congrArg List.length hsource
  simp only [List.length_append, remaining] at hlength hlt
  obtain ⟨part, rfl, hrest⟩ | ⟨part, rfl, -⟩ := List.append_eq_append_iff.mp hsource
  · have hreads : cur.Reads part next :=
      ⟨hrest, by rw [hoffset', hoffset, byteLength_append, Nat.add_assoc]⟩
    exact ⟨part, hreads.ne_nil_of_lt (by simpa [remaining] using hlt), hreads⟩
  · simp at hlength
    omega

/-- **A reader moves on**: it takes the characters up to a later place of its text, which is
between two characters and not past the end; they are the text between the two places. If it fails,
then in a region of the text. -/
def Cursor.MovesOn (source : List Char) (cur : Cursor) {bound : Nat} {α : Type}
    (result : Except Failure (Scanned bound α)) : Prop :=
  (∀ r, result = .ok r → cur.offset < r.next.offset ∧ r.next.offset ≤ byteLength source ∧
    IsBoundary source r.next.offset ∧ ∃ part, part ≠ [] ∧ cur.Reads part r.next ∧
      textBetween source cur.offset r.next.offset = part) ∧
  ∀ failure, result = .error failure → failure.span.IsIn source

lemma Cursor.movesOn_of_stays {α : Type} {result : Except Failure (Scanned cur.remaining α)}
    (hcur : cur.IsIn source) (h : ⦃⌜cur.IsIn source⌝⦄ result ⦃cur.Stays source⦄) :
    cur.MovesOn source result := by
  obtain ⟨hok, herror⟩ := triple_iff.mp h hcur
  refine ⟨fun r hr => ?_, herror⟩
  have hnext := (hok r hr).1
  obtain ⟨part, hne, hreads⟩ := hcur.reads hnext r.lt
  obtain ⟨before, after, hsource, hoffset⟩ := hnext.isBoundary
  refine ⟨hreads.offset_lt r.lt, ?_, hnext.isBoundary, part, hne, hreads,
    textBetween_of_reads hcur hreads⟩
  · rw [hoffset, hsource, byteLength_append]
    exact Nat.le_add_right ..

/-! ## Loops -/

namespace MarkupGrammar

lemma length_quotedParts (n : Nat) (opening : Cursor) (quote : Char) (cur : Cursor) :
    ⦃⌜(opening.IsIn source ∧ cur.IsIn source ∧ opening.offset ≤ cur.offset) ∧ cur.remaining < n⌝⦄
    quotedParts opening quote cur
    ⦃Within source fun r => r.value.length + r.next.remaining < cur.remaining⦄ := by
  induction n generalizing cur with
  | zero => exact triple_of_lt_zero
  | succ n ih =>
    unfold quotedParts
    dsimp only
    mvcgen [ih, -quotedParts_within]
    all_goals clear ih
    all_goals grind

lemma length_attributes (n : Nat) (name : String) (cur : Cursor) :
    ⦃⌜cur.IsIn source ∧ cur.remaining < n⌝⦄ attributes name cur
    ⦃Within source fun r => r.value.1.length + r.next.remaining < cur.remaining⦄ := by
  induction n generalizing cur with
  | zero => exact triple_of_lt_zero
  | succ n ih =>
    unfold attributes attributesHere
    mvcgen [ih, -attributes_within]
    all_goals clear ih
    all_goals grind

lemma length_cons_le (first : Node) (rest : List Node) :
    (first.cons rest).length ≤ rest.length + 1 := by
  unfold Node.cons
  split <;> simp

lemma length_fragment (n : Nat) (ctx : MarkupContext) (ending : Ending) (cur : Cursor) :
    ⦃⌜cur.IsIn source ∧ cur.remaining < n⌝⦄ fragment ctx ending cur
    ⦃Within source fun r => r.value.length + r.next.remaining ≤ cur.remaining⦄ := by
  induction n generalizing cur with
  | zero => exact triple_of_lt_zero
  | succ n ih =>
    unfold fragment
    mvcgen [ih]
    all_goals clear ih
    all_goals grind [length_cons_le]

end MarkupGrammar

namespace StyleGrammar

@[spec]
lemma node_within (cur : Cursor) (c : Char) (cs : List Char) (hrest) (hc) :
    ⦃⌜cur.IsIn source⌝⦄ node cur c cs hrest hc ⦃cur.Stays source⦄ :=
  triple_of_below fun n => (staysBelow n).node cur c cs hrest hc

lemma length_nodes (n : Nat) (nested : Bool) (cur : Cursor) :
    ⦃⌜cur.IsIn source ∧ cur.remaining < n⌝⦄ nodes nested cur
    ⦃Within source fun r => r.value.length + r.next.remaining ≤ cur.remaining⦄ := by
  induction n generalizing cur with
  | zero => exact triple_of_lt_zero
  | succ n ih =>
    unfold nodes nodesHere
    mvcgen [ih, -nodes_within]
    all_goals clear ih
    all_goals grind

end StyleGrammar

lemma Component.length_add_le (component : Component) (part : Part) :
    (component.add part).nodes.length + (component.add part).imports.length ≤
      component.nodes.length + component.imports.length + 1 := by
  cases part with
  | node n =>
    have := MarkupGrammar.length_cons_le n component.nodes
    simp only [add]
    omega
  | importTag tag => simp [add, Nat.add_assoc]
  | script block | style block => exact Nat.le_succ _

grind_pattern Component.length_add_le => component.add part

lemma Component.length_ofCursor (n : Nat) (ctx : MarkupContext) (hasScript hasStyle : Bool)
    (cur : Cursor) : ⦃⌜cur.IsIn source ∧ cur.remaining < n⌝⦄ ofCursor ctx hasScript hasStyle cur
    ⦃Within source fun r => r.nodes.length + r.imports.length ≤ cur.remaining⦄ := by
  induction n generalizing hasScript hasStyle cur with
  | zero => exact triple_of_lt_zero
  | succ n ih =>
    unfold ofCursor
    mvcgen [ih]
    all_goals clear ih
    all_goals grind [Component.empty]

/-! ## Readers -/

open MarkupGrammar

/-- **Readers move on**, from every place of a text, and read within it. So the loops over the
parts of a value, attributes, nodes and styles end: they give no more than there are characters.
The texts that are taken are slices of the source: that of a token between the ends of its region,
and from every place that of a given length, or a longest one of given characters. -/
theorem readers_moveOn (source : List Char) (cur : Cursor) (hcur : cur.IsIn source) :
    (∀ t after, Token.read cur = .ok (t, after) → t.span.IsIn source ∧ after.IsIn source ∧
      cur.offset ≤ t.span.start ∧ t.span.stop = after.offset ∧
      (t.lexeme ≠ .finish → t.span.start < t.span.stop) ∧
      textBetween source t.span.start t.span.stop = t.lexeme.chars) ∧
    (∀ n, (cur.skip n).IsIn source ∧
      textBetween source cur.offset (cur.skip n).offset = cur.rest.take n) ∧
    (∀ p, (cur.skipRun p).IsIn source ∧
      textBetween source cur.offset (cur.skipRun p).offset = cur.run p) ∧
    (∀ ctx hpos, cur.MovesOn source (item ctx cur hpos)) ∧
    cur.MovesOn source (tagAttribute cur) ∧
    (∀ hpos, cur.MovesOn source (namedAttribute cur hpos)) ∧
    cur.MovesOn source (attributeValue cur) ∧
    (∀ c cs hrest hc, cur.MovesOn source (StyleGrammar.node cur c cs hrest hc)) ∧
    (∀ opening quote r, opening.IsIn source → opening.offset ≤ cur.offset →
      quotedParts opening quote cur = .ok r → r.value.length < cur.remaining) ∧
    (∀ name r, attributes name cur = .ok r → r.value.1.length < cur.remaining) ∧
    (∀ ctx ending r, fragment ctx ending cur = .ok r → r.value.length ≤ cur.remaining) ∧
    (∀ nested r, StyleGrammar.nodes nested cur = .ok r → r.value.length ≤ cur.remaining) ∧
    ∀ ctx hasScript hasStyle component,
      Component.ofCursor ctx hasScript hasStyle cur = .ok component →
      component.nodes.length + component.imports.length ≤ cur.remaining := by
  refine ⟨fun t after h => ?_,
    fun n => ⟨hcur.trans (cur.reaches_skip n), textBetween_of_reads hcur (cur.reads_skip n)⟩,
    fun p => ⟨hcur.trans (cur.reaches_skip _), textBetween_of_reads hcur (cur.reads_skipRun p)⟩,
    fun ctx hpos => ?_, ?_, fun hpos => ?_, ?_, fun c cs hrest hc => ?_,
    fun opening quote r hopening hle h => ?_, fun name r h => ?_, fun ctx ending r h => ?_,
    fun nested r h => ?_, fun ctx hasScript hasStyle component h => ?_⟩
  · have hspan : t.span = cur.skipBlanks.spanTo after := (Token.readAt_spec h).2
    have hblanks := hcur.trans cur.reaches_skipBlanks
    have hreads : cur.skipBlanks.Reads t.lexeme.chars after := Token.reads_of_readAt h
    rw [hspan]
    refine ⟨hblanks.spanTo hreads.reaches, hblanks.trans hreads.reaches,
      cur.reaches_skipBlanks.offset_le, rfl, fun ht => ?_, textBetween_of_reads hblanks hreads⟩
    exact hreads.offset_lt (Token.readAt_remaining_lt h ht)
  · exact movesOn_of_stays hcur (triple_of_below fun n => (staysBelow n).item ctx cur hpos)
  · exact movesOn_of_stays hcur (tagAttribute_within cur)
  · exact movesOn_of_stays hcur (namedAttribute_within cur hpos)
  · exact movesOn_of_stays hcur (attributeValue_within cur)
  · exact movesOn_of_stays hcur (StyleGrammar.node_within cur c cs hrest hc)
  · exact Nat.lt_of_le_of_lt (Nat.le_add_right ..)
      ((triple_iff.mp (length_quotedParts _ opening quote cur)
        ⟨⟨hopening, hcur, hle⟩, Nat.lt_succ_self _⟩).1 r h)
  · exact Nat.lt_of_le_of_lt (Nat.le_add_right ..)
      ((triple_iff.mp (length_attributes _ name cur) ⟨hcur, Nat.lt_succ_self _⟩).1 r h)
  · exact (Nat.le_add_right ..).trans
      ((triple_iff.mp (length_fragment _ ctx ending cur) ⟨hcur, Nat.lt_succ_self _⟩).1 r h)
  · exact (Nat.le_add_right ..).trans
      ((triple_iff.mp (StyleGrammar.length_nodes _ nested cur) ⟨hcur, Nat.lt_succ_self _⟩).1 r h)
  · exact (triple_iff.mp (Component.length_ofCursor _ ctx hasScript hasStyle cur)
      ⟨hcur, Nat.lt_succ_self _⟩).1 component h

/-- An opening brace after a character of two bytes. -/
theorem exists_readers_moveOn :
    IsIn "é\x7bb".toList ⟨2, "\x7bb".toList⟩ ∧
      ∃ t, Token.read ⟨2, "\x7bb".toList⟩ = .ok (t, ⟨3, ['b']⟩) ∧ t.span.start < t.span.stop := by
  have hcur : IsIn "é\x7bb".toList ⟨2, "\x7bb".toList⟩ := ⟨['é'], by decide, by decide⟩
  have hread : Token.read ⟨2, "\x7bb".toList⟩ = .ok (⟨.mark "\x7b", ⟨2, 3⟩⟩, ⟨3, ['b']⟩) := by
    decide
  exact ⟨hcur, _, hread, ((readers_moveOn _ _ hcur).1 _ _ hread).2.2.2.2.1 (by decide)⟩

end ComponentTemplate
