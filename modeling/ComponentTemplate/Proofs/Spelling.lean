import ComponentTemplate.Proofs.Lexing
import ComponentTemplate.Proofs.Passing
import ComponentTemplate.Proofs.Places

/-!
# Pieces of text

Printed text inside a tag is a sequence of pieces, each a token with the blanks before it. Of
the blanks only their kind is kept: none, a space, or a line break with indentation. Pieces
that are legible are read back one by one, and the line breaks between their places are those
of their blanks.
-/

namespace ComponentTemplate

open List

/-- **The blanks before a token.** -/
inductive Gap where
  | none
  | space
  | line
  deriving DecidableEq, Repr

def Gap.Fits : Gap → List Char → Prop
  | none, blanks => blanks = []
  | space, blanks => blanks = [' ']
  | line, blanks => ∃ indentation, blanks = '\n' :: indentation ∧
      ∀ c ∈ indentation, Text.isBlank c = true

variable {blanks cs rest source before after : List Char} {gap : Gap}

lemma Gap.Fits.isBlank (h : gap.Fits blanks) : ∀ c ∈ blanks, Text.isBlank c = true := by
  cases gap with
  | none => simp [show blanks = [] from h]
  | space => simp [show blanks = [' '] from h, Text.isBlank]
  | line =>
    obtain ⟨indentation, rfl, hblank⟩ := h
    simpa [Text.isBlank] using hblank

lemma Gap.Fits.mem_lineFeed_iff (h : gap.Fits blanks) : '\n' ∈ blanks ↔ gap = .line := by
  cases gap with
  | none => simp [show blanks = [] from h]
  | space => simp [show blanks = [' '] from h]
  | line =>
    obtain ⟨indentation, rfl, -⟩ := h
    simp

/-- **A token and the blanks before it.** -/
structure Piece where
  gap : Gap
  lexeme : Lexeme
  deriving DecidableEq, Repr

/-- **The texts of a sequence of pieces.** -/
inductive Spells : List Piece → List Char → Prop
  | nil : Spells [] []
  | cons {p} {ps} {blanks cs} (hgap : p.gap.Fits blanks)
      (hrest : Spells ps cs) : Spells (p :: ps) (blanks ++ (p.lexeme.chars ++ cs))

variable {ps : List Piece}

lemma Spells.append (hps : Spells ps cs) (hqs : Spells qs ds) : Spells (ps ++ qs) (cs ++ ds) := by
  induction hps with
  | nil => exact hqs
  | cons hgap _ ih =>
    simp only [cons_append, append_assoc]
    exact .cons hgap ih

variable {p : Piece}

lemma Spells.snoc (hps : Spells ps cs) (hgap : p.gap.Fits blanks) :
    Spells (ps ++ [p]) (cs ++ (blanks ++ p.lexeme.chars)) := by
  have hp : Spells [p] (blanks ++ (p.lexeme.chars ++ [])) := .cons hgap .nil
  rw [append_nil] at hp
  exact hps.append hp

def Piece.Before (p q : Piece) : Prop := q.gap ≠ .none ∨ p.lexeme.joins q.lexeme = true

/-- **Pieces that are told apart**, each from the one that follows it. -/
structure Legible (ps : List Piece) : Prop where
  isWritten : ∀ p ∈ ps, p.lexeme.IsWritten
  chain : ps.IsChain Piece.Before

lemma Legible.tail (h : Legible (p :: ps)) : Legible ps :=
  ⟨fun q hq => h.isWritten q (mem_cons_of_mem _ hq), h.chain.tail⟩

lemma Legible.endsBefore (h : Legible (p :: ps)) (hspells : Spells ps cs)
    (hlast : ∀ q ∈ (p :: ps).getLast?, q.lexeme.EndsBefore rest) :
    p.lexeme.EndsBefore (cs ++ rest) := by
  induction hspells generalizing p with
  | nil => exact hlast p rfl
  | @cons q qs blanks cs hgap _ ih =>
    have hq : q.lexeme.EndsBefore (cs ++ rest) := ih h.tail (by simpa using hlast)
    have hbefore : p.Before q := (isChain_cons_cons.mp h.chain).1
    rw [append_assoc, append_assoc]
    cases hblanks : blanks with
    | nil =>
      have hnone : q.gap = .none := by
        cases hg : q.gap with
        | none => rfl
        | space => rw [hg, hblanks] at hgap; cases hgap
        | line =>
          rw [hg, hblanks] at hgap
          obtain ⟨_, hcons, _⟩ := hgap
          cases hcons
      have hjoins := hbefore.resolve_left (not_not.mpr hnone)
      exact Lexeme.endsBefore_of_joins hjoins (h.isWritten q (by simp)) hq
    | cons c blanks' =>
      refine Lexeme.endsBefore_of_blank _ fun d hd => ?_
      cases hd
      exact hgap.isBlank c (by simp [hblanks])

namespace Stream

variable {lb : LineBreaks} {st st₁ st' st'' : Stream} {ps qs : List Piece}

/-- **The stream of the tokens after a cursor.** -/
structure At (cur : Cursor) (st : Stream) : Prop where
  read : Token.read cur = .ok (st.current, st.after)
  lastStop : st.lastStop = cur.offset

variable {cur : Cursor}

lemma At.of_start {p : Parsed (cur.remaining + 1) Unit} (h : Stream.start cur = .ok p) :
    p.next.At cur := by
  unfold start at h
  split at h
  · rename_i hread
    cases h
    exact ⟨hread, rfl⟩
  · cases h

lemma At.unique (h : st.At cur) (h₁ : st₁.At cur) : st = st₁ := by
  obtain ⟨current, after, lastStop⟩ := st
  obtain ⟨current', after', lastStop'⟩ := st₁
  have hread := h.read.symm.trans h₁.read
  simp only [Except.ok.injEq, Prod.mk.injEq] at hread
  rw [Stream.mk.injEq]
  exact ⟨hread.1, hread.2, h.lastStop.trans h₁.lastStop.symm⟩

lemma At.start_eq (h : st.At cur) : ∃ lt, Stream.start cur = .ok ⟨(), st, lt⟩ := by
  have hstart : ∃ p, Stream.start cur = .ok p := by
    unfold start
    split
    · exact ⟨_, rfl⟩
    · rename_i hread
      rw [h.read] at hread
      cases hread
  obtain ⟨⟨_, found, lt⟩, hp⟩ := hstart
  have hat : found.At cur := At.of_start hp
  obtain rfl : st = found := h.unique hat
  exact ⟨lt, hp⟩

lemma At.span_stop (h : st.At cur) : st.current.span.stop = st.after.offset := by
  rw [(Token.readAt_spec h.read).2]
  rfl

lemma At.isSound (h : st.At cur) : st.current.lexeme.IsSound := (Token.readAt_spec h.read).1

lemma At.next (h : st.At cur) (hne : st.current.lexeme ≠ .finish) (h₁ : st₁.At st.after) :
    st.Next st₁ :=
  ⟨hne, h₁.read, by rw [h₁.lastStop, h.span_stop]⟩

/-- **The current token stands as a piece**: the line breaks before it and inside it are those
of the piece. -/
structure Stands (lb : LineBreaks) (st : Stream) (p : Piece) : Prop where
  lastStop_le : st.lastStop ≤ st.current.span.start
  stop_eq : st.current.span.stop = st.current.span.start + byteLength p.lexeme.chars
  stop_le : st.current.span.stop ≤ lb.size
  before : lb.atLeast 1 st.lastStop st.current.span.start = decide (p.gap = .line)
  inside : lb.atLeast 1 st.current.span.start st.current.span.stop = decide ('\n' ∈ p.lexeme.chars)

/-- **The pieces between two streams.** -/
inductive Covers (lb : LineBreaks) : Stream → List Piece → Stream → Prop
  | nil {st : Stream} : Covers lb st [] st
  | cons {st st₁ st' : Stream} {p : Piece} {ps : List Piece} (hpass : st.Passes p.lexeme st₁)
      (hstands : st.Stands lb p) (hrest : Covers lb st₁ ps st') : Covers lb st (p :: ps) st'

lemma covers_cons :
    st.Covers lb (p :: ps) st' ↔
      ∃ st₁, st.Passes p.lexeme st₁ ∧ st.Stands lb p ∧ st₁.Covers lb ps st' := by
  constructor
  · rintro (_ | ⟨hpass, hstands, hrest⟩)
    exact ⟨_, hpass, hstands, hrest⟩
  · rintro ⟨st₁, hpass, hstands, hrest⟩
    exact .cons hpass hstands hrest

lemma covers_append :
    st.Covers lb (ps ++ qs) st'' ↔ ∃ st', st.Covers lb ps st' ∧ st'.Covers lb qs st'' := by
  induction ps generalizing st with
  | nil =>
    constructor
    · intro h
      exact ⟨st, .nil, h⟩
    · rintro ⟨_, ⟨⟩, h⟩
      exact h
  | cons p ps ih =>
    simp only [cons_append, covers_cons, ih]
    constructor
    · rintro ⟨st₁, hpass, hstands, st', hps, hqs⟩
      exact ⟨st', ⟨st₁, hpass, hstands, hps⟩, hqs⟩
    · rintro ⟨st', ⟨st₁, hpass, hstands, hps⟩, hqs⟩
      exact ⟨st₁, hpass, hstands, st', hps, hqs⟩

end Stream

/-! ## Reading pieces back -/

lemma skipBlanks_append (hblanks : ∀ c ∈ blanks, Text.isBlank c = true)
    (hcs : ∀ c ∈ cs.head?, Text.isBlank c = false) (offset : Nat) :
    Cursor.skipBlanks ⟨offset, blanks ++ cs⟩ = ⟨offset + byteLength blanks, cs⟩ := by
  have hrun : (blanks ++ cs).takeWhile Text.isBlank = blanks := takeWhile_append_of_all hblanks hcs
  simp [Cursor.skipBlanks, Cursor.skipRun, Cursor.run, Cursor.skip, hrun]

lemma Token.read_append (hl : l.IsWritten) (hblanks : ∀ c ∈ blanks, Text.isBlank c = true)
    (hend : l.EndsBefore rest) (offset : Nat) :
    Token.read ⟨offset, blanks ++ (l.chars ++ rest)⟩ =
      .ok (⟨l, ⟨offset + byteLength blanks, offset + byteLength blanks + byteLength l.chars⟩⟩,
        ⟨offset + byteLength blanks + byteLength l.chars, rest⟩) := by
  have hhead : ∀ c ∈ (l.chars ++ rest).head?, Text.isBlank c = false := by
    obtain ⟨c, cs, hcs, hc⟩ := hl.exists_cons
    simpa [hcs] using hc
  rw [read, skipBlanks_append hblanks hhead, readAt_chars hl hend]

lemma atLeast_one_ofSource (h : source = before ++ (between ++ after))
    (hstart : start = byteLength before) (hstop : stop = byteLength before + byteLength between) :
    (LineBreaks.ofSource source).atLeast 1 start stop = decide ('\n' ∈ between) := by
  rw [h, hstart, hstop, ← append_assoc, LineBreaks.atLeast_ofSource]
  simp [Nat.succ_le_iff, count_pos_iff]

lemma stands_of_read {st : Stream} (hgap : p.gap.Fits blanks)
    (hsource : source = before ++ (blanks ++ (p.lexeme.chars ++ after)))
    (hlast : st.lastStop = byteLength before)
    (hstart : st.current.span.start = byteLength before + byteLength blanks)
    (hstop : st.current.span.stop = byteLength before + byteLength blanks + byteLength p.lexeme.chars) :
    st.Stands (LineBreaks.ofSource source) p where
  lastStop_le := by omega
  stop_eq := by omega
  stop_le := by
    rw [hsource]
    simp only [LineBreaks.ofSource, byteLength_append]
    omega
  before := by
    rw [atLeast_one_ofSource hsource hlast hstart]
    simp [hgap.mem_lineFeed_iff]
  inside := by
    rw [← append_assoc] at hsource
    exact atLeast_one_ofSource hsource (by simpa using hstart) (by simpa using hstop)

lemma exists_covers (hspells : Spells ps cs) (hlegible : Legible ps)
    (hlast : ∀ p ∈ ps.getLast?, p.lexeme.EndsBefore rest) (before : List Char)
    (hst' : st'.At ⟨byteLength before + byteLength cs, rest⟩) :
    ∃ st : Stream, st.At ⟨byteLength before, cs ++ rest⟩ ∧
      st.Covers (LineBreaks.ofSource (before ++ (cs ++ rest))) ps st' := by
  induction hspells generalizing before with
  | nil => exact ⟨st', by simpa using hst', .nil⟩
  | @cons p ps blanks cs hgap hspells ih =>
    have hlast' : ∀ q ∈ ps.getLast?, q.lexeme.EndsBefore rest := by
      intro q hq
      refine hlast q ?_
      cases ps with
      | nil => cases hq
      | cons => simpa using hq
    obtain ⟨st₁, hat₁, hcovers⟩ := ih hlegible.tail hlast'
      (before ++ (blanks ++ p.lexeme.chars)) (by simpa [Nat.add_assoc] using hst')
    have hwritten := hlegible.isWritten p (mem_cons_self ..)
    have hread := Token.read_append hwritten hgap.isBlank
      (hlegible.endsBefore hspells hlast) (byteLength before)
    let st : Stream := ⟨⟨p.lexeme, ⟨byteLength before + byteLength blanks,
      byteLength before + byteLength blanks + byteLength p.lexeme.chars⟩⟩,
      ⟨byteLength before + byteLength blanks + byteLength p.lexeme.chars, cs ++ rest⟩,
      byteLength before⟩
    have hat : st.At ⟨byteLength before, blanks ++ (p.lexeme.chars ++ cs) ++ rest⟩ :=
      ⟨by simpa only [append_assoc] using hread, rfl⟩
    have hne : p.lexeme ≠ .finish := by
      intro hfinish
      rw [hfinish] at hwritten
      exact hwritten
    have hnext : st.Next st₁ := hat.next hne (by simpa [st, Nat.add_assoc] using hat₁)
    have hsource : before ++ (blanks ++ (p.lexeme.chars ++ cs) ++ rest) =
        before ++ (blanks ++ (p.lexeme.chars ++ (cs ++ rest))) := by
      simp
    refine ⟨st, hat, .cons ⟨rfl, hnext⟩ ?_ ?_⟩
    · exact stands_of_read hgap hsource rfl rfl rfl
    · simpa only [append_assoc] using hcovers

end ComponentTemplate
