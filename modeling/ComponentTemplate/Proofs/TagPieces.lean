import ComponentTemplate.Proofs.ScriptRoundTrip
import ComponentTemplate.Proofs.Tags

/-!
# Printing and reading tags

A tag is printed as its opening characters, pieces, and its closing characters after a blank. The
tokens of a tag are read only up to the closing characters, so whatever text follows a tag, its
pieces are read back.
-/

namespace ComponentTemplate

open MarkupGrammar Piece List

/-! ## Reading tags -/

/-- **The text of a tag**: pieces between its opening and closing characters, with blanks before
the latter. -/
def TagText (opening closing : String) (ps : List Piece) (cs : List Char) : Prop :=
  ∃ inner blanks, ∃ gap : Gap, cs = opening.toList ++ (inner ++ (blanks ++ closing.toList)) ∧
    Spells ps inner ∧ gap.Fits blanks ∧ gap ≠ .none

def BlockText (word : String) (ps : List Piece) (cs : List Char) : Prop :=
  TagText "\x7b%" "%\x7d" (⟨.space, .word word⟩ :: ps) cs

def InlineText (ps : List Piece) (cs : List Char) : Prop := TagText "\x7b\x7b" "\x7d\x7d" ps cs

lemma Gap.Fits.head_isBlank {gap : Gap} {blanks : List Char} (h : gap.Fits blanks)
    (hgap : gap ≠ .none) (rest : List Char) :
    ∀ c ∈ (blanks ++ rest).head?, Text.isBlank c = true := by
  intro c hc
  cases blanks with
  | nil =>
    cases gap with
    | none => exact absurd rfl hgap
    | space => cases h
    | line =>
      obtain ⟨_, hcons, _⟩ := h
      cases hcons
  | cons d blanks =>
    cases hc
    exact h.isBlank c (mem_cons_self ..)

variable {ps : List Piece} {cs source before after : List Char}

/-- **The pieces of a tag are read back**, and the token that closes it follows them. What stands
after this token is not read. -/
theorem TagText.covers {opening closing : String} {more : List Char} {l : Lexeme}
    (h : TagText opening closing ps cs) (hps : Legible ps) (hl : l.IsWritten)
    (hclosing : closing.toList = l.chars ++ more) (hend : l.EndsBefore (more ++ after))
    (hsource : source = before ++ (cs ++ after)) :
    ∃ st st' : Stream,
      st.At ((⟨byteLength before, cs ++ after⟩ : Cursor).skip opening.toList.length) ∧
      st.Covers (LineBreaks.ofSource source) ps st' ∧ st'.current.lexeme = l ∧
      st'.after.rest = more ++ after ∧
      st'.after.offset + byteLength more = byteLength before + byteLength cs := by
  obtain ⟨inner, blanks, gap, rfl, hspells, hgap, hne⟩ := h
  have hread := Token.read_append hl hgap.isBlank hend
    (byteLength (before ++ opening.toList) + byteLength inner)
  obtain ⟨st', hat', hlexeme, hafter⟩ : ∃ st' : Stream,
      st'.At ⟨byteLength (before ++ opening.toList) + byteLength inner,
        blanks ++ (l.chars ++ (more ++ after))⟩ ∧ st'.current.lexeme = l ∧
      st'.after = ⟨byteLength (before ++ opening.toList) + byteLength inner + byteLength blanks +
        byteLength l.chars, more ++ after⟩ :=
    ⟨⟨_, _, _⟩, ⟨hread, rfl⟩, rfl, rfl⟩
  have hlast : ∀ p ∈ ps.getLast?, p.lexeme.EndsBefore (blanks ++ (l.chars ++ (more ++ after))) :=
    fun p _ => Lexeme.endsBefore_of_blank _ (hgap.head_isBlank hne _)
  obtain ⟨st, hat, hcovers⟩ := exists_covers hspells hps hlast (before ++ opening.toList) hat'
  have hsource' : source = before ++ opening.toList ++
      (inner ++ (blanks ++ (l.chars ++ (more ++ after)))) := by
    simp [hsource, hclosing]
  have hskip := Cursor.skip_append (byteLength before) opening.toList
    (inner ++ (blanks ++ (l.chars ++ (more ++ after))))
  refine ⟨st, st', ?_, hsource' ▸ hcovers, hlexeme, by rw [hafter], ?_⟩
  · rw [hclosing]
    simp only [append_assoc, byteLength_append] at hat hskip ⊢
    rw [hskip]
    exact hat
  · simp only [hafter, hclosing, byteLength_append]
    omega

lemma prolongsMark_closing (htext : text ∈ ["%\x7d", "\x7d"]) (c : Char) :
    prolongsMark text c = false := by
  have hlonger : ∀ text ∈ ["%\x7d", "\x7d"], ∀ longer ∈ marks,
      text.toList.isPrefixOf longer.toList = true → longer.toList.length = text.toList.length := by
    decide +kernel
  have hdot : ∀ text ∈ ["%\x7d", "\x7d"], (text == "." || text == "?.") = false := by decide
  rw [prolongsMark, hdot text htext, Bool.false_and, Bool.false_or, any_eq_false]
  intro longer hmem hprolongs
  have hstart := isPrefixOf_iff_prefix.mp hprolongs
  have hlength := hlonger text htext longer hmem
    (List.isPrefixOf_iff_prefix.mpr ((prefix_append _ _).trans hstart))
  have hle := hstart.length_le
  simp [hlength] at hle

lemma endsBefore_closing (text : String) (htext : text ∈ ["%\x7d", "\x7d"]) (rest : List Char) :
    (Lexeme.mark text).EndsBefore rest :=
  fun c _ => prolongsMark_closing htext c

/-- Pieces after which no blank is missing: the first one has blanks before it. -/
structure Piece.Spaced (ps : List Piece) : Prop where
  legible : Legible ps
  head : ∀ p ∈ ps.head?, p.gap ≠ .none

lemma BlockText.covers (h : BlockText word ps cs) (hword : isName word.toList = true)
    (hps : Spaced ps) (hsource : source = before ++ (cs ++ after)) :
    (∃ inner, cs ++ after = '{' :: '%' :: inner) ∧ ∃ st st' : Stream,
      OpensTag word ⟨byteLength before, cs ++ after⟩ st ∧
      st.Covers (LineBreaks.ofSource source) ps st' ∧
      st'.EndsBlock ⟨byteLength before + byteLength cs, after⟩ := by
  have hlegible : Legible (⟨.space, .word word⟩ :: ps) := by
    refine ⟨forall_mem_cons.mpr ⟨hword, hps.legible.isWritten⟩, ?_⟩
    exact isChain_cons.mpr ⟨fun q hq => .inl (hps.head q hq), hps.legible.chain⟩
  have hend := endsBefore_closing "%\x7d" (by decide) ([] ++ after)
  obtain ⟨st, st', hat, hcovers, hlexeme, hrest, hoffset⟩ :=
    TagText.covers h hlegible (isWritten_mark "%\x7d" (by decide)) (append_nil _).symm hend
      hsource
  obtain ⟨st₁, hpass, -, hcovers⟩ := Stream.covers_cons.mp hcovers
  obtain ⟨inner, blanks, gap, rfl, -⟩ := h
  refine ⟨⟨_, rfl⟩, st₁, st', ⟨st, hat, hpass⟩, hcovers, hlexeme, ?_⟩
  rw [byteLength_nil, Nat.add_zero] at hoffset
  rw [← hoffset, ← (show _ = after from hrest)]

lemma InlineText.covers (h : InlineText ps cs) (hps : Legible ps)
    (hsource : source = before ++ (cs ++ after)) :
    (∃ inner, cs ++ after = '{' :: '{' :: inner) ∧ ∃ st st' : Stream,
      st.At ((⟨byteLength before, cs ++ after⟩ : Cursor).skip 2) ∧
      st.Covers (LineBreaks.ofSource source) ps st' ∧
      st'.EndsInline ⟨byteLength before + byteLength cs, after⟩ := by
  have hend := endsBefore_closing "\x7d" (by decide) (['}'] ++ after)
  obtain ⟨st, st', hat, hcovers, hlexeme, hrest, hoffset⟩ :=
    TagText.covers h hps (isWritten_mark "\x7d" (by decide)) rfl hend hsource
  obtain ⟨inner, blanks, gap, rfl, -⟩ := h
  refine ⟨⟨_, rfl⟩, st, st', hat, hcovers, hlexeme, by rw [hrest]; rfl, ?_⟩
  rw [← hoffset, Cursor.skip, hrest]
  rfl

/-! ## Printing tags -/

namespace Doc

variable {a b : Doc} {opening closing word : String} {ps : List Piece} {gap : Gap}
  {P : Gap → List Piece}

/-- **A document starts a tag**: it writes the opening characters, pieces, and blanks. -/
def Starts (doc : Doc) (opening : String) (ps : List Piece) (gap : Gap) : Prop :=
  ∀ w : Writer, w.Indents → (doc.write w).Wrote (w.front ++ opening.toList) ps gap

lemma starts_text (opening : String) (hhead : opening.toList.head?.any (· != '\n') = true)
    (hlast : opening.toList.getLast?.any (· != '\n') = true) :
    (Doc.text opening).Starts opening [] .none := by
  intro w hw
  obtain ⟨cs, hfront, hstart, rfl⟩ := sets_text opening hhead hlast w hw
  rw [Writer.front_of_not_atLineStart hstart] at hfront
  exact ⟨(hw.write _).isBlank, by simp [hstart], [], [], by simp [hfront], .nil, rfl⟩

lemma Starts.append (h : a.Starts opening ps gap) (hb : b.Prints P) :
    (a ++ b).Starts opening (ps ++ P gap) .none :=
  fun w hw => hb (h w hw)

lemma Starts.space (h : a.Starts opening ps .none) : (a ++ " ").Starts opening ps .space :=
  fun w hw => (h w hw).space

lemma Starts.line (h : a.Starts opening ps .none) : (a ++ Doc.line).Starts opening ps .line :=
  fun w hw => (h w hw).line

lemma Starts.congr (h : a.Starts opening ps gap) (hwrite : ∀ w, b.write w = a.write w) :
    b.Starts opening ps gap := by
  intro w hw
  rw [hwrite]
  exact h w hw

lemma starts_word (word : String) (hword : isName word.toList = true) :
    (Doc.text ("\x7b% " ++ word)).Starts "\x7b%" [⟨.space, .word word⟩] .none := by
  have hopen := starts_text "\x7b%" (by decide) (by decide)
  refine (hopen.space.append (prints_word word hword)).congr fun w => ?_
  rw [write_text_append _ "\x7b% " word rfl (by decide),
    write_text_append "\x7b% " "\x7b%" " " rfl (by decide)]
  rfl

lemma getLast?_word (front : String) (hword : isName word.toList = true) :
    (front ++ word).toList.getLast?.any (· != '\n') = true := by
  have hwritten : (Lexeme.word word).IsWritten := hword
  obtain ⟨c, cs, hcs, -⟩ := hwritten.exists_cons
  have hlast := hwritten.getLast?_ne
  rw [Lexeme.chars_word] at hcs hlast
  rw [String.toList_append, getLast?_append_of_ne_nil _ (by simp [hcs])]
  cases h : word.toList.getLast? with
  | none => simp [hcs] at h
  | some d =>
    rw [h] at hlast
    simpa using hlast

lemma starts_wordSpace (word : String) (hword : isName word.toList = true) :
    (Doc.text ("\x7b% " ++ word ++ " ")).Starts "\x7b%" [⟨.space, .word word⟩] .space := by
  refine (starts_word word hword).space.congr fun w => ?_
  rw [write_text_append _ ("\x7b% " ++ word) " " rfl (getLast?_word _ hword)]
  rfl

lemma Starts.sets (h : a.Starts opening ps gap) (hgap : gap ≠ .none)
    (hhead : closing.toList.head?.any (· != '\n') = true)
    (hlast : closing.toList.getLast?.any (· != '\n') = true) :
    (a ++ Doc.text closing).Sets (TagText opening closing ps) := by
  intro w hw
  have hwrote := h w hw
  obtain ⟨inner, blanks, hwritten, hspells, hfits⟩ := hwrote.text
  obtain ⟨cs, hfront, hstart, rfl⟩ := sets_text closing hhead hlast (a.write w) (hw.write a)
  -- the indentation of a line belongs to the blanks before the closing characters
  obtain ⟨blanks', hblanks', hfits'⟩ : ∃ blanks',
      (a.write w).front = w.front ++ (opening.toList ++ (inner ++ blanks')) ∧ gap.Fits blanks' := by
    by_cases hline : (a.write w).atLineStart = true
    · obtain rfl := hwrote.lineStart hline
      obtain ⟨indentation, rfl, hindentation⟩ := hfits
      refine ⟨'\n' :: (indentation ++ (a.write w).indentation), ?_, _, rfl, fun c hc => ?_⟩
      · simp [Writer.front, hline, hwritten]
      · rcases mem_append.mp hc with hc | hc
        · exact hindentation c hc
        · exact Writer.isBlank_indentation (hw.write a).isBlank c hc
    · refine ⟨blanks, ?_, hfits⟩
      rw [Writer.front_of_not_atLineStart (Bool.eq_false_iff.mpr hline), hwritten]
      simp
  refine ⟨opening.toList ++ (inner ++ (blanks' ++ closing.toList)), ?_, hstart,
    inner, blanks', gap, rfl, hspells, hfits', hgap⟩
  rw [write_append, hfront, hblanks']
  simp

lemma Starts.sets_block (h : a.Starts "\x7b%" (⟨.space, .word word⟩ :: ps) .none) :
    (a ++ " %\x7d").Sets (BlockText word ps) := by
  have hspace : (a ++ " " ++ "%\x7d" : Doc).Sets (BlockText word ps) :=
    h.space.sets (by simp) (by decide) (by decide)
  refine hspace.congr fun w => ?_
  rfl

lemma Starts.sets_inline (h : a.Starts "\x7b\x7b" ps .none) :
    (a ++ " \x7d\x7d").Sets (InlineText ps) := by
  have hspace : (a ++ " " ++ "\x7d\x7d" : Doc).Sets (InlineText ps) :=
    h.space.sets (by simp) (by decide) (by decide)
  refine hspace.congr fun w => ?_
  rfl

lemma sets_wordTag (word : String) (hword : isName word.toList = true) :
    (Doc.text ("\x7b% " ++ word ++ " %\x7d")).Sets (BlockText word []) := by
  refine (starts_word word hword).sets_block.congr fun w => ?_
  rw [write_text_append _ ("\x7b% " ++ word) " %\x7d" rfl (getLast?_word _ hword)]
  rfl

lemma Prints.sets_block (hb : b.Prints P) (word : String) (hword : isName word.toList = true) :
    (Doc.text ("\x7b% " ++ word ++ " ") ++ b ++ " %\x7d").Sets (BlockText word (P .space)) :=
  ((starts_wordSpace word hword).append hb).sets_block

end Doc

/-! ## Pieces of tags -/

section Tags

variable {breaks : Breaks} {lb : LineBreaks} {st st' : Stream} {e : Expr} {ps qs : List Piece}

lemma Piece.Spaced.nil : Spaced [] := ⟨⟨by simp, .nil⟩, by simp⟩

lemma Piece.Spaced.append (hps : Spaced ps) (hqs : Spaced qs) :
    Spaced (ps ++ qs) := by
  refine ⟨⟨fun p hp => ?_, ?_⟩, fun p hp => ?_⟩
  · rcases mem_append.mp hp with hp | hp
    · exact hps.legible.isWritten p hp
    · exact hqs.legible.isWritten p hp
  · exact isChain_append.mpr
      ⟨hps.legible.chain, hqs.legible.chain, fun _ _ q hq => .inl (hqs.head q hq)⟩
  · cases ps with
    | nil => exact hqs.head p hp
    | cons q ps => exact hps.head p hp

variable {gap : Gap} {word : String} {a : Doc} {next : Cursor} {opening : AwaitOpening}
  {params : List Expr}

lemma Run.spaced (h : Run first last gap ps) (hgap : gap ≠ .none) : Spaced ps := by
  refine ⟨h.legible, fun p hp => ?_⟩
  obtain ⟨q, hq, rfl, -⟩ := h.head
  rw [hq] at hp
  cases hp
  exact hgap

lemma Piece.spaced_word (hword : isName word.toList = true) : Spaced [⟨.space, .word word⟩] :=
  (Operand.word hword .space).spaced (by simp)

lemma Expr.Sound.spaced (h : e.Sound breaks) : Spaced (e.pieces breaks .space) :=
  (e.run h.wellFormed h.plain .space).spaced (by simp)

lemma Expr.Sound.prints (h : e.Sound breaks) : (e.doc breaks).Prints (e.pieces breaks) :=
  e.prints h.wellFormed h.plain

lemma Expr.Sound.rereads (h : e.Sound breaks) (hcovers : st.Covers lb (e.pieces breaks gap) st')
    (hends : st'.current.lexeme.endsExpr = true) :
    ∃ e', e.Reprints breaks lb.atLeast e' ∧ Placed lb st e' st' ∧
      Grammar.Derives (.expression e') st st' :=
  (e.readable h.wellFormed h.plain).expression hcovers (.of_endsExpr hends)

lemma Expr.IsParam.sound (h : e.IsParam) : e.Sound breaks := by
  refine ⟨h.wellFormed, ?_⟩
  cases e
  case identifier span name => exact Expr.plain_iff.mpr ⟨trivial, by simp [Expr.children]⟩
  all_goals exact h.elim

lemma Expr.IsParam.passes (h : e.IsParam) (hcovers : st.Covers lb (e.pieces breaks gap) st') :
    ∃ e', e.Reprints breaks lb.atLeast e' ∧ st.PassesParam e' st' := by
  cases e
  case identifier span name =>
    obtain ⟨_, hpass, -, ⟨⟩⟩ := Stream.covers_cons.mp hcovers
    exact ⟨.identifier st.current.span name, ⟨rfl, rfl⟩, name, rfl, h.2, hpass⟩
  all_goals exact h.elim

/-! ## Outcomes of waiting -/

def bindingPieces (breaks : Breaks) : Option Expr → List Piece
  | none => []
  | some e => e.pieces breaks .space

variable {name : Option Expr}

lemma spaced_binding (hname : ∀ e ∈ name, e.IsParam) :
    Spaced (bindingPieces breaks name) := by
  cases name with
  | none => exact .nil
  | some e => exact (hname e rfl).sound.spaced

lemma Doc.Starts.binding {opening : String} (h : a.Starts opening ps .none)
    (hname : ∀ e ∈ name, e.IsParam) :
    (a ++ .ofOption (fun e => " " ++ e.doc breaks) name).Starts opening
      (ps ++ bindingPieces breaks name) .none := by
  cases name with
  | none =>
    rw [bindingPieces, append_nil]
    exact h
  | some e => exact h.space.append (hname e rfl).sound.prints

lemma binds_of_covers (hname : ∀ e ∈ name, e.IsParam)
    (hcovers : st.Covers lb (bindingPieces breaks name) st') (hend : st'.EndsBlock next) :
    ∃ name', Option.Rel (Expr.Reprints breaks lb.atLeast) name name' ∧ Binds st name' st' := by
  cases name with
  | none =>
    cases hcovers
    exact ⟨none, .none, hend.lexeme_eq, rfl⟩
  | some e =>
    obtain ⟨e', hreprints, hpasses⟩ := (hname e rfl).passes hcovers
    exact ⟨some e', .some hreprints, hpasses⟩

def AwaitOpening.name? : AwaitOpening → Option Expr
  | .pending => none
  | .resolved name | .rejected name => name

def AwaitOpening.pieces (breaks : Breaks) : AwaitOpening → List Piece
  | .pending => []
  | .resolved name => ⟨.space, .word "then"⟩ :: bindingPieces breaks name
  | .rejected name => ⟨.space, .word "catch"⟩ :: bindingPieces breaks name

def AwaitOpening.doc (breaks : Breaks) : AwaitOpening → Doc
  | .pending => " %\x7d"
  | .resolved name => outcomeTag breaks " then" name
  | .rejected name => outcomeTag breaks " catch" name

inductive AwaitOpening.Reprints (breaks breaks' : Breaks) : AwaitOpening → AwaitOpening → Prop
  | pending : Reprints breaks breaks' .pending .pending
  | resolved {name name' : Option Expr} (h : Option.Rel (Expr.Reprints breaks breaks') name name') :
      Reprints breaks breaks' (.resolved name) (.resolved name')
  | rejected {name name' : Option Expr} (h : Option.Rel (Expr.Reprints breaks breaks') name name') :
      Reprints breaks breaks' (.rejected name) (.rejected name')

lemma Doc.Starts.sets_outcome (h : a.Starts "\x7b%" (⟨.space, .word word⟩ :: ps) .none)
    (text : String) (htext : isName text.toList = true) (hname : ∀ e ∈ name, e.IsParam) :
    (a ++ outcomeTag breaks (" " ++ text) name).Sets
      (BlockText word (ps ++ ⟨.space, .word text⟩ :: bindingPieces breaks name)) := by
  have hstarts : (a ++ " " ++ Doc.text text ++ .ofOption (fun e => " " ++ e.doc breaks) name).Starts
      "\x7b%" (⟨.space, .word word⟩ :: (ps ++ ⟨.space, .word text⟩ :: bindingPieces breaks name))
      .none := by
    simpa using (h.space.append (Doc.prints_word text htext)).binding hname
  refine hstarts.sets_block.congr fun w => ?_
  rw [outcomeTag, Doc.write_append, Doc.write_append, Doc.write_append,
    Doc.write_text_append _ " " text rfl (by decide)]
  rfl

/-- **The opening tag of an awaiting block** has the text of its pieces. -/
theorem AwaitOpening.sets (h : a.Starts "\x7b%" (⟨.space, .word word⟩ :: ps) .none)
    (hname : ∀ e ∈ opening.name?, e.IsParam) :
    (a ++ opening.doc breaks).Sets (BlockText word (ps ++ opening.pieces breaks)) := by
  cases opening with
  | pending =>
    rw [AwaitOpening.pieces, append_nil]
    exact h.sets_block
  | resolved name => exact h.sets_outcome "then" (by decide) hname
  | rejected name => exact h.sets_outcome "catch" (by decide) hname

lemma AwaitOpening.spaced (hname : ∀ e ∈ opening.name?, e.IsParam) :
    Spaced (opening.pieces breaks) := by
  cases opening with
  | pending => exact .nil
  | resolved name | rejected name => exact (spaced_word (by decide)).append (spaced_binding hname)

lemma AwaitOpening.opens_of_covers (hname : ∀ e ∈ opening.name?, e.IsParam)
    (hcovers : st.Covers lb (opening.pieces breaks) st') (hend : st'.EndsBlock next) :
    st.current.lexeme.endsExpr = true ∧ ∃ opening', OpensAwait st next opening' ∧
      opening.Reprints breaks lb.atLeast opening' := by
  cases opening with
  | pending =>
    cases hcovers
    rw [hend.lexeme_eq]
    exact ⟨by decide, .pending, .pending hend, .pending⟩
  | resolved name =>
    obtain ⟨st₁, hword, -, hcovers⟩ := Stream.covers_cons.mp hcovers
    obtain ⟨name', hrel, hbinds⟩ := binds_of_covers hname hcovers hend
    rw [hword.lexeme_eq]
    exact ⟨by decide, .resolved name', .resolved hword hbinds hend, .resolved hrel⟩
  | rejected name =>
    obtain ⟨st₁, hword, -, hcovers⟩ := Stream.covers_cons.mp hcovers
    obtain ⟨name', hrel, hbinds⟩ := binds_of_covers hname hcovers hend
    rw [hword.lexeme_eq]
    exact ⟨by decide, .rejected name', .rejected hword hbinds hend, .rejected hrel⟩

/-! ## Loops -/

def indexPieces (breaks : Breaks) : Option Expr → List Piece
  | none => []
  | some e => e.pieces breaks .space ++ [⟨.none, .mark ","⟩]

def keyPieces (breaks : Breaks) : Option Expr → List Piece
  | none => []
  | some e => ⟨.space, .mark "#"⟩ :: ⟨.none, .mark "("⟩ ::
      (e.pieces breaks .none ++ [⟨.none, .mark ")"⟩])

def loopPieces (breaks : Breaks) (index : Option Expr) (item subject : Expr) (key : Option Expr) :
    List Piece :=
  indexPieces breaks index ++ (item.pieces breaks .space ++ (⟨.space, .word "in"⟩ ::
    (subject.pieces breaks .space ++ keyPieces breaks key)))

variable {index key : Option Expr} {item subject : Expr}

lemma spaced_index (hindex : ∀ e ∈ index, e.IsParam) : Spaced (indexPieces breaks index) := by
  cases index with
  | none => exact .nil
  | some e =>
    have hsound : e.Sound breaks := (hindex e rfl).sound
    have hrun := (e.run hsound.wellFormed hsound.plain .space).weaken.snoc .none
      (isWritten_mark "," (by decide)) (.inr fun l hl => hl.joins (by decide))
    exact hrun.spaced (by simp)

lemma spaced_key (hkey : ∀ e ∈ key, e.Sound breaks) : Spaced (keyPieces breaks key) := by
  cases key with
  | none => exact .nil
  | some e =>
    have hsound := hkey e rfl
    have hclose := (e.run hsound.wellFormed hsound.plain .none).weaken.snoc .none
      (isWritten_mark ")" (by decide)) (.inr fun l hl => hl.joins (by decide))
    have hopen := hclose.cons .none (isWritten_mark "(" (by decide))
      (.inr fun l hl => hl.joins (by decide))
    have hrun := hopen.cons .space (isWritten_mark "#" (by decide))
      (.inr fun l hl => by rw [hl]; decide +kernel)
    exact hrun.spaced (by simp)

namespace Doc.Starts

variable {a : Doc} {opening : String}

lemma loopIndex (h : a.Starts opening ps .space) (hindex : ∀ e ∈ index, e.IsParam) :
    (a ++ .ofOption (fun e => e.doc breaks ++ ", ") index).Starts opening
      (ps ++ indexPieces breaks index) .space := by
  cases index with
  | none =>
    rw [indexPieces, append_nil]
    exact h
  | some e =>
    have hsound : e.Sound breaks := (hindex e rfl).sound
    have hcomma := (h.append hsound.prints).append (prints_mark "," (by decide))
    rw [indexPieces, ← append_assoc]
    refine hcomma.space.congr fun w => ?_
    simp only [ofOption, write_append]
    rw [write_text_append ", " "," " " rfl (by decide)]

lemma loopWord (h : a.Starts opening ps .none) :
    (a ++ " in ").Starts opening (ps ++ [⟨.space, .word "in"⟩]) .space := by
  refine (h.space.append (prints_word "in" (by decide))).space.congr fun w => ?_
  rfl

lemma loopKey (h : a.Starts opening ps .none) (hkey : ∀ e ∈ key, e.Sound breaks) :
    (a ++ .ofOption (fun e => " #(" ++ e.doc breaks ++ ")") key).Starts opening
      (ps ++ keyPieces breaks key) .none := by
  cases key with
  | none =>
    rw [keyPieces, append_nil]
    exact h
  | some e =>
    have hhash := h.space.append (prints_mark "#" (by decide))
    have hopen := hhash.append (prints_mark "(" (by decide))
    have hclose := (hopen.append (hkey e rfl).prints).append (prints_mark ")" (by decide))
    have heq : ps ++ keyPieces breaks (some e) = ps ++ [⟨.space, .mark "#"⟩] ++
        [⟨.none, .mark "("⟩] ++ e.pieces breaks .none ++ [⟨.none, .mark ")"⟩] := by
      simp [keyPieces]
    rw [heq]
    refine hclose.congr fun w => ?_
    simp only [ofOption, write_append]
    rw [write_text_append " #(" " #" "(" rfl (by decide),
      write_text_append " #" " " "#" rfl (by decide)]

end Doc.Starts

lemma Doc.sets_loopTag (hindex : ∀ e ∈ index, e.IsParam) (hitem : item.IsParam)
    (hsubject : subject.Sound breaks) (hkey : ∀ e ∈ key, e.Sound breaks) :
    (loopTag breaks index item subject key).Sets
      (BlockText "for" (loopPieces breaks index item subject key)) := by
  have hfor : (Doc.text "\x7b% for ").Starts "\x7b%" [⟨.space, .word "for"⟩] .space :=
    Doc.starts_wordSpace "for" (by decide)
  have hsound : item.Sound breaks := hitem.sound
  have hnames : (_ ++ .ofOption (fun e => e.doc breaks ++ ", ") index : Doc).Starts "\x7b%" _ .space :=
    hfor.loopIndex hindex
  have hin := (hnames.append hsound.prints).loopWord
  have hall := (hin.append hsubject.prints).loopKey hkey
  rw [show ([⟨.space, .word "for"⟩] : List Piece) ++ indexPieces breaks index ++
    item.pieces breaks .space ++ [⟨.space, .word "in"⟩] ++ subject.pieces breaks .space ++
    keyPieces breaks key = ⟨.space, .word "for"⟩ :: loopPieces breaks index item subject key by
      simp [loopPieces]] at hall
  exact hall.sets_block

lemma loop_of_covers (hindex : ∀ e ∈ index, e.IsParam) (hitem : item.IsParam)
    (hsubject : subject.Sound breaks) (hkey : ∀ e ∈ key, e.Sound breaks)
    (hcovers : st.Covers lb (loopPieces breaks index item subject key) st')
    (hend : st'.EndsBlock next) :
    ∃ index' item' subject' key' st₁ st₂ st₃, LoopNames st index' item' st₁ ∧
      st₁.Passes (.word "in") st₂ ∧ Grammar.Derives (.expression subject') st₂ st₃ ∧
      LoopKey st₃ key' st' ∧
      Option.Rel (Expr.Reprints breaks lb.atLeast) index index' ∧
      item.Reprints breaks lb.atLeast item' ∧ subject.Reprints breaks lb.atLeast subject' ∧
      Option.Rel (Expr.Reprints breaks lb.atLeast) key key' := by
  obtain ⟨st₁, hcoversIndex, hcovers⟩ := Stream.covers_append.mp hcovers
  obtain ⟨st₂, hcoversItem, hcovers⟩ := Stream.covers_append.mp hcovers
  obtain ⟨st₃, hin, -, hcovers⟩ := Stream.covers_cons.mp hcovers
  obtain ⟨st₄, hcoversSubject, hcovers⟩ := Stream.covers_append.mp hcovers
  obtain ⟨item', hitem', hpasses⟩ := hitem.passes hcoversItem
  -- the names
  obtain ⟨index', hindex', hnames⟩ : ∃ index',
      Option.Rel (Expr.Reprints breaks lb.atLeast) index index' ∧
        LoopNames st index' item' st₂ := by
    cases index with
    | none =>
      cases hcoversIndex
      refine ⟨none, .none, .item hpasses ?_⟩
      rw [hin.lexeme_eq]
      simp
    | some e =>
      obtain ⟨_, hcoversIndex, hcomma⟩ := Stream.covers_append.mp hcoversIndex
      obtain ⟨_, hcomma, -, ⟨⟩⟩ := Stream.covers_cons.mp hcomma
      obtain ⟨e', he', hpasses'⟩ := (hindex e rfl).passes hcoversIndex
      exact ⟨some e', .some he', .both hpasses' hcomma hpasses⟩
  -- the key, which ends the subject
  obtain ⟨hends, key', hkey', hloopKey⟩ : st₄.current.lexeme.endsExpr = true ∧ ∃ key',
      Option.Rel (Expr.Reprints breaks lb.atLeast) key key' ∧ LoopKey st₄ key' st' := by
    cases key with
    | none =>
      cases hcovers
      rw [hend.lexeme_eq]
      exact ⟨by decide, none, .none, .none (by simp [hend.lexeme_eq])⟩
    | some e =>
      obtain ⟨_, hhash, -, hcovers⟩ := Stream.covers_cons.mp hcovers
      obtain ⟨_, hopen, -, hcovers⟩ := Stream.covers_cons.mp hcovers
      obtain ⟨_, hcovers, hclose⟩ := Stream.covers_append.mp hcovers
      obtain ⟨_, hclose, -, ⟨⟩⟩ := Stream.covers_cons.mp hclose
      obtain ⟨e', he', -, hderives⟩ :=
        (hkey e rfl).rereads hcovers (by rw [hclose.lexeme_eq]; decide)
      rw [hhash.lexeme_eq]
      exact ⟨by decide, some e', .some he', .some hhash hopen hderives hclose⟩
  obtain ⟨subject', hsubject', -, hderives⟩ := hsubject.rereads hcoversSubject hends
  exact ⟨index', item', subject', key', st₂, st₃, st₄, hnames, hin, hderives, hloopKey, hindex',
    hitem', hsubject', hkey'⟩

/-! ## Snippets -/

def snippetPieces (breaks : Breaks) (name : String) (params : List Expr) : List Piece :=
  ⟨.space, .word name⟩ :: ⟨.none, .mark "("⟩ ::
    (commas .none (Expr.entries breaks params) ++ [⟨.none, .mark ")"⟩])

lemma spaced_snippet (hword : isName word.toList = true) (hparams : ∀ e ∈ params, e.IsParam) :
    Spaced (snippetPieces breaks word params) := by
  have hplain : ∀ e ∈ params, e.Plain breaks := fun e he => (hparams e he).sound.plain
  have hentries := Expr.run_all params (Expr.allWellFormed_of_isParam hparams) hplain
  have hclose : Run (· = .mark ")") (· = .mark ")") .none [⟨.none, .mark ")"⟩] :=
    .single (isWritten_mark ")" (by decide))
  have hparens := Operand.parenthesised hentries .none hclose
  have hrun := hparens.cons .space (l := .word word) hword (.inr fun l hl => by rw [hl]; rfl)
  exact hrun.spaced (by simp)

lemma Doc.sets_snippetTag (hword : isName word.toList = true)
    (hparams : ∀ e ∈ params, e.IsParam) :
    (Doc.text ("\x7b% snippet " ++ word ++ "(") ++ .commas (Expr.docs breaks params) ++
      ") %\x7d").Sets (BlockText "snippet" (snippetPieces breaks word params)) := by
  have hplain : ∀ e ∈ params, e.Plain breaks := fun e he => (hparams e he).sound.plain
  have hdocs := Expr.prints_all params (Expr.allWellFormed_of_isParam hparams) hplain
  have hsnippet : (Doc.text "\x7b% snippet ").Starts "\x7b%" [⟨.space, .word "snippet"⟩] .space :=
    Doc.starts_wordSpace "snippet" (by decide)
  have hopen := (hsnippet.append (Doc.prints_word word hword)).append
    (Doc.prints_mark "(" (by decide))
  have hparams : (_ ++ Doc.commas (Expr.docs breaks params)).Starts "\x7b%" _ .none :=
    fun w hw => Doc.wrote_commas hdocs (hopen w hw)
  have hclose := hparams.append (Doc.prints_mark ")" (by decide))
  refine hclose.sets_block.congr fun w => ?_
  simp only [Doc.write_append]
  rw [Doc.write_text_append ") %\x7d" ")" " %\x7d" rfl (by decide),
    Doc.write_text_append _ ("\x7b% snippet " ++ word) "(" rfl (Doc.getLast?_word _ hword),
    Doc.write_text_append _ "\x7b% snippet " word rfl (by decide)]

lemma snippet_of_covers (hparams : ∀ e ∈ params, e.IsParam)
    (hcovers : st.Covers lb (snippetPieces breaks word params) st') :
    ∃ params' st₁ st₂ st₃, st.Passes (.word word) st₁ ∧ st₁.Passes (.mark "(") st₂ ∧
      Grammar.Derives (.params params') st₂ st₃ ∧ st₃.Passes (.mark ")") st' ∧
      Expr.ReprintsAll breaks lb.atLeast params params' := by
  obtain ⟨st₁, hword, -, hcovers⟩ := Stream.covers_cons.mp hcovers
  obtain ⟨st₂, hopen, -, hcovers⟩ := Stream.covers_cons.mp hcovers
  obtain ⟨st₃, hcovers, hclose⟩ := Stream.covers_append.mp hcovers
  obtain ⟨_, hclose, -, ⟨⟩⟩ := Stream.covers_cons.mp hclose
  obtain ⟨params', hreprints, hderives⟩ :=
    Expr.params_of_entries hparams (.of_commas hcovers) hclose.lexeme_eq
  exact ⟨params', st₁, st₂, st₃, hword, hopen, hderives, hclose, hreprints⟩

/-! ## Inline tags -/

def tagGap (broken : Bool) : Gap := if broken then .line else .space

lemma Doc.starts_inline : (Doc.text "\x7b\x7b").Starts "\x7b\x7b" [] .none :=
  Doc.starts_text "\x7b\x7b" (by decide) (by decide)

/-- **An expression between double braces** has the text of its pieces. -/
theorem sets_tagDoc (h : e.Sound breaks) (start : Nat) :
    (tagDoc breaks start e).Sets
      (InlineText (e.pieces breaks (tagGap (breaks 1 (start + 2) e.span.start)))) := by
  unfold tagDoc
  split
  · rename_i hbroken
    rw [hbroken]
    exact (Doc.starts_inline.line.append h.prints.nest).line.sets (by simp) (by decide) (by decide)
  · rename_i hbroken
    rw [Bool.eq_false_iff.mpr hbroken]
    refine (Doc.starts_inline.space.append h.prints).sets_inline.congr fun w => ?_
    simp only [Doc.write_append]
    rw [Doc.write_text_append "\x7b\x7b " "\x7b\x7b" " " rfl (by decide)]

lemma sets_signTag (h : e.Sound breaks) (word : String) (hword : isName word.toList = true) :
    (Doc.text ("\x7b\x7b @" ++ word ++ " ") ++ e.doc breaks ++ " \x7d\x7d").Sets
      (InlineText (⟨.space, .mark "@"⟩ :: ⟨.none, .word word⟩ :: e.pieces breaks .space)) := by
  have hsign := Doc.starts_inline.space.append (Doc.prints_mark "@" (by decide))
  have hword' := (hsign.append (Doc.prints_word word hword)).space.append h.prints
  refine hword'.sets_inline.congr fun w => ?_
  simp only [Doc.write_append]
  rw [Doc.write_text_append _ ("\x7b\x7b @" ++ word) " " rfl (Doc.getLast?_word _ hword),
    Doc.write_text_append _ "\x7b\x7b @" word rfl (by decide),
    Doc.write_text_append "\x7b\x7b @" "\x7b\x7b " "@" rfl (by decide),
    Doc.write_text_append "\x7b\x7b " "\x7b\x7b" " " rfl (by decide)]

lemma legible_sign (h : e.Sound breaks) (hword : isName word.toList = true) :
    Legible (⟨.space, .mark "@"⟩ :: ⟨.none, .word word⟩ :: e.pieces breaks .space) := by
  have hrun := (e.run h.wellFormed h.plain .space).cons .none (l := .word word) hword
    (.inl (by simp))
  exact (hrun.cons .space (isWritten_mark "@" (by decide)) (.inr fun l hl => by rw [hl]; rfl)).legible

end Tags

end ComponentTemplate
