import ComponentTemplate.Component.Printer
import ComponentTemplate.Proofs.ExprRoundTrip
import ComponentTemplate.Proofs.ScriptDerivation

/-!
# Printing and reading scripts

A statement that starts with a brace is a block. An expression may be printed with a brace in
front, too, since nothing puts parentheses around an object that starts a statement. The
statements of a script are read again from the text that they are printed as just if none of
their expressions is printed so.
-/

namespace ComponentTemplate

open Grammar Statement ScriptBlock List

mutual

/-- **The normal form of a statement**, which forgets what the normal forms of its expressions
do, and where it stands. -/
def Statement.normal : Statement → Statement
  | .expression _ expr => .expression default expr.normal
  | .block _ body => .block default (normals body)

def Statement.normals : List Statement → List Statement
  | [] => []
  | statement :: rest => statement.normal :: normals rest

end

/-- **An expression is printed with a brace in front.** -/
def Expr.StartsWithBrace (breaks : Breaks) (e : Expr) : Prop :=
  ((e.doc breaks).render "").toList.head? = some '\x7b'

instance (breaks : Breaks) (e : Expr) : Decidable (e.StartsWithBrace breaks) :=
  inferInstanceAs (Decidable (_ = _))

structure Expr.Sound (breaks : Breaks) (e : Expr) : Prop where
  wellFormed : e.WellFormed
  plain : e.Plain breaks

/-! ## Pieces of statements -/

mutual

/-- **The pieces of a statement.** -/
def Statement.pieces (breaks : Breaks) : Statement → Gap → List Piece
  | .expression _ expr, gap => expr.pieces breaks gap ++ [⟨.none, .mark ";"⟩]
  | .block _ body, gap =>
    ⟨gap, .mark "\x7b"⟩ :: (linePieces breaks body ++
      [⟨if body.isEmpty then .none else .line, .mark "\x7d"⟩])

def Statement.linePieces (breaks : Breaks) : List Statement → List Piece
  | [] => []
  | statement :: rest => statement.pieces breaks .line ++ linePieces breaks rest

end

variable {breaks : Breaks} {lb : LineBreaks}

mutual

theorem Statement.prints : ∀ (s : Statement), (∀ e ∈ s.exprs, e.Sound breaks) →
    (s.doc breaks).Prints (s.pieces breaks)
  | .expression _ expr, h => by
    obtain ⟨hwf, hp⟩ := h expr (mem_singleton_self _)
    intro before ps gap w hw
    have hsemicolon := Doc.prints_mark ";" (by decide) (expr.prints hwf hp hw)
    exact hsemicolon.congr (by simp [pieces])
  | .block _ body, h => by
    intro before ps gap w hw
    have hopen := Doc.prints_mark "\x7b" (by decide) hw
    cases body with
    | nil =>
      have hclose := Doc.prints_mark "\x7d" (by decide) hopen
      exact hclose.congr (by simp [pieces, linePieces])
    | cons statement rest =>
      have hbody := (wrote_lines (statement :: rest) h hopen.indent).nest
      have hclose := Doc.prints_mark "\x7d" (by decide) hbody.line
      exact hclose.congr (by simp [pieces])

theorem Statement.wrote_lines : ∀ (body : List Statement),
    (∀ e ∈ exprsOf body, e.Sound breaks) →
    ∀ {before : List Char} {ps : List Piece} {w : Writer}, w.Wrote before ps .none →
      ((linesDoc breaks body).write w).Wrote before
        (ps ++ linePieces breaks body) .none
  | [], _, before, ps, w, hw => by
    rw [linesDoc, linePieces, append_nil]
    exact hw
  | statement :: rest, h, before, ps, w, hw => by
    have hfirst := statement.prints (fun e he => h e (mem_append_left _ he)) hw.line
    have hrest := wrote_lines rest (fun e he => h e (mem_append_right _ he)) hfirst
    exact hrest.congr (by simp [linePieces])

end

variable {l : Lexeme} {gap : Gap} {body : List Statement} {e : Expr} {st st' : Stream}
  {source : String} {span : Span}

lemma Lexeme.Closes.joins_semicolon (h : l.Closes) : l.joins (.mark ";") = true := by
  cases l with
  | mark text =>
    have hall : ∀ text ∈ closingMarks ++ ["++", "--"],
        (Lexeme.mark text).joins (.mark ";") = true := by
      decide +kernel
    exact hall text (mem_append.mpr h)
  | finish => exact h.elim
  | _ => rfl

mutual

theorem Statement.run : ∀ (s : Statement), (∀ e ∈ s.exprs, e.Sound breaks) → ∀ gap,
    Run (Lexeme.Opens false) (· ∈ [.mark ";", .mark "\x7d"]) gap (s.pieces breaks gap)
  | .expression _ expr, h, gap => by
    obtain ⟨hwf, hp⟩ := h expr (mem_singleton_self _)
    have hrun := (expr.run hwf hp gap).weaken.snoc .none (isWritten_mark ";" (by decide))
      (.inr fun l hl => hl.joins_semicolon)
    exact hrun.mono (fun _ hl => hl) fun l hl => by simp [hl]
  | .block _ body, h, gap => by
    have hclose (gap' : Gap) : Run (· = .mark "\x7d") (· = .mark "\x7d") gap'
        [⟨gap', .mark "\x7d"⟩] :=
      .single (isWritten_mark "\x7d" (by decide))
    have hopens : (Lexeme.mark "\x7b").Opens false := .inl (by decide)
    cases body with
    | nil =>
      have hrun := (hclose .none).cons gap (isWritten_mark "\x7b" (by decide))
        (.inr fun l hl => by rw [hl]; decide +kernel)
      exact hrun.mono (fun l hl => hl ▸ hopens) fun l hl => by simp [hl]
    | cons statement rest =>
      have hlines := run_lines (statement :: rest) h (cons_ne_nil _ _)
      have hrun := (hlines.append (hclose .line) (.inl (by simp))).cons gap
        (isWritten_mark "\x7b" (by decide)) (.inl (by simp))
      exact hrun.mono (fun l hl => hl ▸ hopens) fun l hl => by simp [hl]

theorem Statement.run_lines : ∀ (body : List Statement),
    (∀ e ∈ exprsOf body, e.Sound breaks) → body ≠ [] →
    Run (Lexeme.Opens false) (· ∈ [.mark ";", .mark "\x7d"]) .line
      (linePieces breaks body)
  | [], _, hne => absurd rfl hne
  | [statement], h, _ => by
    have hrun := statement.run (fun e he => h e (mem_append_left _ he)) .line
    simpa [linePieces] using hrun
  | statement :: next :: rest, h, _ => by
    have hfirst := statement.run (fun e he => h e (mem_append_left _ he)) .line
    have hrest := run_lines (next :: rest)
      (fun e he => h e (mem_append_right _ he)) (cons_ne_nil _ _)
    exact hfirst.append hrest (.inl (by simp))

end

/-! ## Braces -/

lemma Lexeme.IsWritten.eq_brace (h : l.IsWritten) (hhead : l.chars.head? = some '\x7b') :
    l = .mark "\x7b" := by
  cases l with
  | finish => exact h.elim
  | word text =>
    have hname : isName text.toList = true := h
    rw [Lexeme.chars_word] at hhead
    obtain ⟨cs, hcs⟩ := head?_eq_some_iff.mp hhead
    simp [hcs, isName, isWordStart] at hname
  | number text =>
    have hdigit := h.2 '\x7b' (mem_of_mem_head? hhead)
    exact absurd hdigit (by decide)
  | quoted text =>
    have hquoted : IsQuoted text.toList := h
    rw [Lexeme.chars_quoted] at hhead
    obtain ⟨cs, hcs⟩ := head?_eq_some_iff.mp hhead
    simp [hcs, IsQuoted] at hquoted
  | mark text =>
    have hall : ∀ text ∈ marks, text.toList.head? = some '\x7b' → text = "\x7b" := by decide +kernel
    rw [hall text h hhead]

lemma Expr.head?_render (h : e.Sound breaks) (hpieces : e.pieces breaks gap = ⟨gap, l⟩ :: ps) :
    l.IsWritten ∧ ((e.doc breaks).render "").toList.head? = l.chars.head? := by
  obtain ⟨l', ps', hpieces'⟩ := e.exists_pieces_eq breaks
  obtain rfl : l = l' := by
    have heq := hpieces.symm.trans (hpieces' gap)
    simp only [cons.injEq, Piece.mk.injEq, true_and] at heq
    exact heq.1
  have hwritten : l.IsWritten :=
    (e.run h.wellFormed h.plain gap).legible.isWritten ⟨gap, l⟩ (by simp [hpieces])
  have hstart : (Writer.start "").Wrote [] [] .none :=
    ⟨by simp [Writer.start], by simp [Writer.atLineStart, Writer.start], [], [], rfl, .nil, rfl⟩
  obtain ⟨cs, blanks, htext, hspells, rfl⟩ := (e.prints h.wellFormed h.plain hstart).text
  rw [nil_append, hpieces'] at hspells
  obtain ⟨c, chars, hchars, -⟩ := hwritten.exists_cons
  refine ⟨hwritten, ?_⟩
  obtain ⟨⟩ | ⟨rfl, hrest⟩ := hspells
  rw [Doc.render, Writer.output, String.toList_ofList, htext]
  simp [hchars]

lemma Expr.startsWithBrace_iff (h : e.Sound breaks)
    (hcovers : st.Covers lb (e.pieces breaks gap) st') :
    e.StartsWithBrace breaks ↔ st.current.lexeme = .mark "\x7b" := by
  obtain ⟨l, ps, hpieces⟩ := e.exists_pieces_eq breaks
  obtain ⟨hwritten, hhead⟩ := e.head?_render h (hpieces gap)
  rw [hpieces] at hcovers
  obtain ⟨_, hpass, -, -⟩ := Stream.covers_cons.mp hcovers
  have hlexeme : st.current.lexeme = l := hpass.lexeme_eq
  rw [Expr.StartsWithBrace, hhead, hlexeme]
  constructor
  · exact hwritten.eq_brace
  · rintro rfl
    rfl

/-! ## Reading statements back -/

mutual

/-- **The pieces of a statement are read back**, if no expression in it starts with a brace. -/
theorem Statement.derives_of_covers : ∀ (s : Statement), (∀ e ∈ s.exprs, e.Sound breaks) →
    (∀ e ∈ s.exprs, ¬ e.StartsWithBrace breaks) → ∀ {gap : Gap} {st st' : Stream},
    st.Covers lb (s.pieces breaks gap) st' →
    ∃ s', s'.normal = s.normal ∧ ScriptDerives (.statement s') st st'
  | .expression _ expr, h, hbrace, gap, st, st', hcovers => by
    have hsound := h expr (mem_singleton_self _)
    obtain ⟨st₁, hexpr, hcovers⟩ := Stream.covers_append.mp hcovers
    obtain ⟨st₂, hsemicolon, -, ⟨⟩⟩ := Stream.covers_cons.mp hcovers
    have hopen : st.current.lexeme ≠ .mark "\x7b" := fun hopen =>
      hbrace expr (mem_singleton_self _) ((expr.startsWithBrace_iff hsound hexpr).mpr hopen)
    have hends : st₁.Ends := .of_endsExpr (by rw [hsemicolon.lexeme_eq]; decide)
    obtain ⟨e', hreprints, -, hderives⟩ :=
      (expr.readable hsound.wellFormed hsound.plain).expression hexpr hends
    exact ⟨_, by simp [normal, hreprints.normal], .ended hopen hderives hsemicolon⟩
  | .block _ body, h, hbrace, gap, st, st', hcovers => by
    obtain ⟨st₁, hopen, -, hcovers⟩ := Stream.covers_cons.mp hcovers
    obtain ⟨st₂, hbody, hcovers⟩ := Stream.covers_append.mp hcovers
    obtain ⟨st₃, hclose, -, ⟨⟩⟩ := Stream.covers_cons.mp hcovers
    have hend : st₂.current.lexeme = statementsEnd true := hclose.lexeme_eq
    obtain ⟨body', hnormals, hderives⟩ := derives_of_covers_lines body h hbrace hbody hend
    exact ⟨_, by simp [normal, hnormals], .block hopen hderives hclose⟩

theorem Statement.derives_of_covers_lines : ∀ (body : List Statement),
    (∀ e ∈ exprsOf body, e.Sound breaks) →
    (∀ e ∈ exprsOf body, ¬ e.StartsWithBrace breaks) →
    ∀ {nested : Bool} {st st' : Stream}, st.Covers lb (linePieces breaks body) st' →
    st'.current.lexeme = statementsEnd nested →
    ∃ body', normals body' = normals body ∧
      ScriptDerives (.statements nested body') st st'
  | [], _, _, nested, st, st', hcovers, hend => by
    cases hcovers
    exact ⟨[], rfl, .done hend⟩
  | statement :: rest, h, hbrace, nested, st, st', hcovers, hend => by
    obtain ⟨st₁, hfirst, hrest⟩ := Stream.covers_append.mp hcovers
    obtain ⟨s', hnormal, hderives⟩ := statement.derives_of_covers
      (fun e he => h e (mem_append_left _ he))
      (fun e he => hbrace e (mem_append_left _ he)) hfirst
    obtain ⟨rest', hnormals, hderives'⟩ := derives_of_covers_lines rest
      (fun e he => h e (mem_append_right _ he))
      (fun e he => hbrace e (mem_append_right _ he)) hrest hend
    exact ⟨s' :: rest', by simp [normals, hnormal, hnormals], .cons hderives hderives'⟩

end

lemma Statement.opens_of_covers {s : Statement} (h : ∀ e ∈ s.exprs, e.Sound breaks)
    (hcovers : st.Covers lb (s.pieces breaks gap) st') : st.current.lexeme.Opens false := by
  obtain ⟨p, hp, -, hopens⟩ := (s.run h gap).head
  obtain ⟨ps, hps⟩ := head?_eq_some_iff.mp hp
  rw [hps] at hcovers
  obtain ⟨_, hpass, -, -⟩ := Stream.covers_cons.mp hcovers
  rw [hpass.lexeme_eq]
  exact hopens

mutual

/-- **A statement that is read back holds no expression that starts with a brace**: it would
have been read as a block. -/
theorem Statement.not_startsWithBrace : ∀ (s : Statement), (∀ e ∈ s.exprs, e.Sound breaks) →
    ∀ {gap : Gap} {st st' st'' : Stream} {s' : Statement},
    st.Covers lb (s.pieces breaks gap) st' → ScriptDerives (.statement s') st st'' →
    s'.normal = s.normal → ∀ e ∈ s.exprs, ¬ e.StartsWithBrace breaks
  | .expression _ expr, h, gap, st, st', st'', s', hcovers, hderives, hnormal, e, he => by
    obtain rfl := mem_singleton.mp he
    rw [pieces] at hcovers
    obtain ⟨st₁, hexpr, -⟩ := Stream.covers_append.mp hcovers
    rw [e.startsWithBrace_iff (h e he) hexpr]
    cases hderives with
    | block _ _ _ => simp [normal] at hnormal
    | ended hopen _ _ => exact hopen
    | last hopen _ _ => exact hopen
  | .block _ body, h, gap, st, st', st'', s', hcovers, hderives, hnormal, e, he => by
    rw [pieces] at hcovers
    obtain ⟨st₁, hopen, -, hcovers⟩ := Stream.covers_cons.mp hcovers
    obtain ⟨st₂, hbody, hcovers⟩ := Stream.covers_append.mp hcovers
    obtain ⟨st₃, hclose, -, -⟩ := Stream.covers_cons.mp hcovers
    cases hderives with
    | block hopen' hbody' _ =>
      rw [← hopen.next.unique hopen'.next] at hbody'
      simp only [normal, block.injEq, true_and] at hnormal
      have hend : st₂.current.lexeme = statementsEnd true := hclose.lexeme_eq
      exact not_startsWithBrace_lines body h hbody hend hbody' hnormal e he
    | ended _ _ _ | last _ _ _ => simp [normal] at hnormal

theorem Statement.not_startsWithBrace_lines : ∀ (body : List Statement),
    (∀ e ∈ exprsOf body, e.Sound breaks) →
    ∀ {nested : Bool} {st st' st'' : Stream} {body' : List Statement},
    st.Covers lb (linePieces breaks body) st' →
    st'.current.lexeme = statementsEnd nested →
    ScriptDerives (.statements nested body') st st'' →
    normals body' = normals body →
    ∀ e ∈ exprsOf body, ¬ e.StartsWithBrace breaks
  | [], _, nested, st, st', st'', body', _, _, _, _, e, he => nomatch he
  | statement :: rest, h, nested, st, st', st'', body', hcovers, hend, hderives, hnormals, e, he => by
    have hsound := fun e he => h e (mem_append_left (exprsOf rest) he)
    obtain ⟨st₁, hfirst, hrest⟩ := Stream.covers_append.mp hcovers
    cases hderives with
    | done _ => simp [normals] at hnormals
    | skip hsemicolon _ =>
      exact absurd hsemicolon.lexeme_eq
        ((opens_of_covers hsound hfirst).ne_mark (by decide))
    | cons hfirst' hrest' =>
      simp only [normals, cons.injEq] at hnormals
      have hbrace := statement.not_startsWithBrace hsound hfirst hfirst' hnormals.1
      -- what is read back ends where it was printed to, so that the rest is read from there
      obtain ⟨s', -, hderives⟩ := statement.derives_of_covers hsound hbrace hfirst
      obtain ⟨-, rfl⟩ := (reads_of_scriptDerives hderives).1.unique
        (reads_of_scriptDerives hfirst').1
      rcases mem_append.mp he with he | he
      · exact hbrace e he
      · exact not_startsWithBrace_lines rest
          (fun e he => h e (mem_append_right _ he)) hrest hend hrest' hnormals.2 e he

end

/-! ## Scripts in their text -/

lemma Statement.parse_eq_ok_iff :
    parse source span = .ok body ↔ ∃ st st' : Stream,
      st.At (.within source.toList span) ∧ ScriptDerives (.statements false body) st st' := by
  rw [← ofCursor_eq_ok_iff]
  unfold parse
  cases ofCursor (.within source.toList span) <;> simp [Except.mapError]

lemma Statement.wellFormed_of_parse (h : parse source span = .ok body) :
    ∀ e ∈ exprsOf body, e.WellFormed :=
  wellFormed_of_ofCursor
    (ofCursor_eq_ok_iff.mpr (parse_eq_ok_iff.mp h))

lemma Stream.at_finish_of_blank (h : ∀ c ∈ blanks, Text.isBlank c = true) (offset : Nat) :
    (⟨⟨.finish, ⟨offset + byteLength blanks, offset + byteLength blanks⟩⟩,
      ⟨offset + byteLength blanks, []⟩, offset⟩ : Stream).At ⟨offset, blanks⟩ := by
  have hskip : Cursor.skipBlanks ⟨offset, blanks ++ []⟩ = ⟨offset + byteLength blanks, []⟩ :=
    skipBlanks_append h (by simp) offset
  rw [append_nil] at hskip
  refine ⟨?_, rfl⟩
  rw [Token.read, hskip]
  rfl

/-- The opening tag of a script, as it is printed. -/
def scriptOpening : String := "<script lang=\"zs\">"

/-- The closing tag of a script, as it is printed. -/
def scriptClosing : String := "</script>"

/-- **A script is printed as its statements between its tags**, with blanks after them. -/
theorem ScriptBlock.exists_written (h : ∀ e ∈ exprsOf body, e.Sound breaks)
    (hunit : ∀ c ∈ unit, Text.isBlank c = true) (level : Nat) (span : Span) :
    ∃ cs blanks, Spells (linePieces breaks body) cs ∧
      (∀ c ∈ blanks, Text.isBlank c = true) ∧
      ((doc breaks ⟨span, body⟩).write ⟨unit, level, []⟩).written.reverse =
        scriptOpening.toList ++ ((cs ++ blanks) ++ scriptClosing.toList) := by
  let w : Writer := (⟨unit, level, []⟩ : Writer).add scriptOpening.toList
  have hw : w.Wrote scriptOpening.toList [] .none :=
    ⟨hunit, by simp [w, scriptOpening, Writer.add, Writer.atLineStart], [], [],
      by simp [w, scriptOpening, Writer.add, Writer.atLineStart], .nil, rfl⟩
  rw [doc]
  cases body with
  | nil =>
    refine ⟨[], [], .nil, by simp, ?_⟩
    rfl
  | cons statement rest =>
    have hbody := (wrote_lines (statement :: rest) h hw.indent).nest
    obtain ⟨cs, blanks, hwritten, hspells, hfits⟩ := hbody.line.text
    obtain ⟨indentation, hindentation, hadd⟩ :=
      Writer.exists_written_add hbody.line.unit scriptClosing.toList
    refine ⟨cs, blanks ++ indentation, hspells, fun c hc => ?_, ?_⟩
    · rcases mem_append.mp hc with hc | hc
      · exact hfits.isBlank c hc
      · exact hindentation c hc
    · rw [hwritten] at hadd
      simp only [append_assoc] at hadd ⊢
      exact hadd

/-- **The code of a script is read back** as statements that differ in nothing but what normal
forms forget. -/
def ScriptBlock.ReadsBack (code : String) (body : List Statement) : Prop :=
  ∃ body', parse (scriptOpening ++ (code ++ scriptClosing))
      ⟨byteLength scriptOpening.toList,
        byteLength scriptOpening.toList + byteLength code.toList⟩ = .ok body' ∧
    normals body' = normals body

lemma ScriptBlock.exists_readsBack_iff (hsound : ∀ e ∈ exprsOf body, e.Sound breaks)
    (unit : String) (hunit : ∀ c ∈ unit.toList, Text.isBlank c = true) (level : Nat) (span : Span) :
    ∃ code : String, (doc breaks ⟨span, body⟩).renderAt unit level =
        scriptOpening ++ (code ++ scriptClosing) ∧
      (ReadsBack code body ↔
        ∀ e ∈ exprsOf body, ¬ e.StartsWithBrace breaks) := by
  obtain ⟨cs, blanks, hspells, hblanks, hwritten⟩ :=
    exists_written hsound hunit level span
  refine ⟨String.ofList (cs ++ blanks), ?_, ?_⟩
  · apply String.toList_injective
    simp [Doc.renderAt, Writer.output, hwritten]
  -- the code between the tags is read from its first token up to its end
  have hlegible : Legible (linePieces breaks body) := by
    cases body with
    | nil => exact ⟨by simp [linePieces], by simp [linePieces]⟩
    | cons statement rest =>
      exact (run_lines (statement :: rest) hsound (cons_ne_nil _ _)).legible
  obtain ⟨st', hend, hat'⟩ : ∃ st' : Stream, st'.current.lexeme = statementsEnd false ∧
      st'.At ⟨byteLength scriptOpening.toList + byteLength cs, blanks⟩ :=
    ⟨_, rfl, Stream.at_finish_of_blank hblanks _⟩
  obtain ⟨st, hat, hcovers⟩ := exists_covers hspells hlegible
    (fun p _ => p.lexeme.endsBefore_of_blank fun c hc => hblanks c (mem_of_mem_head? hc))
    scriptOpening.toList hat'
  have hregion : Cursor.within (scriptOpening ++ (String.ofList (cs ++ blanks) ++
      scriptClosing)).toList ⟨byteLength scriptOpening.toList, byteLength scriptOpening.toList +
        byteLength (String.ofList (cs ++ blanks)).toList⟩ =
      ⟨byteLength scriptOpening.toList, cs ++ blanks⟩ := by
    simp only [String.toList_append, String.toList_ofList]
    exact Cursor.within_append _ _ _
  simp only [ReadsBack, parse_eq_ok_iff, hregion]
  constructor
  · rintro ⟨body', ⟨st₁, st₂, hat₁, hderives⟩, hnormals⟩
    obtain rfl : st₁ = st := hat₁.unique hat
    exact not_startsWithBrace_lines body hsound hcovers hend hderives hnormals
  · intro hbrace
    obtain ⟨body', hnormals, hderives⟩ :=
      derives_of_covers_lines body hsound hbrace hcovers hend
    exact ⟨body', ⟨st, st', hat, hderives⟩, hnormals⟩

/-- **Printing and reading a script gives its statements again**, up to places, the way numbers
are written and the quotes of keys, just if no expression in it is printed with a brace in
front: for every text that was read, every unit and level of indentation and every layout. -/
theorem Statement.readsBack_iff_of_parse {source : String} {span : Span} {body : List Statement}
    (hparse : parse source span = .ok body) {breaks : Breaks}
    (hplain : ∀ e ∈ exprsOf body, e.Plain breaks) (unit : String)
    (hunit : ∀ c ∈ unit.toList, Text.isBlank c = true) (level : Nat) (blockSpan : Span) :
    ∃ code : String, (ScriptBlock.doc breaks ⟨blockSpan, body⟩).renderAt unit level =
        scriptOpening ++ (code ++ scriptClosing) ∧
      (ReadsBack code body ↔
        ∀ e ∈ exprsOf body, ¬ e.StartsWithBrace breaks) := by
  have hwf := wellFormed_of_parse hparse
  exact exists_readsBack_iff (fun e he => ⟨hwf e he, hplain e he⟩) unit hunit level
    blockSpan

/-- The round trip of a block. -/
theorem Statement.readsBack_iff_of_parse_block :
    ∃ body code, parse "\x7bx;\x7d" ⟨0, 4⟩ = .ok body ∧
      (∀ e ∈ exprsOf body, e.Plain fun _ _ _ => false) ∧
      (ScriptBlock.doc (fun _ _ _ => false) ⟨⟨0, 4⟩, body⟩).renderAt "\t" 1 =
        scriptOpening ++ (code ++ scriptClosing) ∧ ScriptBlock.ReadsBack code body := by
  let body : List Statement := [.block ⟨0, 4⟩ [.expression ⟨1, 3⟩ (.identifier ⟨1, 2⟩ "x")]]
  have hparse : parse "\x7bx;\x7d" ⟨0, 4⟩ = .ok body := by with_unfolding_all rfl
  have hplain : ∀ e ∈ exprsOf body, e.Plain fun _ _ _ => false := by
    simp [body, exprsOf, exprs, Expr.Plain, Expr.outline, Expr.inSlot,
      Expr.parts, Expr.KeepsShape]
  have hbrace : ∀ e ∈ exprsOf body, ¬ e.StartsWithBrace fun _ _ _ => false := by
    intro e he
    obtain rfl : e = .identifier ⟨1, 2⟩ "x" := by
      simpa [body, exprsOf, exprs] using he
    have hhead : (((Expr.identifier ⟨1, 2⟩ "x").doc fun _ _ _ => false).render "").toList.head? =
        some 'x' := by
      cbv
    simp [Expr.StartsWithBrace, hhead]
  obtain ⟨code, hcode, hiff⟩ := readsBack_iff_of_parse hparse hplain "\t"
    (by simp [Text.isBlank]) 1 ⟨0, 4⟩
  exact ⟨_, code, hparse, hplain, hcode, hiff.mpr hbrace⟩

/-- **An object in parentheses is not read back.** It is a statement, and printed without its
parentheses it is a block. -/
theorem ScriptBlock.not_readsBack_object :
    ∃ body code, parse "(\x7b\x7d);" ⟨0, 5⟩ = .ok body ∧
      (∀ e ∈ exprsOf body, e.Plain fun _ _ _ => false) ∧
      (doc (fun _ _ _ => false) ⟨⟨0, 5⟩, body⟩).renderAt "\t" 0 =
        scriptOpening ++ (code ++ scriptClosing) ∧ ¬ ReadsBack code body := by
  let body : List Statement := [.expression ⟨0, 5⟩ (.object ⟨1, 3⟩ [])]
  have hparse : parse "(\x7b\x7d);" ⟨0, 5⟩ = .ok body := by with_unfolding_all rfl
  have hplain : ∀ e ∈ exprsOf body, e.Plain fun _ _ _ => false := by
    simp [body, exprsOf, exprs, Expr.Plain, Expr.outline, Expr.inSlot,
      Expr.parts, Property.partsList, Expr.KeepsShape]
  have hstarts : (Expr.object ⟨1, 3⟩ []).StartsWithBrace fun _ _ _ => false := by cbv
  have hwf := wellFormed_of_parse hparse
  obtain ⟨code, hcode, hiff⟩ := exists_readsBack_iff
    (fun e he => ⟨hwf e he, hplain e he⟩) "\t" (by simp [Text.isBlank]) 0 ⟨0, 5⟩
  refine ⟨_, code, hparse, hplain, hcode, fun hreads => ?_⟩
  exact hiff.mp hreads _ (by simp [body, exprsOf, exprs]) hstarts

end ComponentTemplate
