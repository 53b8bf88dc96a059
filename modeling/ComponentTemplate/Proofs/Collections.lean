import ComponentTemplate.Proofs.Rereading

/-!
# Reading printed lists

Arguments, parameters, arrays and objects are read back, one entry after the other, and with
them all expressions.
-/

namespace ComponentTemplate

open Grammar Piece List
open Property (entries)

variable {lb : LineBreaks} {breaks : Breaks} {st st₁ st₂ st₃ st' : Stream} {gap : Gap}

/-! ## Entries -/

namespace Stream

/-- **Entries are read one after the other**, with a comma after each but perhaps the last. -/
inductive CoversEntries (lb : LineBreaks) : Stream → List (Gap → List Piece) → Stream → Prop
  | nil {st : Stream} : CoversEntries lb st [] st
  | last {st st' : Stream} {gap : Gap} {entry : Gap → List Piece}
      (hentry : st.Covers lb (entry gap) st') : CoversEntries lb st [entry] st'
  | cons {st st₁ st₂ st' : Stream} {gap : Gap} {entry : Gap → List Piece}
      {entries : List (Gap → List Piece)} (hentry : st.Covers lb (entry gap) st₁)
      (hcomma : st₁.Passes (.mark ",") st₂) (hentries : CoversEntries lb st₂ entries st') :
      CoversEntries lb st (entry :: entries) st'

variable {entries : List (Gap → List Piece)}

lemma CoversEntries.of_commas (h : st.Covers lb (commas gap entries) st') :
    st.CoversEntries lb entries st' := by
  induction entries generalizing gap st with
  | nil =>
    cases h
    exact .nil
  | cons entry entries ih =>
    cases entries with
    | nil => exact .last h
    | cons =>
      obtain ⟨st₁, hentry, hcovers⟩ := covers_append.mp h
      obtain ⟨st₂, hcomma, -, hcovers⟩ := covers_cons.mp hcovers
      exact .cons hentry hcomma (ih hcovers)

lemma CoversEntries.of_lines (h : st.Covers lb (lines entries) st') :
    st.CoversEntries lb entries st' := by
  induction entries generalizing st with
  | nil =>
    cases h
    exact .nil
  | cons entry entries ih =>
    obtain ⟨st₁, hentry, hcovers⟩ := covers_append.mp h
    obtain ⟨st₂, hcomma, -, hcovers⟩ := covers_cons.mp hcovers
    exact .cons hentry hcomma (ih hcovers)

lemma CoversEntries.of_layout {pad : Gap} {broken : Bool}
    (h : st.Covers lb (if broken then lines entries else commas pad entries) st') :
    st.CoversEntries lb entries st' := by
  cases broken with
  | true => exact .of_lines h
  | false => exact .of_commas h

end Stream

namespace Expr

/-! ## Lists -/

structure ReprintsAll (breaks breaks' : Breaks) (es es' : List Expr) : Prop where
  normals : Expr.normals es' = Expr.normals es
  docs : Expr.docs breaks' es' = Expr.docs breaks es

variable {breaks' : Breaks} {es es' arguments params : List Expr} {span : Span}
  {opening close : String} {pad : Gap} {broken : Bool} {entries : List (Gap → List Piece)}
  {key : Expr}

lemma ReprintsAll.nil : ReprintsAll breaks breaks' [] [] := ⟨rfl, rfl⟩

lemma ReprintsAll.cons {e e' : Expr} (he : e.Reprints breaks breaks' e')
    (hes : ReprintsAll breaks breaks' es es') :
    ReprintsAll breaks breaks' (e :: es) (e' :: es') where
  normals := by rw [Expr.normals, Expr.normals, he.normal, hes.normals]
  docs := by rw [Expr.docs, Expr.docs, he.doc, hes.docs]

lemma ReprintsAll.isEmpty_eq (h : ReprintsAll breaks breaks' es es') :
    es'.isEmpty = es.isEmpty := by
  have hdocs := h.docs
  cases es with
  | nil =>
    cases es' with
    | nil => rfl
    | cons => simp [Expr.docs] at hdocs
  | cons =>
    cases es' with
    | nil => simp [Expr.docs] at hdocs
    | cons => rfl

def FirstAt (lb : LineBreaks) (place : Nat) (es : List Expr) : Prop :=
  ∀ e ∈ es.head?, lb.SameLine place e.span.start

lemma endsExpr_of_closing (h : close ∈ closingMarks) : (Lexeme.mark close).endsExpr = true := by
  have hall : ∀ close ∈ closingMarks, (Lexeme.mark close).endsExpr = true := by decide
  exact hall close h

lemma isEmpty_entries (breaks : Breaks) (es : List Expr) :
    (Expr.entries breaks es).isEmpty = es.isEmpty := by
  cases es <;> simp [Expr.entries]

lemma elements_of_entries (hes : ∀ e ∈ es, e.Readable lb breaks) (hclose : close ∈ closingMarks)
    (hentries : st.CoversEntries lb (Expr.entries breaks es) st₁)
    (hpass : st₁.Passes (.mark close) st₂) :
    ∃ es', ReprintsAll breaks lb.atLeast es es' ∧ FirstAt lb st.current.span.start es' ∧
      Derives (.elements close es') st st₂ := by
  induction es generalizing st with
  | nil =>
    cases hentries
    exact ⟨[], .nil, by simp [FirstAt], .elementsNil hpass⟩
  | cons e es ih =>
    have he := hes e (mem_cons_self ..)
    rw [Expr.entries] at hentries
    have hempty := isEmpty_entries breaks es
    generalize Expr.entries breaks es = entries at hentries ih hempty
    cases hentries with
    | last hentry =>
      obtain rfl := isEmpty_iff.mp hempty.symm
      obtain ⟨e', hreprints, hplaced, hderives⟩ := he.expression hentry
        (.of_endsExpr (by rw [hpass.lexeme_eq]; exact endsExpr_of_closing hclose))
      refine ⟨[e'], .cons hreprints .nil, by simpa [FirstAt] using hplaced.start, ?_⟩
      refine .elementsLast (ne_close_of_derives hderives hclose) hderives ?_ hpass
      rw [hpass.lexeme_eq]
      have hall : ∀ close ∈ closingMarks, Lexeme.mark close ≠ .mark "," := by decide
      exact hall close hclose
    | cons hentry hcomma hlater =>
      have hlexeme := hcomma.lexeme_eq
      obtain ⟨e', hreprints, hplaced, hderives⟩ := he.expression hentry
        (.of_endsExpr (by rw [hlexeme]; decide))
      obtain ⟨es', hreprints', -, hderives'⟩ :=
        ih (fun e he => hes e (mem_cons_of_mem _ he)) hlater
      exact ⟨e' :: es', .cons hreprints hreprints', by simpa [FirstAt] using hplaced.start,
        .elementsCons (ne_close_of_derives hderives hclose) hderives hcomma hderives'⟩

lemma elements_of_arguments (hes : ∀ e ∈ es, e.Readable lb breaks)
    (hcovers : st.Covers lb (Piece.arguments (Expr.entries breaks es)) st') :
    ∃ st₁ es', st.Passes (.mark "(") st₁ ∧ ReprintsAll breaks lb.atLeast es es' ∧
      Derives (.elements ")" es') st₁ st' := by
  obtain ⟨st₁, hopen, -, hcovers⟩ := Stream.covers_cons.mp hcovers
  obtain ⟨st₂, hcovers, hlast⟩ := Stream.covers_append.mp hcovers
  obtain ⟨st₃, hclose, -, ⟨⟩⟩ := Stream.covers_cons.mp hlast
  obtain ⟨es', hreprints, -, hderives⟩ := elements_of_entries hes (by decide) (.of_commas hcovers) hclose
  exact ⟨st₁, es', hopen, hreprints, hderives⟩

lemma readable_call {callee : Expr} {optional : Bool} (hcallee : callee.Readable lb breaks)
    (harguments : ∀ e ∈ arguments, e.Readable lb breaks)
    (hbare : optional = false → callee.isBareFilter = false) :
    (call span callee arguments optional).Readable lb breaks := by
  refine hcallee.suffix (fun gap => by rw [pieces]) (by simp [Piece.arguments]) rfl
    fun st₁ st' start callee' hreprints hcovers => ?_
  obtain ⟨st₂, hoptional, hcovers⟩ := Stream.covers_append.mp hcovers
  obtain ⟨st₃, arguments', hopen, hreprints', hderives⟩ := elements_of_arguments harguments hcovers
  have hbefore := optional_of_covers hoptional
  refine ⟨fun h => ?_, .call ⟨start, st'.lastStop⟩ callee' arguments' optional, rfl, ⟨?_, ?_⟩,
    fun r st'' _ hrest => ?_⟩
  · cases optional with
    | true =>
      rw [(hbefore.1 rfl).lexeme_eq]
      decide
    | false => exact absurd h (by simp [hbare rfl])
  · simp [hreprints.normal, hreprints'.normals]
  · simp only [doc, hreprints.parens, hreprints'.docs]
  · cases optional with
    | true => exact .optional (hbefore.1 rfl) (.optionalCall hopen hderives) hrest
    | false => exact .call (hbefore.2 rfl ▸ hopen) hderives hrest

lemma readable_filter (hsubject : subject.Readable lb breaks)
    (harguments : ∀ e ∈ arguments, e.Readable lb breaks) :
    (filter span subject name arguments).Readable lb breaks := by
  refine hsubject.suffix (fun gap => by rw [pieces]) (cons_ne_nil _ _) rfl
    fun st₁ st' start subject' hreprints hcovers => ?_
  obtain ⟨st₂, hmark, -, hcovers⟩ := Stream.covers_cons.mp hcovers
  obtain ⟨st₃, hname, -, hcovers⟩ := Stream.covers_cons.mp hcovers
  have hlexeme : st₁.current.lexeme = .mark "|" := hmark.lexeme_eq
  refine ⟨fun _ => by rw [hlexeme]; decide, ?_⟩
  cases arguments with
  | nil =>
    cases hcovers
    refine ⟨.filter ⟨start, st'.lastStop⟩ subject' name [], rfl, ⟨?_, ?_⟩,
      fun r st'' hbare hrest => .filter hmark hname (hbare rfl) hrest⟩
    · simp only [normal, hreprints.normal]
    · simp only [doc, docs, hreprints.parens]
  | cons argument arguments =>
    obtain ⟨st₄, arguments', hopen, hreprints', hderives⟩ := elements_of_arguments harguments hcovers
    refine ⟨.filter ⟨start, st'.lastStop⟩ subject' name arguments', rfl, ⟨?_, ?_⟩,
      fun r st'' _ hrest => .filterCall hmark hname hopen hderives hrest⟩
    · simp only [normal, hreprints.normal, hreprints'.normals]
    · simp only [doc, hreprints.parens, hreprints'.docs, hreprints'.isEmpty_eq]

/-! ## Arrow functions -/

lemma params_of_entries (hparams : ∀ param ∈ params, param.IsParam)
    (hentries : st.CoversEntries lb (Expr.entries breaks params) st₁)
    (hclose : st₁.current.lexeme = .mark ")") :
    ∃ params', ReprintsAll breaks lb.atLeast params params' ∧ Derives (.params params') st st₁ := by
  induction params generalizing st with
  | nil =>
    rw [Expr.entries] at hentries
    cases hentries
    exact ⟨[], .nil, .paramsNil hclose⟩
  | cons param params ih =>
    have hparam := hparams param (mem_cons_self ..)
    cases param with
    | identifier span name =>
      have hreprints : (identifier span name).Reprints breaks lb.atLeast
          (identifier st.current.span name) :=
        ⟨by simp, by simp [doc]⟩
      rw [Expr.entries] at hentries
      have hempty := isEmpty_entries breaks params
      generalize Expr.entries breaks params = entries at hentries ih hempty
      cases hentries with
      | last hentry =>
        obtain rfl := isEmpty_iff.mp hempty.symm
        obtain ⟨st₂, hname, -, ⟨⟩⟩ := Stream.covers_cons.mp hentry
        refine ⟨[_], .cons hreprints .nil, .paramsLast hname hparam.2 ?_⟩
        rw [hclose]
        decide
      | cons hentry hcomma hlater =>
        rw [pieces] at hentry
        obtain ⟨st₂, hname, -, ⟨⟩⟩ := Stream.covers_cons.mp hentry
        obtain ⟨params', hreprints', hderives⟩ :=
          ih (fun param hparam => hparams param (mem_cons_of_mem _ hparam)) hlater
        exact ⟨_ :: params', .cons hreprints hreprints', .paramsCons hname hparam.2 hcomma hderives⟩
    | _ => exact hparam.elim

lemma readable_arrow (hparams : ∀ param ∈ params, param.IsParam) (hbody : body.Readable lb breaks) :
    (arrow span params body).Readable lb breaks := by
  intro gap st st' hcovers
  have hcovers' := hcovers
  obtain ⟨st₁, hopen, -, hcovers'⟩ := Stream.covers_cons.mp hcovers'
  obtain ⟨st₂, hcoversParams, hcovers'⟩ := Stream.covers_append.mp hcovers'
  obtain ⟨st₃, hclose, -, hcovers'⟩ := Stream.covers_cons.mp hcovers'
  obtain ⟨st₄, hmark, -, hcoversBody⟩ := Stream.covers_cons.mp hcovers'
  obtain ⟨params', hreprints, hderives⟩ := params_of_entries hparams (.of_commas hcoversParams)
    hclose.lexeme_eq
  obtain ⟨body', hreprints', -, hreads⟩ := hbody.grouped .body hcoversBody
  refine ⟨.arrow ⟨st.current.span.start, st'.lastStop⟩ params' body', ⟨?_, ?_⟩,
    .of_span hcovers (cons_ne_nil _ _) rfl, fun hends => ?_⟩
  · simp [hreprints.normals, hreprints'.normal]
  · simp [doc, hreprints.docs, hreprints'.parens]
  · exact .arrow (atArrow_of_params hopen hderives hclose hmark.lexeme_eq) hopen hderives hclose
      hmark (hreads hends)

/-! ## Arrays and objects -/

lemma atLeast_after_bracket (hstands : st.Stands lb ⟨gap, .mark opening⟩)
    (hlength : byteLength opening.toList = 1) (hpass : st.Passes (.mark opening) st₁)
    (hfirst : st₁.Stands lb ⟨gap', l⟩) (hplace : lb.SameLine st₁.current.span.start place) :
    lb.atLeast 1 (st.current.span.start + 1) place = decide (gap' = .line) := by
  have hstop : st.current.span.stop = st.current.span.start + 1 := by
    rw [hstands.stop_eq]
    exact congrArg _ hlength
  rw [← hstop, ← hpass.next.lastStop, hplace.atLeast_right hfirst.lastStop_le, hfirst.before]

lemma covers_collection
    (h : st.Covers lb (collection opening closing pad broken entries gap) st') :
    ∃ st₁ st₂, st.Passes (.mark opening) st₁ ∧ st.Stands lb ⟨gap, .mark opening⟩ ∧
      st₂.Passes (.mark closing) st' ∧
      st₁.Covers lb (if broken then lines entries else commas pad entries) st₂ := by
  obtain ⟨st₁, hopen, hstands, hinner⟩ := Stream.covers_cons.mp h
  split at hinner
  · rename_i hempty
    obtain rfl : entries = [] := isEmpty_iff.mp hempty
    obtain ⟨st₂, hclose, -, ⟨⟩⟩ := Stream.covers_cons.mp hinner
    refine ⟨st₁, st₁, hopen, hstands, hclose, ?_⟩
    cases broken <;> exact .nil
  · split at hinner
    all_goals
      rename_i hbroken
      obtain ⟨st₂, hentries, hlast⟩ := Stream.covers_append.mp hinner
      obtain ⟨st₃, hclose, -, ⟨⟩⟩ := Stream.covers_cons.mp hlast
      exact ⟨st₁, st₂, hopen, hstands, hclose, by simpa [hbroken] using hentries⟩

lemma stands_of_entries (hentry : ∃ l ps, ∀ gap, entry gap = ⟨gap, l⟩ :: ps)
    (h : st.Covers lb (if broken then lines (entry :: entries) else commas pad (entry :: entries))
      st') : ∃ l, st.Stands lb ⟨if broken then .line else pad, l⟩ := by
  obtain ⟨l, ps, hentry⟩ := hentry
  cases broken with
  | true =>
    rw [if_pos rfl, lines, hentry] at h
    obtain ⟨_, -, hstands, -⟩ := Stream.covers_cons.mp h
    exact ⟨l, hstands⟩
  | false =>
    cases entries with
    | nil =>
      rw [if_neg (by simp), commas, hentry] at h
      obtain ⟨_, -, hstands, -⟩ := Stream.covers_cons.mp h
      exact ⟨l, hstands⟩
    | cons entry' entries =>
      rw [if_neg (by simp), commas, hentry] at h
      · obtain ⟨_, -, hstands, -⟩ := Stream.covers_cons.mp h
        exact ⟨l, hstands⟩
      · simp

lemma brokenAfterBracket_eq (hstands : st.Stands lb ⟨gap, .mark opening⟩)
    (hlength : byteLength opening.toList = 1) (hopen : st.Passes (.mark opening) st₁)
    (hentries : st₁.Covers lb (if broken then lines entries else commas pad entries) st₂)
    (hentry : ∀ entry ∈ entries, ∃ l ps, ∀ gap, entry gap = ⟨gap, l⟩ :: ps) (hpad : pad ≠ .line)
    (hempty : entries = [] → broken = false) (hlen : es.isEmpty = entries.isEmpty)
    (hfirst : FirstAt lb st₁.current.span.start es) :
    brokenAfterBracket lb.atLeast ⟨st.current.span.start, stop⟩ es = broken := by
  cases entries with
  | nil =>
    obtain rfl := isEmpty_iff.mp hlen
    exact (hempty rfl).symm
  | cons entry entries =>
    cases es with
    | nil => cases hlen
    | cons e es =>
      obtain ⟨l, hstands₁⟩ := stands_of_entries (hentry entry (mem_cons_self ..)) hentries
      have hbreak := atLeast_after_bracket hstands hlength hopen hstands₁ (hfirst e rfl)
      refine hbreak.trans ?_
      cases broken <;> simp [hpad]

lemma exists_entry_eq :
    ∀ entry ∈ Expr.entries breaks es, ∃ l ps, ∀ gap, entry gap = ⟨gap, l⟩ :: ps := by
  induction es with
  | nil => simp [Expr.entries]
  | cons e es ih =>
    intro entry hentry
    rcases mem_cons.mp hentry with rfl | hentry
    · exact e.exists_pieces_eq breaks
    · exact ih entry hentry

lemma readable_array {elements : List Expr} (helements : ∀ e ∈ elements, e.Readable lb breaks) :
    (array span elements).Readable lb breaks := by
  intro gap st st' hcovers
  rw [pieces] at hcovers
  generalize hbroken : brokenAfterBracket breaks span elements = broken at hcovers
  obtain ⟨st₁, st₂, hopen, hstands, hclose, hentries⟩ := covers_collection hcovers
  obtain ⟨elements', hreprints, hfirst, hderives⟩ :=
    elements_of_entries helements (by decide) (.of_layout hentries) hclose
  have hlayout : brokenAfterBracket lb.atLeast ⟨st.current.span.start, st'.lastStop⟩ elements' =
      broken := by
    refine brokenAfterBracket_eq hstands (by decide) hopen hentries exists_entry_eq (by simp)
      (fun hnil => ?_) ?_ hfirst
    · have hempty := isEmpty_entries breaks elements
      rw [hnil] at hempty
      rw [← hbroken, isEmpty_iff.mp hempty.symm]
      rfl
    · rw [hreprints.isEmpty_eq, isEmpty_entries]
  refine ⟨.array ⟨st.current.span.start, st'.lastStop⟩ elements', ⟨?_, ?_⟩,
    .of_span hcovers (cons_ne_nil _ _) rfl, fun r st'' _ hrest =>
      .suffixed (.array hopen hderives) hrest⟩
  · simp [hreprints.normals]
  · simp [doc, hreprints.docs, hlayout, hbroken]

/-- **A key is printed as another one**, and differs from it only in what the normal form
forgets. -/
structure ReprintsKey (breaks breaks' : Breaks) (key key' : Expr) : Prop where
  normal : (key'.bareKey?.map (identifier default)).getD key'.normal =
    (key.bareKey?.map (identifier default)).getD key.normal
  doc : (key'.bareKey?.map Doc.text).getD (key'.doc breaks') =
    (key.bareKey?.map Doc.text).getD (key.doc breaks)

lemma ReprintsKey.of_reprints {key' : Expr} (h : key.Reprints breaks breaks' key')
    (hbare : key'.bareKey? = key.bareKey?) : ReprintsKey breaks breaks' key key' where
  normal := by rw [hbare, h.normal]
  doc := by rw [hbare, h.doc]

lemma key_of_covers (hkey : key.IsKey) (hp : key.Plain breaks)
    (hcovers : st.Covers lb (match key.bareKey? with
      | some name => [⟨gap, .word name⟩]
      | none => key.pieces breaks gap) st₁) :
    ∃ key', st.current.key? = some key' ∧ st.Next st₁ ∧ key'.span = st.current.span ∧
      ReprintsKey breaks lb.atLeast key key' := by
  cases hbare : key.bareKey? with
  | some name =>
    rw [hbare] at hcovers
    obtain ⟨st₂, hname, -, ⟨⟩⟩ := Stream.covers_cons.mp hcovers
    have hlexeme : st.current.lexeme = .word name := hname.lexeme_eq
    refine ⟨.identifier st.current.span name, ?_, hname.next, rfl, ?_⟩
    · rw [Token.key?, hlexeme]
    · exact ⟨by rw [hbare]; simp [bareKey?], by rw [hbare]; simp [bareKey?, doc]⟩
  | none =>
    rw [hbare] at hcovers
    cases key with
    | identifier span name =>
      obtain ⟨st₂, hname, -, ⟨⟩⟩ := Stream.covers_cons.mp hcovers
      have hlexeme : st.current.lexeme = .word name := hname.lexeme_eq
      refine ⟨.identifier st.current.span name, ?_, hname.next, rfl, ?_⟩
      · rw [Token.key?, hlexeme]
      · exact .of_reprints ⟨by simp, by simp [doc]⟩ rfl
    | string span value raw =>
      obtain ⟨st₂, hraw, -, ⟨⟩⟩ := Stream.covers_cons.mp hcovers
      have hlexeme : st.current.lexeme = .quoted raw := hraw.lexeme_eq
      refine ⟨.string st.current.span value raw, ?_, hraw.next, rfl, ?_⟩
      · rw [Token.key?, Token.literal?, hlexeme, hkey.2]
      · exact .of_reprints ⟨by simp, by simp [doc]⟩ rfl
    | number span value raw =>
      obtain ⟨st₂, hdigits, -, ⟨⟩⟩ := Stream.covers_cons.mp hcovers
      have hlexeme : st.current.lexeme = .number (String.ofList value.text) := hdigits.lexeme_eq
      have hliteral := literal?_number hkey (Expr.plain_iff.mp hp).1 st.current.span
      refine ⟨.number st.current.span value (String.ofList value.text), ?_, hdigits.next, rfl, ?_⟩
      · have hcurrent : st.current = ⟨.number (String.ofList value.text), st.current.span⟩ := by
          rw [← hlexeme]
        rw [hcurrent]
        exact hliteral
      · exact .of_reprints ⟨by simp, by simp [doc]⟩ rfl
    | _ => exact hkey.elim

end Expr

namespace Property

structure ReprintsAll (breaks breaks' : Breaks) (ps ps' : List Property) : Prop where
  normals : Property.normals ps' = Property.normals ps
  docs : Property.docs breaks' ps' = Property.docs breaks ps
  isEmpty_eq : ps'.isEmpty = ps.isEmpty

variable {key value : Expr} {ps : List Property} {breaks' : Breaks}

lemma ReprintsAll.nil : ReprintsAll breaks breaks' [] [] := ⟨rfl, rfl, rfl⟩

lemma ReprintsAll.cons {key' value' : Expr} {ps' : List Property}
    (hkey : Expr.ReprintsKey breaks breaks' key key')
    (hvalue : value.Reprints breaks breaks' value') (hps : ReprintsAll breaks breaks' ps ps') :
    ReprintsAll breaks breaks' (.mk key value :: ps) (.mk key' value' :: ps') where
  normals := by rw [Property.normals, Property.normals, hkey.normal, hvalue.normal, hps.normals]
  docs := by rw [Property.docs, Property.docs, hkey.doc, hvalue.doc, hps.docs]
  isEmpty_eq := rfl

/-- **What is read back of an entry**: its key is one, and its value is readable. -/
structure Readable (lb : LineBreaks) (breaks : Breaks) (p : Property) : Prop where
  isKey : p.key.IsKey
  plain : p.key.Plain breaks
  value : p.value.Readable lb breaks

lemma Readable.entry (h : (Property.mk key value).Readable lb breaks)
    (hcovers : st.Covers lb ((match key.bareKey? with
      | some name => [⟨gap, .word name⟩]
      | none => key.pieces breaks gap) ++ ⟨.none, .mark ":"⟩ :: value.pieces breaks .space) st')
    (hends : st'.Ends) :
    ∃ key' value' st₁ st₂, st.current.key? = some key' ∧ st.Next st₁ ∧
      st₁.Passes (.mark ":") st₂ ∧ Derives (.expression value') st₂ st' ∧
      Expr.ReprintsKey breaks lb.atLeast key key' ∧ value.Reprints breaks lb.atLeast value' ∧
      key'.span = st.current.span := by
  obtain ⟨st₁, hcoversKey, hcovers⟩ := Stream.covers_append.mp hcovers
  obtain ⟨st₂, hcolon, -, hcoversValue⟩ := Stream.covers_cons.mp hcovers
  obtain ⟨key', hkey, hnext, hspan, hreprints⟩ := Expr.key_of_covers h.isKey h.plain hcoversKey
  obtain ⟨value', hreprints', -, hderives⟩ := h.value.expression hcoversValue hends
  exact ⟨key', value', st₁, st₂, hkey, hnext, hcolon, hderives, hreprints, hreprints', hspan⟩

lemma exists_entry_eq :
    ∀ entry ∈ entries breaks ps, ∃ l qs, ∀ gap, entry gap = ⟨gap, l⟩ :: qs := by
  induction ps with
  | nil => simp [entries]
  | cons p ps ih =>
    obtain ⟨key, value⟩ := p
    intro entry hentry
    rcases mem_cons.mp hentry with rfl | hentry
    · obtain ⟨l, qs, hkey⟩ := key.exists_pieces_eq breaks
      cases key.bareKey? with
      | some name => exact ⟨_, _, fun gap => rfl⟩
      | none =>
        simp only [hkey, cons_append]
        exact ⟨_, _, fun gap => rfl⟩
    · exact ih entry hentry

lemma isEmpty_entries (breaks : Breaks) (ps : List Property) :
    (entries breaks ps).isEmpty = ps.isEmpty := by
  cases ps with
  | nil => simp [entries]
  | cons p ps =>
    obtain ⟨key, value⟩ := p
    simp [entries]

lemma firstAt_cons (hsize : st.current.span.start ≤ lb.size)
    (hspan : key.span = st.current.span) :
    Expr.FirstAt lb st.current.span.start ((mk key value :: ps).map Property.key) := by
  intro e he
  obtain rfl : key = e := by simpa [Property.key] using he
  rw [hspan]
  exact .refl hsize

lemma start_le_size (hcovers : st.Covers lb qs st') (hne : qs ≠ []) :
    st.current.span.start ≤ lb.size := by
  obtain ⟨hle, hsize⟩ := hcovers.le hne
  exact hle.trans hsize

lemma properties_of_entries (hps : ∀ p ∈ ps, p.Readable lb breaks)
    (hentries : st.CoversEntries lb (entries breaks ps) st₁)
    (hclose : st₁.current.lexeme = .mark "\x7d") :
    ∃ ps', ReprintsAll breaks lb.atLeast ps ps' ∧
      Expr.FirstAt lb st.current.span.start (ps'.map Property.key) ∧
      Derives (.properties ps') st st₁ := by
  induction ps generalizing st with
  | nil =>
    rw [entries] at hentries
    cases hentries
    exact ⟨[], .nil, by simp [Expr.FirstAt], .propertiesNil hclose⟩
  | cons p ps ih =>
    obtain ⟨key, value⟩ := p
    have hp := hps (.mk key value) (mem_cons_self ..)
    rw [entries] at hentries
    have hempty := isEmpty_entries breaks ps
    generalize entries breaks ps = entries at hentries ih hempty
    cases hentries with
    | last hentry =>
      obtain rfl := isEmpty_iff.mp hempty.symm
      obtain ⟨key', value', st₂, st₃, hkey, hnext, hcolon, hderives, hreprints, hreprints', hspan⟩ :=
        hp.entry hentry (.of_endsExpr (by rw [hclose]; decide))
      refine ⟨[.mk key' value'], .cons hreprints hreprints' .nil,
        firstAt_cons (start_le_size hentry (by simp)) hspan,
        .propertiesLast hkey hnext hcolon hderives ?_⟩
      rw [hclose]
      decide
    | cons hentry hcomma hlater =>
      have hlexeme := hcomma.lexeme_eq
      obtain ⟨key', value', st₂, st₃, hkey, hnext, hcolon, hderives, hreprints, hreprints', hspan⟩ :=
        hp.entry hentry (.of_endsExpr (by rw [hlexeme]; decide))
      obtain ⟨ps', hreprints'', -, hderives'⟩ :=
        ih (fun p hp => hps p (mem_cons_of_mem _ hp)) hlater
      exact ⟨.mk key' value' :: ps', .cons hreprints hreprints' hreprints'',
        firstAt_cons (start_le_size hentry (by simp)) hspan,
        .propertiesCons hkey hnext hcolon hderives hcomma hderives'⟩

end Property

namespace Expr

lemma readable_object {span : Span} {properties : List Property}
    (hproperties : ∀ p ∈ properties, p.Readable lb breaks) :
    (object span properties).Readable lb breaks := by
  intro gap st st' hcovers
  rw [pieces] at hcovers
  generalize hbroken : brokenAfterBracket breaks span (properties.map Property.key) = broken
    at hcovers
  obtain ⟨st₁, st₂, hopen, hstands, hclose, hentries⟩ := covers_collection hcovers
  obtain ⟨properties', hreprints, hfirst, hderives⟩ :=
    Property.properties_of_entries hproperties (.of_layout hentries) hclose.lexeme_eq
  have hlayout : brokenAfterBracket lb.atLeast ⟨st.current.span.start, st'.lastStop⟩
      (properties'.map Property.key) = broken := by
    refine brokenAfterBracket_eq hstands (by decide) hopen hentries Property.exists_entry_eq
      (by simp) (fun hnil => ?_) ?_ hfirst
    · have hempty := Property.isEmpty_entries breaks properties
      rw [hnil] at hempty
      rw [← hbroken, isEmpty_iff.mp hempty.symm]
      rfl
    · rw [isEmpty_map, hreprints.isEmpty_eq, Property.isEmpty_entries]
  refine ⟨.object ⟨st.current.span.start, st'.lastStop⟩ properties', ⟨?_, ?_⟩,
    .of_span hcovers (cons_ne_nil _ _) rfl, fun r st'' _ hrest =>
      .suffixed (.object hopen hderives hclose) hrest⟩
  · simp [hreprints.normals]
  · simp [doc, hreprints.docs, hlayout, hbroken]

end Expr

/-! ## All expressions -/

mutual

/-- **The pieces of well-formed plain expressions are read back.** -/
theorem Expr.readable : ∀ (e : Expr), e.WellFormed → e.Plain breaks → e.Readable lb breaks
  | .identifier _ _, hwf, _ => by exact Expr.readable_identifier hwf.2
  | .string _ _ _, hwf, _ => by exact Expr.readable_string hwf
  | .number _ _ _, hwf, hp => by exact Expr.readable_number hwf (Expr.plain_iff.mp hp).1
  | .boolean _ _, _, _ => Expr.readable_boolean
  | .null _, _, _ => Expr.readable_null
  | .unary _ _ argument, hwf, hp => by
    exact Expr.readable_unary (argument.readable hwf (hp.child (by simp [Expr.children])))
  | .binary _ op left right, hwf, hp => by
    have hright : right.Plain breaks := hp.child (by simp [Expr.children])
    exact Expr.readable_binary (left.readable hwf.1 (hp.child (by simp [Expr.children])))
      (right.readable hwf.2 hright) fun _ _ _ hop hcovers =>
        Expr.ne_not_of_textIn hwf.2 hright ((Expr.plain_iff.mp hp).1 hop) hcovers
  | .conditional _ test consequent alternate, hwf, hp => by
    exact Expr.readable_conditional (test.readable hwf.1 (hp.child (by simp [Expr.children])))
      (consequent.readable hwf.2.1 (hp.child (by simp [Expr.children])))
      (alternate.readable hwf.2.2 (hp.child (by simp [Expr.children])))
  | .member _ head property computed optional, hwf, hp => by
    have hhead := head.readable hwf.1 (hp.child (by simp [Expr.children]))
    cases computed with
    | true =>
      exact Expr.readable_computedMember hhead
        (property.readable hwf.2 (hp.child (by simp [Expr.children])))
    | false => exact Expr.readable_member hhead hwf.2
  | .call _ callee arguments optional, hwf, hp => by
    exact Expr.readable_call (callee.readable hwf.1 (hp.child (by simp [Expr.children])))
      (Expr.readable_all arguments hwf.2 fun e he => hp.child (by simp [Expr.children, he]))
      (Expr.plain_iff.mp hp).1
  | .filter _ subject _ arguments, hwf, hp => by
    exact Expr.readable_filter (subject.readable hwf.1 (hp.child (by simp [Expr.children])))
      (Expr.readable_all arguments hwf.2.2 fun e he => hp.child (by simp [Expr.children, he]))
  | .arrow _ _ body, hwf, hp => by
    exact Expr.readable_arrow hwf.1 (body.readable hwf.2 (hp.child (by simp [Expr.children])))
  | .assignment _ _ target value, hwf, hp => by
    exact Expr.readable_assignment hwf.1
      (target.readable hwf.2.1 (hp.child (by simp [Expr.children])))
      (value.readable hwf.2.2 (hp.child (by simp [Expr.children])))
  | .update _ _ _ argument, hwf, hp => by
    exact Expr.readable_update (argument.readable hwf (hp.child (by simp [Expr.children])))
  | .array _ elements, hwf, hp => by
    exact Expr.readable_array
      (Expr.readable_all elements hwf fun e he => hp.child (by simp [Expr.children, he]))
  | .object _ properties, hwf, hp => by
    exact Expr.readable_object (Property.readable_all properties hwf fun e he =>
      hp.child (by simpa [Expr.children] using he))

theorem Expr.readable_all : ∀ (es : List Expr), Expr.AllWellFormed es →
    (∀ e ∈ es, e.Plain breaks) → ∀ e ∈ es, e.Readable lb breaks
  | [], _, _ => by simp
  | e :: es, hwf, hp => by
    have hfirst := e.readable hwf.1 (hp e (mem_cons_self ..))
    have hrest := Expr.readable_all es hwf.2 fun e' he' => hp e' (mem_cons_of_mem _ he')
    exact forall_mem_cons.mpr ⟨hfirst, hrest⟩

theorem Property.readable_all : ∀ (ps : List Property), Property.AllWellFormed ps →
    (∀ e ∈ ps.flatMap (fun p => [p.key, p.value]), e.Plain breaks) →
    ∀ p ∈ ps, p.Readable lb breaks
  | [], _, _ => by simp
  | .mk key value :: ps, hwf, hp => by
    have hvalue := value.readable hwf.2.1 (hp value (by simp [Property.value]))
    have hrest := Property.readable_all ps hwf.2.2 fun e he =>
      hp e (by exact mem_append_right _ he)
    exact forall_mem_cons.mpr ⟨⟨hwf.1, hp key (by simp [Property.key]), hvalue⟩, hrest⟩

end

end ComponentTemplate
