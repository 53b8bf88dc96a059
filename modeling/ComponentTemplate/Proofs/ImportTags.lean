import ComponentTemplate.Proofs.OutputItems

/-!
# Import tags

An import is printed with its source between double quotes. A backslash is put before every double
quote of the source, but before no backslash: a source with a backslash is another one when the
printed tag is read.
-/

namespace ComponentTemplate

open MarkupGrammar
open List (cons_append replicate)

/-! ## What strings stand for -/

/-- **What a string stands for**, from the text after its opening quote on. -/
def stringText? (quote : Char) : List Char → Option (List Char)
  | [] => none
  | ['\\'] => none
  | '\\' :: c :: cs => (stringText? quote cs).map (unescape c :: ·)
  | c :: cs => if c = quote then some [] else (stringText? quote cs).map (c :: ·)

lemma stringText?_cons (hc : c ≠ '\\') (cs : List Char) :
    stringText? quote (c :: cs) =
      if c = quote then some [] else (stringText? quote cs).map (c :: ·) := by
  rw [stringText?.eq_4]
  · exact fun h _ => hc h
  · exact fun _ _ h _ => hc h

lemma decodeEscapes_cons (hc : c ≠ '\\') (cs : List Char) :
    decodeEscapes (c :: cs) = c :: decodeEscapes cs := by
  rw [decodeEscapes.eq_4]
  · exact fun h _ => hc h
  · exact fun _ _ h _ => hc h

lemma stringText?_eq (h : quotedLength? quote cs = some n) :
    stringText? quote cs = some (decodeEscapes (cs.take n).dropLast) := by
  -- the closing quote, which is dropped, is among the characters that are taken
  have hne {m : Nat} {ds : List Char} (hm : quotedLength? quote ds = some m) : ds.take m ≠ [] := by
    intro hnil
    have htake := (quotedLength?_take hm).2
    rw [hnil] at htake
    cases htake
  fun_induction quotedLength? quote cs generalizing n with
  | case1 => cases h
  | case2 => cases h
  | case3 c cs ih =>
    obtain ⟨m, hm, rfl⟩ := Option.map_eq_some_iff.mp h
    rw [stringText?, ih hm, List.take_succ_cons, List.take_succ_cons,
      List.dropLast_cons_of_ne_nil (List.cons_ne_nil _ _), List.dropLast_cons_of_ne_nil (hne hm),
      decodeEscapes, Option.map_some]
  | case4 cs hnil hcons =>
    obtain rfl : 1 = n := Option.some.inj h
    rw [stringText?_cons (ne_backslash_of_cases hnil hcons), if_pos rfl]
    rfl
  | case5 c cs hnil hcons hc ih =>
    have hslash := ne_backslash_of_cases hnil hcons
    obtain ⟨m, hm, rfl⟩ := Option.map_eq_some_iff.mp h
    rw [stringText?_cons hslash, if_neg hc, ih hm, List.take_succ_cons,
      List.dropLast_cons_of_ne_nil (hne hm), decodeEscapes_cons hslash, Option.map_some]

/-! ## Escapes -/

def escapedChars (cs : List Char) : List Char :=
  cs.flatMap fun c => if c = '"' then ['\\', '"'] else [c]

lemma toList_escapeQuotes (text : String) : (escapeQuotes text).toList = escapedChars text.toList :=
  String.toList_ofList

@[simp]
lemma escapedChars_quote (cs : List Char) :
    escapedChars ('"' :: cs) = '\\' :: '"' :: escapedChars cs := rfl

lemma escapedChars_cons (hc : c ≠ '"') (cs : List Char) :
    escapedChars (c :: cs) = c :: escapedChars cs := by
  rw [escapedChars, List.flatMap_cons, if_neg hc]
  rfl

/-- **A text without backslashes is what its escapes stand for.** -/
theorem decodeEscapes_escapedChars (h : '\\' ∉ cs) : decodeEscapes (escapedChars cs) = cs := by
  induction cs with
  | nil => rfl
  | cons c cs ih =>
    obtain ⟨hc, hcs⟩ := List.ne_and_not_mem_of_not_mem_cons h
    by_cases hquote : c = '"'
    · subst hquote
      rw [escapedChars_quote, decodeEscapes, ih hcs]
      rfl
    · rw [escapedChars_cons hquote, decodeEscapes_cons (Ne.symm hc), ih hcs]

lemma isQuoted_escapedChars (h : '\\' ∉ cs) : IsQuoted ('"' :: (escapedChars cs ++ ['"'])) := by
  refine ⟨.inl rfl, ?_⟩
  induction cs with
  | nil => rfl
  | cons c cs ih =>
    obtain ⟨hc, hcs⟩ := List.ne_and_not_mem_of_not_mem_cons h
    by_cases hquote : c = '"'
    · subst hquote
      rw [escapedChars_quote, cons_append, cons_append, quotedLength?, ih hcs]
      rfl
    · rw [escapedChars_cons hquote, cons_append, quotedLength?_cons (Ne.symm hc),
        if_neg hquote, ih hcs]
      rfl

lemma unescape_eq_backslash (h : unescape c = '\\') : c = '\\' := by
  unfold unescape at h
  split at h
  · cases h
  · cases h
  · cases h
  · exact h

lemma replicate_append_cons (c : Char) (k : Nat) (cs : List Char) :
    replicate k c ++ c :: cs = c :: (replicate k c ++ cs) := by
  rw [← cons_append, ← List.replicate_succ, List.replicate_succ', List.append_assoc,
    List.singleton_append]

lemma replicate_append_cons_inj (hc : c ≠ '\\') (h : c :: ds = replicate k '\\' ++ c :: cs) :
    k = 0 ∧ ds = cs := by
  cases k with
  | zero => exact ⟨rfl, (List.cons.inj h).2⟩
  | succ k => exact absurd (List.cons.inj h).1 hc

/-- **No text with a backslash is what its escapes stand for**, whatever follows the string. -/
theorem not_mem_of_stringText?
    (h : stringText? '"' (escapedChars cs ++ '"' :: rest) = some (replicate k '\\' ++ cs)) :
    k = 0 ∧ '\\' ∉ cs := by
  -- two backslashes stand for one, so the text is compared with itself after more and more of them
  induction cs using decodeEscapes.induct generalizing k with
  | case1 =>
    have hnil := Option.some.inj h
    exact ⟨by simpa using hnil, List.not_mem_nil⟩
  | case2 =>
    -- the closing quote is escaped
    obtain ⟨ds, -, hds⟩ := Option.map_eq_some_iff.mp h
    cases k <;> cases hds
  | case3 c cs ih =>
    rw [escapedChars_cons (by decide), replicate_append_cons] at h
    by_cases hquote : c = '"'
    · -- the quote after the escaped backslash closes the string
      subst hquote
      have hnil := (List.cons.inj (Option.some.inj h)).2
      simp at hnil
    · rw [escapedChars_cons hquote] at h
      obtain ⟨ds, hds, heq⟩ := Option.map_eq_some_iff.mp h
      obtain ⟨hhead, rfl⟩ := List.cons.inj heq
      obtain rfl := unescape_eq_backslash hhead
      rw [replicate_append_cons, ← cons_append, ← List.replicate_succ] at hds
      exact absurd (ih hds).1 (Nat.succ_ne_zero k)
  | case4 c cs hnil hcons ih =>
    have hc : c ≠ '\\' := ne_backslash_of_cases hnil hcons
    have hmap : ∃ ds, stringText? '"' (escapedChars cs ++ '"' :: rest) = some ds ∧
        c :: ds = replicate k '\\' ++ c :: cs := by
      by_cases hquote : c = '"'
      · subst hquote
        rwa [escapedChars_quote, cons_append, cons_append, stringText?,
          Option.map_eq_some_iff] at h
      · rwa [escapedChars_cons hquote, cons_append, stringText?_cons hc, if_neg hquote,
          Option.map_eq_some_iff] at h
    obtain ⟨ds, hds, heq⟩ := hmap
    obtain ⟨rfl, rfl⟩ := replicate_append_cons_inj hc heq
    exact ⟨rfl, List.not_mem_cons_of_ne_of_not_mem (Ne.symm hc) (@ih 0 hds).2⟩

/-! ## Tokens of a text -/

namespace Stream

variable {st st₁ : Stream} {o : Nat} {blanks rest : List Char}

lemma endsBefore_space (word : String) (rest : List Char) :
    (Lexeme.word word).EndsBefore ([' '] ++ rest) := by
  rintro _ ⟨⟩
  decide

lemma exists_passes_word (hword : isName word.toList = true)
    (hat : st₁.At ⟨o + 1 + byteLength word.toList, [' '] ++ rest⟩) :
    ∃ st : Stream, st.At ⟨o, [' '] ++ (word.toList ++ ([' '] ++ rest))⟩ ∧
      st.Passes (.word word) st₁ :=
  exists_passes (l := .word word) hword Text.blank_space (endsBefore_space word rest) hat

lemma exists_endsBlock (o : Nat) (rest : List Char) :
    ∃ st : Stream, st.At ⟨o, [' '] ++ ("%\x7d".toList ++ rest)⟩ ∧ st.EndsBlock ⟨o + 3, rest⟩ := by
  have hread := Token.read_append (isWritten_mark "%\x7d" (by decide)) Text.blank_space
    (endsBefore_closing "%\x7d" (by decide) rest) o
  exact ⟨⟨_, _, o⟩, ⟨hread, rfl⟩, rfl, rfl⟩

lemma At.of_passes_word {word : String} (hword : isName word.toList = true) {l : Lexeme}
    (hat : st.At ⟨o, [' '] ++ (word.toList ++ ([' '] ++ rest))⟩) (hpass : st.Passes l st₁) :
    st₁.At ⟨o + 1 + byteLength word.toList, [' '] ++ rest⟩ := by
  have hread := hat.read.symm.trans (Token.read_append (l := .word word) hword Text.blank_space
    (endsBefore_space word rest) o)
  simp only [Except.ok.injEq, Prod.mk.injEq] at hread
  obtain ⟨hcurrent, hafter⟩ := hread
  exact ⟨hafter ▸ hpass.next.read, by rw [hpass.next.lastStop, hcurrent]; rfl⟩

lemma At.stringText?_eq (hat : st.At ⟨o, blanks ++ '"' :: cs⟩) (hblanks : Text.Blank blanks)
    (hraw : st.current.lexeme = .quoted raw) : stringText? '"' cs = some (unquote raw.toList) := by
  cases hlength : quotedLength? '"' cs with
  | none =>
    have hread := hat.read
    rw [Token.read, skipBlanks_append hblanks (by simp [Text.isBlank])] at hread
    simp [Token.readAt, hlength, isWordStart, startsNumber] at hread
  | some n =>
    obtain ⟨hle, htake⟩ := quotedLength?_take hlength
    have hquoted : IsQuoted ('"' :: cs.take n) :=
      ⟨.inl rfl, by rw [htake, List.length_take, Nat.min_eq_left hle]⟩
    have hl : (Lexeme.quoted (String.ofList ('"' :: cs.take n))).IsWritten :=
      (congrArg IsQuoted String.toList_ofList).mpr hquoted
    have hend : (Lexeme.quoted (String.ofList ('"' :: cs.take n))).EndsBefore (cs.drop n) := trivial
    have hread := Token.read_append hl hblanks hend o
    rw [Lexeme.chars_quoted, String.toList_ofList, cons_append, List.take_append_drop,
      hat.read] at hread
    simp only [Except.ok.injEq, Prod.mk.injEq] at hread
    rw [hread.1, Lexeme.quoted.injEq] at hraw
    rw [ComponentTemplate.stringText?_eq hlength, ← hraw, String.toList_ofList]
    rfl

end Stream

/-! ## Import tags -/

namespace Import

/-- **What an import is printed as.** -/
def chars (tag : Import) : List Char :=
  '{' :: '%' :: ([' '] ++ ("import".toList ++ ([' '] ++ (tag.specifier.toList ++
    ([' '] ++ ("from".toList ++ ([' '] ++ ('"' :: (escapedChars tag.source.toList ++
      '"' :: ([' '] ++ "%\x7d".toList))))))))))

lemma toList_render_doc (tag : Import) (unit : String) :
    (tag.doc.render unit).toList = tag.chars := by
  rw [doc, Doc.toList_render_text]
  simp [chars, toList_escapeQuotes]

lemma byteLength_chars (tag : Import) : byteLength tag.chars =
    byteLength tag.specifier.toList + byteLength (escapedChars tag.source.toList) + 21 := by
  simp only [chars, byteLength_append, byteLength_cons]
  have himport : byteLength "import".toList = 6 := rfl
  have hfrom : byteLength "from".toList = 4 := rfl
  have hclosing : byteLength "%\x7d".toList = 2 := rfl
  have hsizes : Char.utf8Size '{' = 1 ∧ Char.utf8Size '%' = 1 ∧ Char.utf8Size ' ' = 1 ∧
      Char.utf8Size '"' = 1 ∧ byteLength [] = 0 := ⟨rfl, rfl, rfl, rfl, rfl⟩
  omega

lemma chars_append (tag : Import) (rest : List Char) :
    tag.chars ++ rest = '{' :: '%' :: ([' '] ++ ("import".toList ++ ([' '] ++
      (tag.specifier.toList ++ ([' '] ++ ("from".toList ++ ([' '] ++
        ('"' :: (escapedChars tag.source.toList ++ '"' :: ([' '] ++ ("%\x7d".toList ++
          rest))))))))))) := by
  simp [chars]

end Import

namespace MarkupGrammar

variable {tag : Import} {cur next : Cursor} {st : Stream}

lemma exists_importTag_of_item (h : Derives (.item ctx found) cur next)
    (hrest : cur.rest = '{' :: '%' :: cs) (hword : blockKeyword? cur = some "import") :
    ∃ tag, found = .importTag tag := by
  have hother {word : String} {st : Stream} (hopens : OpensTag word cur st) : word = "import" :=
    Option.some.inj ((blockKeyword?_eq hrest hopens).symm.trans hword)
  cases h with
  | importTag => exact ⟨_, rfl⟩
  | text hcons hstarts =>
    rw [hrest] at hcons
    cases hcons
    cases hstarts
  | comment hcons
  | inlineTag hcons
  | complete hcons
  | raw hcons
  | element hcons =>
    rw [hrest] at hcons
    cases hcons
  | variableTag _ hopens
  | ifBlock _ hopens
  | forBlock _ hopens
  | keyBlock _ hopens
  | snippetBlock _ hopens
  | awaitBlock _ hopens => exact absurd (hother hopens) (by decide)

end MarkupGrammar

namespace Import

variable {tag tag' : Import} {ctx : MarkupContext} {o : Nat} {rest : List Char} {next : Cursor}

lemma derives_chars (hname : isName tag.specifier.toList = true)
    (hsource : '\\' ∉ tag.source.toList) (ctx : MarkupContext) (o : Nat) (rest : List Char) :
    Derives (.item ctx (.importTag ⟨⟨o, o + byteLength tag.chars⟩, tag.specifier, tag.source⟩))
      ⟨o, tag.chars ++ rest⟩ ⟨o + byteLength tag.chars, rest⟩ := by
  let raw := String.ofList ('"' :: (escapedChars tag.source.toList ++ ['"']))
  have htoList : raw.toList = '"' :: (escapedChars tag.source.toList ++ ['"']) :=
    String.toList_ofList
  have hraw : (Lexeme.quoted raw).IsWritten :=
    (congrArg IsQuoted htoList).mpr (isQuoted_escapedChars hsource)
  have hdecoded : String.ofList (unquote raw.toList) = tag.source := by
    rw [htoList, unquote, List.drop_one, List.tail_cons, List.dropLast_concat,
      decodeEscapes_escapedChars hsource, String.ofList_toList]
  -- the tokens, from the last one to the first
  obtain ⟨st₃, hat₃, hend⟩ := Stream.exists_endsBlock (o + 2 + 1 + byteLength "import".toList + 1 +
    byteLength tag.specifier.toList + 1 + byteLength "from".toList + byteLength [' '] +
    byteLength raw.toList) rest
  obtain ⟨st₂, hat₂, htext⟩ := Stream.exists_passes hraw Text.blank_space trivial hat₃
  obtain ⟨st₁, hat₁, hfrom⟩ := Stream.exists_passes_word (by decide) hat₂
  obtain ⟨st, hat, hspecifier⟩ := Stream.exists_passes_word hname hat₁
  obtain ⟨st₀, hat₀, himport⟩ := Stream.exists_passes_word (by decide) hat
  have hnext : o + 2 + 1 + byteLength "import".toList + 1 + byteLength tag.specifier.toList + 1 +
      byteLength "from".toList + byteLength [' '] + byteLength raw.toList + 3 =
      o + byteLength tag.chars := by
    rw [byteLength_chars, htoList, byteLength_enclosed rfl rfl]
    have himport : byteLength "import".toList = 6 := rfl
    have hfrom : byteLength "from".toList = 4 := rfl
    have hspace : byteLength [' '] = 1 := rfl
    omega
  rw [hnext] at hend
  have hquoted (tail : List Char) : raw.toList ++ tail =
      '"' :: (escapedChars tag.source.toList ++ '"' :: tail) := by
    rw [htoList, cons_append, List.append_assoc, List.singleton_append]
  rw [Lexeme.chars_quoted, hquoted] at hat₀
  rw [chars_append]
  refine .importTag rfl ⟨st₀, hat₀, himport⟩ (gives_importTag_iff.mpr
    ⟨st₁, st₂, st₃, raw, hspecifier, hfrom, htext, hend, ?_⟩)
  rw [hdecoded]
  rfl

lemma stringText?_of_derives (hname : isName tag.specifier.toList = true)
    (h : Derives (.item ctx (.importTag tag')) ⟨o, tag.chars ++ rest⟩ next) :
    stringText? '"' (escapedChars tag.source.toList ++ '"' :: ([' '] ++ ("%\x7d".toList ++ rest))) =
      some tag'.source.toList := by
  rw [chars_append] at h
  cases h with
  | importTag _ hopens htag =>
    obtain ⟨st₀, hat, himport⟩ := hopens
    obtain ⟨st₁, st₂, st₃, raw, hspecifier, hfrom, htext, -, htag⟩ := gives_importTag_iff.mp htag
    have hat := hat.of_passes_word (by decide : isName "import".toList = true) himport
    have hat := hat.of_passes_word hname hspecifier
    have hat := hat.of_passes_word (by decide : isName "from".toList = true) hfrom
    rw [hat.stringText?_eq Text.blank_space htext.lexeme_eq, htag, String.toList_ofList]

lemma blockKeyword?_chars (tag : Import) (o : Nat) (rest : List Char) :
    blockKeyword? ⟨o, tag.chars ++ rest⟩ = some "import" := by
  rfl

lemma derives_chars_iff (hname : isName tag.specifier.toList = true) (ctx : MarkupContext)
    (o : Nat) (rest : List Char) :
    (∃ tag' next, Derives (.item ctx (.importTag tag')) ⟨o, tag.chars ++ rest⟩ next ∧
      tag'.specifier = tag.specifier ∧ tag'.source = tag.source) ↔ '\\' ∉ tag.source.toList := by
  constructor
  · rintro ⟨tag', next, h, -, hsource⟩
    have htext := stringText?_of_derives hname h
    rw [hsource] at htext
    exact (@not_mem_of_stringText? _ _ 0 htext).2
  · exact fun hsource => ⟨_, _, derives_chars hname hsource ctx o rest, rfl, rfl⟩

end Import

namespace Component

variable {source special : String} {component : Component} {tag : Import}

lemma Derives.isName_specifier (h : Derives ctx hasScript hasStyle component cur next) :
    ∀ tag ∈ component.imports, isName tag.specifier.toList = true := by
  induction h with
  | stop hrest => exact fun tag htag => (nomatch htag)
  | cons hgoes hitem hpart _ ih =>
    cases hpart with
    | importTag tag =>
      refine List.forall_mem_cons.mpr ⟨?_, ih⟩
      cases hitem with
      | importTag _ hopens htag =>
        obtain ⟨st₀, hat, himport⟩ := hopens
        obtain ⟨st₁, _, _, _, hspecifier, -⟩ := gives_importTag_iff.mp htag
        have hsound := (Token.readAt_spec himport.next.read).1
        rw [hspecifier.lexeme_eq] at hsound
        exact hsound
    | node _ | script _ _ _ | style _ _ _ | raw _ _ => exact ih

lemma ofChars_chars_iff (hname : isName tag.specifier.toList = true) (special : String) :
    (∃ component, ofChars special tag.chars = .ok component ∧
      component.imports.map (fun tag' => (tag'.specifier, tag'.source)) =
        [(tag.specifier, tag.source)]) ↔ '\\' ∉ tag.source.toList := by
  have hwhole : tag.chars = tag.chars ++ [] := (List.append_nil _).symm
  constructor
  · rintro ⟨component, hcomponent, himports⟩
    obtain ⟨_, hderives⟩ := ofChars_eq_ok_iff.mp hcomponent
    cases hderives with
    | stop hrest => cases hrest
    | cons hgoes hitem hpart _ =>
      rw [Cursor.ofSource, hwhole] at hitem
      obtain ⟨tag', rfl⟩ := exists_importTag_of_item hitem rfl (tag.blockKeyword?_chars 0 [])
      cases hpart with
      | importTag _ =>
        have hhead := (List.cons.inj himports).1
        exact (Import.derives_chars_iff hname _ 0 []).mp
          ⟨tag', _, hitem, congrArg Prod.fst hhead, congrArg Prod.snd hhead⟩
  · intro hsource
    have hitem := Import.derives_chars hname hsource { special } 0 []
    rw [← hwhole] at hitem
    exact ⟨_, ofChars_eq_ok_iff.mpr ⟨_, .cons (goesOn_of_item hitem trivial) hitem (.importTag _)
      (.stop rfl)⟩, rfl⟩

/-- **Which imports are read back from what they are printed as.** The text that an import of a
component is printed as is read as an import with the same name and the same source, wherever it
stands and also alone, if and only if the source has no backslash. -/
theorem imports_read_back_iff (hparse : Component.parse source special = .ok component)
    (htag : tag ∈ component.imports) (unit : String) :
    (∀ (ctx : MarkupContext) (before after : List Char),
      (∃ tag' next, MarkupGrammar.Derives (.item ctx (.importTag tag'))
          ⟨byteLength before, (tag.doc.render unit).toList ++ after⟩ next ∧
        tag'.specifier = tag.specifier ∧ tag'.source = tag.source) ↔
        '\\' ∉ tag.source.toList) ∧
    ∀ special', (∃ component', Component.parse (tag.doc.render unit) special' = .ok component' ∧
      component'.imports.map (fun tag' => (tag'.specifier, tag'.source)) =
        [(tag.specifier, tag.source)]) ↔ '\\' ∉ tag.source.toList := by
  obtain ⟨_, hderives⟩ := ofChars_eq_ok_iff.mp (parse_eq_ok_iff.mp hparse)
  have hname := hderives.isName_specifier tag htag
  simp only [parse_eq_ok_iff, tag.toList_render_doc]
  exact ⟨fun ctx before after => Import.derives_chars_iff hname ctx _ _, ofChars_chars_iff hname⟩

/-- A quote and a line feed in a source are read back. -/
theorem imports_read_back_iff_quote : ∃ component tag,
    Component.parse "\x7b% import A from 'a\"\\n' %\x7d" "zvelte" = .ok component ∧
    tag ∈ component.imports ∧ tag.source = "a\"\n" ∧ ∃ component',
      Component.parse (tag.doc.render "\t") "zvelte" = .ok component' ∧
      component'.imports.map (fun tag' => (tag'.specifier, tag'.source)) = [("A", "a\"\n")] := by
  have hcheck : (Component.parse "\x7b% import A from 'a\"\\n' %\x7d" "zvelte").toOption.any
      (fun component => component.imports.map (fun tag => (tag.specifier, tag.source)) =
        [("A", "a\"\n")]) = true := by
    decide +kernel
  obtain ⟨component, hparse, hview⟩ := exists_eq_ok_of_any hcheck
  obtain ⟨tag, himports, htag⟩ := List.map_eq_singleton_iff.mp (of_decide_eq_true hview)
  obtain ⟨hname, hsource⟩ := Prod.mk.inj htag
  have hmem : tag ∈ component.imports := himports ▸ List.mem_singleton_self tag
  obtain ⟨component', hagain, himports'⟩ :=
    ((imports_read_back_iff hparse hmem "\t").2 "zvelte").mpr (by rw [hsource]; decide)
  refine ⟨component, tag, hparse, hmem, hsource, component', hagain, ?_⟩
  rw [himports', hname, hsource]

/-- **A backslash in a source is lost**: it is printed as it is, and stands for nothing when it is
read again. -/
theorem formatSource_import_backslash :
    (formatSource {} "\x7b% import A from \"a\\\\b\" %\x7d").toOption =
        some "\x7b% import A from \"a\\b\" %\x7d\n\n" ∧
      (formatSource {} "\x7b% import A from \"a\\b\" %\x7d\n\n").toOption =
        some "\x7b% import A from \"ab\" %\x7d\n\n" := by
  decide +kernel

end Component

end ComponentTemplate
