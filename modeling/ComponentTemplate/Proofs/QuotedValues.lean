import ComponentTemplate.Proofs.LineTexts

/-!
# Values between quotes

The value of an attribute is a sequence of texts and tags. Between quotes it is read part by part:
a text goes up to the quote or to two braces. Which sequences can stand between given quotes is
decided by their texts alone, and such a sequence is read again from the texts of its parts.
Printing adds to a part only if it is a text that ends its line: the indentation of the next one.
-/

namespace ComponentTemplate

open MarkupGrammar
open List (append_assoc cons_append flatMap_cons isChain_cons map_cons mem_cons mem_cons_self)

/-! ## Texts up to a quote or a tag -/

def tagBraces : List Char := ['\x7b', '\x7b']

lemma not_tagBraces_concat (h : ¬ tagBraces <:+: data)
    (hc : c = '\x7b' → data.getLast? ≠ some '\x7b') : ¬ tagBraces <:+: data ++ [c] := by
  rw [List.infix_concat_iff, not_or]
  refine ⟨fun hsuffix => ?_, h⟩
  obtain ⟨front, hfront⟩ := hsuffix
  rw [tagBraces, List.append_cons] at hfront
  obtain ⟨hdata, hc'⟩ := List.append_inj' hfront rfl
  exact hc (List.cons.inj hc').1.symm (by simp [← hdata])

lemma not_tagBraces_append (h : ¬ tagBraces <:+: data) (hmore : '\x7b' ∉ more) :
    ¬ tagBraces <:+: data ++ more := by
  induction more generalizing data with
  | nil => simpa using h
  | cons c more ih =>
    rw [mem_cons, not_or] at hmore
    obtain ⟨hc, hmore⟩ := hmore
    rw [List.append_cons]
    exact ih (not_tagBraces_concat h fun heq => absurd heq.symm hc) hmore

section QuotedText

variable {quote : Char}

lemma exists_quotedText_append (quote : Char) (cs : List Char) :
    ∃ rest, cs = quotedText quote cs ++ rest ∧ quotedText quote rest = [] := by
  induction cs with
  | nil => exact ⟨[], rfl, rfl⟩
  | cons c cs ih =>
    rw [quotedText]
    split
    · rename_i hstop
      exact ⟨c :: cs, rfl, by rw [quotedText, if_pos hstop]⟩
    · obtain ⟨rest, hcs, hrest⟩ := ih
      exact ⟨rest, by rw [cons_append, ← hcs], hrest⟩

lemma quote_not_mem_quotedText (quote : Char) (cs : List Char) : quote ∉ quotedText quote cs := by
  induction cs with
  | nil => simp [quotedText]
  | cons c cs ih =>
    rw [quotedText]
    split
    · simp
    · rename_i hstop
      simp only [Bool.or_eq_true, beq_iff_eq, not_or] at hstop
      simp [Ne.symm hstop.1, ih]

lemma not_tagBraces_quotedText (hcs : cs = quotedText quote cs ++ rest) :
    ¬ tagBraces <:+: quotedText quote cs ++ rest.take 1 := by
  induction cs generalizing rest with
  | nil =>
    have hrest : rest = [] := by simpa [quotedText] using hcs
    simp [quotedText, hrest, tagBraces]
  | cons c cs ih =>
    rw [quotedText] at hcs ⊢
    split
    · -- one character is too short
      intro hinfix
      have hlength := hinfix.length_le
      simp [tagBraces] at hlength
    · rename_i hstop
      rw [if_neg hstop, cons_append] at hcs
      have hcs := (List.cons.inj hcs).2
      rw [cons_append, List.infix_cons_iff, not_or]
      refine ⟨fun hstart => ?_, ih hcs⟩
      obtain ⟨hc, hnext⟩ := List.cons_prefix_cons.mp hstart
      have hhead : cs.head? = some '\x7b' := by
        obtain ⟨more, hmore⟩ := hnext
        rw [hcs]
        cases hquoted : quotedText quote cs with
        | nil =>
          cases rest with
          | nil => simp [hquoted] at hmore
          | cons d rest =>
            have hd : '\x7b' = d ∧ more = [] := by simpa [hquoted] using hmore
            simp [← hd.1]
        | cons d ds =>
          rw [hquoted] at hmore
          simp [← (List.cons.inj hmore).1]
      exact hstop (by simp [← hc, hhead])

lemma quotedText_append_of_stop (hquote : quote ∉ data)
    (hbraces : ¬ tagBraces <:+: data ++ rest.take 1) (hrest : quotedText quote rest = []) :
    quotedText quote (data ++ rest) = data := by
  induction data with
  | nil => exact hrest
  | cons c data ih =>
    rw [mem_cons, not_or] at hquote
    obtain ⟨hc, hquote⟩ := hquote
    rw [cons_append, List.infix_cons_iff, not_or] at hbraces
    rw [cons_append, quotedText, if_neg, ih hquote hbraces.2]
    simp only [Bool.or_eq_true, beq_iff_eq, Bool.and_eq_true, not_or, not_and]
    refine ⟨Ne.symm hc, ?_⟩
    rintro rfl hhead
    refine hbraces.1 (List.cons_prefix_cons.mpr ⟨rfl, ?_⟩)
    cases data with
    | nil =>
      cases rest with
      | nil => simp at hhead
      | cons d rest => simpa using hhead.symm
    | cons d data => simpa using hhead.symm

end QuotedText

lemma startsWith_tag_iff {cur : Cursor} :
    cur.startsWith "\x7b\x7b" = true ↔ tagBraces <+: cur.rest :=
  List.isPrefixOf_iff_prefix

/-! ## Sequences of parts -/

/-- **A part can stand between quotes**: a text is not empty and has neither the quote nor two
braces in a row. -/
def AttributePart.Fits (quote : Char) : AttributePart → Prop
  | .text data => data.toList ≠ [] ∧ quote ∉ data.toList ∧ ¬ tagBraces <:+: data.toList
  | .tag .. => True

/-- **Two parts can stand in a row**: texts are apart, and no text ends with a brace before a
tag. -/
def AttributePart.Meets : AttributePart → AttributePart → Prop
  | .text _, .text _ => False
  | .text data, .tag .. => data.toList.getLast? ≠ some '\x7b'
  | .tag .., _ => True

/-- **A sequence of parts can stand between quotes.** -/
structure Quotable (quote : Char) (parts : List AttributePart) : Prop where
  fits : ∀ part ∈ parts, part.Fits quote
  meets : parts.IsChain AttributePart.Meets

def AttributePart.StartsIn (quote : Char) (cs : List Char) : AttributePart → Prop
  | .text data => data.toList = quotedText quote cs ∧ quotedText quote cs ≠ []
  | .tag .. => tagBraces <+: cs

namespace MarkupGrammar

lemma quotedText_cons (hc : c ≠ quote) (htag : ¬ tagBraces <+: c :: cs) :
    quotedText quote (c :: cs) = c :: quotedText quote cs := by
  rw [quotedText, if_neg]
  simp only [Bool.or_eq_true, beq_iff_eq, Bool.and_eq_true, not_or, not_and]
  refine ⟨hc, ?_⟩
  rintro rfl hhead
  cases cs with
  | nil => simp at hhead
  | cons d cs =>
    obtain rfl : d = '\x7b' := by simpa using hhead
    exact htag ⟨cs, rfl⟩

lemma quotable_of_eq_ok {opening : Cursor} {quote : Char} {cur : Cursor}
    {p : Scanned cur.remaining (List AttributePart)} (h : quotedParts opening quote cur = .ok p) :
    Quotable quote p.value ∧ ∀ part ∈ p.value.head?, part.StartsIn quote cur.rest := by
  rw [quotedParts.eq_def] at h
  split at h
  · cases h
  · rename_i c cs hrest
    have hpos := Cursor.remaining_pos hrest
    dsimp only at h
    split at h
    · rename_i htag
      obtain ⟨⟨e, after, hlt⟩, -, h⟩ := bind_eq_ok.mp h
      obtain ⟨⟨parts, next, hlt'⟩, hparts, h⟩ := bind_eq_ok.mp h
      cases h
      obtain ⟨hquotable, -⟩ := quotable_of_eq_ok hparts
      refine ⟨⟨List.forall_mem_cons.mpr ⟨trivial, hquotable.fits⟩, ?_⟩, ?_⟩
      · exact isChain_cons.mpr ⟨fun _ _ => trivial, hquotable.meets⟩
      · rintro _ ⟨⟩
        exact startsWith_tag_iff.mp htag
    · rename_i htag
      rw [startsWith_tag_iff, hrest] at htag
      split at h
      · cases h
        exact ⟨⟨by simp, .nil⟩, by simp⟩
      · rename_i hc
        obtain ⟨⟨parts, next, hlt⟩, hparts, h⟩ := bind_eq_ok.mp h
        cases h
        obtain ⟨hquotable, hopens⟩ := quotable_of_eq_ok hparts
        -- the text goes up to a place where no text starts
        have htext := quotedText_cons hc htag
        obtain ⟨rest, hcs, hstop⟩ := exists_quotedText_append quote (c :: cs)
        have hafter : (cur.skip (c :: quotedText quote cs).length).rest = rest := by
          rw [Cursor.rest_skip, hrest, ← htext]
          nth_rewrite 2 [hcs]
          exact List.drop_left
        rw [hafter] at hopens
        have hbraces := not_tagBraces_quotedText hcs
        rw [htext] at hbraces
        have hquote : quote ∉ c :: quotedText quote cs :=
          htext ▸ quote_not_mem_quotedText quote (c :: cs)
        refine ⟨⟨List.forall_mem_cons.mpr ⟨?_, hquotable.fits⟩, ?_⟩, ?_⟩
        · refine ⟨by simp, by simpa using hquote, fun hinfix => hbraces ?_⟩
          rw [String.toList_ofList] at hinfix
          exact hinfix.trans (List.prefix_append ..).isInfix
        · refine isChain_cons.mpr ⟨fun part hpart => ?_, hquotable.meets⟩
          have hopens := hopens part hpart
          cases part with
          | text data => exact absurd hstop hopens.2
          | tag span e =>
            intro hlast
            obtain ⟨more, rfl⟩ := hopens
            rw [String.toList_ofList, List.getLast?_eq_some_iff] at hlast
            obtain ⟨front, hfront⟩ := hlast
            refine hbraces ⟨front, [], ?_⟩
            rw [hfront]
            simp [tagBraces]
        · rintro _ ⟨⟩
          rw [hrest, AttributePart.StartsIn, htext]
          exact ⟨String.toList_ofList, by simp⟩
termination_by cur.remaining
decreasing_by
  · rw [Cursor.remaining_skip, List.length_cons]
    omega
  · exact hlt

end MarkupGrammar

/-! ## The quotes that are printed -/

namespace AttributePart

def quoteChar (doubleQuotes : Bool) (parts : List AttributePart) : Char :=
  if quote doubleQuotes parts = "'" then '\'' else '"'

lemma toList_quote (doubleQuotes : Bool) (parts : List AttributePart) :
    (quote doubleQuotes parts).toList = [quoteChar doubleQuotes parts] := by
  unfold quoteChar quote
  dsimp only
  split
  · rfl
  · split <;> rfl

lemma quoteChar_eq (doubleQuotes : Bool) (parts : List AttributePart) :
    quoteChar doubleQuotes parts = '"' ∨ quoteChar doubleQuotes parts = '\'' := by
  unfold quoteChar
  split
  · exact .inr rfl
  · exact .inl rfl

lemma any_hasChar_eq_false {c : Char} {parts : List AttributePart} :
    parts.any (hasChar c) = false ↔ ∀ data, .text data ∈ parts → c ∉ data.toList := by
  rw [List.any_eq_false]
  refine ⟨fun h data hdata => by simpa [hasChar] using h _ hdata, fun h part hpart => ?_⟩
  cases part with
  | text data => simpa [hasChar] using h data hpart
  | tag span e => simp [hasChar]

/-- **The quote that is printed around a value occurs in none of its texts**, if that is so of the
quote in the source. -/
theorem quoteChar_not_mem {quote : Char} (hquote : quote = '"' ∨ quote = '\'')
    {parts : List AttributePart} (h : ∀ data, .text data ∈ parts → quote ∉ data.toList) :
    ∀ data, .text data ∈ parts → quoteChar (quote = '"') parts ∉ data.toList := by
  rw [← any_hasChar_eq_false] at h ⊢
  rcases hquote with rfl | rfl
  · simp [quoteChar, AttributePart.quote, h]
  · -- double quotes are put around only if none occurs
    cases hdouble : parts.any (hasChar '"') with
    | true => simp [quoteChar, AttributePart.quote, h, hdouble]
    | false => cases hsingle : isSingleText parts <;>
        simp [quoteChar, AttributePart.quote, h, hdouble, hsingle]

end AttributePart

/-- **A value can stand between quotes**: it has parts that can, or is empty. -/
def QuotedValue (quote : Char) (parts : List AttributePart) : Prop :=
  parts = [.text ""] ∨ parts ≠ [] ∧ Quotable quote parts

lemma MarkupGrammar.quotedValue_of_gives (h : Gives (quotedParts opening quote cur) found next) :
    QuotedValue quote (if found.isEmpty then [.text ""] else found) := by
  obtain ⟨_, h⟩ := h
  cases found with
  | nil => exact .inl rfl
  | cons part found => exact .inr ⟨List.cons_ne_nil _ _, (quotable_of_eq_ok h).1⟩

namespace QuotedValue

variable {quote : Char} {parts : List AttributePart}

lemma meets (h : QuotedValue quote parts) : parts.IsChain AttributePart.Meets := by
  rcases h with rfl | ⟨-, h⟩
  · exact .singleton _
  · exact h.meets

lemma quote_not_mem (h : QuotedValue quote parts) :
    ∀ data, .text data ∈ parts → quote ∉ data.toList := by
  intro data hdata
  rcases h with rfl | ⟨-, h⟩
  · obtain rfl : data = "" := by simpa using hdata
    simp
  · exact (h.fits _ hdata).2.1

lemma of_not_mem (h : QuotedValue quote parts)
    (hquote : ∀ data, .text data ∈ parts → quote' ∉ data.toList) : QuotedValue quote' parts := by
  rcases h with h | ⟨hne, h⟩
  · exact .inl h
  · refine .inr ⟨hne, fun part hpart => ?_, h.meets⟩
    have hfits := h.fits part hpart
    cases part with
    | text data => exact ⟨hfits.1, hquote data hpart, hfits.2.2⟩
    | tag span e => trivial

end QuotedValue

/-! ## The texts of parts -/

namespace AttributePart

def text? : AttributePart → Option String
  | .text data => some data
  | .tag .. => none

def expr? : AttributePart → Option Expr
  | .text _ => none
  | .tag _ e => some e

/-- **The text of a part**: a tag is written at a level of indentation. -/
def chars (breaks : Breaks) (unit : String) (level : Nat) : AttributePart → List Char
  | .text data => data.toList
  | .tag span e => ((tagDoc breaks span.start e).renderAt unit level).toList

/-- **A part with the indentation that is printed after it**: a text that ends its line is
followed by that of the next line. -/
def indented (unit : String) (level : Nat) : AttributePart → AttributePart
  | .text data => .text (String.ofList (data.toList ++ Doc.indentationAfter unit level data.toList))
  | .tag span e => .tag span e

end AttributePart

section Texts

variable {breaks : Breaks} {unit : String} {level : Nat} {parts : List AttributePart}

lemma Doc.Stands.congr {a b : Doc} {cs : List Char} (h : a.Stands unit level cs)
    (hwrite : ∀ w, b.write w = a.write w) : b.Stands unit level cs := by
  intro w hunit hlevel
  rw [hwrite]
  exact h w hunit hlevel

/-- **The parts of a value are printed as their texts**, each text with the indentation after it.
A value that starts with a tag may also start a line. -/
theorem goesOn_parts (breaks : Breaks) (h : parts.IsChain AttributePart.Meets) {closing : Doc}
    {cs : List Char} (hclosing : closing.Stands unit level cs) :
    (Doc.concat (parts.map (·.doc breaks)) ++ closing).GoesOn unit level
        ((parts.map (·.indented unit level)).flatMap (·.chars breaks unit level) ++ cs) ∧
      ((∀ part ∈ parts.head?, part.expr?.isSome) →
        (Doc.concat (parts.map (·.doc breaks)) ++ closing).Stands unit level
          ((parts.map (·.indented unit level)).flatMap (·.chars breaks unit level) ++ cs)) := by
  induction parts with
  | nil => exact ⟨hclosing.goesOn.congr fun _ => rfl, fun _ => hclosing.congr fun _ => rfl⟩
  | cons part parts ih =>
    obtain ⟨hgoesOn, hstands⟩ := ih h.tail
    simp only [map_cons, flatMap_cons, append_assoc]
    cases part with
    | text data =>
      -- what follows a text is a tag or the closing quote
      have hnext : ∀ part ∈ parts.head?, part.expr?.isSome := by
        intro part hpart
        cases part with
        | text _ => exact absurd ((isChain_cons.mp h).1 _ hpart) id
        | tag _ _ => rfl
      refine ⟨?_, fun hhead => absurd (hhead _ rfl) (by simp [AttributePart.expr?])⟩
      have htext := (hstands hnext).goesOn_text_append data
      simp only [AttributePart.indented, AttributePart.chars, String.toList_ofList,
        append_assoc]
      exact htext.congr fun _ => rfl
    | tag span e =>
      have htag : ((AttributePart.tag span e).doc breaks).Stands unit level
          ((AttributePart.tag span e).chars breaks unit level) := stands_tagDoc breaks span.start e
      have hall := htag.append hgoesOn
      exact ⟨hall.goesOn.congr fun _ => rfl, fun _ => hall.congr fun _ => rfl⟩

end Texts

/-! ## Parts with indentation -/

section Indented

variable {unit : String} {level : Nat} {quote : Char} {parts : List AttributePart}

lemma append_indentationAfter_eq_iff :
    String.ofList (data.toList ++ Doc.indentationAfter unit level data.toList) = data ↔
      indentationAt unit level = [] ∨ data.toList.getLast? ≠ some '\n' := by
  unfold Doc.indentationAfter
  split <;> simp [*]

variable {part : AttributePart}

lemma AttributePart.indented_eq_self
    (h : indentationAt unit level = [] ∨ ∀ data, part = .text data → data.toList.getLast? ≠ some '\n') :
    part.indented unit level = part := by
  cases part with
  | tag span e => rfl
  | text data =>
    exact congrArg AttributePart.text
      (append_indentationAfter_eq_iff.mpr (h.imp_right (· data rfl)))

lemma blank_indentationAfter (hunit : Text.Blank unit.toList) (level : Nat) (text : List Char) :
    Text.Blank (Doc.indentationAfter unit level text) := by
  unfold Doc.indentationAfter
  split
  · exact blank_indentationAt hunit level
  · exact .nil

lemma not_mem_of_blank (h : Text.Blank cs) (hc : Text.isBlank c = false) : c ∉ cs := by
  intro hmem
  rw [h c hmem] at hc
  cases hc

lemma isBlank_quote (hquote : quote = '"' ∨ quote = '\'') : Text.isBlank quote = false := by
  rcases hquote with rfl | rfl <;> decide

lemma AttributePart.Fits.indented (h : part.Fits quote) (hunit : Text.Blank unit.toList)
    (hquote : quote = '"' ∨ quote = '\'') (level : Nat) :
    (part.indented unit level).Fits quote := by
  cases part with
  | tag span e => trivial
  | text data =>
    obtain ⟨hne, hmem, hbraces⟩ := h
    have hblank := blank_indentationAfter hunit level data.toList
    simp only [AttributePart.indented, AttributePart.Fits, String.toList_ofList, List.mem_append,
      not_or]
    exact ⟨by simp [hne], ⟨hmem, not_mem_of_blank hblank (isBlank_quote hquote)⟩,
      not_tagBraces_append hbraces (not_mem_of_blank hblank (by decide))⟩

lemma AttributePart.Meets.indented (h : part.Meets part') (hunit : Text.Blank unit.toList)
    (level : Nat) : (part.indented unit level).Meets (part'.indented unit level) := by
  cases part with
  | tag span e => trivial
  | text data =>
    cases part' with
    | text data' => exact absurd h id
    | tag span e =>
      have hblank := blank_indentationAfter hunit level data.toList
      simp only [AttributePart.indented, AttributePart.Meets, String.toList_ofList]
      intro hlast
      rw [List.getLast?_append] at hlast
      cases hafter : (Doc.indentationAfter unit level data.toList).getLast? with
      | none =>
        rw [hafter, Option.none_or] at hlast
        exact h hlast
      | some d =>
        rw [hafter, Option.some_or, Option.some_inj] at hlast
        subst hlast
        exact not_mem_of_blank hblank (by decide) (List.mem_of_getLast? hafter)

lemma QuotedValue.indented (h : QuotedValue quote parts) (hunit : Text.Blank unit.toList)
    (hquote : quote = '"' ∨ quote = '\'') (level : Nat) :
    QuotedValue quote (parts.map (·.indented unit level)) := by
  rcases h with rfl | ⟨hne, h⟩
  · exact .inl rfl
  · refine .inr ⟨by simpa using hne, fun part hpart => ?_, ?_⟩
    · obtain ⟨part, hmem, rfl⟩ := List.mem_map.mp hpart
      exact (h.fits part hmem).indented hunit hquote level
    · rw [List.isChain_map]
      exact h.meets.imp fun _ _ hmeets => hmeets.indented hunit level

end Indented

/-! ## Reading values again -/

section Reading

variable {breaks : Breaks} {unit : String} {level : Nat} {quote : Char} {parts : List AttributePart}

lemma Expr.Braced.tagBraces_prefix {e : Expr} {cs : List Char} (h : e.Braced breaks unit cs)
    (rest : List Char) : tagBraces <+: cs ++ rest := by
  obtain ⟨level, before, after, -, -, -, rfl⟩ := h
  exact ⟨_, by rw [append_assoc]; rfl⟩

lemma not_tagBraces_quote (hquote : quote = '"' ∨ quote = '\'') (rest : List Char) :
    ¬ tagBraces <+: quote :: rest := by
  rintro ⟨more, hmore⟩
  rw [← (List.cons.inj hmore).1] at hquote
  revert hquote
  decide

lemma quotedText_parts (breaks : Breaks) (level : Nat) (hquote : quote = '"' ∨ quote = '\'')
    (h : parts.IsChain AttributePart.Meets) {data : String}
    (hmeets : ∀ part ∈ parts.head?, (AttributePart.text data).Meets part)
    (hdata : ¬ tagBraces <:+: data.toList)
    (htags : ∀ span e, .tag span e ∈ parts → e.normal.WellFormed) (hunit : Text.Blank unit.toList)
    (rest : List Char) :
    quotedText quote (parts.flatMap (·.chars breaks unit level) ++ quote :: rest) = [] ∧
      ¬ tagBraces <:+: data.toList ++
        (parts.flatMap (·.chars breaks unit level) ++ quote :: rest).take 1 := by
  cases parts with
  | nil =>
    refine ⟨by simp [quotedText], not_tagBraces_append hdata ?_⟩
    rcases hquote with rfl | rfl <;> simp
  | cons part parts =>
    cases part with
    | text data' => exact absurd (hmeets _ rfl) id
    | tag span e =>
      have hbraced : e.Braced breaks unit ((AttributePart.tag span e).chars breaks unit level) :=
        braced_tagDoc (htags span e (mem_cons_self ..)) hunit span.start
      rw [flatMap_cons, append_assoc]
      obtain ⟨more, hmore⟩ :=
        hbraced.tagBraces_prefix (parts.flatMap (·.chars breaks unit level) ++ quote :: rest)
      rw [← hmore]
      exact ⟨by simp [tagBraces, quotedText], not_tagBraces_concat hdata fun _ => hmeets _ rfl⟩

lemma exists_cons_of_quotedText (h : quotedText quote cs ≠ []) :
    ∃ c ds, cs = c :: ds ∧ c ≠ quote ∧ ¬ tagBraces <+: cs := by
  cases cs with
  | nil => exact absurd rfl h
  | cons c ds =>
    refine ⟨c, ds, rfl, ?_, ?_⟩
    · rintro rfl
      exact h (by simp [quotedText])
    · rintro ⟨more, hmore⟩
      rw [← hmore] at h
      exact h (by simp [tagBraces, quotedText])

lemma gives_quotedParts_text {opening next : Cursor} {o : Nat} {data more : List Char}
    {found : List AttributePart} (hne : data ≠ []) (hdata : quotedText quote (data ++ more) = data)
    (hmore : Gives (quotedParts opening quote ⟨o + byteLength data, more⟩) found next) :
    Gives (quotedParts opening quote ⟨o, data ++ more⟩) (.text (String.ofList data) :: found)
      next := by
  obtain ⟨c, cs, hcs, hc, htag⟩ := exists_cons_of_quotedText (hdata ▸ hne)
  have htext : c :: quotedText quote cs = data := by
    rw [← quotedText_cons hc (hcs ▸ htag), ← hcs, hdata]
  have hskip : (⟨o, c :: cs⟩ : Cursor).skip (c :: quotedText quote cs).length =
      ⟨o + byteLength data, more⟩ := by
    rw [htext, ← hcs, Cursor.skip_append]
  rw [hcs] at htag ⊢
  rw [quotedParts.eq_def]
  dsimp only
  rw [if_neg (startsWith_tag_iff.not.mpr htag), if_neg hc]
  refine gives_bind.mpr ⟨found, next, by rw [hskip]; exact hmore, gives_pure.mpr ⟨?_, rfl⟩⟩
  exact congrArg (fun text => AttributePart.text (String.ofList text) :: found) htext

lemma gives_quotedParts_tag {opening cur after next : Cursor} {e : Expr}
    {found : List AttributePart} (hstart : tagBraces <+: cur.rest) (htag : Embeds cur e after)
    (hmore : Gives (quotedParts opening quote after) found next) :
    Gives (quotedParts opening quote cur) (.tag (cur.spanTo after) e :: found) next := by
  obtain ⟨o, cs⟩ := cur
  obtain ⟨rest, rfl⟩ : ∃ rest, cs = '\x7b' :: '\x7b' :: rest := hstart.imp fun _ h => h.symm
  rw [quotedParts.eq_def]
  dsimp only
  rw [if_pos (startsWith_tag_iff.mpr hstart)]
  exact gives_bind.mpr ⟨e, after, gives_inlineTag_iff.mpr htag,
    gives_bind.mpr ⟨found, next, hmore, gives_pure.mpr ⟨rfl, rfl⟩⟩⟩

/-- **The texts of parts are read as the parts**, up to and with the closing quote. -/
theorem exists_gives_quotedParts (level : Nat) (hquote : quote = '"' ∨ quote = '\'')
    (h : Quotable quote parts)
    (htags : ∀ span e, .tag span e ∈ parts → ∀ level, e.ReadsBack breaks unit level)
    (hunit : Text.Blank unit.toList) (opening : Cursor) (o : Nat) (rest : List Char) :
    ∃ found,
      Gives (quotedParts opening quote
        ⟨o, parts.flatMap (·.chars breaks unit level) ++ quote :: rest⟩) found
        ⟨o + byteLength (parts.flatMap (·.chars breaks unit level)) + 1, rest⟩ ∧
      found.map AttributePart.normal = parts.map AttributePart.normal := by
  induction parts generalizing o with
  | nil =>
    refine ⟨[], ?_, rfl⟩
    rw [List.flatMap_nil, List.nil_append, quotedParts.eq_def]
    dsimp only
    rw [if_neg (startsWith_tag_iff.not.mpr (not_tagBraces_quote hquote rest)), if_pos rfl]
    refine gives_pure.mpr ⟨rfl, ?_⟩
    rcases hquote with rfl | rfl <;> rfl
  | cons part parts ih =>
    have hparts : Quotable quote parts :=
      ⟨fun part hpart => h.fits part (List.mem_cons_of_mem _ hpart), h.meets.tail⟩
    have htagsRest : ∀ span e, .tag span e ∈ parts → ∀ level, e.ReadsBack breaks unit level :=
      fun span e he => htags span e (List.mem_cons_of_mem _ he)
    obtain ⟨found, hfound, hnormal⟩ :=
      ih hparts htagsRest (o + byteLength (part.chars breaks unit level))
    rw [Nat.add_assoc o, ← byteLength_append] at hfound
    rw [flatMap_cons, append_assoc]
    cases part with
    | text data =>
      obtain ⟨hne, hmem, hbraces⟩ := h.fits _ (mem_cons_self ..)
      obtain ⟨hstop, hnext⟩ := quotedText_parts breaks level hquote
        hparts.meets (isChain_cons.mp h.meets).1 hbraces
        (fun span e he => (htagsRest span e he 0).wellFormed) hunit rest
      refine ⟨_, gives_quotedParts_text hne (quotedText_append_of_stop hmem hnext hstop) hfound, ?_⟩
      rw [map_cons, map_cons, hnormal, AttributePart.chars, String.ofList_toList]
    | tag span e =>
      have hread := htags span e (mem_cons_self ..)
      have hbraced : e.Braced breaks unit ((AttributePart.tag span e).chars breaks unit level) :=
        braced_tagDoc (hread 0).wellFormed hunit span.start
      obtain ⟨e', he', hembeds⟩ := hbraced.exists_embeds hread o
        (parts.flatMap (·.chars breaks unit level) ++ quote :: rest)
      refine ⟨_, gives_quotedParts_tag (hbraced.tagBraces_prefix _) hembeds hfound, ?_⟩
      rw [map_cons, map_cons, hnormal, AttributePart.normal, AttributePart.normal, he']

lemma exists_gives_attributeValue (level : Nat) (hquote : quote = '"' ∨ quote = '\'')
    (h : QuotedValue quote parts)
    (htags : ∀ span e, .tag span e ∈ parts → ∀ level, e.ReadsBack breaks unit level)
    (hunit : Text.Blank unit.toList) (o : Nat) (rest : List Char) :
    ∃ found,
      Gives (attributeValue
        ⟨o, quote :: (parts.flatMap (·.chars breaks unit level) ++ quote :: rest)⟩)
        (found, decide (quote = '"'))
        ⟨o + byteLength (parts.flatMap (·.chars breaks unit level)) + 2, rest⟩ ∧
      found.map AttributePart.normal = parts.map AttributePart.normal := by
  have hlength : Char.utf8Size quote = 1 := by rcases hquote with rfl | rfl <;> rfl
  -- an empty value is read without parts
  obtain ⟨found, hfound, hnormal⟩ : ∃ found,
      Gives (quotedParts ⟨o, quote :: (parts.flatMap (·.chars breaks unit level) ++ quote :: rest)⟩
        quote ⟨o + 1, parts.flatMap (·.chars breaks unit level) ++ quote :: rest⟩) found
        ⟨o + byteLength (parts.flatMap (·.chars breaks unit level)) + 2, rest⟩ ∧
      (if found.isEmpty then [AttributePart.text ""] else found).map AttributePart.normal =
        parts.map AttributePart.normal := by
    rw [show o + byteLength (parts.flatMap (·.chars breaks unit level)) + 2 =
      o + 1 + byteLength (parts.flatMap (·.chars breaks unit level)) + 1 by omega]
    rcases h with rfl | ⟨hne, h⟩
    · have hempty : Quotable quote [] := ⟨by simp, .nil⟩
      have htags : ∀ span e, .tag span e ∈ ([] : List AttributePart) →
          ∀ level, e.ReadsBack breaks unit level := by simp
      obtain ⟨found, hfound, hnormal⟩ := exists_gives_quotedParts level hquote hempty htags hunit
        ⟨o, quote :: quote :: rest⟩ (o + 1) rest
      obtain rfl : found = [] := by simpa using hnormal
      exact ⟨[], hfound, rfl⟩
    · obtain ⟨found, hfound, hnormal⟩ := exists_gives_quotedParts level hquote h htags hunit
        ⟨o, quote :: (parts.flatMap (·.chars breaks unit level) ++ quote :: rest)⟩ (o + 1) rest
      have hfoundNe : found.isEmpty = false := by
        have hlength := congrArg List.length hnormal
        rw [List.isEmpty_eq_false_iff, ← List.length_pos_iff]
        rw [List.length_map, List.length_map] at hlength
        rw [hlength, List.length_pos_iff]
        exact hne
      exact ⟨found, hfound, by rw [hfoundNe]; exact hnormal⟩
  refine ⟨_, ?_, hnormal⟩
  rw [attributeValue.eq_def]
  dsimp only
  rw [if_neg (startsWith_tag_iff.not.mpr (not_tagBraces_quote hquote _)), if_pos hquote]
  refine gives_bind.mpr ⟨found, _, ?_, gives_pure.mpr ⟨rfl, rfl⟩⟩
  have hskip : (⟨o, quote :: (parts.flatMap (·.chars breaks unit level) ++ quote :: rest)⟩ :
      Cursor).skip 1 = ⟨o + 1, parts.flatMap (·.chars breaks unit level) ++ quote :: rest⟩ := by
    simp [Cursor.skip, hlength]
  rw [hskip]
  exact hfound

end Reading

end ComponentTemplate
