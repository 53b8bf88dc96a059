import ComponentTemplate.Proofs.Lookahead
import ComponentTemplate.Proofs.Tags

/-!
# The grammar of attributes

The attributes of an opening tag as relations between what is read and two places of the source,
with one rule for each way in which the reading functions can succeed.
-/

namespace ComponentTemplate

namespace MarkupGrammar

open Grammar (gives_expression_iff)

/-! ## Values -/

/-- **An expression stands between double braces.** -/
def Embeds (cur : Cursor) (e : Expr) (next : Cursor) : Prop :=
  ∃ st st₁ : Stream, st.At (cur.skip 2) ∧ Grammar.Derives (.expression e) st st₁ ∧
    st₁.EndsInline next

/-- **The parts of a quoted value**, up to and with the closing quote. -/
inductive QuotedParts (quote : Char) : Cursor → List AttributePart → Cursor → Prop
  | close {cur} {cs} (hrest : cur.rest = quote :: cs) : QuotedParts quote cur [] (cur.skip 1)
  | tag {cur after next} {e} {parts}
      (htag : Embeds cur e after) (hparts : QuotedParts quote after parts next) :
      QuotedParts quote cur (.tag (cur.spanTo after) e :: parts) next
  | text {cur next} {c} {cs} {parts}
      (hrest : cur.rest = c :: cs) (hc : c ≠ quote)
      (hparts : QuotedParts quote (cur.skip (c :: quotedText quote cs).length) parts next) :
      QuotedParts quote cur (.text (String.ofList (c :: quotedText quote cs)) :: parts) next

/-- **The value of an attribute**, and whether it is in double quotes. -/
inductive AttributeValue (cur : Cursor) : List AttributePart → Bool → Cursor → Prop
  | tag {e} {next} (htag : Embeds cur e next) :
      AttributeValue cur [.tag (cur.spanTo next) e] true next
  | quoted {c} {cs} {parts} {next}
      (hrest : cur.rest = c :: cs) (hquote : c = '"' ∨ c = '\'')
      (hparts : QuotedParts c (cur.skip 1) parts next) :
      AttributeValue cur (if parts.isEmpty then [.text ""] else parts) (c = '"') next
  | unquoted {c} {cs} (hvalue : unquotedValue cur.rest = c :: cs) :
      AttributeValue cur [.text (String.ofList (c :: cs))] true (cur.skip (cs.length + 1))

/-- **The value after the name of an attribute**, if an equals sign stands there. -/
inductive OptionalValue (cur : Cursor) : Option (List AttributePart) → Bool → Cursor → Prop
  | none : OptionalValue cur none true cur
  | some {parts} {doubleQuotes} {next}
      (hsign : cur.skipBlanks.startsWith "=" = true)
      (hvalue : AttributeValue (cur.skipBlanks.skip 1).skipBlanks parts doubleQuotes next) :
      OptionalValue cur (some parts) doubleQuotes next

variable {cur next : Cursor}

/-- **What holds of all parts of a value**, wherever it stands: it is true of texts and of the tags
at certain places, and what follows such a place is one. -/
structure PartLaw (Here : Cursor → Prop) (P : AttributePart → Prop) : Prop where
  skip : ∀ {cur} n, Here cur → Here (cur.skip n)
  text : ∀ data, P (.text data)
  tag : ∀ {cur e next}, Here cur → Embeds cur e next → P (.tag (cur.spanTo next) e) ∧ Here next

section Parts

variable {Here : Cursor → Prop} {P : AttributePart → Prop}

lemma QuotedParts.all (h : QuotedParts quote cur parts next) (law : PartLaw Here P)
    (hcur : Here cur) : (∀ part ∈ parts, P part) ∧ Here next := by
  induction h with
  | close _ => exact ⟨by simp, law.skip 1 hcur⟩
  | tag htag _ ih =>
    obtain ⟨hfirst, hafter⟩ := law.tag hcur htag
    obtain ⟨hrest, hnext⟩ := ih hafter
    exact ⟨List.forall_mem_cons.mpr ⟨hfirst, hrest⟩, hnext⟩
  | text _ _ _ ih =>
    obtain ⟨hrest, hnext⟩ := ih (law.skip _ hcur)
    exact ⟨List.forall_mem_cons.mpr ⟨law.text _, hrest⟩, hnext⟩

lemma OptionalValue.all (h : OptionalValue cur value doubleQuotes next) (law : PartLaw Here P)
    (hcur : Here cur) : (∀ part ∈ value.getD [], P part) ∧ Here next := by
  cases h with
  | none => exact ⟨by simp, hcur⟩
  | some _ hvalue =>
    have hplace : Here (cur.skipBlanks.skip 1).skipBlanks :=
      law.skip _ (law.skip _ (law.skip _ hcur))
    cases hvalue with
    | tag htag =>
      obtain ⟨htag, hnext⟩ := law.tag hplace htag
      exact ⟨List.forall_mem_singleton.mpr htag, hnext⟩
    | quoted _ _ hparts =>
      obtain ⟨hparts, hnext⟩ := hparts.all law (law.skip 1 hplace)
      refine ⟨?_, hnext⟩
      rw [Option.getD_some]
      split
      · exact List.forall_mem_singleton.mpr (law.text _)
      · exact hparts
    | unquoted _ => exact ⟨List.forall_mem_singleton.mpr (law.text _), law.skip _ hplace⟩

end Parts

lemma gives_inlineTag_iff : Gives (inlineTag cur) e next ↔ Embeds cur e next := by
  unfold inlineTag
  simp only [gives_bind, gives_expression_iff, gives_closeInline_iff, gives_pure]
  constructor
  · rintro ⟨_, st, ⟨_, hstart⟩, _, st₁, he, _, _, hend, rfl, rfl⟩
    exact ⟨st, st₁, .of_start hstart, he, hend⟩
  · rintro ⟨st, st₁, hat, he, hend⟩
    exact ⟨_, st, hat.start_eq, e, st₁, he, (), next, hend, rfl, rfl⟩

lemma quotedParts_of_gives {opening : Cursor} {quote : Char} {cur next : Cursor}
    {parts : List AttributePart} (h : Gives (quotedParts opening quote cur) parts next) :
    QuotedParts quote cur parts next := by
  rw [quotedParts.eq_def] at h
  split at h
  · exact absurd h not_gives_error
  · rename_i c cs hrest
    have hpos := Cursor.remaining_pos hrest
    dsimp only at h
    split at h
    · simp only [gives_bind, gives_pure] at h
      obtain ⟨e, after, htag, _, _, hparts, rfl, rfl⟩ := h
      have hlt := htag.lt
      exact .tag (gives_inlineTag_iff.mp htag) (quotedParts_of_gives hparts)
    · split at h
      · rename_i hc
        obtain ⟨rfl, rfl⟩ := gives_pure.mp h
        subst hc
        exact .close hrest
      · rename_i hc
        simp only [gives_bind, gives_pure] at h
        obtain ⟨_, _, hparts, rfl, rfl⟩ := h
        exact .text hrest hc (quotedParts_of_gives hparts)
termination_by cur.remaining
decreasing_by
  · rw [Cursor.remaining_skip, List.length_cons]
    omega
  · exact hlt

lemma cases_of_gives_attributeValue (h : Gives (attributeValue cur) (parts, doubleQuotes) next) :
    (∃ e, Embeds cur e next ∧ parts = [.tag (cur.spanTo next) e] ∧ doubleQuotes = true) ∨
      (∃ quote cs found, cur.rest = quote :: cs ∧ (quote = '"' ∨ quote = '\'') ∧
        Gives (quotedParts cur quote (cur.skip 1)) found next ∧
        parts = (if found.isEmpty then [.text ""] else found) ∧
        doubleQuotes = decide (quote = '"')) ∨
      ∃ c cs, (∀ d ∈ cur.rest.head?, d ≠ '"' ∧ d ≠ '\'') ∧ unquotedValue cur.rest = c :: cs ∧
        parts = [.text (String.ofList (c :: cs))] ∧ doubleQuotes = true ∧
        next = cur.skip (cs.length + 1) := by
  rw [attributeValue.eq_def] at h
  split at h
  · exact absurd h not_gives_error
  · rename_i quote more hrest
    split at h
    · simp only [gives_bind, gives_inlineTag_iff, gives_pure, Prod.mk.injEq] at h
      obtain ⟨e, _, htag, ⟨rfl, rfl⟩, rfl⟩ := h
      exact .inl ⟨e, htag, rfl, rfl⟩
    · split at h
      · simp only [gives_bind, gives_pure, Prod.mk.injEq] at h
        obtain ⟨found, _, hparts, ⟨rfl, rfl⟩, rfl⟩ := h
        exact .inr (.inl ⟨quote, more, found, hrest, ‹_›, hparts, rfl, rfl⟩)
      · rename_i hquote
        split at h
        · exact absurd h not_gives_error
        · rename_i c cs hvalue
          obtain ⟨heq, rfl⟩ := gives_pure.mp h
          cases heq
          refine .inr (.inr ⟨c, cs, fun d hd => ?_, hvalue, rfl, rfl, rfl⟩)
          rw [hrest] at hd
          cases hd
          exact not_or.mp hquote

lemma attributeValue_of_gives (h : Gives (attributeValue cur) (parts, doubleQuotes) next) :
    AttributeValue cur parts doubleQuotes next := by
  rcases cases_of_gives_attributeValue h with ⟨e, he, rfl, rfl⟩ |
    ⟨quote, cs, found, hrest, hquote, hfound, rfl, rfl⟩ | ⟨c, cs, -, hvalue, rfl, rfl, rfl⟩
  · exact .tag he
  · exact .quoted hrest hquote (quotedParts_of_gives hfound)
  · exact .unquoted hvalue

lemma gives_optionalValue_iff :
    Gives (optionalValue cur) (value, doubleQuotes) next ↔
      (cur.skipBlanks.startsWith "=" = false ∧ value = none ∧ doubleQuotes = true ∧ next = cur) ∨
      (cur.skipBlanks.startsWith "=" = true ∧ ∃ parts, value = some parts ∧
        Gives (attributeValue (cur.skipBlanks.skip 1).skipBlanks) (parts, doubleQuotes) next) := by
  unfold optionalValue
  dsimp only
  split
  · rename_i hsign
    simp only [hsign, Bool.true_eq_false, false_and, false_or, true_and]
    constructor
    · intro h
      obtain ⟨⟨parts, quotes⟩, after, hvalue, h⟩ := gives_bind.mp h
      obtain ⟨heq, rfl⟩ := gives_pure.mp h
      cases heq
      exact ⟨parts, rfl, hvalue⟩
    · rintro ⟨parts, rfl, hvalue⟩
      exact gives_bind.mpr ⟨_, _, hvalue, gives_pure.mpr ⟨rfl, rfl⟩⟩
  · rename_i hsign
    simp only [Bool.eq_false_iff.mpr hsign, true_and, Bool.false_eq_true, false_and, or_false]
    constructor
    · intro h
      obtain ⟨heq, rfl⟩ := gives_pure.mp h
      cases heq
      exact ⟨rfl, rfl, rfl⟩
    · rintro ⟨rfl, rfl, rfl⟩
      exact gives_pure.mpr ⟨rfl, rfl⟩

lemma optionalValue_of_gives (h : Gives (optionalValue cur) (value, doubleQuotes) next) :
    OptionalValue cur value doubleQuotes next := by
  rcases gives_optionalValue_iff.mp h with ⟨-, rfl, rfl, rfl⟩ | ⟨hsign, parts, rfl, hvalue⟩
  · exact .none
  · exact .some hsign (attributeValue_of_gives hvalue)

/-! ## Attributes -/

/-- **An attribute stands between two places.** -/
inductive ReadsAttribute (cur next : Cursor) : Attribute → Prop
  | spread {e : Expr} {st st₁ st₂ : Stream} (hat : st.At (cur.skip 2))
      (hmark : st.Passes (.mark "...") st₁) (he : Grammar.Derives (.expression e) st₁ st₂)
      (hend : st₂.EndsInline next) : ReadsAttribute cur next (.spread (cur.spanTo next) e)
  | shorthand {e} {name} (he : Embeds cur e next) (hname : e.identifier? = some name) :
      ReadsAttribute cur next (.plain (cur.spanTo next) name (some [.tag (cur.spanTo next) e]) true)
  | directive {c} {cs} {value}
      {doubleQuotes} {found} (hname : cur.run (!endsAttributeName ·) = c :: cs)
      (hvalue : OptionalValue (cur.skip (cs.length + 1)) value doubleQuotes next)
      (hfound : directiveOf? (cur.spanTo next) (cur.spanTo (cur.skip (cs.length + 1))) (c :: cs)
        value = .ok (some found)) : ReadsAttribute cur next found
  | plain {c} {cs} {value} {doubleQuotes}
      (hname : cur.run (!endsAttributeName ·) = c :: cs)
      (hvalue : OptionalValue (cur.skip (cs.length + 1)) value doubleQuotes next)
      (hfound : directiveOf? (cur.spanTo next) (cur.spanTo (cur.skip (cs.length + 1))) (c :: cs)
        value = .ok none) :
      ReadsAttribute cur next (.plain (cur.spanTo next) (String.ofList (c :: cs)) value doubleQuotes)

lemma cases_of_directiveOf? (h : directiveOf? span nameSpan name value = .ok (some found)) :
    ∃ word rest kind expr, Text.cutAt? ':' name = some (word, rest) ∧
      DirectiveKind.ofWord? (String.ofList word) = some kind ∧
      (let segments := (Text.splitAtChar '|' rest).map String.ofList
      found = .directive span kind (segments.headD "") (segments.drop 1) expr ∧
        (value = none ∧ expr = (if kind.impliesName then
            some (.identifier nameSpan (segments.headD "")) else none) ∨
          ∃ span' e, value = some [.tag span' e] ∧ expr = some e)) := by
  unfold directiveOf? at h
  split at h
  · cases h
  · rename_i word rest hcut
    split at h
    · cases h
    · rename_i kind hkind
      dsimp only at h
      split at h
      · cases h
        exact ⟨word, rest, kind, _, hcut, hkind, rfl, .inl ⟨rfl, rfl⟩⟩
      · cases h
        exact ⟨word, rest, kind, _, hcut, hkind, rfl, .inr ⟨_, _, rfl, rfl⟩⟩
      · cases h

/-- **Attributes up to the end of an opening tag**, and whether it closes itself. -/
inductive ReadsAttributes : Cursor → List Attribute → Bool → Cursor → Prop
  | selfClosing {cur : Cursor} (hend : cur.skipBlanks.startsWith "/>" = true) :
      ReadsAttributes cur [] true (cur.skipBlanks.skip 2)
  | close {cur : Cursor} {cs : List Char} (hend : cur.skipBlanks.rest = '>' :: cs) :
      ReadsAttributes cur [] false (cur.skipBlanks.skip 1)
  | cons {cur after next} {first} {rest} {selfClosing}
      (hfirst : ReadsAttribute cur.skipBlanks after first)
      (hrest : ReadsAttributes after rest selfClosing next) :
      ReadsAttributes cur (first :: rest) selfClosing next

/-- **The attribute at a cursor**: a tag, or one that starts with a name. -/
def attributeAt (cur : Cursor) : Except Failure (Scanned cur.remaining Attribute) :=
  match hrest : cur.rest with
  | [] => .error ⟨.attributeNameExpected, cur.here⟩
  | _ :: _ =>
    if cur.startsWith "\x7b\x7b" then tagAttribute cur
    else namedAttribute cur (Cursor.remaining_pos hrest)

variable {a : Attribute}

/-- **A tag is an attribute** if it spreads its expression, or if the expression is a name. -/
theorem gives_tagAttribute_iff :
    Gives (tagAttribute cur) a next ↔
      (∃ st st₁ st₂ : Stream, ∃ e, st.At (cur.skip 2) ∧ st.Passes (.mark "...") st₁ ∧
        Grammar.Derives (.expression e) st₁ st₂ ∧ st₂.EndsInline next ∧
        a = .spread (cur.spanTo next) e) ∨
      ∃ e name, Embeds cur e next ∧ e.identifier? = some name ∧
        a = .plain (cur.spanTo next) name (some [.tag (cur.spanTo next) e]) true := by
  unfold tagAttribute
  simp only [gives_bind, gives_acceptMark_iff, gives_expression_iff, gives_closeInline_iff,
    gives_pure]
  constructor
  · rintro ⟨_, st, ⟨_, hstart⟩, ⟨-, e, st₁, he, _, _, hend, h⟩ |
      ⟨st₁, hmark, e, st₂, he, _, _, hend, rfl, rfl⟩⟩
    · split at h
      · rename_i name hname
        obtain ⟨rfl, rfl⟩ := gives_pure.mp h
        exact .inr ⟨e, name, ⟨st, st₁, .of_start hstart, he, hend⟩, hname, rfl⟩
      · exact absurd h not_gives_error
    · exact .inl ⟨st, st₁, st₂, e, .of_start hstart, hmark, he, hend, rfl⟩
  · rintro (⟨st, st₁, st₂, e, hat, hmark, he, hend, rfl⟩ | ⟨e, name, ⟨st, st₁, hat, he, hend⟩, hname,
      rfl⟩)
    · exact ⟨_, st, hat.start_eq, .inr ⟨st₁, hmark, e, st₂, he, (), next, hend, rfl, rfl⟩⟩
    · have hne : st.current.lexeme ≠ .mark "..." := by
        intro hmark
        have hopens : st.current.lexeme.Opens false := Grammar.opens_of_derives he
        rw [hmark] at hopens
        simp [Lexeme.Opens, openingMarks, signs] at hopens
      refine ⟨_, st, hat.start_eq, .inl ⟨hne, e, st₁, he, (), next, hend, ?_⟩⟩
      simp only [hname]
      exact gives_pure.mpr ⟨rfl, rfl⟩

/-- What an attribute that starts with a name is read as, by the directive that it writes. -/
def namedOr (cur next : Cursor) (name : List Char) (value : Option (List AttributePart))
    (doubleQuotes : Bool) (directive : Option Attribute) : Attribute :=
  directive.getD (.plain (cur.spanTo next) (String.ofList name) value doubleQuotes)

lemma gives_namedAttribute_iff :
    Gives (namedAttribute cur hpos) a next ↔ ∃ c cs value doubleQuotes directive,
      cur.run (!endsAttributeName ·) = c :: cs ∧
      Gives (optionalValue (cur.skip (cs.length + 1))) (value, doubleQuotes) next ∧
      directiveOf? (cur.spanTo next) (cur.spanTo (cur.skip (cs.length + 1))) (c :: cs) value =
        .ok directive ∧ a = namedOr cur next (c :: cs) value doubleQuotes directive := by
  unfold namedAttribute
  constructor
  · intro h
    split at h
    · exact absurd h not_gives_error
    · rename_i c cs hname
      obtain ⟨⟨value, doubleQuotes⟩, after, hvalue, h⟩ := gives_bind.mp h
      obtain ⟨_ | directive, hdirective, h⟩ := gives_bind_ok.mp h
      all_goals
        obtain ⟨rfl, rfl⟩ := gives_pure.mp h
        exact ⟨c, cs, value, doubleQuotes, _, hname, hvalue, hdirective, rfl⟩
  · rintro ⟨c, cs, value, doubleQuotes, directive, hname, hvalue, hdirective, rfl⟩
    simp only [hname]
    refine gives_bind.mpr ⟨_, _, hvalue, ?_⟩
    simp only [hdirective, ok_bind]
    cases directive with
    | some directive | none => exact gives_pure.mpr ⟨rfl, rfl⟩

lemma readsAttribute_of_attributeAt (h : Gives (attributeAt cur) a next) :
    ReadsAttribute cur next a := by
  unfold attributeAt at h
  split at h
  · exact absurd h not_gives_error
  · split at h
    · rcases gives_tagAttribute_iff.mp h with ⟨st, st₁, st₂, e, hat, hmark, he, hend, rfl⟩ |
        ⟨e, name, he, hname, rfl⟩
      · exact .spread hat hmark he hend
      · exact .shorthand he hname
    · obtain ⟨c, cs, value, doubleQuotes, directive, hname, hvalue, hdirective, rfl⟩ :=
        gives_namedAttribute_iff.mp h
      cases directive with
      | some directive => exact .directive hname (optionalValue_of_gives hvalue) hdirective
      | none => exact .plain hname (optionalValue_of_gives hvalue) hdirective

section Lists

variable {name : String} {found : List Attribute} {selfClosing : Bool}

lemma gives_attributesHere_iff :
    Gives (attributesHere name cur) (found, selfClosing) next ↔
      (cur.startsWith "/>" = true ∧ found = [] ∧ selfClosing = true ∧ next = cur.skip 2) ∨
      (cur.rest.head? = some '>' ∧ found = [] ∧ selfClosing = false ∧ next = cur.skip 1) ∨
      (¬ cur.startsWith "/>" = true ∧ cur.rest.head? ≠ some '>' ∧ ∃ first more after,
        found = first :: more ∧ Gives (attributeAt cur) first after ∧
        Gives (attributes name after) (more, selfClosing) next) := by
  obtain ⟨offset, rest⟩ := cur
  cases rest with
  | nil =>
    have hnone : attributeAt ⟨offset, []⟩ = .error _ := rfl
    simp [attributesHere.eq_def, hnone, not_gives_error, Cursor.startsWith]
  | cons c cs =>
    rw [attributeAt.eq_def, attributesHere.eq_def]
    dsimp only
    by_cases hself : (⟨offset, c :: cs⟩ : Cursor).startsWith "/>" = true
    · obtain ⟨more, hmore⟩ := List.isPrefixOf_iff_prefix.mp hself
      obtain rfl : '/' = c := (List.cons.inj hmore).1
      rw [if_pos hself, gives_pure]
      constructor
      · rintro ⟨heq, rfl⟩
        cases heq
        exact .inl ⟨hself, rfl, rfl, rfl⟩
      · rintro (⟨-, rfl, rfl, rfl⟩ | ⟨hend, -⟩ | ⟨hnot, -⟩)
        · exact ⟨rfl, rfl⟩
        · cases hend
        · exact absurd hself hnot
    · rw [if_neg hself]
      by_cases hend : c = '>'
      · rw [if_pos hend, gives_pure]
        constructor
        · rintro ⟨heq, rfl⟩
          cases heq
          exact .inr (.inl ⟨congrArg some hend, rfl, rfl, rfl⟩)
        · rintro (⟨h, -⟩ | ⟨-, rfl, rfl, rfl⟩ | ⟨-, hnot, -⟩)
          · exact absurd h hself
          · exact ⟨rfl, rfl⟩
          · exact absurd (congrArg some hend) hnot
      · have hhead : (c :: cs).head? ≠ some '>' := fun h => hend (Option.some.inj h)
        rw [if_neg hend]
        split
        all_goals
          constructor
          · intro h
            obtain ⟨first, after, hfirst, h⟩ := gives_bind.mp h
            obtain ⟨⟨more, closes⟩, last, hmore, h⟩ := gives_bind.mp h
            obtain ⟨heq, rfl⟩ := gives_pure.mp h
            cases heq
            exact .inr (.inr ⟨hself, hhead, first, more, after, rfl, hfirst, hmore⟩)
          · rintro (⟨h, -⟩ | ⟨h, -⟩ | ⟨-, -, first, more, after, rfl, hfirst, hmore⟩)
            · exact absurd h hself
            · exact absurd h hhead
            · exact gives_bind.mpr
                ⟨_, _, hfirst, gives_bind.mpr ⟨_, _, hmore, gives_pure.mpr ⟨rfl, rfl⟩⟩⟩

/-- **Attributes are read one after another**, with blanks between them, up to the end of the
tag. -/
theorem gives_attributes_iff (hhere : cur.skipBlanks = here) :
    Gives (attributes name cur) (found, selfClosing) next ↔
      Gives (attributesHere name here) (found, selfClosing) next := by
  subst hhere
  rw [attributes]
  constructor
  · intro h
    obtain ⟨value, after, hvalue, h⟩ := gives_bind.mp h
    obtain ⟨rfl, rfl⟩ := gives_pure.mp h
    exact hvalue
  · exact fun h => gives_bind.mpr ⟨_, _, h, gives_pure.mpr ⟨rfl, rfl⟩⟩

lemma readsAttributes_of_gives
    (h : Gives (attributes name cur) (found, selfClosing) next) :
    ReadsAttributes cur found selfClosing next := by
  induction found generalizing cur with
  | nil =>
    rcases gives_attributesHere_iff.mp ((gives_attributes_iff rfl).mp h) with
      ⟨hself, -, rfl, rfl⟩ | ⟨hend, -, rfl, rfl⟩ | ⟨-, -, _, _, _, hfound, -⟩
    · exact .selfClosing hself
    · exact .close (List.eq_cons_of_mem_head? hend)
    · cases hfound
  | cons first more ih =>
    rcases gives_attributesHere_iff.mp ((gives_attributes_iff rfl).mp h) with
      ⟨-, hfound, -⟩ | ⟨-, hfound, -⟩ | ⟨-, -, _, _, after, hfound, hfirst, hmore⟩
    · cases hfound
    · cases hfound
    · cases hfound
      exact .cons (readsAttribute_of_attributeAt hfirst) (ih hmore)

end Lists

end MarkupGrammar

/-! ## Well-formed attributes -/

def AttributePart.WellFormed : AttributePart → Prop
  | .text _ => True
  | .tag _ e => e.WellFormed

/-- **What holds of every attribute that is read.** A directive that stands for the variable of
its own name always has an expression. -/
def Attribute.WellFormed : Attribute → Prop
  | .plain _ _ value _ => ∀ parts ∈ value, ∀ part ∈ parts, part.WellFormed
  | .spread _ e => e.WellFormed
  | .directive _ kind name _ e =>
    (kind.impliesName = true → e.isSome = true) ∧
      ∀ expr ∈ e, expr.WellFormed ∨ kind.impliesName = true ∧ ∃ span, expr = .identifier span name

namespace MarkupGrammar

variable {cur next : Cursor}

lemma Embeds.wellFormed (h : Embeds cur e next) : e.WellFormed := by
  obtain ⟨st, st₁, hat, he, -⟩ := h
  exact (Grammar.wellFormed_of_derives he hat.isSound).1

lemma wellFormed_of_directiveOf? (hvalue : ∀ part ∈ value.getD [], part.WellFormed)
    (h : directiveOf? span nameSpan name value = .ok (some found)) : found.WellFormed := by
  obtain ⟨_, _, kind, expr, -, -, rfl, ⟨rfl, rfl⟩ | ⟨span', e, rfl, rfl⟩⟩ := cases_of_directiveOf? h
  · -- without a value the name may stand for it
    refine ⟨fun himplies => by simp [himplies], fun expr hexpr => ?_⟩
    split at hexpr
    · rename_i himplies
      cases hexpr
      exact .inr ⟨himplies, _, rfl⟩
    · cases hexpr
  · refine ⟨fun _ => rfl, ?_⟩
    rintro _ ⟨⟩
    exact .inl (hvalue _ (List.mem_singleton_self _))

lemma OptionalValue.wellFormed (h : OptionalValue cur value doubleQuotes next) :
    ∀ part ∈ value.getD [], part.WellFormed := by
  have hlaw : PartLaw (fun _ => True) AttributePart.WellFormed :=
    ⟨fun _ => id, fun _ => trivial, fun _ htag => ⟨htag.wellFormed, trivial⟩⟩
  exact (h.all hlaw trivial).1

lemma ReadsAttribute.wellFormed (h : ReadsAttribute cur next a) : a.WellFormed := by
  cases h with
  | spread hat hmark he _ => exact (Grammar.wellFormed_of_derives he hmark.next.isSound).1
  | shorthand he _ =>
    rintro _ ⟨⟩
    exact List.forall_mem_singleton.mpr he.wellFormed
  | directive _ hvalue hfound => exact wellFormed_of_directiveOf? hvalue.wellFormed hfound
  | plain _ hvalue _ =>
    rintro _ ⟨⟩
    exact hvalue.wellFormed

lemma ReadsAttributes.wellFormed {found : List Attribute} {selfClosing : Bool}
    (h : ReadsAttributes cur found selfClosing next) : ∀ a ∈ found, a.WellFormed := by
  induction h with
  | selfClosing _ => simp
  | close _ => simp
  | cons hfirst _ ih => exact List.forall_mem_cons.mpr ⟨hfirst.wellFormed, ih⟩

end MarkupGrammar

end ComponentTemplate
