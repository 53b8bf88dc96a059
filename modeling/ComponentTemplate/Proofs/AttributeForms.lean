import ComponentTemplate.Proofs.QuotedValues

/-!
# The forms of attributes

One attribute is a tag or starts with a name. A name may write a directive, and the value after it
is a tag, a sequence of parts in quotes, or a text without quotes. What is known of an attribute
that was read is said here form by form.
-/

namespace ComponentTemplate

/-! ## Texts that a character separates -/

namespace Text

open List

variable {separator : Char} {cs : List Char}

lemma splitAtChar_ne_nil (separator : Char) (cs : List Char) : splitAtChar separator cs ≠ [] := by
  cases cs with
  | nil => exact cons_ne_nil _ _
  | cons c cs =>
    rw [splitAtChar]
    split
    · exact cons_ne_nil _ _
    · cases splitAtChar separator cs <;> exact cons_ne_nil _ _

lemma consFirst_append (c : Char) (hne : texts ≠ []) (others : List (List Char)) :
    consFirst c (texts ++ others) = consFirst c texts ++ others := by
  cases texts with
  | nil => exact absurd rfl hne
  | cons text texts => rfl

lemma splitAtChar_append (separator : Char) (before after : List Char) :
    splitAtChar separator (before ++ separator :: after) =
      splitAtChar separator before ++ splitAtChar separator after := by
  induction before with
  | nil => simp [splitAtChar]
  | cons c before ih =>
    rw [cons_append, splitAtChar, splitAtChar, ih]
    split
    · rfl
    · exact consFirst_append c (splitAtChar_ne_nil separator before) _

lemma splitAtChar_of_not_mem (h : separator ∉ cs) : splitAtChar separator cs = [cs] := by
  induction cs with
  | nil => rfl
  | cons c cs ih =>
    rw [mem_cons, not_or] at h
    rw [splitAtChar, if_neg (Ne.symm h.1), ih h.2, consFirst]

lemma not_mem_of_mem_splitAtChar (h : text ∈ splitAtChar separator cs) : separator ∉ text := by
  induction cs generalizing text with
  | nil =>
    rw [splitAtChar, mem_singleton] at h
    simp [h]
  | cons c cs ih =>
    rw [splitAtChar] at h
    split at h
    · rcases mem_cons.mp h with rfl | h
      · simp
      · exact ih h
    · rename_i hc
      cases hsplit : splitAtChar separator cs with
      | nil => exact absurd hsplit (splitAtChar_ne_nil separator cs)
      | cons first others =>
        rw [hsplit] at h ih
        rcases mem_cons.mp h with rfl | h
        · exact not_mem_cons_of_ne_of_not_mem (Ne.symm hc) (ih (mem_cons_self ..))
        · exact ih (mem_cons_of_mem _ h)

end Text

open Text

namespace MarkupGrammar

variable {cur next : Cursor} {a : Attribute}

/-! ## One attribute -/

lemma gives_attributeAt_iff :
    Gives (attributeAt cur) a next ↔
      (tagBraces <+: cur.rest ∧ Gives (tagAttribute cur) a next) ∨
      (¬ tagBraces <+: cur.rest ∧ ∃ c cs value doubleQuotes directive,
        cur.run (!endsAttributeName ·) = c :: cs ∧
        Gives (optionalValue (cur.skip (cs.length + 1))) (value, doubleQuotes) next ∧
        directiveOf? (cur.spanTo next) (cur.spanTo (cur.skip (cs.length + 1))) (c :: cs) value =
          .ok directive ∧ a = namedOr cur next (c :: cs) value doubleQuotes directive) := by
  unfold attributeAt
  split
  · rename_i hrest
    refine ⟨fun h => absurd h not_gives_error, ?_⟩
    rintro (⟨⟨more, hmore⟩, -⟩ | ⟨-, c, cs, value, doubleQuotes, directive, hname, -⟩)
    · rw [hrest] at hmore
      cases hmore
    · simp [Cursor.run, hrest] at hname
  · rw [← startsWith_tag_iff]
    split
    · rename_i htag
      simp [htag]
    · rename_i htag
      rw [gives_namedAttribute_iff]
      simp [htag]

/-! ## Values -/

lemma gives_attributeValue_tag (hstart : tagBraces <+: cur.rest) (h : Embeds cur e next) :
    Gives (attributeValue cur) ([.tag (cur.spanTo next) e], true) next := by
  obtain ⟨o, cs⟩ := cur
  obtain ⟨rest, rfl⟩ : ∃ rest, cs = '\x7b' :: '\x7b' :: rest := hstart.imp fun _ h => h.symm
  exact gives_bind.mpr ⟨e, next, gives_inlineTag_iff.mpr h, gives_pure.mpr ⟨rfl, rfl⟩⟩

lemma gives_optionalValue_sign (hhead : ∀ c ∈ cs.head?, isBlank c = false)
    (h : Gives (attributeValue ⟨o + 1, cs⟩) (parts, doubleQuotes) next) :
    Gives (optionalValue ⟨o, '=' :: cs⟩) (some parts, doubleQuotes) next := by
  have hsign := @skipBlanks_append [] ('=' :: cs) (by simp) (by simp [isBlank]) o
  have hvalue := @skipBlanks_append [] cs (by simp) hhead (o + 1)
  simp only [List.nil_append, byteLength_nil, Nat.add_zero] at hsign hvalue
  refine gives_optionalValue_iff.mpr (.inr ⟨by rfl, parts, rfl, ?_⟩)
  rw [hsign, show (⟨o, '=' :: cs⟩ : Cursor).skip 1 = ⟨o + 1, cs⟩ from rfl, hvalue]
  exact h

end MarkupGrammar

open MarkupGrammar

/-! ## Names -/

lemma endsAttributeName_eq_false (h : endsAttributeName c = false) :
    isBlank c = false ∧ c ≠ '/' ∧ c ≠ '>' := by
  simp only [endsAttributeName, Bool.or_eq_false_iff, beq_eq_false_iff_ne] at h
  exact ⟨h.1.1.1.1.1, h.1.1.2, h.1.1.1.2⟩

/-- **The texts that are read as the name of an attribute.** -/
structure IsAttributeHead (name : List Char) : Prop where
  ne_nil : name ≠ []
  goesOn : ∀ c ∈ name, endsAttributeName c = false
  not_tag : ¬ tagBraces <+: name

/-- The kind of directive that a name starts, and what follows the colon in it. -/
def directiveKind? (name : List Char) : Option (DirectiveKind × List Char) :=
  match cutAt? ':' name with
  | none => none
  | some cut => (DirectiveKind.ofWord? (String.ofList cut.1)).map fun kind => (kind, cut.2)

def directiveNames (name : String) (modifiers : List String) : List Char :=
  name.toList ++ modifiers.flatMap fun modifier => '|' :: modifier.toList

/-- **What a directive starts with**: the word of its kind, its name and its modifiers. -/
def directiveHead (kind : DirectiveKind) (name : String) (modifiers : List String) : List Char :=
  kind.word.toList ++ ':' :: directiveNames name modifiers

namespace IsAttributeHead

variable {name tail : List Char}

lemma not_lineFeed (h : IsAttributeHead name) : '\n' ∉ name := by
  intro hmem
  have hblank := (endsAttributeName_eq_false (h.goesOn _ hmem)).1
  revert hblank
  decide

lemma not_sign (h : IsAttributeHead name) : '=' ∉ name := by
  intro hmem
  have hends := h.goesOn _ hmem
  revert hends
  decide

lemma not_tag_append (h : IsAttributeHead name)
    (htail : ∀ c ∈ tail.head?, endsAttributeName c = true) : ¬ tagBraces <+: name ++ tail := by
  rintro ⟨more, hmore⟩
  obtain ⟨c, cs, rfl⟩ := List.exists_cons_of_ne_nil h.ne_nil
  cases cs with
  | nil =>
    -- the second brace would end the name
    cases tail with
    | nil => cases hmore
    | cons d tail =>
      have hd := (List.cons.inj (List.cons.inj hmore).2).1
      have hends := htail d rfl
      rw [← hd] at hends
      revert hends
      decide
  | cons d cs =>
    refine h.not_tag ⟨cs, ?_⟩
    obtain ⟨hc, hmore⟩ := List.cons.inj hmore
    rw [← hc, ← (List.cons.inj hmore).1]
    rfl

end IsAttributeHead

/-- **An attribute that starts with a name is read** with the value after it. -/
theorem gives_attributeAt_of_name (h : IsAttributeHead name)
    (htail : ∀ c ∈ tail.head?, endsAttributeName c = true)
    (hvalue : Gives (optionalValue ⟨o + byteLength name, tail⟩) (value, doubleQuotes) next)
    (hdirective : directiveOf? ⟨o, next.offset⟩ ⟨o, o + byteLength name⟩ name value =
      .ok directive) :
    Gives (attributeAt ⟨o, name ++ tail⟩)
      (namedOr ⟨o, name ++ tail⟩ next name value doubleQuotes directive) next := by
  have hrun : (⟨o, name ++ tail⟩ : Cursor).run (!endsAttributeName ·) = name :=
    takeWhile_append_of_all (fun c hc => by simp [h.goesOn c hc]) fun c hc => by simp [htail c hc]
  have hskip := Cursor.skip_append o name tail
  obtain ⟨c, cs, rfl⟩ := List.exists_cons_of_ne_nil h.ne_nil
  rw [List.length_cons] at hskip
  refine gives_attributeAt_iff.mpr (.inr ⟨h.not_tag_append htail, c, cs, value, doubleQuotes,
    directive, hrun, ?_, ?_, rfl⟩)
  · rw [hskip]
    exact hvalue
  · rw [hskip]
    exact hdirective

/-! ## Directives -/

section Directives

variable {span nameSpan : Span} {name : List Char} {value : Option (List AttributePart)}

lemma directiveOf?_eq_none_iff :
    directiveOf? span nameSpan name value = .ok none ↔ directiveKind? name = none := by
  unfold directiveOf? directiveKind?
  split
  · simp [*]
  · rename_i word rest hcut
    simp only [hcut]
    cases DirectiveKind.ofWord? (String.ofList word) with
    | none => simp
    | some kind =>
      dsimp only
      split <;> simp

lemma directiveNames_of_split (h : splitAtChar '|' rest = first :: others) :
    directiveNames (String.ofList first) (others.map String.ofList) = rest := by
  induction rest generalizing first others with
  | nil =>
    cases h
    rfl
  | cons c rest ih =>
    rw [splitAtChar] at h
    cases hsplit : splitAtChar '|' rest with
    | nil => exact absurd hsplit (splitAtChar_ne_nil '|' rest)
    | cons text texts =>
      have hrest := ih hsplit
      rw [hsplit] at h
      split at h
      · rename_i hc
        cases h
        rw [← hrest, hc]
        simp [directiveNames]
      · cases h
        rw [← hrest]
        simp [directiveNames]

lemma splitAtChar_directiveNames {name : String} {modifiers : List String}
    (hname : '|' ∉ name.toList) (hmodifiers : ∀ m ∈ modifiers, '|' ∉ m.toList) :
    (splitAtChar '|' (directiveNames name modifiers)).map String.ofList =
      name :: modifiers := by
  induction modifiers generalizing name with
  | nil => simp [directiveNames, splitAtChar_of_not_mem hname]
  | cons m modifiers ih =>
    obtain ⟨hm, hmodifiers⟩ := List.forall_mem_cons.mp hmodifiers
    have hnames : directiveNames name (m :: modifiers) =
        name.toList ++ '|' :: directiveNames m modifiers := by
      simp [directiveNames]
    rw [hnames, splitAtChar_append, splitAtChar_of_not_mem hname, List.map_append,
      ih hm hmodifiers]
    simp

lemma DirectiveKind.word_of_ofWord? {word : String} {kind : DirectiveKind}
    (h : DirectiveKind.ofWord? word = some kind) : kind.word = word := by
  unfold DirectiveKind.ofWord? at h
  split at h <;> cases h <;> rfl

/-- **A directive that is read starts with its head**, and its value is a tag or is missing. -/
theorem exists_of_directiveOf? (h : directiveOf? span nameSpan name value = .ok (some found)) :
    ∃ kind first modifiers expr, found = .directive span kind first modifiers expr ∧
      name = directiveHead kind first modifiers ∧ '|' ∉ first.toList ∧
      (∀ m ∈ modifiers, '|' ∉ m.toList) ∧ (kind.impliesName = true → expr.isSome = true) ∧
      (value = none ∧
          expr = (if kind.impliesName then some (.identifier nameSpan first) else none) ∨
        ∃ span' e, value = some [.tag span' e] ∧ expr = some e) := by
  obtain ⟨word, rest, kind, expr, hcut, hkind, rfl, hvalue⟩ := cases_of_directiveOf? h
  obtain ⟨hname, -⟩ := cutAt?_eq_some_iff.mp hcut
  obtain ⟨first, others, hsplit⟩ := List.exists_cons_of_ne_nil (splitAtChar_ne_nil '|' rest)
  have hbars : ∀ text ∈ first :: others, '|' ∉ text := fun text htext =>
    not_mem_of_mem_splitAtChar (hsplit ▸ htext)
  obtain ⟨hfirst, hothers⟩ := List.forall_mem_cons.mp hbars
  have hhead : name = directiveHead kind (String.ofList first) (others.map String.ofList) := by
    rw [directiveHead, directiveNames_of_split hsplit, DirectiveKind.word_of_ofWord? hkind,
      String.toList_ofList, hname]
  have hmodifiers : ∀ m ∈ others.map String.ofList, '|' ∉ m.toList := by
    intro m hm
    obtain ⟨text, htext, rfl⟩ := List.mem_map.mp hm
    simpa using hothers text htext
  simp only [hsplit, List.map_cons, List.headD_cons, List.drop_succ_cons, List.drop_zero] at hvalue ⊢
  refine ⟨kind, _, _, expr, rfl, hhead, by simpa using hfirst, hmodifiers, ?_, hvalue⟩
  rcases hvalue with ⟨-, rfl⟩ | ⟨_, _, -, rfl⟩
  · intro himplies
    simp [himplies]
  · exact fun _ => rfl

lemma directiveOf?_directiveHead {kind : DirectiveKind} {first : String} {modifiers : List String}
    (hfirst : '|' ∉ first.toList) (hmodifiers : ∀ m ∈ modifiers, '|' ∉ m.toList) :
    directiveOf? span nameSpan (directiveHead kind first modifiers) none =
        .ok (some (.directive span kind first modifiers
          (if kind.impliesName then some (.identifier nameSpan first) else none))) ∧
      ∀ span' e, directiveOf? span nameSpan (directiveHead kind first modifiers)
        (some [.tag span' e]) = .ok (some (.directive span kind first modifiers (some e))) := by
  have hcut : cutAt? ':' (directiveHead kind first modifiers) =
      some (kind.word.toList, directiveNames first modifiers) :=
    cutAt?_eq_some_iff.mpr ⟨rfl, by cases kind <;> decide⟩
  have hsplit := splitAtChar_directiveNames hfirst hmodifiers
  simp [directiveOf?, hcut, DirectiveKind.ofWord?_word, hsplit]

end Directives

/-! ## Regular attributes -/

/-- The value in the text of an attribute: what stands after the equals sign. -/
def valueIn (text : List Char) : List Char :=
  ((text.dropWhile (· ≠ '=')).drop 1).dropWhile isBlank

structure IsPlainName (name : List Char) : Prop extends IsAttributeHead name where
  not_directive : directiveKind? name = none

namespace Attribute

/-- **An attribute has an unquoted value** in the text that it was read from: its value is one
text, and no quote stands after the equals sign. -/
def isUnquoted (text : List Char) : Attribute → Bool
  | .plain _ _ (some [.text _]) _ => !(valueIn text).head?.any fun c => c == '"' || c == '\''
  | _ => false

/-- What holds of an attribute that is read: its name is read as a name, and its value is the
variable of the name, a tag, or one with a given property. -/
def HasForm (value : List AttributePart → Bool → Prop) : Attribute → Prop
  | .plain _ name none _ => IsPlainName name.toList
  | .plain _ name (some parts) doubleQuotes =>
    AttributePart.variableName? parts = some name ∨ IsPlainName name.toList ∧
      (AttributePart.isSingleTag parts = true ∨ value parts doubleQuotes)
  | .spread .. => True
  | .directive _ kind name modifiers e =>
    IsAttributeHead (directiveHead kind name modifiers) ∧ '|' ∉ name.toList ∧
      (∀ m ∈ modifiers, '|' ∉ m.toList) ∧ (kind.impliesName = true → e.isSome = true)

/-- **Attributes that are read from what they are printed as.** Their names are read as names, and
their values can stand between the quotes that are printed around them. -/
def Regular (a : Attribute) : Prop :=
  a.HasForm fun parts doubleQuotes => QuotedValue (AttributePart.quoteChar doubleQuotes parts) parts

end Attribute

section Source

variable {cur next : Cursor} {a : Attribute}

lemma valueIn_append (h : IsAttributeHead name) (hblanks : Blank blanks) (rest : List Char) :
    valueIn (name ++ (blanks ++ '=' :: rest)) = rest.dropWhile isBlank := by
  have hdrop : (name ++ (blanks ++ '=' :: rest)).dropWhile (· ≠ '=') = '=' :: rest := by
    rw [← List.append_assoc, List.dropWhile_append_of_pos]
    · simp
    · intro c hc
      refine decide_eq_true ?_
      rintro rfl
      rcases List.mem_append.mp hc with hc | hc
      · exact h.not_sign hc
      · exact absurd (hblanks _ hc) (by decide)
  rw [valueIn, hdrop]
  rfl

lemma valueIn_eq {name : List Char} (h : IsAttributeHead name) {after : Cursor}
    (hsign : after.skipBlanks.startsWith "=" = true) :
    valueIn (name ++ after.rest) = (after.skipBlanks.skip 1).skipBlanks.rest := by
  obtain ⟨more, hmore⟩ := List.isPrefixOf_iff_prefix.mp hsign
  rw [Cursor.skipBlanks, Cursor.rest_skipRun] at hmore
  have htail : after.rest = after.rest.takeWhile isBlank ++ '=' :: more := by
    rw [← List.singleton_append, show ['='] = "=".toList from rfl, hmore,
      List.takeWhile_append_dropWhile]
  have hblanks : Blank (after.rest.takeWhile isBlank) :=
    fun _ hc => List.mem_takeWhile_imp hc
  rw [htail, valueIn_append h hblanks, Cursor.skipBlanks, Cursor.rest_skipRun, Cursor.rest_skip,
    Cursor.skipBlanks, Cursor.rest_skipRun, ← hmore]
  rfl

lemma isAttributeHead_of_run (h : cur.run (!endsAttributeName ·) = c :: cs)
    (htag : ¬ tagBraces <+: cur.rest) :
    IsAttributeHead (c :: cs) ∧ cur.rest = c :: cs ++ (cur.skip (cs.length + 1)).rest := by
  have hsplit : cur.rest = c :: cs ++ cur.rest.dropWhile (!endsAttributeName ·) := by
    rw [← h, Cursor.run, List.takeWhile_append_dropWhile]
  have hrest : (cur.skip (cs.length + 1)).rest = cur.rest.dropWhile (!endsAttributeName ·) := by
    rw [Cursor.rest_skip]
    nth_rewrite 1 [hsplit]
    exact List.drop_left
  refine ⟨⟨List.cons_ne_nil _ _, fun d hd => ?_, fun hstart => htag ?_⟩,
    by rw [hrest]; exact hsplit⟩
  · rw [← h, Cursor.run] at hd
    simpa using List.mem_takeWhile_imp hd
  · rw [hsplit]
    exact hstart.trans (List.prefix_append ..)

lemma isBlank_of_mem_unquotedValue (h : c ∈ unquotedValue cs) : isBlank c = false := by
  induction cs with
  | nil => cases h
  | cons d cs ih =>
    rw [unquotedValue] at h
    split at h
    · cases h
    · rename_i hd
      simp only [Bool.or_eq_true, not_or, Bool.not_eq_true] at hd
      rcases List.mem_cons.mp h with rfl | h
      · exact hd.1.1
      · exact ih h

/-- **What holds of an attribute that is read from a text**: its value is in quotes, or a text
without quotes, if it is no tag. -/
def Attribute.IsFrom (text : List Char) (a : Attribute) : Prop :=
  a.HasForm fun parts doubleQuotes =>
    (∃ quote, (quote = '"' ∨ quote = '\'') ∧ (valueIn text).head? = some quote ∧
      QuotedValue quote parts ∧ doubleQuotes = decide (quote = '"')) ∨
    ((∀ c ∈ (valueIn text).head?, c ≠ '"' ∧ c ≠ '\'') ∧
      ∃ data, data ≠ "" ∧ (∀ c ∈ data.toList, isBlank c = false) ∧
        parts = [.text data] ∧ doubleQuotes = true)

lemma Attribute.isFrom_of_gives (h : Gives (attributeAt cur) a next) : a.IsFrom cur.rest := by
  rcases gives_attributeAt_iff.mp h with ⟨-, h⟩ |
    ⟨htag, c, cs, value, doubleQuotes, directive, hrun, hvalue, hdirective, rfl⟩
  · rcases gives_tagAttribute_iff.mp h with ⟨_, _, _, e, -, -, -, -, rfl⟩ | ⟨e, name, -, hname, rfl⟩
    · trivial
    · exact .inl hname
  · obtain ⟨hhead, hrest⟩ := isAttributeHead_of_run hrun htag
    cases directive with
    | some directive =>
      obtain ⟨kind, first, modifiers, expr, rfl, hname, hfirst, hmodifiers, himplied, -⟩ :=
        exists_of_directiveOf? hdirective
      exact ⟨hname ▸ hhead, hfirst, hmodifiers, himplied⟩
    | none =>
      have hname : IsPlainName (String.ofList (c :: cs)).toList := by
        rw [String.toList_ofList]
        exact ⟨hhead, directiveOf?_eq_none_iff.mp hdirective⟩
      rcases gives_optionalValue_iff.mp hvalue with ⟨-, rfl, -⟩ | ⟨hsign, parts, rfl, hfound⟩
      · exact hname
      · refine .inr ⟨hname, ?_⟩
        rw [hrest, valueIn_eq hhead hsign]
        rcases cases_of_gives_attributeValue hfound with ⟨e, -, rfl, -⟩ |
          ⟨quote, _, found, hquoteHead, hquote, hparts, rfl, hquotes⟩ |
          ⟨c, cs, hvalueHead, hdata, rfl, hquotes, -⟩
        · exact .inl rfl
        · exact .inr (.inl ⟨quote, hquote, by rw [hquoteHead]; rfl,
            quotedValue_of_gives hparts, hquotes⟩)
        · refine .inr (.inr ⟨hvalueHead, _, ?_, fun c hc => ?_, rfl, hquotes⟩)
          · simp
          · rw [String.toList_ofList, ← hdata] at hc
            exact isBlank_of_mem_unquotedValue hc

/-- **Attributes that are read are regular**, unless their value has no quotes. -/
theorem Attribute.IsFrom.regular (h : a.IsFrom text) (hquoted : a.isUnquoted text = false) :
    a.Regular := by
  rcases a with ⟨span, name, value, doubleQuotes⟩ | ⟨span, e⟩ | ⟨span, kind, name, modifiers, e⟩
  · cases value with
    | none => exact h
    | some parts =>
      rcases h with hvariable | ⟨hname, htag | ⟨quote, hquote, -, hparts, rfl⟩ |
        ⟨hhead, data, -, -, rfl, -⟩⟩
      · exact .inl hvariable
      · exact .inr ⟨hname, .inl htag⟩
      · exact .inr ⟨hname, .inr (hparts.of_not_mem
          (AttributePart.quoteChar_not_mem hquote hparts.quote_not_mem))⟩
      · -- no quote stands after the sign
        refine absurd hquoted ?_
        rw [isUnquoted]
        cases hvalue : (valueIn text).head? with
        | none => simp
        | some c =>
          obtain ⟨hdouble, hsingle⟩ := hhead c hvalue
          simp [hdouble, hsingle]
  · trivial
  · exact h

end Source

end ComponentTemplate
