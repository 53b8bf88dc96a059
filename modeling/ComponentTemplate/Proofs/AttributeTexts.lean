import ComponentTemplate.Proofs.AttributeForms

/-!
# The texts of attributes

One attribute is read from the text that it is printed as, wherever it stands. Nothing has to
follow it in a certain way, unless its text is only a name.
-/

namespace ComponentTemplate

open MarkupGrammar Text Attribute List
open AttributePart (Meets expr? hasChar isSingleTag quote quoteChar quoteChar_eq tag text?
  toList_quote variableName?)

/-! ## The texts of attributes -/

def impliesExpr (kind : DirectiveKind) (name : String) (e : Expr) : Bool :=
  kind.impliesName && e.identifier? = some name

def spacedTag (breaks : Breaks) (unit : String) (level : Nat) (opening : String) (e : Expr) :
    List Char :=
  opening.toList ++ (e.textAt breaks unit level ++ " \x7d\x7d".toList)

namespace Attribute

/-- The expression that a directive is printed with. -/
def writtenExpr? (kind : DirectiveKind) (name : String) (e : Option Expr) : Option Expr :=
  e.filter fun e => !impliesExpr kind name e

/-- **The expressions that are written** in an attribute: all but those that the name of a
directive stands for. -/
def written : Attribute → List Expr
  | .plain _ _ value _ => (value.getD []).filterMap expr?
  | .spread _ e => [e]
  | .directive _ kind name _ e => (writtenExpr? kind name e).toList

def isBare : Attribute → Bool
  | .plain _ _ value _ => value.isNone
  | .spread .. => false
  | .directive _ kind name _ e => (writtenExpr? kind name e).isNone

/-- The text of the parts of a value, with quotes around any but a single tag. -/
def valueChars (breaks : Breaks) (unit : String) (level : Nat) (doubleQuotes : Bool)
    (parts : List AttributePart) : List Char :=
  let inner := (parts.map (·.indented unit level)).flatMap (·.chars breaks unit level)
  if isSingleTag parts then inner
  else quoteChar doubleQuotes parts ::
    (inner ++ [quoteChar doubleQuotes parts])

/-- **What an attribute is printed as**, at a level of indentation. -/
def chars (breaks : Breaks) (unit : String) (level : Nat) : Attribute → List Char
  | .plain _ name none _ => name.toList
  | .plain _ name (some parts) doubleQuotes =>
    if variableName? parts = some name then
      "\x7b\x7b ".toList ++ (name.toList ++ " \x7d\x7d".toList)
    else name.toList ++ '=' :: valueChars breaks unit level doubleQuotes parts
  | .spread _ e => spacedTag breaks unit level "\x7b\x7b ..." e
  | .directive _ kind name modifiers e =>
    directiveHead kind name modifiers ++
      ((writtenExpr? kind name e).map (spacedTag breaks unit level "=\x7b\x7b ")).getD []

/-- The text of an attribute at a level of indentation, as its document is rendered. -/
def textAt (breaks : Breaks) (unit : String) (level : Nat) (a : Attribute) : List Char :=
  ((a.doc breaks).renderAt unit level).toList

/-- The texts of a value. -/
def texts : Attribute → List String
  | .plain _ _ value _ => (value.getD []).filterMap text?
  | _ => []

/-- **An attribute with the indentation that is printed in its texts.** -/
def indented (unit : String) (level : Nat) : Attribute → Attribute
  | .plain span name value doubleQuotes =>
    .plain span name (value.map (·.map (·.indented unit level))) doubleQuotes
  | a => a

end Attribute

section Texts

variable {breaks : Breaks} {unit : String} {level : Nat} {a : Attribute}
  {parts : List AttributePart} {name text opening : String} {e : Expr} {modifiers : List String}

lemma goesOn_of_not_mem (h : '\n' ∉ text.toList) : (Doc.text text).GoesOn unit level text.toList :=
  Doc.goesOn_text fun hlast => h (mem_of_getLast? hlast)

lemma stands_of_not_mem (hne : text.toList ≠ []) (h : '\n' ∉ text.toList) :
    (Doc.text text).Stands unit level text.toList := by
  obtain ⟨c, cs, hcs⟩ := exists_cons_of_ne_nil hne
  refine (goesOn_of_not_mem h).stands (Doc.opensInLine_text (c := c) (by rw [hcs]; rfl) ?_)
  rintro rfl
  exact h (by simp [hcs])

lemma stands_spacedTag (h : e.normal.WellFormed) (hne : opening.toList ≠ [])
    (hopening : '\n' ∉ opening.toList) :
    (Doc.text opening ++ e.doc breaks ++ " \x7d\x7d").Stands unit level
      (spacedTag breaks unit level opening e) :=
  ((stands_of_not_mem hne hopening).append (Expr.goesOn_closing breaks h)).congr fun _ => rfl

lemma eq_of_variableName? (h : variableName? parts = some name) :
    ∃ span place, parts = [.tag span (.identifier place name)] := by
  unfold variableName? at h
  split at h
  · rename_i span e
    cases e with
    | identifier place found =>
      cases h
      exact ⟨span, place, rfl⟩
    | _ => cases h
  · cases h

lemma textAt_identifier (h : (Expr.identifier place name).normal.WellFormed) :
    (Expr.identifier place name).textAt breaks unit level = name.toList := by
  have hword : (Lexeme.word name).IsWritten := h.1
  have hgoesOn : ((Expr.identifier place name).doc breaks).GoesOn unit level name.toList := by
    exact Doc.goesOn_text hword.getLast?_ne
  exact hgoesOn.renderAt_eq

lemma eq_of_isSingleTag (h : isSingleTag parts = true) :
    ∃ span e, parts = [.tag span e] := by
  unfold isSingleTag at h
  split at h
  · exact ⟨_, _, rfl⟩
  · cases h

lemma flatMap_singleTag (span : Span) (e : Expr) :
    ([tag span e].map (·.indented unit level)).flatMap (·.chars breaks unit level) =
      ((tagDoc breaks span.start e).renderAt unit level).toList := by
  simp [AttributePart.indented, AttributePart.chars]

lemma goesOn_value (breaks : Breaks) (unit : String) (level : Nat)
    (h : parts.IsChain Meets) (doubleQuotes : Bool) :
    (Doc.onlyIf (!AttributePart.isSingleTag parts) (quote doubleQuotes parts) ++
        Doc.concat (parts.map (·.doc breaks)) ++
        Doc.onlyIf (!AttributePart.isSingleTag parts)
          (quote doubleQuotes parts)).GoesOn unit level
      (valueChars breaks unit level doubleQuotes parts) := by
  unfold valueChars
  dsimp only
  split
  · rename_i hsingle
    obtain ⟨span, e, rfl⟩ := eq_of_isSingleTag hsingle
    have htag : (tagDoc breaks span.start e).GoesOn unit level _ :=
      (stands_tagDoc breaks span.start e).goesOn
    rw [flatMap_singleTag]
    exact htag.congr fun _ => rfl
  · rename_i hsingle
    have hquote := toList_quote doubleQuotes parts
    have hfeed : '\n' ∉ (quote doubleQuotes parts).toList := by
      rw [hquote]
      rcases quoteChar_eq doubleQuotes parts with h | h <;> simp [h]
    have hstands : (Doc.text (quote doubleQuotes parts)).Stands unit level
        [quoteChar doubleQuotes parts] := by
      rw [← hquote]
      exact stands_of_not_mem (by simp [hquote]) hfeed
    rw [Bool.eq_false_iff.mpr hsingle]
    have hall := hstands.goesOn.append (goesOn_parts breaks h hstands).1
    exact hall.congr fun _ => rfl

lemma stands_valueDoc (hname : IsPlainName name.toList) (h : parts.IsChain Meets)
    (hvariable : variableName? parts ≠ some name) (doubleQuotes : Bool) :
    (plainDoc breaks name (some parts) doubleQuotes).Stands unit level
      (name.toList ++ '=' :: valueChars breaks unit level doubleQuotes parts) := by
  have hsign : (Doc.text "=").GoesOn unit level ['='] := Doc.goesOn_text (by decide)
  have hall := (stands_of_not_mem hname.ne_nil hname.not_lineFeed).append
    (hsign.append (goesOn_value breaks unit level h doubleQuotes))
  rw [plainDoc, if_neg hvariable]
  exact hall.congr fun _ => rfl

lemma goesOn_modifiers (h : ∀ m ∈ modifiers, '\n' ∉ m.toList) :
    (Doc.concat (modifiers.map fun modifier => "|" ++ Doc.text modifier)).GoesOn unit level
      (modifiers.flatMap fun modifier => '|' :: modifier.toList) := by
  induction modifiers with
  | nil => exact Doc.goesOn_empty
  | cons m modifiers ih =>
    obtain ⟨hm, hmodifiers⟩ := forall_mem_cons.mp h
    have hbar : (Doc.text "|").GoesOn unit level ['|'] := Doc.goesOn_text (by decide)
    exact (hbar.append (goesOn_of_not_mem hm)).append (ih hmodifiers)

lemma stands_directiveDoc {kind : DirectiveKind} {e : Option Expr}
    (hhead : '\n' ∉ directiveHead kind name modifiers)
    (hwf : ∀ e' ∈ writtenExpr? kind name e, e'.normal.WellFormed) :
    (directiveDoc breaks kind name modifiers e).Stands unit level
      ((directive default kind name modifiers e).chars breaks unit level) := by
  simp only [directiveHead, directiveNames, mem_append, mem_cons, not_or,
    mem_flatMap, not_exists, not_and] at hhead
  obtain ⟨-, -, hname, hmodifiers⟩ := hhead
  have hword : (Doc.text (kind.word ++ ":")).Stands unit level (kind.word ++ ":").toList :=
    stands_of_not_mem (by simp) (by cases kind <;> decide)
  have hnames := (hword.append (goesOn_of_not_mem hname)).append
    (goesOn_modifiers fun m hm => (hmodifiers m hm).2)
  have hexpr : (Doc.ofOption (fun e => Doc.onlyIf (!(kind.impliesName && e.identifier? = some name))
      ("=\x7b\x7b " ++ e.doc breaks ++ " \x7d\x7d")) e).GoesOn unit level
      (((writtenExpr? kind name e).map
        (spacedTag breaks unit level "=\x7b\x7b ")).getD []) := by
    cases e with
    | none => exact Doc.goesOn_empty
    | some e =>
      show (Doc.onlyIf (!impliesExpr kind name e) _).GoesOn _ _ _
      cases himplied : impliesExpr kind name e with
      | true =>
        rw [show writtenExpr? kind name (some e) = none by
          simp [writtenExpr?, Option.filter, himplied]]
        exact Doc.goesOn_empty
      | false =>
        have hwritten : writtenExpr? kind name (some e) = some e := by
          simp [writtenExpr?, Option.filter, himplied]
        rw [hwritten]
        exact ((goesOn_of_not_mem (by decide)).append
          (Expr.goesOn_closing breaks (hwf e (by rw [hwritten]; rfl)))).congr fun _ => rfl
  have hall := hnames.append hexpr
  have htext : (directive default kind name modifiers e).chars breaks unit level =
      (kind.word ++ ":").toList ++ name.toList ++
        (modifiers.flatMap fun modifier => '|' :: modifier.toList) ++
        ((writtenExpr? kind name e).map
          (spacedTag breaks unit level "=\x7b\x7b ")).getD [] := by
    simp [chars, directiveHead, directiveNames]
  rw [htext]
  exact hall

/-- **A regular attribute is written as its text**, at the start of a line and within it. -/
theorem Attribute.stands (h : a.Regular) (hwf : ∀ e ∈ a.written, e.normal.WellFormed) :
    (a.doc breaks).Stands unit level (a.chars breaks unit level) := by
  rcases a with ⟨span, name, value, doubleQuotes⟩ | ⟨span, e⟩ | ⟨span, kind, name, modifiers, e⟩
  · cases value with
    | none =>
      have hname : IsPlainName name.toList := h
      exact stands_of_not_mem hname.ne_nil hname.not_lineFeed
    | some parts =>
      by_cases hvariable : variableName? parts = some name
      · rw [doc, plainDoc, if_pos hvariable, chars, if_pos hvariable]
        obtain ⟨span, place, rfl⟩ := eq_of_variableName? hvariable
        have hwritten : (Expr.identifier place name).normal.WellFormed :=
          hwf _ (by simp [written, expr?])
        have hstands : ("\x7b\x7b " ++ (Expr.identifier place name).doc breaks ++
            " \x7d\x7d").Stands unit level
            (spacedTag breaks unit level "\x7b\x7b " (.identifier place name)) :=
          stands_spacedTag hwritten (by decide) (by decide)
        rw [spacedTag, textAt_identifier hwritten] at hstands
        exact hstands
      · obtain ⟨hname, hvalue⟩ := h.resolve_left hvariable
        have hmeets : parts.IsChain Meets := by
          rcases hvalue with hsingle | hquoted
          · obtain ⟨span, e, rfl⟩ := eq_of_isSingleTag hsingle
            exact .singleton _
          · exact hquoted.meets
        rw [doc, chars, if_neg hvariable]
        exact stands_valueDoc hname hmeets hvariable doubleQuotes
  · exact stands_spacedTag (hwf e (by simp [written])) (by decide) (by decide)
  · exact stands_directiveDoc h.1.not_lineFeed fun e he => hwf e (by simpa [written] using he)

end Texts

/-! ## Reading attributes again -/

/-- **What follows a name ends it**, and no equals sign comes next. -/
def EndsName (rest : List Char) : Prop :=
  (∀ c ∈ rest.head?, endsAttributeName c = true) ∧ (rest.dropWhile isBlank).head? ≠ some '='

section Reading

variable {breaks : Breaks} {unit : String} {level : Nat} {a : Attribute} {rest : List Char}

lemma EndsName.gives_optionalValue (h : EndsName rest) (o : Nat) :
    Gives (optionalValue ⟨o, rest⟩) (none, true) ⟨o, rest⟩ := by
  refine gives_optionalValue_iff.mpr (.inl ⟨?_, rfl, rfl, rfl⟩)
  rw [Bool.eq_false_iff]
  intro hsign
  obtain ⟨more, hmore⟩ := isPrefixOf_iff_prefix.mp hsign
  rw [Cursor.skipBlanks, Cursor.rest_skipRun] at hmore
  exact h.2 (by rw [← hmore]; rfl)

lemma byteLength_spacedTag (opening : String) (e : Expr) :
    byteLength (spacedTag breaks unit level opening e) =
      byteLength opening.toList + byteLength (e.textAt breaks unit level) + 3 := by
  have hclosing : byteLength " \x7d\x7d".toList = 3 := by decide
  rw [spacedTag, byteLength_append, byteLength_append, hclosing]
  omega

lemma braced_spacedTag (level : Nat) (e : Expr) :
    e.Braced breaks unit (spacedTag breaks unit level "\x7b\x7b " e) :=
  ⟨level, [' '], [' '], blank_space, blank_space, cons_ne_nil _ _, rfl⟩

variable {e : Expr} {name : String} {place : Span} {cs : List Char}

lemma exists_gives_spread (h : e.ReadsBack breaks unit level) (o : Nat) (rest : List Char) :
    ∃ e', e'.normal = e.normal ∧
      Gives (attributeAt ⟨o, spacedTag breaks unit level "\x7b\x7b ..." e ++ rest⟩)
        (.spread ⟨o, o + byteLength (spacedTag breaks unit level "\x7b\x7b ..." e)⟩ e')
        ⟨o + byteLength (spacedTag breaks unit level "\x7b\x7b ..." e), rest⟩ := by
  obtain ⟨st₁, st₂, e', hat, hnormal, hderives, hend⟩ :=
    h.exists_endsInline blank_space (cons_ne_nil _ _) (o + 6) rest
  -- no mark is longer than the three points
  have hmark : (Lexeme.mark "...").EndsBefore
      (e.textAt breaks unit level ++ ([' '] ++ ("\x7d\x7d".toList ++ rest))) :=
    fun c _ => prolongsMark_eq_false_of_longest (by decide) (by decide +kernel) c
  obtain ⟨st, hst, hpasses⟩ := Stream.exists_passes (l := .mark "...") (o := o + 2)
    (isWritten_mark "..." (by decide)) blank_space hmark hat
  refine ⟨e', hnormal, gives_attributeAt_iff.mpr (.inl ⟨⟨_, rfl⟩, ?_⟩)⟩
  rw [byteLength_spacedTag, show byteLength "\x7b\x7b ...".toList = 6 by decide]
  have hnext : o + (6 + byteLength (e.textAt breaks unit level) + 3) =
      o + 6 + byteLength (e.textAt breaks unit level) + byteLength [' '] + 2 := by
    rw [show byteLength [' '] = 1 from rfl]
    omega
  rw [hnext]
  refine gives_tagAttribute_iff.mpr (.inl ⟨st, st₁, st₂, e', ?_, hpasses, hderives, hend, rfl⟩)
  have hskip := Cursor.skip_append o "\x7b\x7b".toList ([' '] ++ ("...".toList ++
    (e.textAt breaks unit level ++ ([' '] ++ ("\x7d\x7d".toList ++ rest)))))
  have htext : spacedTag breaks unit level "\x7b\x7b ..." e ++ rest = "\x7b\x7b".toList ++
      ([' '] ++ ("...".toList ++
        (e.textAt breaks unit level ++ ([' '] ++ ("\x7d\x7d".toList ++ rest))))) := by
    simp [spacedTag]
  rw [htext]
  exact hskip ▸ hst

lemma identifier?_of_normal_eq (h : e.normal = (Expr.identifier place name).normal) :
    e.identifier? = some name := by
  cases e with
  | identifier place' name' =>
    simp only [Expr.normal, Expr.identifier.injEq] at h
    rw [Expr.identifier?, h.2]
  | _ => simp [Expr.normal] at h

lemma exists_gives_shorthand
    (h : ∀ level, (Expr.identifier place name).ReadsBack breaks unit level) (o : Nat)
    (rest : List Char) :
    ∃ span e', e'.normal = (Expr.identifier place name).normal ∧
      Gives (attributeAt ⟨o, "\x7b\x7b ".toList ++ (name.toList ++ " \x7d\x7d".toList) ++ rest⟩)
        (.plain span name (some [.tag span e']) true)
        ⟨o + byteLength ("\x7b\x7b ".toList ++ (name.toList ++ " \x7d\x7d".toList)), rest⟩ := by
  have htext : "\x7b\x7b ".toList ++ (name.toList ++ " \x7d\x7d".toList) =
      spacedTag breaks unit 0 "\x7b\x7b " (.identifier place name) := by
    rw [spacedTag, textAt_identifier (h 0).wellFormed]
  rw [htext]
  have hbraced : (Expr.identifier place name).Braced breaks unit _ := braced_spacedTag 0 _
  obtain ⟨e', hnormal, hembeds⟩ := hbraced.exists_embeds h o rest
  have htag := gives_tagAttribute_iff.mpr
    (.inr ⟨e', name, hembeds, identifier?_of_normal_eq hnormal, rfl⟩)
  exact ⟨_, e', hnormal, gives_attributeAt_iff.mpr (.inl ⟨hbraced.tagBraces_prefix rest, htag⟩)⟩

lemma isBlank_head_of_tagBraces (h : tagBraces <+: cs) :
    ∀ c ∈ cs.head?, isBlank c = false := by
  obtain ⟨more, rfl⟩ := h
  rintro _ ⟨⟩
  decide

lemma exists_gives_tagValue (hbraced : e.Braced breaks unit cs)
    (h : ∀ level, e.ReadsBack breaks unit level) (o : Nat) (rest : List Char) :
    ∃ span e', e'.normal = e.normal ∧
      Gives (optionalValue ⟨o, '=' :: (cs ++ rest)⟩) (some [.tag span e'], true)
        ⟨o + 1 + byteLength cs, rest⟩ := by
  obtain ⟨e', hnormal, hembeds⟩ := hbraced.exists_embeds h (o + 1) rest
  have hstart := hbraced.tagBraces_prefix rest
  exact ⟨_, e', hnormal, gives_optionalValue_sign (isBlank_head_of_tagBraces hstart)
    (gives_attributeValue_tag hstart hembeds)⟩

lemma exists_gives_value
    (h : isSingleTag parts = true ∨ QuotedValue (quoteChar doubleQuotes parts) parts)
    (hread : ∀ e ∈ parts.filterMap expr?, ∀ level, e.ReadsBack breaks unit level)
    (hunit : Blank unit.toList) (level o : Nat) (rest : List Char) :
    ∃ found quotes,
      Gives (optionalValue
        ⟨o, '=' :: (valueChars breaks unit level doubleQuotes parts ++ rest)⟩)
        (some found, quotes)
        ⟨o + 1 + byteLength (valueChars breaks unit level doubleQuotes parts), rest⟩ ∧
      found.map AttributePart.normal =
        (parts.map (·.indented unit level)).map AttributePart.normal := by
  by_cases hsingle : isSingleTag parts = true
  · obtain ⟨span, e, rfl⟩ := eq_of_isSingleTag hsingle
    have hread := hread e (by simp [expr?])
    have hbraced : e.Braced breaks unit ((tagDoc breaks span.start e).renderAt unit level).toList :=
      braced_tagDoc (hread 0).wellFormed hunit span.start
    rw [valueChars, if_pos hsingle, flatMap_singleTag]
    obtain ⟨span', e', hnormal, hgives⟩ := exists_gives_tagValue hbraced hread o rest
    exact ⟨_, true, hgives, by simp [AttributePart.indented, AttributePart.normal, hnormal]⟩
  · have hquoted := h.resolve_left hsingle
    have hquote := quoteChar_eq doubleQuotes parts
    rw [valueChars, if_neg hsingle]
    generalize quoteChar doubleQuotes parts = quote at hquoted hquote ⊢
    have htags : ∀ span e, .tag span e ∈ parts.map (·.indented unit level) →
        ∀ level, e.ReadsBack breaks unit level := by
      intro span e hmem
      obtain ⟨part, hpart, heq⟩ := mem_map.mp hmem
      refine hread e (mem_filterMap.mpr ⟨part, hpart, ?_⟩)
      cases part with
      | text data => cases heq
      | tag span' e' =>
        cases heq
        rfl
    obtain ⟨found, hfound, hnormal⟩ := exists_gives_attributeValue level hquote
      (hquoted.indented hunit hquote level) htags hunit (o + 1) rest
    refine ⟨found, decide (quote = '"'), ?_, hnormal⟩
    have hlength : Char.utf8Size quote = 1 := by rcases hquote with rfl | rfl <;> rfl
    have hnext : o + 1 + byteLength (quote :: (flatMap (·.chars breaks unit level)
        (parts.map (·.indented unit level)) ++ [quote])) = o + 1 + byteLength (flatMap
        (·.chars breaks unit level) (parts.map (·.indented unit level))) + 2 := by
      rw [byteLength_enclosed hlength hlength]
      omega
    rw [hnext, cons_append, append_assoc, singleton_append]
    refine gives_optionalValue_sign ?_ hfound
    rintro _ ⟨⟩
    exact isBlank_quote hquote

lemma exists_gives_directive {span : Span} {kind : DirectiveKind} {modifiers : List String}
    {e : Option Expr} (h : (directive span kind name modifiers e).Regular)
    (hread : ∀ e' ∈ writtenExpr? kind name e, ∀ level, e'.ReadsBack breaks unit level)
    (hrest : writtenExpr? kind name e = none → EndsName rest) (level o : Nat) :
    ∃ span' e', e'.map Expr.normal = e.map Expr.normal ∧
      Gives (attributeAt
        ⟨o, (directive span kind name modifiers e).chars breaks unit level ++ rest⟩)
        (.directive span' kind name modifiers e')
        ⟨o + byteLength ((directive span kind name modifiers e).chars breaks unit level),
          rest⟩ := by
  obtain ⟨hhead, hname, hmodifiers, himplied⟩ := h
  rw [chars]
  cases hwritten : writtenExpr? kind name e with
  | none =>
    have hends := hrest hwritten
    rw [Option.map_none, Option.getD_none, append_nil]
    have hgives := gives_attributeAt_of_name (o := o) hhead hends.1 (hends.gives_optionalValue _)
      (directiveOf?_directiveHead hname hmodifiers).1
    refine ⟨_, _, ?_, hgives⟩
    -- the name stands for what is not written
    cases e with
    | none =>
      have himplies : kind.impliesName = false :=
        Bool.eq_false_iff.mpr fun himplies => by simpa using himplied himplies
      simp [himplies]
    | some e =>
      have himplies : impliesExpr kind name e = true := by
        simpa [writtenExpr?, Option.filter_eq_none_iff] using hwritten
      simp only [impliesExpr, Bool.and_eq_true, decide_eq_true_eq] at himplies
      obtain ⟨himplies, hidentifier⟩ := himplies
      cases e with
      | identifier place found =>
        cases hidentifier
        simp [himplies, Expr.normal]
      | _ => cases hidentifier
  | some written =>
    obtain rfl : e = some written := by simpa using (Option.eq_some_of_filter_eq_some hwritten)
    have hread := hread written hwritten
    obtain ⟨place, e', hnormal, hvalue⟩ := exists_gives_tagValue
      (braced_spacedTag level written) hread
      (o + byteLength (directiveHead kind name modifiers)) rest
    have hgives := gives_attributeAt_of_name hhead (by simp [endsAttributeName]) hvalue
      ((directiveOf?_directiveHead hname hmodifiers).2 place e')
    have htext : ((some written).map (spacedTag breaks unit level "=\x7b\x7b ")).getD [] =
        '=' :: spacedTag breaks unit level "\x7b\x7b " written := rfl
    have hnext : byteLength (directiveHead kind name modifiers ++
        '=' :: spacedTag breaks unit level "\x7b\x7b " written) =
        byteLength (directiveHead kind name modifiers) + 1 +
          byteLength (spacedTag breaks unit level "\x7b\x7b " written) := by
      rw [byteLength_append, byteLength_cons, Nat.add_assoc]
      rfl
    rw [htext, hnext, append_assoc, cons_append, ← Nat.add_assoc, ← Nat.add_assoc]
    exact ⟨_, some e', by rw [Option.map_some, Option.map_some, hnormal], hgives⟩

/-- **The text of a regular attribute is read as the attribute**, with the indentation that is
printed in its texts. Only after a name it matters what follows. -/
theorem Attribute.exists_gives_attributeAt (h : a.Regular)
    (hread : ∀ e ∈ a.written, ∀ level, e.ReadsBack breaks unit level)
    (hunit : Blank unit.toList) (hrest : a.isBare = true → EndsName rest) (o level : Nat) :
    ∃ found, Gives (attributeAt ⟨o, a.chars breaks unit level ++ rest⟩) found
        ⟨o + byteLength (a.chars breaks unit level), rest⟩ ∧
      found.bare = (a.indented unit level).bare := by
  rcases a with ⟨span, name, value, doubleQuotes⟩ | ⟨span, e⟩ | ⟨span, kind, name, modifiers, e⟩
  · cases value with
    | none =>
      have hname : IsPlainName name.toList := h
      have hends := hrest rfl
      have hgives := gives_attributeAt_of_name (o := o) hname.toIsAttributeHead hends.1
        (hends.gives_optionalValue _) (directiveOf?_eq_none_iff.mpr hname.not_directive)
      refine ⟨_, hgives, ?_⟩
      simp [namedOr, bare, normal, inDoubleQuotes, indented]
    | some parts =>
      by_cases hvariable : variableName? parts = some name
      · obtain ⟨place, place', rfl⟩ := eq_of_variableName? hvariable
        have hread := hread (.identifier place' name) (by simp [written, expr?])
        obtain ⟨span', e', hnormal, hgives⟩ := exists_gives_shorthand hread o rest
        rw [chars, if_pos hvariable]
        refine ⟨_, hgives, ?_⟩
        simp [bare, normal, inDoubleQuotes, indented, AttributePart.indented,
          AttributePart.normal, hnormal]
      · obtain ⟨hname, hvalue⟩ := h.resolve_left hvariable
        obtain ⟨found, quotes, hfound, hnormal⟩ := exists_gives_value hvalue hread hunit level
          (o + byteLength name.toList) rest
        have hgives := gives_attributeAt_of_name hname.toIsAttributeHead
          (by simp [endsAttributeName]) hfound (directiveOf?_eq_none_iff.mpr hname.not_directive)
        have hnext : byteLength (name.toList ++
            '=' :: valueChars breaks unit level doubleQuotes parts) = byteLength name.toList + 1 +
              byteLength (valueChars breaks unit level doubleQuotes parts) := by
          rw [byteLength_append, byteLength_cons, Nat.add_assoc]
          rfl
        rw [chars, if_neg hvariable, hnext, append_assoc, cons_append, ← Nat.add_assoc,
          ← Nat.add_assoc]
        refine ⟨_, hgives, ?_⟩
        simp [namedOr, bare, normal, inDoubleQuotes, indented, hnormal]
  · obtain ⟨e', hnormal, hgives⟩ := exists_gives_spread (hread e (by simp [written]) level) o rest
    exact ⟨_, hgives, by simp [bare, normal, inDoubleQuotes, indented, hnormal]⟩
  · obtain ⟨span', e', hnormal, hgives⟩ := exists_gives_directive h
      (fun e' he' => hread e' (by simpa [written] using he'))
      (fun hnone => hrest (by simp [isBare, hnone])) level o
    exact ⟨_, hgives, by simp [bare, normal, inDoubleQuotes, indented, hnormal]⟩

end Reading

/-! ## Values that are read back -/

namespace Attribute

variable {a : Attribute} {cur next : Cursor} {span : Span} {name : String}
  {parts : List AttributePart} {doubleQuotes : Bool} {breaks : Breaks} {unit : String}

lemma exists_of_bare_eq {found : Attribute}
    (h : found.bare = (plain span name (some parts) doubleQuotes).bare) :
    ∃ span' parts' quotes, found = .plain span' name (some parts') quotes ∧
      parts'.map AttributePart.normal = parts.map AttributePart.normal := by
  rcases found with ⟨span', name', value', quotes⟩ | ⟨span', e⟩ | ⟨span', kind, name', modifiers, e⟩
  · simp only [bare, normal, inDoubleQuotes, plain.injEq, Option.map_some, true_and,
      Option.map_eq_some_iff, and_true] at h
    obtain ⟨rfl, parts', rfl, hnormal⟩ := h
    exact ⟨span', parts', quotes, rfl, hnormal⟩
  · cases h
  · cases h

variable {data : String} {level : Nat}

/-- **Nothing is printed in the texts of an attribute** if none of them ends its line, or if there
is no indentation. -/
theorem indented_eq_self
    (h : indentationAt unit level = [] ∨ ∀ data ∈ a.texts, data.toList.getLast? ≠ some '\n') :
    a.indented unit level = a := by
  rcases a with ⟨span, name, value, doubleQuotes⟩ | ⟨span, e⟩ | ⟨span, kind, name, modifiers, e⟩
  · cases value with
    | none => rfl
    | some parts =>
      have hparts : parts.map (·.indented unit level) = parts := by
        refine (map_congr_left fun part hpart => ?_).trans (map_id parts)
        refine AttributePart.indented_eq_self (h.imp_right fun hlast data hdata => ?_)
        subst hdata
        exact hlast data (mem_filterMap.mpr ⟨_, hpart, rfl⟩)
      simp [indented, hparts]
  · rfl
  · rfl

lemma textAt_eq (h : a.Regular) (hwf : ∀ e ∈ a.written, e.normal.WellFormed) :
    a.textAt breaks unit level = a.chars breaks unit level :=
  (stands h hwf).goesOn.renderAt_eq

/-- **A value in quotes is read back from what its attribute is printed as**, whatever stands
before and after it: the printed quotes occur in no text of the value, and the attribute has the
same name and the same texts and tags again. The same holds of a value that is a tag. -/
theorem exists_gives_of_quoted (hgives : Gives (attributeAt cur) a next)
    (ha : a = .plain span name (some parts) doubleQuotes) (hquoted : a.isUnquoted cur.rest = false)
    (hplain : ∀ place e, .tag place e ∈ parts → e.Plain breaks)
    (hunit : Blank unit.toList) :
    (∀ data, .text data ∈ parts →
      ∀ c ∈ (quote doubleQuotes parts).toList, c ∉ data.toList) ∧
    ∀ (o : Nat) (rest : List Char), ∃ span' parts' quotes,
      Gives (attributeAt ⟨o, a.textAt breaks unit 0 ++ rest⟩)
        (.plain span' name (some parts') quotes)
        ⟨o + byteLength (a.textAt breaks unit 0), rest⟩ ∧
      parts'.map AttributePart.normal = parts.map AttributePart.normal := by
  subst ha
  have hregular := (isFrom_of_gives hgives).regular hquoted
  have hwf : ∀ part ∈ parts, part.WellFormed :=
    (readsAttribute_of_attributeAt hgives).wellFormed parts rfl
  have hread : ∀ e ∈ (plain span name (some parts) doubleQuotes).written,
      ∀ level, e.ReadsBack breaks unit level := by
    intro e he level
    obtain ⟨part, hpart, hexpr⟩ := mem_filterMap.mp he
    cases part with
    | text data => cases hexpr
    | tag place e =>
      cases hexpr
      exact Expr.readsBack_of_plain (hwf _ hpart) (hplain place e hpart) hunit level
  refine ⟨fun data hdata c hc => ?_, fun o rest => ?_⟩
  · rw [toList_quote, mem_singleton] at hc
    subst hc
    rcases hregular with hvariable | ⟨-, hsingle | hvalue⟩
    · obtain ⟨place, place', rfl⟩ := eq_of_variableName? hvariable
      simp at hdata
    · obtain ⟨place, e, rfl⟩ := eq_of_isSingleTag hsingle
      simp at hdata
    · exact hvalue.quote_not_mem data hdata
  · obtain ⟨found, hfound, hbare⟩ := exists_gives_attributeAt hregular hread hunit
      (by simp [isBare] : _ → EndsName rest) o 0
    rw [indented_eq_self (.inl (indentationAt_zero unit))] at hbare
    obtain ⟨span', parts', quotes, rfl, hnormal⟩ := exists_of_bare_eq hbare
    rw [textAt_eq hregular fun e he => (hread e he 0).wellFormed]
    exact ⟨span', parts', quotes, hfound, hnormal⟩

/-- A text with double quotes and a tag, in single quotes. -/
theorem exists_gives_of_quoted_title : ∃ a span name parts doubleQuotes next,
    Gives (attributeAt ⟨0, "title='\"a\" \x7b\x7b b \x7d\x7d'>".toList⟩) a next ∧
    a = .plain span name (some parts) doubleQuotes ∧
    parts.filterMap text? = ["\"a\" "] ∧
    (∀ data, .text data ∈ parts →
      ∀ c ∈ (quote doubleQuotes parts).toList, c ∉ data.toList) ∧
    ∃ span' parts' quotes,
      Gives (attributeAt ⟨0, a.textAt (fun _ _ _ => false) "  " 0 ++ ['>']⟩)
        (.plain span' name (some parts') quotes)
        ⟨0 + byteLength (a.textAt (fun _ _ _ => false) "  " 0), ['>']⟩ ∧
      parts'.map AttributePart.normal = parts.map AttributePart.normal := by
  let b : Expr := .identifier ⟨14, 15⟩ "b"
  let parts : List AttributePart := [.text "\"a\" ", .tag ⟨11, 18⟩ b]
  have hgives : Gives (attributeAt ⟨0, "title='\"a\" \x7b\x7b b \x7d\x7d'>".toList⟩)
      (.plain ⟨0, 19⟩ "title" (some parts) false) ⟨19, ['>']⟩ :=
    ⟨by decide, by with_unfolding_all rfl⟩
  have hplain : ∀ place e, .tag place e ∈ parts → e.Plain fun _ _ _ => false := by
    simp [parts, b, Expr.Plain, Expr.outline, Expr.inSlot, Expr.parts, Expr.KeepsShape]
  have hunit : Blank "  ".toList := by simp [Blank, isBlank]
  have hreads := exists_gives_of_quoted hgives rfl (by decide +kernel) hplain hunit
  exact ⟨_, _, _, parts, false, _, hgives, rfl, rfl, hreads.1, hreads.2 0 ['>']⟩

/-! ## Values without quotes -/

/-- **A text can stand between quotes** that are printed around it: it has no tag in it, and not
both kinds of quotes. -/
def IsQuotableText (data : List Char) : Prop := ¬ tagBraces <:+: data ∧ ¬ ('"' ∈ data ∧ '\'' ∈ data)

lemma quoteChar_not_mem_text (h : ¬ ('"' ∈ data.toList ∧ '\'' ∈ data.toList)) :
    quoteChar true [.text data] ∉ data.toList := by
  by_cases hdouble : '"' ∈ data.toList
  · have hsingle : '\'' ∉ data.toList := fun hsingle => h ⟨hdouble, hsingle⟩
    simp [quoteChar, quote, hasChar, hdouble, hsingle]
  · simp [quoteChar, quote, hasChar, hdouble]

lemma isQuotableText_iff (hne : data ≠ "") :
    IsQuotableText data.toList ↔
      QuotedValue (quoteChar true [.text data]) [.text data] := by
  have hne' : data.toList ≠ [] := by simpa using hne
  constructor
  · intro h
    refine .inr ⟨cons_ne_nil _ _, ⟨fun part hpart => ?_, .singleton _⟩⟩
    obtain rfl := mem_singleton.mp hpart
    exact ⟨hne', quoteChar_not_mem_text h.2, h.1⟩
  · rintro (h | ⟨-, h⟩)
    · simp [hne] at h
    · obtain ⟨-, hquote, htag⟩ := h.fits _ (mem_singleton_self _)
      refine ⟨htag, fun hboth => hquote ?_⟩
      rcases quoteChar_eq true [.text data] with h | h
      · exact h ▸ hboth.1
      · exact h ▸ hboth.2

lemma IsFrom.of_isUnquoted (h : a.IsFrom text)
    (ha : a = .plain span name (some [.text data]) doubleQuotes)
    (hunquoted : a.isUnquoted text = true) :
    IsPlainName name.toList ∧ data ≠ "" ∧ (∀ c ∈ data.toList, isBlank c = false) ∧
      doubleQuotes = true := by
  subst ha
  rcases h with hvariable | ⟨hname, hsingle | ⟨quote, hquote, hhead, -⟩ |
    ⟨-, data', hne, hblank, hparts, hquotes⟩⟩
  · cases hvariable
  · cases hsingle
  · rw [isUnquoted, hhead] at hunquoted
    rcases hquote with rfl | rfl <;> cases hunquoted
  · cases hparts
    exact ⟨hname, hne, hblank, hquotes⟩

lemma head?_valueIn (span : Span) (doubleQuotes : Bool) (breaks : Breaks) (unit : String)
    (hname : IsPlainName name.toList)
    (hvariable : variableName? parts ≠ some name)
    (hsingle : isSingleTag parts = false) (level : Nat) (rest : List Char) :
    (valueIn ((plain span name (some parts) doubleQuotes).chars breaks unit level ++
      rest)).head? = some (quoteChar doubleQuotes parts) := by
  have hblank := isBlank_quote (quoteChar_eq doubleQuotes parts)
  rw [chars, if_neg hvariable, append_assoc, cons_append, ← nil_append ('=' :: _),
    valueIn_append hname.toIsAttributeHead .nil, valueChars, hsingle, if_neg Bool.false_ne_true,
    cons_append, dropWhile_cons_of_neg (by simp [hblank]), head?_cons]

lemma eq_of_map_normal_text
    (h : parts.map AttributePart.normal = [AttributePart.text data].map AttributePart.normal) :
    parts = [.text data] := by
  obtain ⟨part, rfl, hpart⟩ := map_eq_singleton_iff.mp h
  cases part with
  | text data' => exact congrArg (fun part => [part]) hpart
  | tag place e => cases hpart

/-- **A value without quotes is read back from what its attribute is printed as** if and only if it
can stand between quotes. If it cannot, no reading of the printed text has the value. -/
theorem gives_of_unquoted_iff {data : String} (hgives : Gives (attributeAt cur) a next)
    (ha : a = .plain span name (some [.text data]) doubleQuotes)
    (hunquoted : a.isUnquoted cur.rest = true) (breaks : Breaks) (hunit : Blank unit.toList)
    (level o : Nat) (rest : List Char) :
    (IsQuotableText data.toList → ∃ span' quotes,
      Gives (attributeAt ⟨o, a.textAt breaks unit level ++ rest⟩)
        (.plain span' name (some [.text data]) quotes)
        ⟨o + byteLength (a.textAt breaks unit level), rest⟩) ∧
    (¬ IsQuotableText data.toList → ∀ span' quotes next',
      ¬ Gives (attributeAt ⟨o, a.textAt breaks unit level ++ rest⟩)
        (.plain span' name (some [.text data]) quotes) next') := by
  obtain ⟨hname, hne, hblank, rfl⟩ := (isFrom_of_gives hgives).of_isUnquoted ha hunquoted
  subst ha
  have hfeed : data.toList.getLast? ≠ some '\n' := fun hlast =>
    absurd (hblank _ (mem_of_getLast? hlast)) (by decide)
  have hvariable : variableName? [.text data] ≠ some name := nofun
  have htext : (plain span name (some [.text data]) true).textAt breaks unit level =
      (plain span name (some [.text data]) true).chars breaks unit level := by
    exact (stands_valueDoc hname (.singleton _) hvariable true).goesOn.renderAt_eq
  rw [htext]
  refine ⟨fun hquotable => ?_, fun hquotable span' quotes next' hagain => hquotable ?_⟩
  · have hregular : (plain span name (some [.text data]) true).Regular :=
      .inr ⟨hname, .inr ((isQuotableText_iff hne).mp hquotable)⟩
    have hread : ∀ e ∈ (plain span name (some [.text data]) true).written,
        ∀ level, e.ReadsBack breaks unit level := by simp [written, expr?]
    obtain ⟨found, hfound, hbare⟩ := exists_gives_attributeAt hregular hread hunit
      (by simp [isBare] : _ → EndsName rest) o level
    rw [indented_eq_self (.inr (by simpa [texts, text?] using hfeed))] at hbare
    obtain ⟨span', parts', quotes, rfl, hnormal⟩ := exists_of_bare_eq hbare
    rw [eq_of_map_normal_text hnormal] at hfound
    exact ⟨span', quotes, hfound⟩
  · -- the quote after the sign tells that the value is read between quotes
    have hhead := head?_valueIn span true breaks unit hname hvariable rfl level rest
    rcases isFrom_of_gives hagain with hvariable' | ⟨-, hsingle | ⟨quote, -, hquote, hvalue, -⟩ |
      ⟨hnoQuote, -⟩⟩
    · exact absurd hvariable' hvariable
    · cases hsingle
    · obtain rfl := Option.some.inj (hhead.symm.trans hquote)
      exact (isQuotableText_iff hne).mpr hvalue
    · obtain ⟨hdouble, hsingle⟩ := hnoQuote _ hhead
      exact absurd (quoteChar_eq true [.text data]) (by simp [hdouble, hsingle])

/-- A double quote may stand in a value without quotes, but both kinds may not. -/
theorem gives_of_unquoted_iff_both :
    (∃ a span name doubleQuotes next, Gives (attributeAt ⟨0, "x=b\"c>".toList⟩) a next ∧
      a = .plain span name (some [.text "b\"c"]) doubleQuotes ∧ ∃ span' quotes,
        Gives (attributeAt ⟨0, a.textAt (fun _ _ _ => false) "  " 1 ++ ['>']⟩)
          (.plain span' name (some [.text "b\"c"]) quotes)
          ⟨0 + byteLength (a.textAt (fun _ _ _ => false) "  " 1), ['>']⟩) ∧
    ∃ a span name doubleQuotes next, Gives (attributeAt ⟨0, "x=b\"c'd>".toList⟩) a next ∧
      a = .plain span name (some [.text "b\"c'd"]) doubleQuotes ∧ ∀ span' quotes next',
        ¬ Gives (attributeAt ⟨0, a.textAt (fun _ _ _ => false) "  " 1 ++ ['>']⟩)
          (.plain span' name (some [.text "b\"c'd"]) quotes) next' := by
  have hunit : Blank "  ".toList := by simp [Blank, isBlank]
  constructor
  · have hgives : Gives (attributeAt ⟨0, "x=b\"c>".toList⟩)
        (.plain ⟨0, 5⟩ "x" (some [.text "b\"c"]) true) ⟨5, ['>']⟩ :=
      ⟨by decide, by with_unfolding_all rfl⟩
    exact ⟨_, _, _, _, _, hgives, rfl,
      (gives_of_unquoted_iff hgives rfl (by decide +kernel) _ hunit 1 0 ['>']).1
        (by unfold IsQuotableText; decide)⟩
  · have hgives : Gives (attributeAt ⟨0, "x=b\"c'd>".toList⟩)
        (.plain ⟨0, 7⟩ "x" (some [.text "b\"c'd"]) true) ⟨7, ['>']⟩ :=
      ⟨by decide, by with_unfolding_all rfl⟩
    exact ⟨_, _, _, _, _, hgives, rfl,
      (gives_of_unquoted_iff hgives rfl (by decide +kernel) _ hunit 1 0 ['>']).2
        (by unfold IsQuotableText; decide)⟩

/-- **Quotes are put around a value that has both kinds of them**: what is printed is not
accepted. -/
theorem formatSource_unquoted_both :
    (formatSource {} "<a x=b\"c'd></a>").toOption = some "<a x=\"b\"c'd\"></a>\n" ∧
      (formatSource {} "<a x=\"b\"c'd\"></a>\n").toOption = none := by
  decide +kernel

end Attribute

end ComponentTemplate
