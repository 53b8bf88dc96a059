import ComponentTemplate.Proofs.AttributeLists

/-!
# Texts that are read as attributes

What regular attributes are printed as is read as them wherever it stands, if no indentation is
printed in their texts. This is so of attributes that have a text in one line as their value, and of
directives, which have no texts.
-/

namespace ComponentTemplate

open MarkupGrammar AttributePart List

/-- **The names of attributes** that are no directives and no tags. -/
structure IsAttributeName (name : List Char) : Prop extends IsAttributeHead name where
  no_brace : '\x7b' ∉ name
  no_colon : ':' ∉ name

instance (name : List Char) : Decidable (IsAttributeName name) :=
  decidable_of_iff ((!name.isEmpty && name.all (!endsAttributeName ·) && !name.contains '\x7b' &&
    !name.contains ':') = true) (by
      simp only [Bool.and_eq_true, Bool.not_eq_true', isEmpty_eq_false_iff, all_eq_true,
        contains_eq_mem, decide_eq_false_iff_not, and_assoc]
      constructor
      · rintro ⟨hne, hgoes, hbrace, hcolon⟩
        exact ⟨⟨hne, hgoes, fun htag => hbrace (htag.subset (mem_cons_self ..))⟩, hbrace, hcolon⟩
      · rintro ⟨⟨hne, hgoes, -⟩, hbrace, hcolon⟩
        exact ⟨hne, hgoes, hbrace, hcolon⟩)

lemma IsAttributeName.isPlainName {name : List Char} (h : IsAttributeName name) :
    IsPlainName name where
  toIsAttributeHead := h.toIsAttributeHead
  not_directive := by
    have hcut : Text.cutAt? ':' name = none := by
      cases hcut : Text.cutAt? ':' name with
      | none => rfl
      | some parts =>
        refine absurd ?_ h.no_colon
        rw [(Text.cutAt?_eq_some_iff.mp hcut).1]
        simp
    rw [directiveKind?, hcut]

namespace Attribute

/-- **Attributes with a text as their value**, in one line and without double quotes and braces. -/
def isTextual : Attribute → Bool
  | .plain _ name (some [.text value]) _ =>
    decide (IsAttributeName name.toList) &&
      value.toList.all fun c => c != '"' && c != '\x7b' && c != '\n'
  | _ => false

variable {attributes : List Attribute} {breaks : Breaks} {unit : String}

/-- **The text of regular attributes is read as them** if no indentation is printed in their
texts. -/
theorem return_attributesText (hregular : ∀ a ∈ attributes, a.Regular)
    (hread : ∀ a ∈ attributes, ∀ e ∈ a.written, ∀ level, e.ReadsBack breaks unit level)
    (hunit : Text.Blank unit.toList) (hsame : ∀ a ∈ attributes, a.indented unit level = a)
    (hfeeds : feeds.length = attributes.length) :
    Return attributes (attributesText breaks unit level feeds attributes) := by
  intro tag before rest selfClosing next hend
  obtain ⟨found, hfound, hbares, -⟩ := exists_gives_attributes hregular hread hunit
    (endsName_of_gives hend) hfeeds level before hend
  refine ⟨found, hfound, ?_⟩
  have hall := (forall₂_and_left _ _).mpr ⟨hsame, hbares⟩
  rw [← forall₂_eq_eq_eq, forall₂_map_left_iff, forall₂_map_right_iff]
  exact hall.flip.imp fun b a h => h.2.trans (congrArg bare h.1)

lemma regular_of_isTextual {a : Attribute} (h : a.isTextual = true) :
    a.Regular ∧ a.written = [] ∧ ∀ data ∈ a.texts, '\n' ∉ data.toList := by
  unfold isTextual at h
  split at h
  · rename_i span name value doubleQuotes
    simp only [Bool.and_eq_true, decide_eq_true_eq, all_eq_true, bne_iff_ne, and_assoc] at h
    obtain ⟨hname, hvalue⟩ := h
    have hdouble : '"' ∉ value.toList := fun hmem => (hvalue _ hmem).1 rfl
    have hbrace : '\x7b' ∉ value.toList := fun hmem => (hvalue _ hmem).2.1 rfl
    have hquote : quoteChar doubleQuotes [.text value] = '"' := by
      simp [quoteChar, quote, hasChar,
        isSingleText, hdouble]
    refine ⟨.inr ⟨hname.isPlainName, .inr ?_⟩, by simp [written, expr?], ?_⟩
    · dsimp only
      rw [hquote]
      by_cases hempty : value = ""
      · exact .inl (by rw [hempty])
      · refine .inr ⟨cons_ne_nil _ _, forall_mem_singleton.mpr ?_, .singleton _⟩
        exact ⟨by simpa using hempty, hdouble, fun h => hbrace (h.subset (mem_cons_self ..))⟩
    · intro data hdata
      obtain rfl : data = value := by simpa [texts, text?] using hdata
      exact fun hmem => (hvalue _ hmem).2.2 rfl
  · cases h

lemma return_of_isTextual (h : ∀ a ∈ attributes, a.isTextual = true) (breaks : Breaks)
    (hunit : Text.Blank unit.toList) (level : Nat) {feeds : List Nat}
    (hfeeds : feeds.length = attributes.length) :
    Return attributes (attributesText breaks unit level feeds attributes) := by
  refine return_attributesText (fun a ha => (regular_of_isTextual (h a ha)).1) (fun a ha => ?_)
    hunit (fun a ha => indented_eq_self (.inr fun data hdata hlast => ?_)) hfeeds
  · simp [(regular_of_isTextual (h a ha)).2.1]
  · exact (regular_of_isTextual (h a ha)).2.2 data hdata (mem_of_getLast? hlast)

/-- **Attributes with texts as their values are printed as a text that is read as them.** -/
theorem fills_return (h : ∀ a ∈ attributes, a.isTextual = true) :
    (Doc.concat (attributes.map fun a => " " ++ a.doc breaks)).Fills (Return attributes) := by
  intro w hw hstart
  have hunit : w.unit = (String.ofList w.unit).toList := String.toList_ofList.symm
  have hstands : ∀ a ∈ attributes, (a.doc breaks).Stands (String.ofList w.unit) w.level
      (a.chars breaks (String.ofList w.unit) w.level) := fun a ha =>
    stands (regular_of_isTextual (h a ha)).1 (by simp [(regular_of_isTextual (h a ha)).2.1])
  obtain ⟨hall, hline⟩ := goesOn_unwrappedAttributes hstands w hunit rfl hstart
  rw [← Writer.front_of_not_atLineStart hline, ← Writer.front_of_not_atLineStart hstart] at hall
  exact ⟨_, hall, return_of_isTextual h breaks (hunit ▸ hw.isBlank) w.level (length_map _)⟩

end Attribute

/-! ## Directives -/

lemma Expr.exists_eq_identifier {e : Expr} {place : Span} {name : String}
    (h : e.normal = (Expr.identifier place name).normal) :
    ∃ place', e = .identifier place' name := by
  cases e with
  | identifier place' name' =>
    simp only [Expr.normal, Expr.identifier.injEq, true_and] at h
    exact ⟨place', by rw [h]⟩
  | _ => simp [Expr.normal] at h

namespace Attribute

variable {tag tag' : String} {cur next next' : Cursor} {found more : List Attribute}
  {selfClosing closes : Bool} {a : Attribute} {span : Span} {kind : DirectiveKind} {name : String}
  {modifiers : List String} {e : Option Expr} {breaks : Breaks} {unit : String} {rest : List Char}

lemma exists_gives_attributeAt_of_mem
    (h : Gives (attributes tag cur) (found, selfClosing) next) :
    ∀ a ∈ found, ∃ start stop, cur.Reaches start ∧ Gives (attributeAt start) a stop := by
  induction found generalizing cur with
  | nil => simp
  | cons first more ih =>
    rcases gives_attributesHere_iff.mp ((gives_attributes_iff rfl).mp h) with
      ⟨-, hnil, -⟩ | ⟨-, hnil, -⟩ | ⟨-, -, _, _, after, heq, hfirst, hmore⟩
    · cases hnil
    · cases hnil
    · cases heq
      have hreaches := cur.reaches_skipBlanks.trans (readsAttribute_of_attributeAt hfirst).reaches
      refine forall_mem_cons.mpr ⟨⟨_, _, cur.reaches_skipBlanks, hfirst⟩, fun a ha => ?_⟩
      obtain ⟨start, stop, hstart, hgives⟩ := ih hmore a ha
      exact ⟨start, stop, hreaches.trans hstart, hgives⟩

lemma Regular.gives_attributes_cons (h : a.Regular)
    (hfirst : Gives (attributeAt ⟨o, a.chars breaks unit level ++ rest⟩) b
      ⟨o + byteLength (a.chars breaks unit level), rest⟩)
    (hmore : Gives (attributes tag ⟨o + byteLength (a.chars breaks unit level), rest⟩)
      (more, closes) next) :
    Gives (attributes tag ⟨o, a.chars breaks unit level ++ rest⟩)
      (b :: more, closes) next := by
  obtain ⟨c, cs, hcs, hc⟩ := h.exists_chars breaks unit level
  have hhere : (⟨o, a.chars breaks unit level ++ rest⟩ : Cursor).skipBlanks =
      ⟨o, a.chars breaks unit level ++ rest⟩ := by
    refine @skipBlanks_append [] _ Text.Blank.nil ?_ o
    rw [hcs]
    rintro _ ⟨⟩
    exact (endsAttributeName_eq_false hc).1
  exact MarkupGrammar.gives_attributes_cons hhere (by rw [hcs]; rfl) hc hfirst hmore

/-- **Directives are read back from what they are printed as.** From the text of a directive of a
source, before whatever is read as other attributes, the same kind, name, modifiers and expression
are read. A variable with the name of the directive is not written where the name stands for it, and
is the expression again. -/
theorem directive_reads_back
    (hgives : Gives (attributes tag cur) (found, selfClosing) next) (hmem : a ∈ found)
    (ha : a = .directive span kind name modifiers e)
    (hread : ∀ e' ∈ writtenExpr? kind name e, ∀ level, e'.ReadsBack breaks unit level)
    (level o : Nat)
    (hends : a.isBare = true → EndsName rest)
    (hmore : Gives (attributes tag'
      ⟨o + byteLength (a.textAt breaks unit level), rest⟩) (more, closes) next') :
    ∃ span' e', Gives (attributes tag' ⟨o, a.textAt breaks unit level ++ rest⟩)
        (.directive span' kind name modifiers e' :: more, closes) next' ∧
      e'.map Expr.normal = e.map Expr.normal ∧
      ∀ place, kind.impliesName = true → e = some (.identifier place name) →
        a.textAt breaks unit level = directiveHead kind name modifiers ∧
          ∃ place', e' = some (.identifier place' name) := by
  subst ha
  -- no condition on the value: what has no texts is regular however it is written in the source
  obtain ⟨start, stop, -, hstart⟩ := exists_gives_attributeAt_of_mem hgives _ hmem
  have hregular := (isFrom_of_gives hstart).regular rfl
  rw [textAt_eq hregular fun e' he' =>
    (hread e' (by simpa [written] using he') level).wellFormed] at hmore ⊢
  obtain ⟨span', e', hnormal, hfirst⟩ := exists_gives_directive hregular hread
    (fun hnone => hends (by simp [isBare, hnone])) level o
  refine ⟨span', e', hregular.gives_attributes_cons hfirst hmore, hnormal, ?_⟩
  rintro place himplies rfl
  have himplied : writtenExpr? kind name (some (.identifier place name)) = none := by
    simp [writtenExpr?, Option.filter_eq_none_iff, impliesExpr, himplies, Expr.identifier?]
  refine ⟨by rw [chars, himplied, Option.map_none, Option.getD_none, append_nil], ?_⟩
  obtain ⟨found', rfl, hfound⟩ := Option.map_eq_some_iff.mp hnormal
  obtain ⟨place', rfl⟩ := Expr.exists_eq_identifier hfound
  exact ⟨place', rfl⟩

/-- A name that is no variable stands for itself, between modifiers one of which is empty; a tag
between quotes is the expression of a name with a colon. -/
theorem directive_reads_back_class :
    (∃ span place next,
      Gives (attributes "a" ⟨0, "class:a-b||c>".toList⟩)
        ([.directive span .cssClass "a-b" ["", "c"] (some (.identifier place "a-b"))], false) next ∧
      ∃ span' place', Gives (attributes "a" ⟨0, "class:a-b||c>".toList⟩)
        ([.directive span' .cssClass "a-b" ["", "c"] (some (.identifier place' "a-b"))], false)
        ⟨13, []⟩) ∧
    ∃ span place next,
      Gives (attributes "a" ⟨0, "on:x:y=\"\x7b\x7b f \x7d\x7d\">".toList⟩)
        ([.directive span .on "x:y" [] (some (.identifier place "f"))], false) next ∧
      ∃ span' e' next', Gives (attributes "a"
          ⟨0, (Attribute.directive span .on "x:y" [] (some (.identifier place "f"))).textAt
            (fun _ _ _ => false) "  " 1 ++ ['>']⟩)
        ([.directive span' .on "x:y" [] e'], false) next' ∧
        e'.map Expr.normal = (some (Expr.identifier place "f")).map Expr.normal := by
  have hend (o : Nat) : Gives (attributes "a" ⟨o, ['>']⟩) ([], false) ⟨o + 1, []⟩ :=
    (gives_attributes_iff rfl).mpr (gives_attributesHere_iff.mpr (.inr (.inl ⟨rfl, rfl, rfl, rfl⟩)))
  have hunit : Text.Blank "  ".toList := by simp [Text.Blank, Text.isBlank]
  constructor
  · have hgives : Gives (attributes "a" ⟨0, "class:a-b||c>".toList⟩)
        ([.directive ⟨0, 12⟩ .cssClass "a-b" ["", "c"] (some (.identifier ⟨0, 12⟩ "a-b"))], false)
        ⟨13, []⟩ := ⟨by decide, by with_unfolding_all rfl⟩
    have hread : ∀ e ∈ writtenExpr? .cssClass "a-b" (some (.identifier ⟨0, 12⟩ "a-b")), ∀ level,
        e.ReadsBack (fun _ _ _ => false) "  " level := by
      rintro _ ⟨⟩
    obtain ⟨span', e', hagain, -, himplied⟩ := directive_reads_back hgives
      (mem_singleton_self _) rfl hread 1 0 (fun _ => endsName_of_gives (hend 0)) (hend _)
    obtain ⟨htext, place', rfl⟩ := himplied _ rfl rfl
    rw [htext] at hagain
    exact ⟨_, _, _, hgives, span', place', hagain⟩
  · have hgives : Gives (attributes "a"
        ⟨0, "on:x:y=\"\x7b\x7b f \x7d\x7d\">".toList⟩)
        ([.directive ⟨0, 16⟩ .on "x:y" [] (some (.identifier ⟨11, 12⟩ "f"))], false) ⟨17, []⟩ :=
      ⟨by decide, by with_unfolding_all rfl⟩
    have hread : ∀ e ∈ writtenExpr? .on "x:y" (some (.identifier ⟨11, 12⟩ "f")), ∀ level,
        e.ReadsBack (fun _ _ _ => false) "  " level := by
      rintro _ ⟨⟩ level
      exact Expr.readsBack_of_plain (by simp only [Expr.WellFormed]; decide)
        (by simp [Expr.Plain, Expr.outline, Expr.inSlot, Expr.parts, Expr.KeepsShape]) hunit level
    obtain ⟨span', e', hagain, hnormal, -⟩ := directive_reads_back hgives
      (mem_singleton_self _) rfl hread 1 0 (fun _ => endsName_of_gives (hend 0)) (hend _)
    exact ⟨_, _, _, hgives, span', e', _, hagain, hnormal⟩

end Attribute

end ComponentTemplate
