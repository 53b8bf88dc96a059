import ComponentTemplate.Proofs.Derivation

/-!
# Reading what has a derivation

The reading functions follow a derivation, whichever it is: together with
`derives_of_reads`, they read exactly the phrases of the grammar.
-/

namespace ComponentTemplate.Grammar

variable {st st₁ : Stream} {e : Expr}

lemma gives_primary_of_atom (hatom : st.current.atom? = some e) (hnext : st.Next st₁) :
    Gives (primary st) e st₁ := by
  rw [primary]
  split
  · exact gives_wordPrimary_iff.mpr ⟨hatom, hnext⟩
  case h_5 hword _ _ _ =>
    have hliteral : st.current.literal? = some e := by
      unfold Token.atom? at hatom
      split at hatom <;> simp_all
    obtain ⟨result, hsome, hgives⟩ := gives_literal_iff.mpr ⟨hliteral, hnext⟩
    rw [hsome]
    exact hgives
  all_goals simp_all [Token.atom?, Token.literal?]

lemma not_atMark_of_key {key : Expr} {text : String} (h : st.current.key? = some key) :
    ¬ st.atMark text = true := by
  intro hmark
  simp [Token.key?, Token.literal?, Stream.atMark_iff.mp hmark] at h

lemma reads_of_derives {phrase : Phrase} {st' : Stream} (h : Derives phrase st st') :
    Reads phrase st st' := by
  induction h with
  | arrow hat | shortArrow hat =>
    simp only [Reads] at *
    rw [expression, hat, ok_bind]
    simp only [if_true, arrowParams, gives_bind, gives_acceptMark_iff, gives_identifierExpr_iff,
      gives_expectMark_iff, gives_pure]
    grind [Stream.Passes.ne_mark]
  | plain hat | assignment hat =>
    simp only [Reads] at *
    rw [expression, hat, ok_bind, if_neg (by simp), gives_bind]
    refine ⟨_, _, ‹Gives (choice _) _ _›, ?_⟩
    dsimp only
    split <;> simp only [gives_bind, gives_ite, gives_next_iff, gives_pure] <;> grind
  | test | conditional | binary | suffixed =>
    simp only [Reads] at *
    first | rw [choice] | rw [binary] | rw [suffixed]
    simp only [gives_bind, gives_acceptMark_iff, gives_expectMark_iff, gives_pure]
    grind
  | binaryEnd hop | binaryWeaker hop =>
    rw [Reads, binaryRest]
    split <;> grind [gives_ok]
  | binaryStep hop htier _ _ ihright ihrest =>
    obtain ⟨found, hfound, hpass, htier'⟩ := Stream.passOperator_of_operator hop
    rw [Reads, binaryRest]
    split
    · simp_all
    · simp_all
    · rename_i hfound'
      obtain rfl : _ = found := by simpa using hfound'.symm.trans hfound
      simp only [if_neg (Nat.not_lt.mpr (htier' ▸ htier)), gives_bind, gives_pure]
      exact ⟨_, _, hpass, _, _, ihright, _, _, ihrest, rfl, rfl⟩
  | unary | leadingUpdate | operand =>
    simp only [Reads] at *
    rw [unary]
    split
    · simp only [gives_bind, gives_next_iff, gives_pure]
      grind
    · split
      · simp only [gives_bind, gives_next_iff, gives_pure]
        grind
      · grind
  | trailingUpdate hop hnext =>
    rw [Reads, suffixes]
    split
    case h_6 =>
      split
      · simp only [gives_bind, gives_next_iff, gives_pure]
        grind
      · simp_all
    all_goals simp_all [UpdateOp.ofLexeme?]
  | suffixesEnd hend =>
    rw [Reads, suffixes]
    split
    case h_6 => split <;> simp_all [Lexeme.startsSuffix, gives_ok]
    all_goals simp_all [Lexeme.startsSuffix]
  | member | optional | computed | call | filter | filterCall =>
    simp only [Reads] at *
    rw [suffixes]
    split
    all_goals
      try simp only [gives_bind, gives_next_iff, gives_nameExpr_iff, gives_expectMark_iff,
        gives_name_iff, gives_acceptMark_iff, gives_pure]
      grind
  | optionalCall | optionalComputed | optionalMember =>
    simp only [Reads] at *
    rw [optionalSuffix]
    split
    all_goals
      simp only [gives_bind, gives_next_iff, gives_nameExpr_iff, gives_expectMark_iff, gives_pure]
      grind
  | atom hatom hnext => exact gives_primary_of_atom hatom hnext
  | parens | array | object =>
    simp only [Reads] at *
    rw [primary]
    split
    all_goals
      try simp only [gives_bind, gives_next_iff, gives_expectMark_iff, gives_pure]
      grind
  | elementsNil | elementsLast | elementsCons =>
    simp only [Reads] at *
    rw [elements]
    simp only [gives_bind, gives_acceptMark_iff, gives_expectMark_iff, gives_pure]
    grind
  | propertiesLast hkey hnext hcolon _ hcomma ihvalue =>
    rw [Reads, properties, if_neg (not_atMark_of_key hkey)]
    simp only [gives_bind, gives_key_iff, gives_acceptMark_iff, gives_expectMark_iff, gives_pure]
    exact ⟨_, _, ⟨hkey, hnext⟩, _, _, ⟨rfl, hcolon⟩, _, _, ihvalue, .inl ⟨hcomma, rfl, rfl⟩⟩
  | propertiesNil | propertiesCons =>
    simp only [Reads] at *
    rw [properties]
    simp only [gives_bind, gives_ite, gives_key_iff, gives_acceptMark_iff, gives_expectMark_iff,
      gives_pure]
    grind [Stream.atMark_iff, not_atMark_of_key]
  | paramsNil | paramsLast | paramsCons =>
    simp only [Reads] at *
    rw [Stream.params]
    simp only [gives_bind, gives_ite, gives_identifierExpr_iff, gives_acceptMark_iff, gives_pure]
    grind [Stream.atMark_iff, Stream.Passes.ne_mark]

lemma gives_expression_iff : Gives (expression st) e st₁ ↔ Derives (.expression e) st st₁ :=
  ⟨fun h => derives_of_reads h, fun h => reads_of_derives h⟩

lemma gives_params_iff : Gives st.params params st₁ ↔ Derives (.params params) st st₁ :=
  ⟨fun h => derives_of_reads h, fun h => reads_of_derives h⟩

end ComponentTemplate.Grammar
