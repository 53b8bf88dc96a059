import ComponentTemplate.Proofs.MarkupDerivation

/-!
# Reading markup that has a derivation

The reading functions follow a derivation, whichever it is. Components are read as sequences of
nodes up to the end of the source, if nothing in them is set apart.
-/

namespace ComponentTemplate

open Cursor (spanTo startsWith)

namespace MarkupGrammar

/-- **A phrase is read**: its reading function gives what the phrase stands for. -/
def Reads : Phrase → Cursor → Cursor → Prop
  | .sequence ctx none nodes, cur, _ =>
    Component.ofCursor ctx false false cur = .ok ⟨[], none, nodes, none⟩
  | .sequence ctx (some ending) nodes, cur, next => Gives (fragment ctx ending cur) nodes next
  | .item ctx found, cur, next => ∀ hpos, Gives (item ctx cur hpos) found next
  | .branches ctx consequent alternate, cur, next => ∀ start isBranch test,
      Gives (ifRest ctx start isBranch test cur)
        (.ifBlock ⟨start, next.offset⟩ isBranch test consequent alternate) next
  -- this is the end of a condition, whatever its first branch was
  | .alternative ctx alternate, cur, next => ∀ start isBranch test consequent before,
      Gives (fragment ctx (.blockTag ["elseif", "else", "endif"]) before) consequent cur →
      Gives (ifRest ctx start isBranch test before)
        (.ifBlock ⟨start, next.offset⟩ isBranch test consequent alternate) next
  | .elseBranch ctx close nodes, cur, next => Gives (elseBranch ctx close cur) nodes next
  | .outcome ctx word ending name nodes, cur, next =>
    Gives (outcome ctx word ending cur) (name, nodes) next
  | .outcomes ctx opening value error pending resolved rejected, cur, next => ∀ start e,
      Gives (awaitRest ctx start e opening cur)
        (.awaitBlock ⟨start, next.offset⟩ e value error pending resolved rejected) next

variable {ctx : MarkupContext} {cur next : Cursor} {found : Item} {cs : List Char}
  {ending : Option Ending} {c : Char}

lemma reads_stop (h : Stops ending cur) : Reads (.sequence ctx ending []) cur cur := by
  cases ending with
  | none =>
    rw [Reads, Component.ofCursor.eq_def]
    split
    · rfl
    · rename_i hrest
      rw [show cur.rest = [] from h] at hrest
      cases hrest
  | some ending =>
    rw [Reads, fragment.eq_def]
    cases ending with
    | closingTag name =>
      have hclosing : cur.startsWith "</" = true := h
      split
      · rename_i hrest
        simp [startsWith, hrest] at hclosing
      · rw [if_pos hclosing]
        exact gives_pure.mpr ⟨rfl, rfl⟩
    | blockTag keywords =>
      obtain ⟨keyword, hmem, hkeyword⟩ := h
      have hmatches : (Ending.blockTag keywords).matches (blockKeyword? cur) = true := by
        rw [hkeyword]
        exact List.contains_iff_mem.mpr hmem
      have hclosing : ¬ cur.startsWith "</" = true := by
        unfold blockKeyword? at hkeyword
        split at hkeyword
        · rename_i hrest
          simp [startsWith, hrest]
        · cases hkeyword
      split
      · rename_i hrest
        simp [blockKeyword?, hrest] at hkeyword
      · rw [if_neg hclosing, if_pos hmatches]
        exact gives_pure.mpr ⟨rfl, rfl⟩

lemma reads_cons (hgoes : GoesOn ending cur) (hitem : Reads (.item ctx found) cur after)
    (hfirst : found.StandsAs first ending) (hrest : Reads (.sequence ctx ending rest) after next) :
    Reads (.sequence ctx ending (first.cons rest)) cur next := by
  have hclosing : ¬ cur.startsWith "</" = true := by simp [hgoes.not_closing]
  cases ending with
  | none =>
    rw [Reads, Component.ofCursor.eq_def]
    split
    · rename_i hnil
      exact absurd hnil hgoes.rest_ne
    · rename_i hcons
      obtain ⟨_, hitem⟩ := hitem (Cursor.remaining_pos hcons)
      have hrest : Component.ofCursor ctx false false after = .ok ⟨[], none, rest, none⟩ := hrest
      have hfirst : found.topLevel false false = .ok (.node first) := hfirst
      simp only [if_neg hclosing, hitem, ok_bind, hfirst, Part.isScript, Part.isStyle, Bool.or_self,
        hrest]
      rfl
  | some ending =>
    rw [Reads, fragment.eq_def]
    split
    · rename_i hnil
      exact absurd hnil hgoes.rest_ne
    · rename_i hcons
      have hending : ¬ ending.matches (blockKeyword? cur) = true := by
        simp [hgoes.not_ending ending rfl]
      simp only [if_neg hclosing, if_neg hending, gives_bind]
      refine ⟨_, _, hitem (Cursor.remaining_pos hcons), gives_bind_ok.mpr ⟨_, hfirst, ?_⟩⟩
      exact gives_bind.mpr ⟨_, _, hrest, gives_pure.mpr ⟨rfl, rfl⟩⟩

lemma reads_text (hrest : cur.rest = c :: cs) (hstarts : startsItem (c :: cs) = false) :
    Reads (.item ctx (.node (.text (cur.spanTo (cur.skip (1 + (textRun cs).length)))
      (String.ofList (c :: textRun cs))))) cur (cur.skip (1 + (textRun cs).length)) := by
  intro hpos
  have hne {first : String} (hfirst : ∀ ds, startsItem (first.toList ++ ds) = true) :
      ¬ cur.startsWith first = true := by
    intro h
    obtain ⟨ds, heq⟩ := List.isPrefixOf_iff_prefix.mp h
    rw [← hrest, ← heq, hfirst] at hstarts
    cases hstarts
  have helement : ¬ (cur.startsWith "<" && (cur.rest.drop 1).head?.any Char.isAlpha) = true := by
    intro h
    obtain ⟨hopen, hletter⟩ := Bool.and_eq_true_iff.mp h
    obtain ⟨ds, heq⟩ := List.isPrefixOf_iff_prefix.mp hopen
    rw [← heq] at hletter
    rw [← hrest, ← heq] at hstarts
    cases ds with
    | nil => cases hletter
    | cons d ds => simp_all [startsItem]
  rw [item, if_neg (hne fun _ => rfl), if_neg (hne fun _ => rfl), if_neg (hne fun _ => rfl),
    if_neg helement]
  refine gives_pure.mpr ?_
  simp [textNode, Progress.map, hrest]

lemma reads_comment (hrest : cur.rest = '<' :: '!' :: '-' :: '-' :: cs)
    (hdata : beforeText? "-->".toList cs = some data) :
    Reads (.item ctx (.node (.comment (cur.spanTo (cur.skip (data.length + 7)))
      (String.ofList data)))) cur (cur.skip (data.length + 7)) := by
  intro hpos
  have huntil : (cur.skip 4).until? "-->" = some data := by
    rw [Cursor.until?, Cursor.rest_skip, hrest]
    exact hdata
  have hgives : Gives (comment cur hpos) (.comment (cur.spanTo (cur.skip (data.length + 7)))
      (String.ofList data)) (cur.skip (data.length + 7)) := by
    unfold comment
    split
    · simp_all
    · rename_i data' hdata'
      obtain rfl : data' = data := Option.some.inj (hdata'.symm.trans huntil)
      exact ⟨_, rfl⟩
  rw [item]
  simp only [startsWith, hrest]
  exact gives_bind.mpr ⟨_, _, hgives, gives_pure.mpr ⟨rfl, rfl⟩⟩

lemma reads_inlineTag (hrest : cur.rest = '{' :: '{' :: cs) (htag : InlineTag cur next node) :
    Reads (.item ctx (.node node)) cur next := by
  intro hpos
  rw [item]
  simp only [startsWith, hrest]
  exact gives_bind.mpr ⟨_, _, gives_inlineNode_iff.mpr htag, gives_pure.mpr ⟨rfl, rfl⟩⟩

lemma reads_blockTag (hrest : cur.rest = '{' :: '%' :: cs)
    (hgives : Gives (blockTag ctx cur) found next) : Reads (.item ctx found) cur next := by
  intro hpos
  rw [item]
  simp only [startsWith, hrest]
  exact hgives

lemma reads_element (hrest : cur.rest = '<' :: c :: cs) (hc : c.isAlpha = true)
    (hgives : Gives (element ctx cur) found next) : Reads (.item ctx found) cur next := by
  intro hpos
  have hne : '!' ≠ c := by
    rintro rfl
    cases hc
  rw [item]
  simp [startsWith, hrest, hne, hc, hgives]

open Grammar (gives_expression_iff gives_params_iff)

lemma reads_of_derives (h : Derives phrase cur next) : Reads phrase cur next := by
  induction h with
  | stop hstops => exact reads_stop hstops
  | cons hgoes _ hfirst _ ihitem ihrest => exact reads_cons hgoes ihitem hfirst ihrest
  | text hrest hstarts => exact reads_text hrest hstarts
  | comment hrest hdata => exact reads_comment hrest hdata
  | inlineTag hrest htag => exact reads_inlineTag hrest htag
  | forBlock hrest hopens hnames hin hsubject hkey hend _ _ hclose ihbody ihfallback =>
    refine reads_blockTag hrest ?_
    obtain ⟨st, hat, hword⟩ := hopens
    rw [blockTag, gives_bind]
    refine ⟨(), st, gives_openTag_iff.mpr hat, gives_bind.mpr ⟨_, _,
      gives_name_iff.mpr ⟨_, rfl, hword⟩, ?_⟩⟩
    dsimp only
    simp only [gives_bind, gives_expectWord_iff, gives_expression_iff, gives_loopKey_iff,
      gives_closeBlock_iff, gives_wordTag_iff, gives_pure]
    exact ⟨_, _, gives_loopNames_iff.mpr hnames, _, _, ⟨rfl, hin⟩, _, _, hsubject, _, _, hkey, (),
      _, hend, _, _, ihbody, _, _, ihfallback, (), _, hclose, rfl, rfl⟩
  | variableTag hrest hopens | importTag hrest hopens | ifBlock hrest hopens | keyBlock hrest hopens
  | snippetBlock hrest hopens | awaitBlock hrest hopens =>
    -- the word of the tag chooses what is read after it
    refine reads_blockTag hrest ?_
    obtain ⟨st, hat, hword⟩ := hopens
    rw [blockTag, gives_bind]
    refine ⟨(), st, gives_openTag_iff.mpr hat, gives_bind.mpr ⟨_, _,
      gives_name_iff.mpr ⟨_, rfl, hword⟩, ?_⟩⟩
    simp only [Reads, gives_bind, gives_name_iff, gives_lastExpression_iff, gives_expectMark_iff,
      gives_expression_iff, gives_params_iff, gives_awaitOpening_iff, gives_closeBlock_iff,
      gives_wordTag_iff, gives_pure, exists_const, spanTo] at *
    grind -ring -linarith -lia only [gives_variableTag_iff, spanTo]
  | complete hrest hc | raw hrest hc | element hrest hc =>
    refine reads_element hrest hc ?_
    rw [element]
    simp only [Reads, gives_bind, gives_ite, gives_pure, spanTo] at *
    grind -ring -linarith -lia only
  | branches _ _ ihconsequent ihalternate =>
    intro start isBranch test
    exact ihalternate start isBranch test _ _ ihconsequent
  | elseif | otherwise =>
    simp only [Reads] at *
    intro start isBranch test consequent before hconsequent
    rw [ifRest]
    simp only [gives_bind, gives_ite, gives_openTag_iff, gives_expectWord_iff,
      gives_lastExpression_iff, gives_wordTag_iff, gives_pure, spanTo, OpensTag] at *
    grind -ring -linarith -lia only
  | noElse | elseBranch | noOutcome | outcome | rejected | resolved | pending =>
    simp only [Reads] at *
    first | rw [elseBranch] | rw [outcome] | intro start e; rw [awaitRest.eq_def]
    simp only [gives_bind, gives_ite, gives_wordTag_iff, gives_bindingTag_iff, gives_pure,
      exists_const]
    grind -ring -linarith -lia only

end MarkupGrammar

end ComponentTemplate
