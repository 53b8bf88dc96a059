import ComponentTemplate.Proofs.ExprRoundTrip
import ComponentTemplate.Proofs.StyleWellFormed
import ComponentTemplate.Stylesheet.Printer

/-!
# Stylesheets that are printed and read back

Every well-formed node is printed as a text from which it is read again, up to the end of a
line. Indentation and the line feeds between nodes are blanks that reading skips, so that the
unit and the level of indentation play no part.
-/

namespace ComponentTemplate

open StyleNode Text

open Text (Blank Trimmed collapse trim isBlank)
open Cursor (skip skipBlanks within_all)
open String (ofList toList)
open List (append_assoc cons drop_drop mem_cons take_left)

namespace StyleGrammar

/-! ## Texts that open with a phrase -/

/-- **A text opens with a phrase**, before a rest, wherever the text stands. -/
def Phrase.Opens (phrase : Phrase) (cs rest : List Char) : Prop :=
  ∀ offset, ∃ offset', Derives phrase ⟨offset, cs⟩ ⟨offset', rest⟩

variable {cs rest blanks mid : List Char} {nested : Bool} {found : List StyleNode}

lemma exists_skipBlanks (hblanks : Blank blanks) (hcs : ∀ c ∈ cs.head?, isBlank c = false)
    (offset : Nat) : ∃ offset', skipBlanks ⟨offset, blanks ++ cs⟩ = ⟨offset', cs⟩ :=
  ⟨_, skipBlanks_append hblanks hcs offset⟩

lemma opens_done (hblanks : Blank blanks) : (Phrase.nodes false []).Opens blanks [] := by
  intro offset
  have hnil : ∀ c ∈ ([] : List Char).head?, isBlank c = false := by simp
  obtain ⟨offset', hskip⟩ := exists_skipBlanks hblanks hnil offset
  rw [List.append_nil] at hskip
  exact ⟨offset', hskip ▸ .done (by rw [hskip])⟩

lemma opens_close (hblanks : Blank blanks) (rest : List Char) :
    (Phrase.nodes true []).Opens (blanks ++ '\x7d' :: rest) rest := by
  intro offset
  have hbrace : ∀ c ∈ ('\x7d' :: rest).head?, isBlank c = false := by simp [isBlank]
  obtain ⟨offset', hskip⟩ := exists_skipBlanks hblanks hbrace offset
  have hclose : Derives (.nodes true []) ⟨offset, blanks ++ '\x7d' :: rest⟩ _ :=
    .close (by rw [hskip])
  rw [hskip] at hclose
  exact ⟨_, hclose⟩

lemma opens_cons (hblanks : Blank blanks) (hcs : ∀ c ∈ cs.head?, isBlank c = false)
    (hfirst : (Phrase.node first).Opens cs mid)
    (hrest : (Phrase.nodes nested found).Opens mid rest) :
    (Phrase.nodes nested (first :: found)).Opens (blanks ++ cs) rest := by
  intro offset
  obtain ⟨offset₁, hskip⟩ := exists_skipBlanks hblanks hcs offset
  obtain ⟨offset₂, hfirst⟩ := hfirst offset₁
  obtain ⟨offset₃, hrest⟩ := hrest offset₂
  exact ⟨offset₃, .cons (hskip ▸ hfirst) hrest⟩

lemma opens_blank_append (hblanks : Blank blanks)
    (h : (Phrase.nodes nested found).Opens cs rest) :
    (Phrase.nodes nested found).Opens (blanks ++ cs) rest := by
  intro offset
  obtain ⟨offset', hderives⟩ := h (offset + byteLength blanks)
  refine ⟨offset', ?_⟩
  have hskip : skipBlanks ⟨offset, blanks ++ cs⟩ =
      skipBlanks ⟨offset + byteLength blanks, cs⟩ := by
    have hcore := head_trimStart cs
    have hall := blank_blankStart cs
    rw [← blankStart_append_trimStart cs, skipBlanks_append hall hcore, ← append_assoc,
      skipBlanks_append (hblanks.append hall) hcore, byteLength_append, Nat.add_assoc]
  generalize hnext : (⟨offset', rest⟩ : Cursor) = next at hderives ⊢
  cases hderives with
  | done hend => exact hskip ▸ .done (hskip ▸ hend)
  | close hclose => exact hskip ▸ .close (hskip ▸ hclose)
  | semicolon hsemicolon hrest =>
    rw [← hskip] at hsemicolon hrest
    exact .semicolon hsemicolon hrest
  | cons hfirst hrest => exact .cons (hskip ▸ hfirst) hrest

/-! ## Texts that open with a node -/

variable {text tail : List Char} {phrase : Phrase} {n : Nat}

lemma exists_derives_of_skip (h : Derives phrase ⟨offset, cs⟩ (skip ⟨offset, cs⟩ n))
    (hdrop : cs.drop n = rest) : ∃ offset', Derives phrase ⟨offset, cs⟩ ⟨offset', rest⟩ := by
  rw [skip, hdrop] at h
  exact ⟨_, h⟩

lemma exists_derives_at (h : phrase.Opens tail rest) (hdrop : cs.drop n = tail) (offset : Nat) :
    ∃ offset', Derives phrase (skip ⟨offset, cs⟩ n) ⟨offset', rest⟩ := by
  rw [skip, hdrop]
  exact h _

lemma blank_line : Blank ['\n'] := by simp [Blank, isBlank]

lemma opens_blockComment (h : IsComment text false) (rest : List Char) :
    (Phrase.node (.comment (ofList text) false)).Opens
      ("/* ".toList ++ (text ++ (" */".toList ++ rest))) rest := by
  intro offset
  have hunended : ¬ ['*', '/'] <:+: ' ' :: text := by
    rw [List.infix_cons_iff]
    rintro (hstart | hinside)
    · simpa using (List.cons_prefix_cons.mp hstart).1
    · exact absurd hinside (by simpa using h.unended)
  have hbefore : beforeText? ['*', '/'] (' ' :: text ++ ' ' :: (['*', '/'] ++ rest)) =
      some (' ' :: text ++ [' ']) :=
    beforeText?_append (by simp) hunended (by decide)
  have hopen : (⟨offset, "/* ".toList ++ (text ++ (" */".toList ++ rest))⟩ : Cursor).rest =
      '/' :: '*' :: (' ' :: text ++ ' ' :: (['*', '/'] ++ rest)) := by simp
  have hderives := Derives.blockComment hopen hbefore
  have htrim : trim (' ' :: text ++ [' ']) = text :=
    trim_append Text.blank_space blank_space h.trimmed
  rw [htrim] at hderives
  exact exists_derives_of_skip hderives (by simp)

lemma opens_lineComment (h : IsComment text true) (hrest : rest = [] ∨ rest.head? = some '\n') :
    (Phrase.node (.comment (ofList text) true)).Opens ("// ".toList ++ (text ++ rest))
      rest := by
  intro offset
  have hline : (' ' :: text ++ rest).takeWhile (· ≠ '\n') = ' ' :: text := by
    refine takeWhile_append_of_all (fun c hc => ?_) fun c hc => ?_
    · refine decide_eq_true fun hnl => ?_
      rcases mem_cons.mp hc with rfl | hc
      · exact absurd hnl (by decide)
      · exact absurd (hnl ▸ hc) (by simpa using h.unended)
    · rcases hrest with rfl | hrest
      · cases hc
      · obtain rfl : '\n' = c := by simpa [hrest] using hc
        decide
  have hopen : (⟨offset, "// ".toList ++ (text ++ rest)⟩ : Cursor).rest =
      '/' :: '/' :: (' ' :: text ++ rest) := by simp
  have hderives := Derives.lineComment hopen
  have htrim : trim (' ' :: text) = text := by
    simpa using trim_append Text.blank_space .nil h.trimmed
  rw [hline, htrim] at hderives
  exact exists_derives_of_skip hderives (by simp)

lemma atName_append {name after : List Char} (hname : ∀ c ∈ name, isAtNameChar c = true)
    (hafter : ∀ c ∈ after.head?, isAtNameChar c = false) :
    (name ++ after).takeWhile isAtNameChar = name ∧
      (name ++ after).dropWhile isAtNameChar = after := by
  have hrun := takeWhile_append_of_all hname hafter
  have hsplit := List.takeWhile_append_dropWhile (p := isAtNameChar) (l := name ++ after)
  rw [hrun] at hsplit
  exact ⟨hrun, List.append_cancel_left hsplit⟩

lemma preludeEnd_append (hclosed : preludeState none 0 text = some (none, 0))
    (hc : PreludeStop.ofChar? c = some stop) :
    preludeEnd none 0 (text ++ c :: tail) = some (text.length, stop) :=
  preludeEnd_of_state isQuote_none hclosed (.char rfl hc)

lemma ends_semicolon (rest : List Char) : PreludeStop.semicolon.Ends 0 (';' :: rest) :=
  .char rfl rfl

section Prelude

variable {text tail : List Char}

lemma opens_atStatement {name : List Char} {parens : Nat} {stop : PreludeStop}
    (hname : ∀ c ∈ name, isAtNameChar c = true)
    (hend : ∀ c ∈ (text ++ tail).head?, isAtNameChar c = false)
    (hstate : preludeState none 0 text = some (none, parens)) (hends : stop.Ends parens tail)
    (hstop : stop ≠ .block) :
    (Phrase.node (.atRule (ofList name) (ofList (collapse (trim text))) none)).Opens
      ('@' :: (name ++ (text ++ tail))) (tail.drop stop.passed) := by
  intro offset
  obtain ⟨htake, hdrop⟩ := atName_append hname hend
  have hprelude : preludeEnd none 0 ((name ++ (text ++ tail)).dropWhile isAtNameChar) =
      some (text.length, stop) := by
    rw [hdrop]
    exact preludeEnd_of_state isQuote_none hstate hends
  have hopen : (⟨offset, '@' :: (name ++ (text ++ tail))⟩ : Cursor).rest =
      '@' :: (name ++ (text ++ tail)) := rfl
  have hderives := Derives.atStatement hopen hprelude hstop
  rw [htake, hdrop, take_left] at hderives
  refine exists_derives_of_skip hderives ?_
  rw [← drop_drop, ← drop_drop, ← drop_drop]
  simp

lemma opens_atBlock {name : List Char} (hname : ∀ c ∈ name, isAtNameChar c = true)
    (hend : ∀ c ∈ (text ++ '\x7b' :: tail).head?, isAtNameChar c = false)
    (hclosed : preludeState none 0 text = some (none, 0))
    (hnodes : (Phrase.nodes true found).Opens tail rest) :
    (Phrase.node (.atRule (ofList name) (ofList (collapse (trim text)))
      (some found))).Opens ('@' :: (name ++ (text ++ '\x7b' :: tail))) rest := by
  intro offset
  obtain ⟨htake, hdrop⟩ := atName_append hname hend
  have hstop : preludeEnd none 0 ((name ++ (text ++ '\x7b' :: tail)).dropWhile isAtNameChar) =
      some (text.length, .block) := by
    rw [hdrop]
    exact preludeEnd_append hclosed rfl
  have hopen : (⟨offset, '@' :: (name ++ (text ++ '\x7b' :: tail))⟩ : Cursor).rest =
      '@' :: (name ++ (text ++ '\x7b' :: tail)) := rfl
  have hskip : ('@' :: (name ++ (text ++ '\x7b' :: tail))).drop
      (1 + ((name ++ (text ++ '\x7b' :: tail)).takeWhile isAtNameChar).length +
        (text.length + 1)) = tail := by
    rw [htake, ← drop_drop, ← drop_drop, ← drop_drop]
    simp
  obtain ⟨offset', hnodes⟩ := exists_derives_at hnodes hskip offset
  have hderives := Derives.atBlock hopen hstop hnodes
  rw [htake, hdrop, take_left] at hderives
  exact ⟨offset', hderives⟩

lemma opens_rule (hplain : startsPlain (text ++ '\x7b' :: tail) = true)
    (hclosed : preludeState none 0 text = some (none, 0))
    (hnodes : (Phrase.nodes true found).Opens tail rest) :
    (Phrase.node (.rule (selectorsOf (trim text)) found)).Opens (text ++ '\x7b' :: tail) rest := by
  intro offset
  have hstop : preludeEnd none 0 (text ++ '\x7b' :: tail) = some (text.length, .block) :=
    preludeEnd_append hclosed rfl
  have hskip : (text ++ '\x7b' :: tail).drop (text.length + 1) = tail := by simp
  obtain ⟨offset', hnodes⟩ := exists_derives_at hnodes hskip offset
  have hderives : Derives (.node (.rule
      (selectorsOf (trim ((text ++ '\x7b' :: tail).take text.length))) found))
      ⟨offset, text ++ '\x7b' :: tail⟩ ⟨offset', rest⟩ :=
    .rule hplain hstop hnodes
  rw [take_left] at hderives
  exact ⟨offset', hderives⟩

lemma opens_declaration {n : StyleNode} {parens : Nat} {stop : PreludeStop}
    (hplain : startsPlain (text ++ tail) = true)
    (hstate : preludeState none 0 text = some (none, parens)) (hends : stop.Ends parens tail)
    (hstop : stop ≠ .block) (hfound : ofDeclaration? (trim text) = some n) :
    (Phrase.node n).Opens (text ++ tail) (tail.drop stop.passed) := by
  intro offset
  have hprelude : preludeEnd none 0 (text ++ tail) = some (text.length, stop) :=
    preludeEnd_of_state isQuote_none hstate hends
  have hderives : Derives (.node n) ⟨offset, text ++ tail⟩
      (skip ⟨offset, text ++ tail⟩ (text.length + stop.passed)) :=
    .declaration hplain hprelude hstop (by rw [take_left]; exact hfound)
  refine exists_derives_of_skip hderives ?_
  rw [← drop_drop, List.drop_left]

end Prelude

end StyleGrammar

open StyleGrammar

/-! ## Texts that spell a node -/

/-- **A text spells a node**: after blanks, it opens with the node if its line ends there. -/
def StyleNode.Spelled (n : StyleNode) (cs : List Char) : Prop :=
  ∃ blanks text, Blank blanks ∧ cs = blanks ++ text ∧
    (text ≠ [] ∧ ∀ c ∈ text.head?, isBlank c = false) ∧
    ∀ rest, (rest = [] ∨ rest.head? = some '\n') → (Phrase.node n).Opens (text ++ rest) rest

variable {cs blanks property mark value after rest head text : List Char}
  {found nodes sheet : List StyleNode} {important inline : Bool} {parens : Nat}
  {selectors : List (List Char)} {n : StyleNode} {cur next : Cursor}

lemma startsPlain_append (h : startsPlain cs = true)
    (hrest : ∀ c ∈ rest.head?, c ≠ '*' ∧ c ≠ '/') :
    startsPlain (cs ++ rest) = true := by
  obtain ⟨c, cs, rfl⟩ := exists_cons_of_startsPlain h
  refine startsPlain_cons h fun d hd => ?_
  cases cs with
  | nil => exact .inl (hrest d hd)
  | cons e cs => exact .inr hd

lemma ne_of_blank_append (hblanks : Blank blanks) (hcs : ∀ c ∈ cs.head?, c ≠ '*' ∧ c ≠ '/') :
    ∀ c ∈ (blanks ++ cs).head?, c ≠ '*' ∧ c ≠ '/' := by
  cases blanks with
  | nil => exact hcs
  | cons b blanks =>
    intro c hc
    obtain rfl : b = c := by simpa using hc
    have hb : isBlank b = true := hblanks b (by simp)
    constructor <;> rintro rfl <;> simp [isBlank] at hb

lemma Enlists.startsPlain_trimStart (h : Enlists selectors head)
    (hselectors : IsSelectorList selectors) (tail : List Char) :
    startsPlain (trimStart head ++ '\x7b' :: tail) = true := by
  have hstart : ∀ selector ∈ selectors.head?, ∀ before after : List Char, Blank before →
      (∀ c ∈ (after ++ '\x7b' :: tail).head?, c ≠ '*' ∧ c ≠ '/') →
      startsPlain (trimStart (before ++ (selector ++ after)) ++ '\x7b' :: tail) = true := by
    intro selector hselector before after hbefore hafter
    obtain ⟨hne, hcollapse⟩ := hselectors.collapsed selector (List.mem_of_mem_head? hselector)
    have hplain := hselectors.plain selector hselector
    have htrimmed : Trimmed selector := hcollapse ▸ trimmed_collapse selector
    have hhead : ∀ c ∈ (selector ++ after).head?, isBlank c = false := by
      intro c hc
      rw [List.head?_append_of_ne_nil _ hne] at hc
      exact htrimmed.head c hc
    rw [trimStart_append hbefore, trimStart_of_head hhead, append_assoc]
    exact startsPlain_append hplain hafter
  cases h with
  | nil hblanks =>
    have hnil : trimStart head = [] := List.dropWhile_eq_nil_iff.mpr hblanks
    rw [hnil]
    rfl
  | last hbefore hafter => exact hstart _ rfl _ _ hbefore (ne_of_blank_append hafter (by simp))
  | cons hbefore hafter _ =>
    rw [append_assoc, append_assoc]
    refine hstart _ rfl _ _ hbefore ?_
    rw [append_assoc]
    exact ne_of_blank_append hafter (by simp)

lemma StyleNode.spelled_rule (h : IsSelectorList selectors) (hhead : Enlists selectors head)
    (hblanks : Blank blanks) (hbody : ∀ rest, (Phrase.nodes true found).Opens (body ++ rest) rest) :
    Spelled (.rule (selectors.map ofList) found)
      (head ++ (blanks ++ '\x7b' :: body)) := by
  have henlists := hhead.append_blank hblanks
  have hsplit := blankStart_append_trimStart (head ++ blanks)
  have hstart := blank_blankStart (head ++ blanks)
  have hclosed : preludeState none 0 (trimStart (head ++ blanks)) = some (none, 0) := by
    rw [← preludeState_blank isQuote_none hstart, hsplit]
    exact (henlists.preludeState_eq isQuote_none).trans h.closed
  have hselectors : selectorsOf (trim (trimStart (head ++ blanks))) =
      selectors.map ofList := by
    rw [trim, trimStart_of_head (head_trimStart _)]
    exact henlists.selectorsOf_trim_eq h.list h.collapsed
  refine ⟨_, trimStart (head ++ blanks) ++ '\x7b' :: body, hstart, ?_, ?_, fun rest _ => ?_⟩
  · rw [← append_assoc, ← append_assoc, hsplit]
  · refine ⟨by simp, fun c hc => ?_⟩
    cases hcore : trimStart (head ++ blanks) with
    | nil =>
      obtain rfl : '\x7b' = c := by simpa [hcore] using hc
      simp [isBlank]
    | cons d core =>
      refine head_trimStart (head ++ blanks) c ?_
      rw [hcore] at hc ⊢
      exact hc
  · rw [append_assoc, List.cons_append, ← hselectors]
    exact opens_rule (henlists.startsPlain_trimStart h _) hclosed (hbody rest)

lemma splitImportant_append (before : List Char) :
    splitImportant (before ++ "!important".toList) = (trimEnd before, true) := by
  have hcut : cutAt? '!' (before ++ "!important".toList).reverse =
      some ("important".toList.reverse, before.reverse) :=
    cutAt?_eq_some_iff.mpr ⟨by simp, by decide⟩
  have hmark : (trim "important".toList.reverse.reverse).map Char.toLower = "important".toList := by
    decide
  rw [splitImportant, hcut]
  dsimp only
  rw [if_pos hmark, List.reverse_reverse]

lemma trim_declaration (h : Trimmed property) (value : List Char) :
    trim (property ++ ':' :: value) = property ++ ':' :: trimEnd value := by
  have hend := trimEnd_append_blankEnd value
  have htrimmed : Trimmed (property ++ ':' :: trimEnd value) := by
    refine ⟨fun c hc => ?_, fun c hc => ?_⟩
    · cases property with
      | nil =>
        obtain rfl : ':' = c := by simpa using hc
        simp [isBlank]
      | cons d property => exact h.head c hc
    · rw [List.getLast?_append_of_ne_nil _ (by simp)] at hc
      cases hvalue : trimEnd value with
      | nil =>
        obtain rfl : ':' = c := by simpa [hvalue] using hc
        simp [isBlank]
      | cons d rest =>
        rw [hvalue, List.getLast?_cons_cons, ← hvalue, trimEnd, List.getLast?_reverse] at hc
        exact head_trimStart value.reverse c hc
  have htrim := trim_append_right (blank_blankEnd value)
    (property ++ ':' :: trimEnd value)
  rwa [append_assoc, List.cons_append, hend, trim_of_trimmed htrimmed] at htrim

def IsMark (important : Bool) (mark : List Char) : Prop :=
  if important then ∃ blanks, Blank blanks ∧ mark = blanks ++ " !important".toList else mark = []

lemma IsMark.neutral (h : IsMark important mark) : ∀ c ∈ mark, isNeutral c = true := by
  cases important with
  | false =>
    obtain rfl : mark = [] := h
    simp
  | true =>
    obtain ⟨blanks, hblanks, rfl⟩ : ∃ blanks, Blank blanks ∧ mark = blanks ++ " !important".toList :=
      h
    intro c hc
    rcases List.mem_append.mp hc with hc | hc
    · exact isNeutral_of_isBlank (hblanks c hc)
    · have hword : ∀ d ∈ " !important".toList, isNeutral d = true := by simp [isNeutral]
      exact hword c hc

lemma splitImportant_trim (h : IsDeclaration property value important 0)
    (hmark : IsMark important mark) (hafter : Blank after) :
    splitImportant (trim ([' '] ++ (value ++ (mark ++ after)))) = (value, important) := by
  cases important with
  | false =>
    obtain rfl : mark = [] := hmark
    rw [List.nil_append, trim_append Text.blank_space hafter h.trimmedValue]
    exact h.unmarked rfl
  | true =>
    obtain ⟨blanks, hblanks, rfl⟩ : ∃ blanks, Blank blanks ∧ mark = blanks ++ " !important".toList :=
      hmark
    have hword : Trimmed "!important".toList := ⟨by simp [isBlank], by simp [isBlank]⟩
    have htrim : trim ([' '] ++ (value ++ (blanks ++ [' '])) ++ ("!important".toList ++ after)) =
        trimStart ([' '] ++ (value ++ (blanks ++ [' ']))) ++ "!important".toList :=
      trim_append_of_ne_nil hafter hword (by decide)
    have hvalue : trim ([' '] ++ (value ++ (blanks ++ [' ']))) = value :=
      trim_append Text.blank_space (hblanks.append Text.blank_space) h.trimmedValue
    have hparts : [' '] ++ (value ++ (blanks ++ " !important".toList ++ after)) =
        [' '] ++ (value ++ (blanks ++ [' '])) ++ ("!important".toList ++ after) := by
      simp
    rw [hparts, htrim, splitImportant_append]
    exact congrArg (·, true) hvalue

lemma IsDeclaration.startsPlain_append (h : IsDeclaration property value important parens)
    (rest : List Char) : startsPlain (property ++ ':' :: rest) = true := by
  have hstart := h.plain
  cases property with
  | nil => rfl
  | cons c property =>
    refine startsPlain_cons hstart fun d hd => .inr ?_
    cases property with
    | nil => exact hd
    | cons e property => exact hd

lemma IsDeclaration.head_append (h : IsDeclaration property value important parens)
    (rest : List Char) : ∀ c ∈ (property ++ ':' :: rest).head?, isBlank c = false := by
  intro c hc
  cases property with
  | nil =>
    obtain rfl : ':' = c := by simpa using hc
    simp [isBlank]
  | cons d property => exact h.trimmedProperty.head c hc

lemma IsDeclaration.preludeState_append (h : IsDeclaration property value important parens)
    (hafter : ∀ c ∈ after, isNeutral c = true) :
    preludeState none 0 (property ++ ':' :: ' ' :: (value ++ after)) = some (none, parens) := by
  have hparts : property ++ ':' :: ' ' :: (value ++ after) =
      (property ++ ':' :: ' ' :: value) ++ after := by
    simp
  rw [hparts, preludeState_append_neutral isQuote_none _ hafter, ← h.state,
    ComponentTemplate.preludeState_append isQuote_none _ _ (by decide),
    ComponentTemplate.preludeState_append isQuote_none _ _ (by decide)]
  cases hstate : preludeState none 0 property with
  | none => rfl
  | some s => exact preludeState_neutral (isQuote_none.preludeState hstate) (by decide) value

lemma IsMark.neutral_append (hmark : IsMark important mark) (hafter : Blank after) :
    ∀ c ∈ mark ++ after, isNeutral c = true := by
  intro c hc
  rcases List.mem_append.mp hc with hc | hc
  · exact hmark.neutral c hc
  · exact isNeutral_of_isBlank (hafter c hc)

lemma StyleNode.spelled_declaration (h : IsDeclaration property value important 0)
    (hmark : IsMark important mark) (hblanks : Blank blanks) (hafter : Blank after) :
    Spelled (.declaration (ofList property) (ofList value) important)
      (blanks ++ ((property ++ ": ".toList ++ value) ++ (mark ++ (after ++ [';'])))) := by
  have htext : (property ++ ": ".toList ++ value) ++ (mark ++ (after ++ [';'])) =
      (property ++ ':' :: ([' '] ++ (value ++ (mark ++ after)))) ++ [';'] := by
    simp
  refine ⟨blanks, _, hblanks, rfl, ?_, fun rest _ => ?_⟩
  · rw [htext, append_assoc]
    exact ⟨by simp, h.head_append _⟩
  · rw [htext, append_assoc]
    refine opens_declaration ?_ (h.preludeState_append (hmark.neutral_append hafter))
      (ends_semicolon rest) nofun ?_
    · rw [append_assoc]
      exact h.startsPlain_append _
    · rw [trim_declaration h.trimmedProperty]
      refine ofDeclaration?_eq_some_iff.mpr ⟨_, _, value, important, rfl, h.colon, ?_, ?_⟩
      · rw [trim_trimEnd]
        exact splitImportant_trim h hmark hafter
      · rw [trim_of_trimmed h.trimmedProperty]

lemma isAtNameChar_of_isBlank (h : isBlank c = true) : isAtNameChar c = false := by
  have hword := isWordChar_eq_false_of_isBlank h
  have hne : c ≠ '-' := by
    rintro rfl
    simp [isBlank] at h
  simp only [isWordChar, Bool.or_eq_false_iff] at hword
  simp [isAtNameChar, hword, hne]

/-- Parameters with blanks around them, that stand apart from what is before them. -/
def IsApart (params head : List Char) : Prop :=
  ∃ before after, Blank before ∧ Blank after ∧ head = before ++ (params ++ after) ∧
    (params ≠ [] → before ≠ [])

section AtRule

variable {name params head blanks : List Char}

lemma IsApart.append_blank (h : IsApart params head) (hblanks : Blank blanks) :
    IsApart params (head ++ blanks) := by
  obtain ⟨before, after, hbefore, hafter, rfl, hne⟩ := h
  exact ⟨before, after ++ blanks, hbefore, hafter.append hblanks, by simp, hne⟩

lemma IsApart.head_append (h : IsApart params head) (hc : isAtNameChar c = false)
    (tail : List Char) : ∀ d ∈ (head ++ c :: tail).head?, isAtNameChar d = false := by
  obtain ⟨before, after, hbefore, hafter, rfl, hne⟩ := h
  intro d hd
  cases before with
  | cons b before =>
    obtain rfl : b = d := by simpa using hd
    exact isAtNameChar_of_isBlank (hbefore b (by simp))
  | nil =>
    obtain rfl : params = [] := by
      by_contra hparams
      exact hne hparams rfl
    cases after with
    | nil =>
      obtain rfl : c = d := by simpa using hd
      exact hc
    | cons b after =>
      obtain rfl : b = d := by simpa using hd
      exact isAtNameChar_of_isBlank (hafter b (by simp))

lemma IsApart.preludeState_eq (h : IsApart params head) (hhead : IsAtHead name params parens) :
    preludeState none 0 head = some (none, parens) := by
  obtain ⟨before, after, hbefore, hafter, rfl, -⟩ := h
  rw [preludeState_blank isQuote_none hbefore, preludeState_append_blank isQuote_none hafter]
  exact hhead.state

lemma IsApart.collapse_trim_eq (h : IsApart params head) (hhead : IsAtHead name params 0) :
    collapse (trim head) = params := by
  obtain ⟨before, after, hbefore, hafter, rfl, -⟩ := h
  rw [collapse_trim, collapse_append_left hbefore, collapse_append_right hafter]
  exact hhead.collapsed

lemma StyleNode.spelled_atStatement {after : List Char} (h : IsAtHead name params 0)
    (hhead : IsApart params head) (hblanks : Blank blanks) (hafter : Blank after) :
    Spelled (.atRule (ofList name) (ofList params) none)
      (blanks ++ ('@' :: (name ++ (head ++ (after ++ [';']))))) := by
  refine ⟨blanks, _, hblanks, rfl, by simp [isBlank], fun rest _ => ?_⟩
  have hhead := hhead.append_blank hafter
  have hopens := opens_atStatement h.nameChars (hhead.head_append rfl rest)
    (hhead.preludeState_eq h) (ends_semicolon rest) (by decide)
  rw [hhead.collapse_trim_eq h] at hopens
  simpa [PreludeStop.passed] using hopens

lemma StyleNode.spelled_atBlock (h : IsAtHead name params 0) (hhead : IsApart params head)
    (hblanks : Blank blanks) (hafter : Blank after)
    (hbody : ∀ rest, (Phrase.nodes true found).Opens (body ++ rest) rest) :
    Spelled (.atRule (ofList name) (ofList params) (some found))
      (blanks ++ ('@' :: (name ++ (head ++ (after ++ '\x7b' :: body))))) := by
  refine ⟨blanks, _, hblanks, rfl, by simp [isBlank], fun rest _ => ?_⟩
  have hhead := hhead.append_blank hafter
  have hopens := opens_atBlock h.nameChars (hhead.head_append (by decide) (body ++ rest))
    (hhead.preludeState_eq h) (hbody rest)
  rw [hhead.collapse_trim_eq h] at hopens
  simpa using hopens

end AtRule

lemma StyleNode.spelled_comment (h : IsComment text inline) (hblanks : Blank blanks) :
    Spelled (.comment (ofList text) inline)
      (blanks ++ if inline then "// ".toList ++ text else "/* ".toList ++ (text ++ " */".toList)) := by
  refine ⟨blanks, _, hblanks, rfl, ?_, fun rest hrest => ?_⟩
  · cases inline <;> simp [isBlank]
  · cases inline with
    | false => simpa using opens_blockComment h rest
    | true => simpa using opens_lineComment h hrest

/-! ## Printing -/

open Doc

lemma writes_selectorsDoc (selectors : List String) :
    (selectorsDoc selectors).Writes (Enlists (selectors.map toList)) := by
  induction selectors with
  | nil =>
    refine writes_empty.mono ?_
    rintro _ rfl
    exact .nil .nil
  | cons selector rest ih =>
    cases rest with
    | nil =>
      refine (writes_text selector).mono ?_
      rintro _ ⟨blanks, hblanks, rfl⟩
      have hlast : Enlists [selector.toList] (blanks ++ (selector.toList ++ [])) :=
        .last hblanks .nil
      simpa using hlast
    | cons next rest =>
      refine ((writes_text selector).append
        (((writes_text ",").append writes_line).append ih)).mono ?_
      rintro _ ⟨_, _, rfl, ⟨before, hbefore, rfl⟩, _, cs, rfl, ⟨_, _, rfl, ⟨after, hafter, rfl⟩, rfl⟩,
        hcs⟩
      have hcons : Enlists (selector.toList :: next.toList :: rest.map toList)
          ((before ++ (selector.toList ++ after)) ++ ',' :: (['\n'] ++ cs)) :=
        .cons hbefore hafter (hcs.blank_append blank_line)
      simpa using hcons

/-- **A text spells nodes in a row**, before whatever ends the row. -/
def StyleNode.AllSpelled (nested : Bool) (found : List StyleNode) (cs : List Char) : Prop :=
  ∀ tail rest, (Phrase.nodes nested []).Opens tail rest →
    (Phrase.nodes nested found).Opens (cs ++ tail) rest

lemma writes_styleBlock {nodes : Doc} (h : nodes.Writes (AllSpelled true found)) :
    (Doc.styleBlock nodes).Writes fun cs =>
      ∃ blanks body, Blank blanks ∧ cs = blanks ++ '\x7b' :: body ∧
        ∀ rest, (Phrase.nodes true found).Opens (body ++ rest) rest := by
  refine ((((writes_text " \x7b").append writes_line).append h.nest).append
    (writes_text "\x7d")).mono ?_
  rintro _ ⟨_, _, rfl, ⟨_, body, rfl, ⟨_, _, rfl, ⟨before, hbefore, rfl⟩, rfl⟩, hbody⟩,
    after, hafter, rfl⟩
  refine ⟨before ++ [' '], '\n' :: (body ++ (after ++ ['\x7d'])),
    Blank.append hbefore blank_space, by simp, fun rest => ?_⟩
  simpa using opens_blank_append blank_line (hbody _ rest (opens_close hafter rest))

lemma writes_gap (condition : Bool) : (Doc.onlyIf condition Doc.line).Writes Blank := by
  cases condition with
  | false =>
    refine writes_empty.mono ?_
    rintro _ rfl
    exact .nil
  | true =>
    refine writes_line.mono ?_
    rintro _ rfl
    exact blank_line

lemma StyleNode.Spelled.opens_cons (h : n.Spelled cs) (hblanks : Blank blanks)
    (hfound : (Phrase.nodes nested found).Opens tail rest) :
    (Phrase.nodes nested (n :: found)).Opens (cs ++ ('\n' :: (blanks ++ tail))) rest := by
  obtain ⟨before, core, hbefore, rfl, ⟨hne, hcore⟩, hopens⟩ := h
  have hafter := opens_blank_append (blank_line.append hblanks) hfound
  have hcore' : ∀ c ∈ (core ++ '\n' :: (blanks ++ tail)).head?, isBlank c = false := by
    rwa [List.head?_append_of_ne_nil _ hne]
  rw [append_assoc]
  refine StyleGrammar.opens_cons hbefore hcore' (hopens _ (.inr rfl)) ?_
  simpa using hafter

lemma writes_comment {text : String} (h : IsComment text.toList inline) :
    (comment text inline).doc.Writes (comment text inline).Spelled := by
  have hwrites : (comment text inline).doc.Writes fun cs => ∃ blanks, Blank blanks ∧
      cs = blanks ++ if inline then "// ".toList ++ text.toList
        else "/* ".toList ++ (text.toList ++ " */".toList) := by
    cases inline with
    | true =>
      refine ((writes_text ("// " ++ text)).congr fun w => ?_).mono ?_
      · exact (write_text_append _ "// " text rfl (by decide) w).symm
      · rintro _ ⟨blanks, hblanks, rfl⟩
        exact ⟨blanks, hblanks, by simp⟩
    | false =>
      have hlast : ("/* " ++ text).toList.getLast?.any (· != '\n') = true := by
        rw [String.toList_append, List.getLast?_append]
        cases hlast : text.toList.getLast? with
        | none => decide
        | some c =>
          have hc := h.trimmed.last c hlast
          have hne : c ≠ '\n' := by
            rintro rfl
            simp [isBlank] at hc
          simpa using hne
      refine ((writes_text ("/* " ++ text ++ " */")).congr fun w => ?_).mono ?_
      · rw [write_text_append _ ("/* " ++ text) " */" rfl hlast,
          write_text_append _ "/* " text rfl (by decide)]
        rfl
      · rintro _ ⟨blanks, hblanks, rfl⟩
        exact ⟨blanks, hblanks, by simp⟩
  refine hwrites.mono ?_
  rintro _ ⟨blanks, hblanks, rfl⟩
  simpa using spelled_comment h hblanks

lemma writes_params (params : String) :
    (Doc.onlyIf (params ≠ "") (" " ++ params)).Writes (IsApart params.toList) := by
  by_cases hempty : params = ""
  · subst hempty
    refine writes_empty.mono ?_
    rintro _ rfl
    exact ⟨[], [], .nil, .nil, rfl, by simp⟩
  · rw [Doc.onlyIf, if_pos (by simpa using hempty)]
    refine ((writes_text " ").append (writes_text params)).mono ?_
    rintro _ ⟨_, _, rfl, ⟨before, hbefore, rfl⟩, between, hbetween, rfl⟩
    refine ⟨before ++ [' '] ++ between, [],
      (Blank.append hbefore blank_space).append hbetween, .nil, by simp, by simp⟩

lemma writes_atName (name : String) : (Doc.text "@" ++ Doc.text name).Writes fun cs =>
    ∃ blanks, Blank blanks ∧ cs = blanks ++ '@' :: name.toList := by
  refine ((writes_text ("@" ++ name)).congr fun w => ?_).mono ?_
  · exact (write_text_append _ "@" name rfl (by decide) w).symm
  · rintro _ ⟨blanks, hblanks, rfl⟩
    exact ⟨blanks, hblanks, by simp⟩

lemma writes_declarationText (property value : String) (important : Bool) :
    (declaration property value important).doc.Writes fun cs => ∃ blanks mark after,
      Blank blanks ∧ IsMark important mark ∧ Blank after ∧ cs =
        blanks ++ ((property.toList ++ ": ".toList ++ value.toList) ++ (mark ++ (after ++ [';']))) := by
  have hmark : (Doc.onlyIf important " !important").Writes (IsMark important) := by
    cases important with
    | false => exact writes_empty
    | true => exact writes_text " !important"
  refine (((writes_text (property ++ ": " ++ value)).append hmark).append (writes_text ";")).mono ?_
  rintro _ ⟨_, _, rfl, ⟨_, mark, rfl, ⟨blanks, hblanks, rfl⟩, hmark⟩, after, hafter, rfl⟩
  exact ⟨blanks, mark, after, hblanks, hmark, hafter, by simp⟩

lemma writes_declaration {property value : String}
    (h : IsDeclaration property.toList value.toList important 0) :
    (declaration property value important).doc.Writes
      (declaration property value important).Spelled := by
  refine (writes_declarationText property value important).mono ?_
  rintro _ ⟨blanks, mark, after, hblanks, hmark, hafter, rfl⟩
  simpa using spelled_declaration h hmark hblanks hafter

lemma writes_atStatementText (name params : String) :
    (atRule name params none).doc.Writes fun cs => ∃ blanks head after,
      Blank blanks ∧ IsApart params.toList head ∧ Blank after ∧
        cs = blanks ++ '@' :: (name.toList ++ (head ++ (after ++ [';']))) := by
  refine (((writes_atName name).append (writes_params params)).append (writes_text ";")).mono ?_
  rintro _ ⟨_, _, rfl, ⟨_, head, rfl, ⟨blanks, hblanks, rfl⟩, hhead⟩, after, hafter, rfl⟩
  exact ⟨blanks, head, after, hblanks, hhead, hafter, by simp⟩

mutual

theorem StyleNode.writes_doc : (n : StyleNode) → n.WellFormed → n.doc.Writes n.Spelled
  | .rule selectors nodes, h => by
    refine ((writes_selectorsDoc selectors).append
      (writes_styleBlock (writes_blockDoc nodes h.2))).mono ?_
    rintro _ ⟨head, _, rfl, hhead, blanks, body, hblanks, rfl, hbody⟩
    have hspelled := spelled_rule h.1 hhead hblanks hbody
    simpa using hspelled
  | .declaration property value important, h => writes_declaration h
  | .atRule name params none, h => by
    refine (writes_atStatementText name params).mono ?_
    rintro _ ⟨blanks, head, after, hblanks, hhead, hafter, rfl⟩
    simpa using spelled_atStatement h hhead hblanks hafter
  | .atRule name params (some nodes), h => by
    refine (((writes_atName name).append (writes_params params)).append
      (writes_styleBlock (writes_blockDoc nodes h.2))).mono ?_
    rintro _ ⟨_, _, rfl, ⟨_, head, rfl, ⟨blanks, hblanks, rfl⟩, hhead⟩, after, body, hafter, rfl, hbody⟩
    simpa using spelled_atBlock h.1 hhead hblanks hafter hbody
  | .comment _ _, h => writes_comment h

/-- **The nodes of a block are printed as a text that spells them.** -/
theorem StyleNode.writes_blockDoc : (nodes : List StyleNode) → AllWellFormed nodes →
    (blockDoc nodes).Writes (AllSpelled true nodes)
  | [], _ => by
    refine writes_empty.mono ?_
    rintro _ rfl
    exact fun tail rest h => h
  | [node], h => by
    refine ((writes_doc node h.1).append writes_line).mono ?_
    rintro _ ⟨cs, _, rfl, hcs, rfl⟩ tail rest htail
    simpa using hcs.opens_cons .nil htail
  | node :: next :: more, h => by
    refine ((((writes_doc node h.1).append writes_line).append (writes_gap _)).append
      (writes_blockDoc (next :: more) h.2)).mono ?_
    rintro _ ⟨_, cs', rfl, ⟨_, blanks, rfl, ⟨cs, _, rfl, hcs, rfl⟩, hblanks⟩, hcs'⟩ tail rest htail
    simpa using hcs.opens_cons hblanks (hcs' tail rest htail)

end

lemma StyleNode.writes_sheetDoc_append {last : StyleNode} {good : StyleNode → Prop}
    (hlast : last.doc.Writes fun cs =>
      ∃ last', good last' ∧ (Phrase.nodes false [last']).Opens cs []) :
    (nodes : List StyleNode) → AllWellFormed nodes →
    (sheetDoc (nodes ++ [last])).Writes fun cs =>
      ∃ last', good last' ∧ (Phrase.nodes false (nodes ++ [last'])).Opens cs []
  | [], _ => hlast
  | [node], h => by
    refine ((((writes_doc node h.1).append writes_line).append (writes_gap _)).append
      hlast).mono ?_
    rintro _ ⟨_, cs', rfl, ⟨_, blanks, rfl, ⟨cs, _, rfl, hcs, rfl⟩, hblanks⟩, last', hgood, hcs'⟩
    exact ⟨last', hgood, by simpa using hcs.opens_cons hblanks hcs'⟩
  | node :: next :: more, h => by
    refine ((((writes_doc node h.1).append writes_line).append (writes_gap _)).append
      (writes_sheetDoc_append hlast (next :: more) h.2)).mono ?_
    rintro _ ⟨_, cs', rfl, ⟨_, blanks, rfl, ⟨cs, _, rfl, hcs, rfl⟩, hblanks⟩, last', hgood, hcs'⟩
    exact ⟨last', hgood, by simpa using hcs.opens_cons hblanks hcs'⟩

lemma StyleNode.allWellFormed_append :
    AllWellFormed (nodes ++ more) ↔
      AllWellFormed nodes ∧ AllWellFormed more := by
  induction nodes with
  | nil => simp [AllWellFormed]
  | cons node nodes ih => simp [AllWellFormed, ih, and_assoc]

lemma StyleNode.writes_sheetDoc (h : AllWellFormed nodes) :
    (sheetDoc nodes).Writes fun cs => (Phrase.nodes false nodes).Opens cs [] := by
  rcases List.eq_nil_or_concat' nodes with rfl | ⟨first, last, rfl⟩
  · refine writes_empty.mono ?_
    rintro _ rfl
    exact opens_done .nil
  · rw [allWellFormed_append] at h
    have hlast : last.doc.Writes fun cs =>
        ∃ last', last' = last ∧ (Phrase.nodes false [last']).Opens cs [] := by
      refine (writes_doc last h.2.1).mono ?_
      rintro _ ⟨blanks, core, hblanks, rfl, ⟨-, hcore⟩, hopens⟩
      have hnode := hopens [] (.inl rfl)
      rw [List.append_nil] at hnode
      exact ⟨last, rfl, StyleGrammar.opens_cons hblanks hcore hnode (opens_done .nil)⟩
    refine (writes_sheetDoc_append hlast first h.1).mono ?_
    rintro cs ⟨_, rfl, hopens⟩
    exact hopens

/-! ## Round trip -/

lemma StyleNode.parse_eq_ok_iff :
    parse source span = .ok sheet ↔
      ∃ next, Derives (.nodes false sheet) (.within source.toList span) next := by
  have hcursor : parse source span = .ok sheet ↔
      ofCursor (.within source.toList span) = .ok sheet := by
    unfold parse
    cases ofCursor (.within source.toList span) <;> simp [Except.mapError]
  rw [hcursor]
  unfold ofCursor
  constructor
  · intro h
    cases hnodes : nodes false (.within source.toList span) with
    | error failure =>
      rw [hnodes] at h
      cases h
    | ok found =>
      rw [hnodes] at h
      cases h
      exact ⟨_, derives_of_nodes hnodes⟩
  · rintro ⟨next, hderives⟩
    obtain ⟨_, hnodes⟩ : Gives (nodes false (.within source.toList span)) sheet next :=
      reads_of_derives hderives
    rw [hnodes]
    rfl

/-- What a document is written as is what its text gives. -/
theorem StyleNode.exists_parse_of_writes {doc : Doc} {good : List StyleNode → Prop} {unit : String}
    (h : doc.Writes fun cs => ∃ sheet, good sheet ∧ (Phrase.nodes false sheet).Opens cs [])
    (hunit : ∀ c ∈ unit.toList, isBlank c = true) (level : Nat) :
    ∃ sheet, good sheet ∧ parse (doc.renderAt unit level)
      ⟨0, byteLength (doc.renderAt unit level).toList⟩ = .ok sheet := by
  obtain ⟨cs, hwritten, sheet, hgood, hopens⟩ := h ⟨unit.toList, level, []⟩ hunit
  have htext : (doc.renderAt unit level).toList = cs := by
    rw [Doc.renderAt, Writer.output, String.toList_ofList, hwritten]
    rfl
  obtain ⟨offset, hopens⟩ := hopens 0
  refine ⟨sheet, hgood, ?_⟩
  rw [parse_eq_ok_iff, htext, within_all]
  exact ⟨_, hopens⟩

lemma StyleNode.parse_renderAt_of_allWellFormed (h : AllWellFormed sheet)
    (hunit : ∀ c ∈ unit.toList, isBlank c = true) (level : Nat) :
    parse ((sheetDoc sheet).renderAt unit level)
      ⟨0, byteLength ((sheetDoc sheet).renderAt unit level).toList⟩ = .ok sheet := by
  have hwrites : (sheetDoc sheet).Writes fun cs =>
      ∃ found, found = sheet ∧ (Phrase.nodes false found).Opens cs [] :=
    (writes_sheetDoc h).mono fun _ hopens => ⟨sheet, rfl, hopens⟩
  obtain ⟨_, rfl, hparse⟩ := exists_parse_of_writes hwrites hunit level
  exact hparse

/-- **A stylesheet with tidy preludes is printed as a text that gives the same stylesheet**, in
every blank unit of indentation and at every level. -/
theorem StyleNode.parse_renderAt {source : String} {span : Span} {sheet : List StyleNode}
    (hparse : parse source span = .ok sheet)
    (htidy : TidyPreludes (.within source.toList span)) {unit : String}
    (hunit : ∀ c ∈ unit.toList, isBlank c = true) (level : Nat) :
    parse ((sheetDoc sheet).renderAt unit level)
      ⟨0, byteLength ((sheetDoc sheet).renderAt unit level).toList⟩ = .ok sheet := by
  obtain ⟨next, hderives⟩ := parse_eq_ok_iff.mp hparse
  exact parse_renderAt_of_allWellFormed (wellFormed_of_derives hderives htidy nofun)
    hunit level

lemma StyleGrammar.GoesOn.eq_or_eq {place inside after : Cursor} {isAt : Bool}
    {stop : PreludeStop} (h : GoesOn cur next) (hplace : preludeAt? cur = some (isAt, place))
    (hprelude : Gives (prelude place) (text, stop) inside)
    (hnode : (Phrase.node n).Reads cur.skipBlanks after) : next = inside ∨ next = after := by
  obtain ⟨c, cs, hrest, hc, hsemicolon, hgives⟩ := hnode
  cases h with
  | semicolon hrest' =>
    rw [hrest, cons.injEq] at hrest'
    exact absurd hrest'.1 hsemicolon
  | block hplace' hprelude' =>
    rw [hplace] at hplace'
    cases hplace'
    exact .inl (hprelude'.unique hprelude).2
  | node hnode =>
    obtain ⟨c', cs', hrest', _, -, hgives'⟩ := hnode
    obtain ⟨rfl, rfl⟩ : c = c' ∧ cs = cs' := by
      rw [hrest, cons.injEq] at hrest'
      exact hrest'
    exact .inr (Gives.unique hgives' hgives).2

lemma StyleGrammar.not_goesOn
    (hend : cur.skipBlanks.rest = [] ∨ ∃ cs, cur.skipBlanks.rest = '\x7d' :: cs) :
    ¬ GoesOn cur next := by
  intro h
  cases h with
  | semicolon hsemicolon => rcases hend with hend | ⟨cs, hend⟩ <;> simp [hend] at hsemicolon
  | block hplace _ =>
    rcases hend with hend | ⟨cs, hend⟩ <;>
      simp [preludeAt?, Cursor.startsWith, hend, startsPlain] at hplace
  | node hnode =>
    obtain ⟨c, cs', hrest, hc, -, -⟩ := hnode
    rcases hend with hend | ⟨cs, hend⟩
    · simp [hend] at hrest
    · rw [hend, cons.injEq] at hrest
      exact hc hrest.1.symm

section Example

/-- A rule with a comma and a parenthesis in its prelude, and with a brace in a string. -/
def ruleText : List Char :=
  ['a', ',', 'b', '(', ';', ')', '\x7b', 'c', ':', '"', '\x7d', '"', '\x7d']

def rulePlaces : List Cursor :=
  [⟨0, ruleText⟩, ⟨7, ruleText.drop 7⟩, ⟨12, ruleText.drop 12⟩, ⟨13, []⟩]

lemma reads_ruleDeclaration : (Phrase.node (.declaration "c" "\"\x7d\"" false)).Reads
    ⟨7, ruleText.drop 7⟩ ⟨12, ruleText.drop 12⟩ :=
  ⟨'c', ruleText.drop 8, rfl, by decide, by decide, by decide, by with_unfolding_all rfl⟩

lemma reads_rule : (Phrase.node (.rule ["a", "b(;)"] [.declaration "c" "\"\x7d\"" false])).Reads
    ⟨0, ruleText⟩ ⟨13, []⟩ :=
  ⟨'a', ruleText.drop 1, rfl, by decide, by decide, by decide, by with_unfolding_all rfl⟩

lemma gives_rulePrelude : Gives (prelude ⟨0, ruleText⟩) (trim (ruleText.take 6), .block)
    ⟨7, ruleText.drop 7⟩ :=
  ⟨by decide, rfl⟩

lemma gives_declarationPrelude : Gives (prelude ⟨7, ruleText.drop 7⟩)
    (trim ((ruleText.drop 7).take 5), .close) ⟨12, ruleText.drop 12⟩ :=
  ⟨by decide, rfl⟩

lemma goesOn_rulePlaces (h : GoesOn cur next) (hcur : cur ∈ rulePlaces) : next ∈ rulePlaces := by
  simp only [rulePlaces, mem_cons, List.not_mem_nil, or_false] at hcur ⊢
  rcases hcur with rfl | rfl | rfl | rfl
  · have hplace : preludeAt? ⟨0, ruleText⟩ = some (false, ⟨0, ruleText⟩) := by cbv
    have hskip : skipBlanks ⟨0, ruleText⟩ = ⟨0, ruleText⟩ := by cbv
    rcases h.eq_or_eq hplace gives_rulePrelude (hskip ▸ reads_rule) with
      rfl | rfl
    · exact .inr (.inl rfl)
    · exact .inr (.inr (.inr rfl))
  · have hplace : preludeAt? ⟨7, ruleText.drop 7⟩ = some (false, ⟨7, ruleText.drop 7⟩) := by cbv
    have hskip : skipBlanks ⟨7, ruleText.drop 7⟩ = ⟨7, ruleText.drop 7⟩ := by cbv
    rcases h.eq_or_eq hplace gives_declarationPrelude
      (hskip ▸ reads_ruleDeclaration) with rfl | rfl
    · exact .inr (.inr (.inl rfl))
    · exact .inr (.inr (.inl rfl))
  · exact absurd h (not_goesOn (.inr ⟨[], by cbv⟩))
  · exact absurd h (not_goesOn (.inl (by cbv)))

lemma tidyPreludes_rule : TidyPreludes ⟨0, ruleText⟩ := by
  have hplaces : ∀ isAt place, ScansPrelude ⟨0, ruleText⟩ isAt place →
      place = ⟨0, ruleText⟩ ∨ place = ⟨7, ruleText.drop 7⟩ := by
    rintro isAt place ⟨cur, hgoes, hplace⟩
    have hcur : cur ∈ rulePlaces := by
      clear hplace
      induction hgoes with
      | refl => exact List.mem_cons_self
      | tail _ hstep ih => exact goesOn_rulePlaces hstep ih
    simp only [rulePlaces, mem_cons, List.not_mem_nil, or_false] at hcur
    rcases hcur with rfl | rfl | rfl | rfl
    · have hstart : preludeAt? ⟨0, ruleText⟩ = some (false, ⟨0, ruleText⟩) := by cbv
      rw [hstart] at hplace
      cases hplace
      exact .inl rfl
    · have hinside : preludeAt? ⟨7, ruleText.drop 7⟩ = some (false, ⟨7, ruleText.drop 7⟩) := by cbv
      rw [hinside] at hplace
      cases hplace
      exact .inr rfl
    · cases hplace
    · cases hplace
  refine ⟨fun isAt place hscans parens => ?_, fun place hscans text next hprelude => ?_⟩
  · have hstates : preludeState none 0 ruleText = none ∧
        preludeState none 0 (ruleText.drop 7) = none := by decide
    rcases hplaces isAt place hscans with rfl | rfl
    · simp [hstates.1]
    · simp [hstates.2]
  · rcases hplaces false place hscans with rfl | rfl
    · obtain ⟨htext, -⟩ := hprelude.unique gives_rulePrelude
      cases htext
      rintro ⟨first, rest, hsplit, hblank, -⟩
      have hsplit' : splitTopLevel ',' none 0 (trim (ruleText.take 6)) =
        [['a'], ['b', '(', ';', ')']] := by cbv
      rw [hsplit'] at hsplit
      cases hsplit
      simpa [isBlank] using hblank 'a' (by simp)
    · obtain ⟨htext, -⟩ := hprelude.unique gives_declarationPrelude
      cases htext

end Example

/-- A rule with a comma and a parenthesis in its prelude, and with a brace in a string. -/
theorem StyleNode.parse_renderAt_rule :
    let source := ofList ruleText
    let sheet := [rule ["a", "b(;)"] [.declaration "c" "\"\x7d\"" false]]
    parse source ⟨0, 13⟩ = .ok sheet ∧ TidyPreludes (.within source.toList ⟨0, 13⟩) ∧
      parse ((sheetDoc sheet).renderAt "\t" 1)
        ⟨0, byteLength ((sheetDoc sheet).renderAt "\t" 1).toList⟩ = .ok sheet := by
  intro source sheet
  have hwithin : Cursor.within source.toList ⟨0, 13⟩ = ⟨0, ruleText⟩ := by
    rw [String.toList_ofList]
    exact within_all ruleText
  have hread : ofCursor ⟨0, ruleText⟩ = .ok sheet := by with_unfolding_all rfl
  have hparse : parse source ⟨0, 13⟩ = .ok sheet := by
    rw [parse, hwithin, hread]
    rfl
  have htidy : TidyPreludes (.within source.toList ⟨0, 13⟩) := hwithin ▸ tidyPreludes_rule
  exact ⟨hparse, htidy, parse_renderAt hparse htidy (by simp [isBlank]) 1⟩

end ComponentTemplate
