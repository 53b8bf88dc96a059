import ComponentTemplate.Proofs.SelectorCuts
import ComponentTemplate.Proofs.StyleRoundTrip

/-!
# Strings in preludes

A prelude is written with its blanks collapsed, in strings too. So the strings of a prelude are
kept in order, but their blanks are squeezed, and they are kept as they stand only if they have
single spaces and no other blanks.
-/

namespace ComponentTemplate

open Text StyleNode

/-! ## Squeezing blanks -/

/-- **A text with one space in the place of each run of blanks.** -/
def squeeze : List Char → List Char
  | [] => []
  | c :: cs =>
    if isBlank c then if cs.head?.any isBlank then squeeze cs else ' ' :: squeeze cs
    else c :: squeeze cs

variable {c : Char} {cs blanks : List Char}

lemma squeeze_cons (hc : isBlank c = false) (cs : List Char) :
    squeeze (c :: cs) = c :: squeeze cs := by
  simp [squeeze, hc]

lemma squeeze_blank (hc : isBlank c = true) (cs : List Char) :
    squeeze (c :: cs) = if cs.head?.any isBlank then squeeze cs else ' ' :: squeeze cs := by
  simp [squeeze, hc]

lemma squeeze_word (hcs : ∀ c ∈ cs, isBlank c = false) (rest : List Char) :
    squeeze (cs ++ rest) = cs ++ squeeze rest := by
  induction cs with
  | nil => rfl
  | cons c cs ih =>
    rw [List.cons_append, squeeze_cons (hcs c (by simp)), ih fun d hd => hcs d (by simp [hd])]
    rfl

lemma squeeze_blanks (hblanks : Blank blanks) (hne : blanks ≠ [])
    (hhead : cs.head?.any isBlank = false) :
    squeeze (blanks ++ cs) = ' ' :: squeeze cs := by
  induction blanks with
  | nil => exact absurd rfl hne
  | cons c blanks ih =>
    rw [List.cons_append, squeeze_blank (hblanks c (by simp))]
    cases blanks with
    | nil => simp [hhead]
    | cons d blanks =>
      have hd := hblanks d (by simp)
      rw [if_pos (by simp [hd]), ih (fun e he => hblanks e (by simp [he])) (by simp)]

lemma squeeze_append_blanks (hblanks : Blank blanks) (hhead : cs.head?.any isBlank = false) :
    squeeze (blanks ++ cs) =
      if (blanks ++ cs).head?.any isBlank then ' ' :: squeeze cs else squeeze cs := by
  cases blanks with
  | nil => simp [hhead]
  | cons c blanks =>
    rw [squeeze_blanks hblanks (List.cons_ne_nil _ _) hhead, if_pos (by simp [hblanks c])]

lemma squeeze_eq (hlast : ∀ c ∈ cs.getLast?, isBlank c = false) :
    squeeze cs = if cs.head?.any isBlank then ' ' :: collapse cs else collapse cs := by
  have hhead {word rest : List Char} (hne : word ≠ []) (hword : ∀ c ∈ word, isBlank c = false) :
      (word ++ rest).head?.any isBlank = false := by
    cases word with
    | nil => exact absurd rfl hne
    | cons c word => simpa using hword c (by simp)
  induction cs using wordsInduction with
  | blank cs h =>
    cases cs using List.reverseRecOn with
    | nil => simp [squeeze, collapse_of_blank h]
    | append_singleton cs c => exact absurd (hlast c (by simp)) (by simp [h c (by simp)])
  | last before word after hbefore hne hword hafter =>
    obtain rfl : after = [] := by
      cases after using List.reverseRecOn with
      | nil => rfl
      | append_singleton after c => exact absurd (hlast c (by simp)) (by simp [hafter c (by simp)])
    rw [collapse_last hbefore hne hword hafter, squeeze_append_blanks hbefore (hhead hne hword),
      squeeze_word hword]
    simp [squeeze]
  | more before word rest hbefore hne hword hrest hmore ih =>
    have hrest' : rest ≠ [] := by
      rintro rfl
      exact hmore Blank.nil
    have hsqueeze : squeeze rest = ' ' :: collapse rest := by
      obtain ⟨c, rest, rfl⟩ := List.exists_cons_of_ne_nil hrest'
      rw [ih fun d hd => hlast d (by simpa using hd), if_pos (by simpa using hrest c rfl)]
    rw [collapse_more hbefore hne hword hrest hmore, squeeze_append_blanks hbefore
      (hhead hne hword), squeeze_word hword, hsqueeze]

lemma squeeze_append (cs : List Char) {rest : List Char}
    (hrest : rest.head?.any isBlank = false) : squeeze (cs ++ rest) = squeeze cs ++ squeeze rest := by
  induction cs with
  | nil => rfl
  | cons c cs ih =>
    have hhead : (cs ++ rest).head?.any isBlank = cs.head?.any isBlank := by
      cases cs with
      | nil => simpa using hrest
      | cons d cs => rfl
    rw [List.cons_append, squeeze, squeeze, hhead, ih]
    grind

lemma length_squeeze_le (cs : List Char) : (squeeze cs).length ≤ cs.length := by
  induction cs with
  | nil => rfl
  | cons c cs ih => grind [squeeze]

/-- **Texts with single spaces and no other blanks.** -/
def IsSqueezed (cs : List Char) : Prop :=
  (∀ c ∈ cs, isBlank c = true → c = ' ') ∧ cs.IsChain fun c d => ¬ (isBlank c ∧ isBlank d)

lemma squeeze_eq_self_iff (cs : List Char) : squeeze cs = cs ↔ IsSqueezed cs := by
  induction cs with
  | nil => simp [squeeze, IsSqueezed]
  | cons c cs ih =>
    have hcons : IsSqueezed (c :: cs) ↔ (isBlank c = true → c = ' ' ∧ cs.head?.any isBlank = false) ∧
        IsSqueezed cs := by
      cases cs <;> grind [IsSqueezed]
    rw [hcons, ← ih, squeeze]
    split
    · split
      · have hlength := length_squeeze_le cs
        grind
      · grind
    · grind

/-! ## Strings -/

lemma ne_of_isBlank (hc : isBlank c = true) : c ≠ '"' ∧ c ≠ '\'' ∧ c ≠ '\\' ∧
    (c ≠ '(' ∧ c ≠ '[') ∧ c ≠ ')' ∧ c ≠ ']' := by
  refine ⟨?_, ?_, ?_, ⟨?_, ?_⟩, ?_, ?_⟩ <;>
  · rintro rfl
    exact absurd hc (by decide)

namespace ScanState

/-- **The characters of the strings of a text**, quotes included, one string after the other. -/
def strings : ScanState → List Char → List Char
  | _, [] => []
  | s, c :: cs =>
    if s.string.isSome || (s.step c).string.isSome then c :: strings (s.step c) cs
    else strings (s.step c) cs

variable {s : ScanState}

lemma strings_append (s : ScanState) (cs rest : List Char) :
    s.strings (cs ++ rest) = s.strings cs ++ (s.after cs).strings rest := by
  induction cs generalizing s with
  | nil => rfl
  | cons c cs ih =>
    rw [List.cons_append, strings, strings, ih]
    split <;> rfl

lemma head?_strings (hs : s.string.isSome) (cs : List Char) : (s.strings cs).head? = cs.head? := by
  cases cs with
  | nil => rfl
  | cons c cs => simp [strings, hs]

lemma step_blank (hs : IsQuote s.cut.1) (hc : isBlank c = true) : s.step c = ofCut s.cut := by
  obtain ⟨hdouble, hsingle, hback, hopen, hclose⟩ := ne_of_isBlank hc
  obtain ⟨_ | ⟨q, _ | _⟩, depth⟩ := s
  · simp [step, CutState.step, cut, ofCut, hdouble, hsingle, hopen, hclose]
  · have hne : c ≠ q := by rcases hs q rfl with rfl | rfl <;> assumption
    simp [step, cut, ofCut, hback, hne]
  · rfl

lemma strings_blank (hs : IsQuote s.cut.1) (hc : isBlank c = true) (cs : List Char) :
    s.strings (c :: cs) = if s.string.isSome then c :: (ofCut s.cut).strings cs
      else (ofCut s.cut).strings cs := by
  have hsome : (ofCut s.cut).string.isSome = s.string.isSome := by simp [ofCut, cut]
  rw [strings, step_blank hs hc, hsome, Bool.or_self]

lemma strings_squeeze (hs : IsQuote s.cut.1) (cs : List Char) :
    s.strings (squeeze cs) = squeeze (s.strings cs) := by
  induction cs generalizing s with
  | nil => rfl
  | cons c cs ih =>
    cases hc : isBlank c with
    | false =>
      rw [squeeze_cons hc, strings, strings, ih (isQuote_step hs c)]
      split
      · rw [squeeze_cons hc]
      · rfl
    | true =>
      have hcut : IsQuote (ofCut s.cut).cut.1 := by rwa [cut_ofCut]
      have hsome : (ofCut s.cut).string.isSome = s.string.isSome := by simp [ofCut, cut]
      rw [squeeze_blank hc, strings_blank hs hc]
      split
      · -- the blank goes, and with it what it ended: the next one ends it
        rename_i hmore
        obtain ⟨d, cs, rfl⟩ := List.exists_cons_of_ne_nil (l := cs) (by rintro rfl; simp at hmore)
        have hd : isBlank d = true := by simpa using hmore
        have hsame : s.strings (d :: cs) = (ofCut s.cut).strings (d :: cs) := by
          rw [strings_blank hs hd, strings_blank hcut hd, cut_ofCut, hsome]
        rw [ih hs, hsame]
        split
        · rename_i hstring
          rw [squeeze_blank hc, head?_strings (hsome.trans hstring), if_pos hmore]
        · rfl
      · rename_i hmore
        rw [strings_blank hs (by decide), ih hcut]
        split
        · rename_i hstring
          rw [squeeze_blank hc, head?_strings (hsome.trans hstring), if_neg hmore]
        · rfl

lemma after_append (s : ScanState) (cs rest : List Char) :
    s.after (cs ++ rest) = (s.after cs).after rest :=
  List.foldl_append

lemma isQuote_after (hs : IsQuote s.cut.1) (cs : List Char) : IsQuote (s.after cs).cut.1 := by
  induction cs generalizing s with
  | nil => exact hs
  | cons c cs ih => exact ih (isQuote_step hs c)

/-- Blanks end an escape, and outside of strings they do nothing. -/
theorem strings_blanks (hs : IsQuote s.cut.1) (hblanks : Blank blanks) :
    (s.after blanks).cut = s.cut ∧ (s.string = none → s.strings blanks = []) := by
  induction blanks generalizing s with
  | nil => exact ⟨rfl, fun _ => rfl⟩
  | cons c blanks ih =>
    have hc := hblanks c (by simp)
    obtain ⟨hcut, hstrings⟩ := @ih (ofCut s.cut) (by rwa [cut_ofCut]) fun d hd =>
      hblanks d (by simp [hd])
    refine ⟨?_, fun hnone => ?_⟩
    · rw [after, List.foldl_cons, step_blank hs hc]
      exact hcut.trans (cut_ofCut _)
    · rw [strings_blank hs hc, hnone]
      exact hstrings (by simp [ofCut, cut, hnone])

lemma string_eq_none_iff : s.string = none ↔ s.cut.1 = none := by simp [cut]

lemma strings_trim (h : (start.after cs).string = none) :
    start.strings (trim cs) = start.strings cs := by
  obtain ⟨before, tail, hbefore, htail, hcs⟩ := exists_trim_eq cs
  generalize trim cs = core at hcs ⊢
  subst hcs
  obtain ⟨hcut, hnone⟩ := @strings_blanks _ start isQuote_none hbefore
  have hstart : start.after before = start := by
    generalize start.after before = s at hcut
    obtain ⟨string, depth⟩ := s
    simpa [cut, start] using hcut
  obtain ⟨hcut', hnone'⟩ := strings_blanks (@isQuote_after start isQuote_none core) htail
  rw [after_append, hstart, after_append, string_eq_none_iff, hcut', ← string_eq_none_iff] at h
  rw [strings_append, hnone rfl, hstart, strings_append, hnone' h]
  simp

lemma head_strings (hs : s.string = none) (cs : List Char) :
    (s.strings cs).head?.any isBlank = false := by
  induction cs generalizing s with
  | nil => rfl
  | cons c cs ih =>
    rw [strings]
    split
    · rename_i hsome
      cases hc : isBlank c with
      | false => simpa using hc
      | true =>
        have hquote : IsQuote s.cut.1 := by simp [cut, hs, isQuote_none]
        simp [step_blank hquote hc, hs, ofCut, cut] at hsome
    · rename_i hnone
      exact ih (by simpa [hs] using hnone)

lemma strings_collapse (h : (start.after cs).string = none) :
    start.strings (collapse cs) = squeeze (start.strings cs) := by
  have htrimmed := trimmed_trim cs
  have hsqueeze : squeeze (trim cs) = collapse (trim cs) := by
    rw [squeeze_eq htrimmed.last, if_neg]
    cases hhead : (trim cs).head? with
    | none => simp
    | some c => simp [htrimmed.head c hhead]
  rw [← collapse_trim, ← hsqueeze, @strings_squeeze start isQuote_none, strings_trim h]

end ScanState

/-! ## Selectors -/

open ScanState

lemma strings_cutAt (seen cs : List Char) : ∃ first parts,
    cutAt isOutside seen cs = first :: parts ∧
    (start.after seen).strings cs =
      (start.after seen).strings first ++ parts.flatMap start.strings ∧
    ((start.after (seen ++ cs)).string = none →
      (start.after (seen ++ first)).string = none ∧
        ∀ part ∈ parts, (start.after part).string = none) := by
  induction cs generalizing seen with
  | nil => exact ⟨[], [], rfl, by simp, fun h => ⟨h, by simp⟩⟩
  | cons c cs ih =>
    obtain ⟨first, parts, hparts, hstrings, hclosed⟩ := ih (seen ++ [c])
    have hafter : start.after (seen ++ [c]) = (start.after seen).step c := after_append ..
    simp only [List.append_assoc, List.singleton_append] at hclosed
    rw [cutAt, hparts]
    split
    · rename_i hc
      obtain ⟨rfl, hout⟩ := hc
      have hseen : start.after seen = start := by simpa [isOutside] using hout
      have hcomma : start.step ',' = start := rfl
      have hskip (rest : List Char) : start.after (seen ++ ',' :: rest) = start.after rest := by
        rw [after_append, hseen, after, List.foldl_cons, hcomma]
        rfl
      rw [hafter, hseen, hcomma] at hstrings
      rw [hskip, hskip] at hclosed
      rw [hskip, hseen]
      refine ⟨[], first :: parts, rfl, hstrings, fun h => ⟨?_, ?_⟩⟩
      · rw [List.append_nil, hseen]
        rfl
      · simpa using hclosed h
    · refine ⟨c :: first, parts, rfl, ?_, hclosed⟩
      rw [hafter] at hstrings
      rw [strings, strings, hstrings]
      split <;> rfl

lemma strings_selectorsOf {text : List Char}
    (h : ∀ part ∈ splitTopLevel ',' none 0 text, (start.after part).string = none) :
    ((selectorsOf text).flatMap fun s => start.strings s.toList) =
      squeeze ((splitTopLevel ',' none 0 text).flatMap start.strings) := by
  unfold selectorsOf
  dsimp only
  generalize splitTopLevel ',' none 0 text = parts at h ⊢
  have hhead (parts : List (List Char)) :
      (parts.flatMap start.strings).head?.any isBlank = false := by
    induction parts with
    | nil => rfl
    | cons part parts ih =>
      have hpart := @head_strings start rfl part
      cases hstrings : start.strings part with
      | nil => simpa [hstrings] using ih
      | cons c cs => simpa [hstrings] using hpart
  induction parts with
  | nil => rfl
  | cons part parts ih =>
    have hpart := strings_collapse (h part (by simp))
    have hrest := ih fun p hp => h p (by simp [hp])
    rw [List.flatMap_cons, squeeze_append _ (hhead parts), ← hpart, ← hrest, List.map_cons,
      List.filter_cons]
    split
    · simp
    · rename_i hempty
      have hnil : collapse part = [] := by simpa using hempty
      simp [hnil, strings]

lemma strings_prelude {n : Nat} {stop : PreludeStop} (h : preludeEnd none 0 cs = some (n, stop)) :
    let text := trim (cs.take n)
    start.strings (collapse text) = squeeze (start.strings text) ∧
    (splitTopLevel ',' none 0 text = cutAt isOutside [] text →
      ((selectorsOf text).flatMap fun s => start.strings s.toList) =
        squeeze (start.strings text)) := by
  intro text
  have hclosed : (start.after text).string = none := by
    obtain ⟨parens', hstate, -⟩ := state_of_preludeEnd h
    rw [← preludeState_trim isQuote_none] at hstate
    exact string_eq_none_iff.mpr (quote_after isQuote_none 0 hstate)
  refine ⟨strings_collapse hclosed, fun hcut => ?_⟩
  obtain ⟨first, parts, hparts, hstrings, hall⟩ := strings_cutAt [] text
  rw [← hcut] at hparts
  rw [strings_selectorsOf, hparts, show start.strings text = _ from hstrings]
  · rfl
  · rw [hparts]
    simpa using hall hclosed

/-! ## The nodes of a stylesheet -/

namespace StyleNode

/-- **A node is one of some nodes**, at any depth. -/
inductive Occurs (node : StyleNode) : List StyleNode → Prop
  | head {rest} : Occurs node (node :: rest)
  | tail {first rest} (h : Occurs node rest) : Occurs node (first :: rest)
  | rule {selectors children rest} (h : Occurs node children) :
      Occurs node (.rule selectors children :: rest)
  | atRule {name params children rest} (h : Occurs node children) :
      Occurs node (.atRule name params (some children) :: rest)

/-- The texts that are written for the prelude of a node: the selectors of a rule, and the
parameters of an at-rule. -/
def heads : StyleNode → List String
  | rule selectors _ => selectors
  | atRule _ params _ => [params]
  | _ => []

/-- Whether a node is an at-rule. -/
def isAtRule : StyleNode → Bool
  | atRule .. => true
  | _ => false

/-- Whether a node has a prelude. -/
def hasHeads : StyleNode → Bool
  | rule .. | atRule .. => true
  | _ => false

end StyleNode

namespace StyleGrammar

variable {cur next place : Cursor} {node : StyleNode} {isAt : Bool}

/-- **A rule, or an at-rule, is read with the prelude at a place**, of `n` characters. -/
def HasPrelude (isAt : Bool) (place : Cursor) (n : Nat) (node : StyleNode) : Prop :=
  (∃ stop, preludeEnd none 0 place.rest = some (n, stop)) ∧ node.heads =
    if isAt then [String.ofList (collapse (trim (place.rest.take n)))]
    else selectorsOf (trim (place.rest.take n))

def Phrase.members : Phrase → List StyleNode
  | nodes _ found => found
  | .node n => [n]

/-- **A node is found at a place**: reading goes on from the start to the place, and the node is the
first that is read there. -/
def Finds (start : Cursor) (node : StyleNode) (cur : Cursor) : Prop :=
  Relation.ReflTransGen GoesOn start cur ∧ ∃ next, (Phrase.node node).Reads cur.skipBlanks next

/-- **Every node is found**, at any depth. -/
theorem exists_finds {phrase : Phrase} (h : Derives phrase cur next)
    (hhere : ∀ n, phrase = .node n → cur.skipBlanks = cur) (hnode : node.Occurs phrase.members) :
    ∃ place, Finds cur node place := by
  have hone {n : StyleNode} {rest : List StyleNode} (h : node.Occurs (n :: rest)) :
      node.Occurs [n] ∨ node.Occurs rest := by
    cases h with
    | head => exact .inl .head
    | tail h => exact .inr h
    | rule h => exact .inl (.rule h)
    | atRule h => exact .inl (.atRule h)
  have hon {start next : Cursor} (hgoes : GoesOn start next) :
      (∃ place, Finds next node place) → ∃ place, Finds start node place := by
    rintro ⟨place, hplace, hreads⟩
    exact ⟨place, .head hgoes hplace, hreads⟩
  have hself {n : StyleNode} {cur next : Cursor} (h : Derives (.node n) cur next)
      (hhere : cur.skipBlanks = cur) : ∃ place, Finds cur n place :=
    ⟨cur, .refl, next, by rw [hhere]; exact reads_of_derives h⟩
  induction h with
  | done _ => cases hnode
  | close _ => cases hnode
  | semicolon hsemicolon _ ih => exact hon (.semicolon hsemicolon) (ih nofun hnode)
  | @cons cur after next nested first rest hfirst _ ihfirst ihrest =>
    rcases hone hnode with hnode | hnode
    · obtain ⟨place, hplace, hreads⟩ := ihfirst (fun _ _ => skipBlanks_skipBlanks cur) hnode
      rcases Relation.ReflTransGen.cases_head hplace with rfl | ⟨mid, hmid, hplace⟩
      · rw [skipBlanks_skipBlanks] at hreads
        exact ⟨cur, .refl, hreads⟩
      · exact ⟨place, .head hmid.of_skipBlanks hplace, hreads⟩
    · exact hon (.node (reads_of_derives hfirst)) (ihrest nofun hnode)
  | blockComment hopen hend =>
    cases hnode with
    | head => exact hself (.blockComment hopen hend) (hhere _ rfl)
    | tail h => cases h
  | lineComment hopen =>
    cases hnode with
    | head => exact hself (.lineComment hopen) (hhere _ rfl)
    | tail h => cases h
  | atStatement hopen hend hstop =>
    cases hnode with
    | head => exact hself (.atStatement hopen hend hstop) (hhere _ rfl)
    | tail h => cases h
  | @atBlock cur next cs n children hopen hend hchildren ih =>
    cases hnode with
    | tail h => cases h
    | head => exact hself (.atBlock hopen hend hchildren) (hhere _ rfl)
    | atRule hnode =>
      have hskip := (atName_eq hopen).2
      rw [(atName_eq hopen).1] at hskip
      have hprelude : Gives (prelude (cur.skip _)) _ _ := gives_prelude (hskip ▸ hend)
      rw [Cursor.skip_skip] at hprelude
      exact hon (.block (preludeAt?_of_at hopen) hprelude) (ih nofun hnode)
  | @rule cur next n children hplain hend hchildren ih =>
    cases hnode with
    | tail h => cases h
    | head => exact hself (.rule hplain hend hchildren) (hhere _ rfl)
    | rule hnode =>
      exact hon (.block (preludeAt?_of_startsPlain (hhere _ rfl) hplain) (gives_prelude hend))
        (ih nofun hnode)
  | declaration hplain hend hstop hfound =>
    cases hnode with
    | tail h => cases h
    | head => exact hself (.declaration hplain hend hstop hfound) (hhere _ rfl)
    | _ => obtain ⟨_, _, _, _, -, -, -, ⟨⟩⟩ := ofDeclaration?_eq_some_iff.mp hfound

/-- A rule or an at-rule that is read at a place has the prelude that is scanned there. -/
theorem exists_hasPrelude (h : Derives (.node node) cur next) (hhere : cur.skipBlanks = cur)
    (hkind : node.hasHeads = true) :
    ∃ place n, preludeAt? cur = some (node.isAtRule, place) ∧
      HasPrelude node.isAtRule place n node := by
  cases h with
  | blockComment _ _ => cases hkind
  | lineComment _ => cases hkind
  | @atStatement _ cs n stop hopen hend _ =>
    obtain ⟨hname, hskip⟩ := atName_eq hopen
    rw [hname] at hskip
    refine ⟨_, n, preludeAt?_of_at hopen, ⟨stop, hskip ▸ hend⟩, ?_⟩
    rw [hskip]
    rfl
  | @atBlock _ _ cs n children hopen hend _ =>
    obtain ⟨hname, hskip⟩ := atName_eq hopen
    rw [hname] at hskip
    refine ⟨_, n, preludeAt?_of_at hopen, ⟨.block, hskip ▸ hend⟩, ?_⟩
    rw [hskip]
    rfl
  | @rule _ _ n children hplain hend _ =>
    exact ⟨cur, n, preludeAt?_of_startsPlain hhere hplain, ⟨.block, hend⟩, rfl⟩
  | declaration _ _ _ hfound =>
    obtain ⟨_, _, _, _, -, -, -, rfl⟩ := ofDeclaration?_eq_some_iff.mp hfound
    cases hkind

end StyleGrammar

open StyleGrammar in
/-- **Which strings of the preludes of a stylesheet are kept.** Each node, at any depth, is found at
a place. A rule or an at-rule that is found at a place is read with the prelude that is scanned
there. What is written for it has the strings of this prelude in order, with their blanks squeezed,
if it is an at-rule or if the prelude is cut where the scan has nothing open. So they are kept
exactly if they have single spaces and no other blanks. -/
theorem StyleNode.strings_kept_iff {source : String} {span : Span} {sheet : List StyleNode}
    (hparse : parse source span = .ok sheet) :
    (∀ node : StyleNode, node.Occurs sheet →
      ∃ cur, Finds (.within source.toList span) node cur) ∧
    ∀ (node : StyleNode) (cur : Cursor), Finds (.within source.toList span) node cur →
      node.hasHeads = true → ∃ place n, preludeAt? cur = some (node.isAtRule, place) ∧
        HasPrelude node.isAtRule place n node ∧
        let text := trim (place.rest.take n)
        let strings := start.strings text
        let written := node.heads.flatMap fun head => start.strings head.toList
        (node.isAtRule = true ∨ splitTopLevel ',' none 0 text = cutAt isOutside [] text →
          written = squeeze strings ∧ (written = strings ↔ IsSqueezed strings)) := by
  obtain ⟨next, hderives⟩ := parse_eq_ok_iff.mp hparse
  refine ⟨fun node hnode => exists_finds hderives nofun hnode, fun node cur hfinds hkind => ?_⟩
  obtain ⟨-, next, c, cs, hrest, hc, hsemicolon, _, hfound⟩ := hfinds
  obtain ⟨place, n, hplace, hprelude⟩ :=
    exists_hasPrelude (derives_of_node hsemicolon hfound) (skipBlanks_skipBlanks cur) hkind
  rw [preludeAt?, skipBlanks_skipBlanks] at hplace
  refine ⟨place, n, hplace, hprelude, fun hcut => ?_⟩
  obtain ⟨⟨stop, hend⟩, hheads⟩ := hprelude
  obtain ⟨hparams, hselectors⟩ := strings_prelude hend
  have hwritten : (node.heads.flatMap fun head => start.strings head.toList) =
      squeeze (start.strings (trim (place.rest.take n))) := by
    rw [hheads]
    cases hat : node.isAtRule with
    | true => simpa using hparams
    | false => exact hselectors (by simpa [hat] using hcut)
  rw [hwritten]
  exact ⟨rfl, squeeze_eq_self_iff _⟩

open StyleGrammar in
/-- An at-rule with a string that has a single space. -/
theorem StyleNode.strings_kept_iff_import :
    let node := atRule "a" "\"b c\"" none
    parse "@a \"b c\";" ⟨0, 9⟩ = .ok [node] ∧
      ∃ cur place n, Finds (.within "@a \"b c\";".toList ⟨0, 9⟩) node cur ∧
        preludeAt? cur = some (true, place) ∧ HasPrelude true place n node ∧
        let strings := start.strings (trim (place.rest.take n))
        let written := node.heads.flatMap fun head => start.strings head.toList
        written = squeeze strings ∧ (written = strings ↔ IsSqueezed strings) := by
  intro node
  have hstart : (Cursor.within "@a \"b c\";".toList ⟨0, 9⟩).skipBlanks =
      ⟨0, '@' :: "a \"b c\";".toList⟩ := by cbv
  have hend : preludeEnd none 0 ("a \"b c\";".toList.dropWhile isAtNameChar) =
      some (6, .semicolon) := by decide
  have hopen : Cursor.rest ⟨0, '@' :: "a \"b c\";".toList⟩ = '@' :: "a \"b c\";".toList := rfl
  have hname : String.ofList ("a \"b c\";".toList.takeWhile isAtNameChar) = "a" := by cbv
  have hparams : String.ofList
      (collapse (trim (("a \"b c\";".toList.dropWhile isAtNameChar).take 6))) = "\"b c\"" := by cbv
  have hfirst := Derives.atStatement hopen hend (by decide)
  rw [hname, hparams, ← hstart] at hfirst
  have hdone : Derives (.nodes false []) ⟨9, []⟩ _ := .done (by cbv)
  have hafter : Cursor.skip (Cursor.within "@a \"b c\";".toList ⟨0, 9⟩).skipBlanks
      (1 + ("a \"b c\";".toList.takeWhile isAtNameChar).length + (6 + 1)) = ⟨9, []⟩ := by cbv
  have hparse : parse "@a \"b c\";" ⟨0, 9⟩ = .ok [node] :=
    parse_eq_ok_iff.mpr ⟨_, .cons hfirst (hafter ▸ hdone)⟩
  obtain ⟨hfinds, hkept⟩ := strings_kept_iff hparse
  obtain ⟨cur, hcur⟩ := hfinds node .head
  obtain ⟨place, n, hplace, hprelude, hstrings⟩ := hkept node cur hcur rfl
  exact ⟨hparse, cur, place, n, hcur, hplace, hprelude, hstrings (.inl rfl)⟩

/-- **A string with two spaces in a row loses one of them.** -/
theorem StyleNode.strings_not_kept :
    start.strings "a[b=\"x  y\"]".toList = "\"x  y\"".toList ∧
    squeeze "\"x  y\"".toList = "\"x y\"".toList ∧
    (formatSource {} "<style>a[b=\"x  y\"] \x7b\x7d</style>").toOption =
      some "<style>\n\ta[b=\"x y\"] \x7b\n\t\x7d\n</style>\n" := by
  decide +kernel

end ComponentTemplate
