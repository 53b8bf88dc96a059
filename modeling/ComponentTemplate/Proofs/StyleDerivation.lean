import ComponentTemplate.Proofs.Passing
import ComponentTemplate.Stylesheet.Parser

/-!
# Derivations of stylesheets

The grammar of stylesheets as a relation between two places of a text, and the preludes that
are scanned to read one.
-/

namespace ComponentTemplate

open Cursor

/-- Whether a text starts with a rule or a declaration: neither with a comment, nor with an
at-rule, nor with what ends a node. -/
def startsPlain : List Char → Bool
  | [] => false
  | c :: cs => c ∉ ['\x7d', ';', '@'] && !(c = '/' && cs.head?.any (· ∈ ['*', '/']))

namespace StyleGrammar

/-- **The phrases of stylesheets**: nodes in a row, in a block if `nested`, and one node. -/
inductive Phrase where
  | nodes (nested : Bool) (found : List StyleNode)
  | node (node : StyleNode)

/-- **The phrase between two places.** -/
inductive Derives : Phrase → Cursor → Cursor → Prop
  | done {cur} (hend : cur.skipBlanks.rest = []) : Derives (.nodes false []) cur cur.skipBlanks
  | close {cur} {cs} (hclose : cur.skipBlanks.rest = '\x7d' :: cs) :
      Derives (.nodes true []) cur (cur.skipBlanks.skip 1)
  | semicolon {cur next} {nested} {found} {cs}
      (hsemicolon : cur.skipBlanks.rest = ';' :: cs)
      (hrest : Derives (.nodes nested found) (cur.skipBlanks.skip 1) next) :
      Derives (.nodes nested found) cur next
  | cons {cur after next} {nested} {first} {rest}
      (hfirst : Derives (.node first) cur.skipBlanks after)
      (hrest : Derives (.nodes nested rest) after next) :
      Derives (.nodes nested (first :: rest)) cur next
  | blockComment {cur} {cs text} (hopen : cur.rest = '/' :: '*' :: cs)
      (htext : beforeText? ['*', '/'] cs = some text) :
      Derives (.node (.comment (String.ofList (Text.trim text)) false)) cur
        (cur.skip (text.length + 4))
  | lineComment {cur} {cs} (hopen : cur.rest = '/' :: '/' :: cs) :
      Derives (.node (.comment (String.ofList (Text.trim (cs.takeWhile (· ≠ '\n')))) true)) cur
        (cur.skip ((cs.takeWhile (· ≠ '\n')).length + 2))
  | atStatement {cur} {cs} {n} {stop}
      (hopen : cur.rest = '@' :: cs)
      (hend : preludeEnd none 0 (cs.dropWhile isAtNameChar) = some (n, stop))
      (hstop : stop ≠ .block) :
      Derives (.node (.atRule (String.ofList (cs.takeWhile isAtNameChar))
        (String.ofList (Text.collapse (Text.trim ((cs.dropWhile isAtNameChar).take n)))) none)) cur
        (cur.skip (1 + (cs.takeWhile isAtNameChar).length + (n + stop.passed)))
  | atBlock {cur next} {cs} {n} {children}
      (hopen : cur.rest = '@' :: cs)
      (hend : preludeEnd none 0 (cs.dropWhile isAtNameChar) = some (n, .block))
      (hchildren : Derives (.nodes true children)
        (cur.skip (1 + (cs.takeWhile isAtNameChar).length + (n + 1))) next) :
      Derives (.node (.atRule (String.ofList (cs.takeWhile isAtNameChar))
        (String.ofList (Text.collapse (Text.trim ((cs.dropWhile isAtNameChar).take n))))
        (some children))) cur next
  | rule {cur next} {n} {children}
      (hplain : startsPlain cur.rest = true)
      (hend : preludeEnd none 0 cur.rest = some (n, .block))
      (hchildren : Derives (.nodes true children) (cur.skip (n + 1)) next) :
      Derives (.node (.rule (selectorsOf (Text.trim (cur.rest.take n))) children)) cur next
  | declaration {cur} {n} {stop} {found}
      (hplain : startsPlain cur.rest = true)
      (hend : preludeEnd none 0 cur.rest = some (n, stop)) (hstop : stop ≠ .block)
      (hfound : StyleNode.ofDeclaration? (Text.trim (cur.rest.take n)) = some found) :
      Derives (.node found) cur (cur.skip (n + stop.passed))

/-! ## What is read has a derivation -/

variable {cur next : Cursor} {cs : List Char} {stop : PreludeStop}

lemma prelude_eq_ok_iff :
    prelude cur = .ok ⟨(text, stop), next, lt⟩ ↔ ∃ n, preludeEnd none 0 cur.rest = some (n, stop) ∧
      text = Text.trim (cur.rest.take n) ∧ next = cur.skip (n + stop.passed) := by
  unfold prelude
  split
  · rename_i hend
    simp [hend]
  · rename_i m stop' hend
    constructor
    · intro h
      cases h
      exact ⟨m, hend, rfl, rfl⟩
    · rintro ⟨n, hend', rfl, rfl⟩
      rw [hend] at hend'
      cases hend'
      rfl

lemma startsPlain_iff (hrest : cur.rest = c :: cs) :
    startsPlain cur.rest = true ↔ (c ≠ '\x7d' ∧ c ≠ ';') ∧ cur.startsWith "/*" = false ∧
      cur.startsWith "//" = false ∧ cur.startsWith "@" = false := by
  have hcomment : "/*".toList = ['/', '*'] := rfl
  have hline : "//".toList = ['/', '/'] := rfl
  have hat : "@".toList = ['@'] := rfl
  simp only [startsWith, hrest, startsPlain, hcomment, hline, hat]
  cases cs with
  | nil | cons d cs => grind [List.isPrefixOf]

lemma exists_cons_of_startsPlain (h : startsPlain cs = true) : ∃ c cs', cs = c :: cs' := by
  cases cs with
  | nil => cases h
  | cons c cs => exact ⟨c, cs, rfl⟩

lemma atName_eq (hopen : cur.rest = '@' :: cs) :
    (cur.skip 1).run isAtNameChar = cs.takeWhile isAtNameChar ∧
      (cur.skip (1 + ((cur.skip 1).run isAtNameChar).length)).rest = cs.dropWhile isAtNameChar := by
  refine ⟨by simp [run, hopen], ?_⟩
  rw [← skip_skip]
  exact ((cur.skip 1).rest_skipRun isAtNameChar).trans (by simp [hopen])

mutual

theorem derives_of_nodes {nested : Bool} {cur : Cursor}
    {p : Scanned (cur.remaining + 1) (List StyleNode)} (h : nodes nested cur = .ok p) :
    Derives (.nodes nested p.value) cur p.next := by
  rw [nodes] at h
  obtain ⟨⟨found, next, hlt⟩, hfound, h⟩ := bind_eq_ok.mp h
  cases h
  have hle := cur.remaining_skipBlanks_le
  rw [nodesHere] at hfound
  split at hfound
  · rename_i hrest
    cases nested with
    | true => cases hfound
    | false =>
      cases hfound
      exact .done hrest
  · rename_i c cs hrest
    split at hfound
    · rename_i hc
      cases nested with
      | true =>
        cases hfound
        exact .close (hc ▸ hrest)
      | false => cases hfound
    · rename_i hc
      have hpos := remaining_pos hrest
      split at hfound
      · rename_i hsemicolon
        have hskip := cur.skipBlanks.remaining_skip 1
        obtain ⟨⟨rest, after, hlt'⟩, hnodes, hfound⟩ := bind_eq_ok.mp hfound
        cases hfound
        exact .semicolon (hsemicolon ▸ hrest) (derives_of_nodes hnodes)
      · rename_i hsemicolon
        obtain ⟨⟨first, after, hlt₁⟩, hfirst, hfound⟩ := bind_eq_ok.mp hfound
        obtain ⟨⟨rest, next', hlt₂⟩, hnodes, hfound⟩ := bind_eq_ok.mp hfound
        cases hfound
        exact .cons (derives_of_node hsemicolon hfirst) (derives_of_nodes hnodes)
termination_by cur.remaining * 2 + 1
decreasing_by all_goals omega

theorem derives_of_node {cur : Cursor} {c : Char} {cs : List Char} {hrest : cur.rest = c :: cs}
    {hc : c ≠ '\x7d'} (hsemicolon : c ≠ ';') {p : Scanned cur.remaining StyleNode}
    (h : node cur c cs hrest hc = .ok p) : Derives (.node p.value) cur p.next := by
  rw [node] at h
  split at h
  · -- a comment
    rename_i hopen
    obtain ⟨cs', hcs⟩ := List.isPrefixOf_iff_prefix.mp hopen
    have hskip : (cur.skip 2).rest = cs' := by simp [← hcs]
    unfold blockComment at h
    split at h
    · cases h
    · rename_i text htext
      cases h
      rw [until?, hskip] at htext
      exact .blockComment hcs.symm htext
  · rename_i hcomment
    split at h
    · -- a comment up to the end of its line
      rename_i hopen
      obtain ⟨cs', hcs⟩ := List.isPrefixOf_iff_prefix.mp hopen
      have hskip : (cur.skip 2).rest = cs' := by simp [← hcs]
      cases h
      have hline := Derives.lineComment hcs.symm
      rw [← hskip] at hline
      exact hline
    · rename_i hline
      split at h
      · -- an at-rule
        rename_i hopen
        obtain ⟨cs', hcs⟩ := List.isPrefixOf_iff_prefix.mp hopen
        obtain ⟨hname, hskip⟩ := atName_eq hcs.symm
        obtain ⟨⟨⟨params, stop⟩, after, hlt⟩, hprelude, h⟩ := bind_eq_ok.mp h
        obtain ⟨n, hend, rfl, rfl⟩ := prelude_eq_ok_iff.mp hprelude
        have hless' := cur.remaining_skip (1 + ((cur.skip 1).run isAtNameChar).length)
        have hpos := remaining_pos hrest
        dsimp only at h
        split at h
        · rename_i hstop
          obtain ⟨⟨children, next, hlt'⟩, hchildren, h⟩ := bind_eq_ok.mp h
          cases h
          subst hstop
          have hchildren : Derives (.nodes true children) _ next := derives_of_nodes hchildren
          rw [hskip] at hend
          rw [skip_skip, hname] at hchildren
          dsimp only
          rw [hskip, hname]
          exact .atBlock hcs.symm hend hchildren
        · rename_i hstop
          cases h
          rw [hskip] at hend
          dsimp only
          rw [hskip, skip_skip, hname]
          exact .atStatement hcs.symm hend hstop
      · rename_i hat
        have hplain : startsPlain cur.rest = true :=
          (startsPlain_iff hrest).mpr ⟨⟨hc, hsemicolon⟩, by simpa using hcomment,
            by simpa using hline, by simpa using hat⟩
        split at h
        · cases h
        · rename_i found hprelude
          obtain ⟨⟨text, stop⟩, after, hlt⟩ := found
          have hless := prelude_lt hrest hc hprelude
          obtain ⟨n, hend, rfl, rfl⟩ := prelude_eq_ok_iff.mp hprelude
          dsimp only at h hless
          split at h
          · rename_i hstop
            subst hstop
            obtain ⟨⟨children, next, hlt'⟩, hchildren, h⟩ := bind_eq_ok.mp h
            cases h
            exact .rule hplain hend (derives_of_nodes hchildren)
          · rename_i hstop
            split at h
            · rename_i declaration hfound
              cases h
              exact .declaration hplain hend hstop hfound
            · cases h
termination_by cur.remaining * 2
decreasing_by all_goals omega

end

/-! ## What has a derivation is read -/

def Phrase.Reads (cur next : Cursor) : Phrase → Prop
  | nodes nested found => Gives (StyleGrammar.nodes nested cur) found next
  | node n => ∃ c cs, ∃ (hrest : cur.rest = c :: cs) (hc : c ≠ '\x7d'), c ≠ ';' ∧
      Gives (StyleGrammar.node cur c cs hrest hc) n next

lemma gives_nodes_of_nodesHere (h : Gives (nodesHere nested cur.skipBlanks) found next) :
    Gives (nodes nested cur) found next := by
  rw [nodes]
  exact gives_bind.mpr ⟨found, next, h, gives_pure.mpr ⟨rfl, rfl⟩⟩

lemma gives_prelude (hend : preludeEnd none 0 cur.rest = some (n, stop)) :
    Gives (prelude cur) (Text.trim (cur.rest.take n), stop) (cur.skip (n + stop.passed)) :=
  ⟨by rw [remaining_skip]; omega, prelude_eq_ok_iff.mpr ⟨n, hend, rfl, rfl⟩⟩

lemma reads_of_derives (h : Derives phrase cur next) : phrase.Reads cur next := by
  induction h with
  | done | close | semicolon =>
    refine gives_nodes_of_nodesHere ?_
    rw [nodesHere]
    all_goals grind [gives_bind, gives_pure, gives_ok, Phrase.Reads]
  | @cons cur after next nested first rest _ _ ihfirst ihrest =>
    obtain ⟨c, cs, hcs, hc, hsemicolon, hfirst⟩ := ihfirst
    refine gives_nodes_of_nodesHere ?_
    rw [nodesHere]
    split
    · rename_i hrest
      rw [hcs] at hrest
      cases hrest
    · rename_i hrest
      rw [hcs] at hrest
      cases hrest
      rw [dif_neg hc, if_neg hsemicolon]
      exact gives_bind.mpr ⟨first, after, hfirst,
        gives_bind.mpr ⟨rest, next, ihrest, gives_pure.mpr ⟨rfl, rfl⟩⟩⟩
  | @blockComment cur cs text hopen htext =>
    have hstart : cur.startsWith "/*" = true := by simp [startsWith, hopen]
    have huntil : (cur.skip 2).until? "*/" = some text := by
      rw [until?, rest_skip, hopen]
      exact htext
    refine ⟨_, _, hopen, by decide, by decide, ?_⟩
    rw [node, if_pos hstart, blockComment]
    split
    · rename_i hnone
      rw [huntil] at hnone
      cases hnone
    · rename_i found hfound
      rw [huntil] at hfound
      cases hfound
      exact ⟨_, rfl⟩
  | @lineComment cur cs hopen =>
    have hcomment : cur.startsWith "/*" = false := by
      simp [startsWith, hopen, List.isPrefixOf]
    have hstart : cur.startsWith "//" = true := by simp [startsWith, hopen]
    have hrun : (cur.skip 2).run (· ≠ '\n') = cs.takeWhile (· ≠ '\n') := by simp [run, hopen]
    refine ⟨_, _, hopen, by decide, by decide, ?_⟩
    rw [node, if_neg (by simp [hcomment]), if_pos hstart, ← hrun]
    exact ⟨_, rfl⟩
  | @atStatement cur cs n stop hopen hend hstop =>
    obtain ⟨hname, hskip⟩ := atName_eq hopen
    refine ⟨_, _, hopen, by decide, by decide, ?_⟩
    rw [node, if_neg (by simp [startsWith, hopen]),
      if_neg (by simp [startsWith, hopen]), if_pos (by simp [startsWith, hopen])]
    rw [← hskip] at hend
    rw [← skip_skip, ← hname, ← hskip]
    refine gives_bind.mpr ⟨_, _, gives_prelude hend, ?_⟩
    dsimp only
    rw [if_neg hstop]
    exact gives_pure.mpr ⟨rfl, rfl⟩
  | @atBlock cur next cs n children hopen hend _ ih =>
    obtain ⟨hname, hskip⟩ := atName_eq hopen
    refine ⟨_, _, hopen, by decide, by decide, ?_⟩
    rw [node, if_neg (by simp [startsWith, hopen]),
      if_neg (by simp [startsWith, hopen]), if_pos (by simp [startsWith, hopen])]
    rw [← hskip] at hend
    rw [← hname, ← hskip]
    refine gives_bind.mpr ⟨_, _, gives_prelude hend, ?_⟩
    rw [← hname, ← skip_skip] at ih
    exact gives_bind.mpr ⟨children, next, ih, gives_pure.mpr ⟨rfl, rfl⟩⟩
  | rule hplain hend | declaration hplain hend =>
    obtain ⟨c, cs, hrest⟩ := exists_cons_of_startsPlain hplain
    obtain ⟨⟨hc, hsemicolon⟩, hcomment, hline, hat⟩ := (startsPlain_iff hrest).mp hplain
    refine ⟨c, cs, hrest, hc, hsemicolon, ?_⟩
    obtain ⟨_, hprelude⟩ := gives_prelude hend
    rw [node, if_neg (by simp [hcomment]), if_neg (by simp [hline]), if_neg (by simp [hat])]
    split
    · simp_all
    · simp only [Phrase.Reads, PreludeStop.passed, gives_ite, gives_bind, gives_pure] at *
      grind [gives_pure]

/-! ## The preludes that are scanned -/

/-- Where the prelude starts that the nodes at a place start with, and whether it is that of an
at-rule. -/
def preludeAt? (cur : Cursor) : Option (Bool × Cursor) :=
  let here := cur.skipBlanks
  if here.startsWith "@" then
    some (true, here.skip (1 + ((here.skip 1).run isAtNameChar).length))
  else if startsPlain here.rest then some (false, here)
  else none

/-- **Reading the nodes at a place goes on** with those after a semicolon, with those in the
block of the first node, and with those after the first node. -/
inductive GoesOn : Cursor → Cursor → Prop
  | semicolon {cur : Cursor} {cs : List Char} (hsemicolon : cur.skipBlanks.rest = ';' :: cs) :
      GoesOn cur (cur.skipBlanks.skip 1)
  | block {cur place next : Cursor} {isAt : Bool} {text : List Char}
      (hplace : preludeAt? cur = some (isAt, place))
      (hprelude : Gives (prelude place) (text, .block) next) : GoesOn cur next
  | node {cur next : Cursor} {n : StyleNode} (h : (Phrase.node n).Reads cur.skipBlanks next) :
      GoesOn cur next

/-- **The preludes that are scanned from a place on**: where they start, and whether they are
those of at-rules. -/
def ScansPrelude (start : Cursor) (isAt : Bool) (place : Cursor) : Prop :=
  ∃ cur, Relation.ReflTransGen GoesOn start cur ∧ preludeAt? cur = some (isAt, place)

lemma ScansPrelude.head (h : GoesOn start next) (hnext : ScansPrelude next isAt place) :
    ScansPrelude start isAt place := by
  obtain ⟨cur, hgoes, hplace⟩ := hnext
  exact ⟨cur, .head h hgoes, hplace⟩

end StyleGrammar

end ComponentTemplate
