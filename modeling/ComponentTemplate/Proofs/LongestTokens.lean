import ComponentTemplate.Proofs.Regions

/-!
# The longest tokens

Reading tokens one after another loses nothing: they stand in the source at their regions, in
order, with blanks between them. Each of them is the longest of its kind.
-/

namespace ComponentTemplate

open Token List

variable {cs rest : List Char}

/-! ## Numbers -/

/-- **The texts of numbers**: digits, or a point between digits, of which those before it may be
missing. -/
inductive IsNumeral : List Char → Prop
  | whole {whole : List Char} (hne : whole ≠ []) (hwhole : ∀ c ∈ whole, c.isDigit = true) :
      IsNumeral whole
  | fraction {whole fraction : List Char} (hwhole : ∀ c ∈ whole, c.isDigit = true)
      (hne : fraction ≠ []) (hfraction : ∀ c ∈ fraction, c.isDigit = true) :
      IsNumeral (whole ++ '.' :: fraction)

lemma startsWithDigit_append (hne : cs ≠ []) (hcs : ∀ c ∈ cs, c.isDigit = true)
    (rest : List Char) : startsWithDigit (cs ++ rest) = true := by
  cases cs with
  | nil => exact absurd rfl hne
  | cons c cs => exact hcs c (mem_cons_self ..)

lemma length_le_digitRun (hcs : ∀ c ∈ cs, c.isDigit = true) (rest : List Char) :
    cs.length ≤ digitRun (cs ++ rest) := by
  rw [digitRun, takeWhile_append_of_pos hcs, length_append]
  exact Nat.le_add_right ..

lemma take_digitRun (cs : List Char) : cs.take (digitRun cs) = cs.takeWhile Char.isDigit :=
  (prefix_iff_eq_take.mp (List.takeWhile_prefix _)).symm

lemma IsNumeral.startsNumber (h : IsNumeral cs) (rest : List Char) :
    startsNumber (cs ++ rest) = true := by
  cases h with
  | whole hne hwhole =>
    cases cs with
    | nil => exact absurd rfl hne
    | cons c cs => simp [ComponentTemplate.startsNumber, hwhole c (mem_cons_self ..)]
  | @fraction whole fraction hwhole hne hfraction =>
    cases whole with
    | nil => simp [ComponentTemplate.startsNumber, startsWithDigit_append hne hfraction]
    | cons c whole => simp [ComponentTemplate.startsNumber, hwhole c (mem_cons_self ..)]

lemma IsNumeral.length_le (h : IsNumeral cs) (rest : List Char) :
    cs.length ≤ numberLength (cs ++ rest) := by
  cases h with
  | whole hne hwhole => exact (length_le_digitRun hwhole rest).trans (Nat.le_add_right ..)
  | @fraction whole fraction hwhole hne hfraction =>
    have hrun : digitRun (whole ++ '.' :: fraction ++ rest) = whole.length := by
      rw [digitRun, append_assoc, takeWhile_append_of_all hwhole (by simp)]
    have hdigits := length_le_digitRun hfraction rest
    have hdrop : (whole ++ '.' :: fraction ++ rest).drop whole.length =
        '.' :: (fraction ++ rest) := by simp
    rw [numberLength, hrun, hdrop, fractionLength,
      if_pos (startsWithDigit_append hne hfraction rest)]
    simp only [length_append, length_cons]
    omega

lemma isNumeral_take (h : startsNumber cs = true) : IsNumeral (cs.take (numberLength cs)) := by
  have hdigits : ∀ c ∈ cs.takeWhile Char.isDigit, c.isDigit = true := fun _ =>
    mem_takeWhile_imp
  have hwhole (hzero : fractionLength (cs.drop (digitRun cs)) = 0) :
      IsNumeral (cs.takeWhile Char.isDigit ++ []) := by
    rw [append_nil]
    refine .whole (fun hnil => ?_) hdigits
    have hpos := numberLength_pos h
    rw [numberLength, hzero, digitRun, hnil] at hpos
    exact absurd hpos (Nat.lt_irrefl 0)
  rw [numberLength, take_add, take_digitRun]
  generalize cs.drop (digitRun cs) = tail at hwhole ⊢
  unfold fractionLength at hwhole ⊢
  split at hwhole
  · rename_i ds
    split at hwhole
    · rename_i hstart
      rw [if_pos hstart, Nat.add_comm, take_succ_cons, take_digitRun]
      refine .fraction hdigits ?_ fun _ => mem_takeWhile_imp
      cases ds with
      | nil => cases hstart
      | cons d ds =>
        have hd : d.isDigit = true := hstart
        simp [hd]
    · rename_i hstart
      rw [if_neg hstart]
      exact hwhole rfl
  · exact hwhole rfl

lemma numberLength_le (cs : List Char) : numberLength cs ≤ cs.length := by
  have hrun : ∀ cs : List Char, digitRun cs ≤ cs.length := fun cs =>
    (List.takeWhile_prefix _).length_le
  have hfraction : ∀ cs : List Char, fractionLength cs ≤ cs.length := by
    intro cs
    unfold fractionLength
    split
    · rename_i ds
      have := hrun ds
      split
      · simp
        omega
      · simp
    · exact Nat.zero_le _
  have h₁ := hrun cs
  have h₂ := hfraction (cs.drop (digitRun cs))
  rw [length_drop] at h₂
  rw [numberLength]
  omega

lemma not_point_of_digits (h : ∀ c ∈ cs, c.isDigit = true) : '.' ∉ cs := fun hmem =>
  absurd (h _ hmem) (by decide)

lemma IsNumeral.length_le_of_points {before after : List Char} (h : IsNumeral cs)
    (heq : cs ++ rest = before ++ '.' :: '.' :: after) : cs.length ≤ before.length := by
  obtain ⟨tail, rfl, -⟩ | ⟨tail, hcs, htail⟩ := append_eq_append_iff.mp heq
  · simp
  · cases tail with
    | nil => simp [hcs]
    | cons d tail =>
      rw [cons_append, cons.injEq] at htail
      obtain ⟨rfl, htail⟩ := htail
      cases h with
      | whole hne hwhole => exact absurd (by simp [hcs]) (not_point_of_digits hwhole)
      | fraction hwhole hne hfraction =>
        -- the point is the only one, so a digit follows it
        obtain ⟨-, -, rfl⟩ := (append_cons_inj_of_notMem (not_point_of_digits hwhole)
          (not_point_of_digits hfraction)).mp hcs
        have hdigit := startsWithDigit_append hne hfraction rest
        rw [← htail] at hdigit
        exact absurd hdigit (by simp [startsWithDigit])

/-! ## Strings -/

/-- **A text escapes the character that follows it**: it ends with an odd number of
backslashes. -/
def Escapes (cs : List Char) : Prop := (cs.reverse.takeWhile (· == '\\')).length % 2 = 1

lemma escapes_cons {c : Char} (hc : c ≠ '\\') : Escapes (c :: cs) ↔ Escapes cs := by
  simp only [Escapes, reverse_cons, takeWhile_append]
  split <;> simp_all

lemma escapes_backslash (c : Char) (cs : List Char) : Escapes ('\\' :: c :: cs) ↔ Escapes cs := by
  simp only [Escapes, reverse_cons, append_assoc, takeWhile_append]
  by_cases hc : c = '\\'
  · split <;> simp_all
  · split <;> simp_all

lemma quotedLength?_spec {quote : Char} {n : Nat} (hquote : quote ≠ '\\')
    (h : quotedLength? quote cs = some n) :
    ∃ body, cs.take n = body ++ [quote] ∧ ¬ Escapes body ∧
      ∀ before after, body = before ++ quote :: after → Escapes before := by
  fun_induction quotedLength? quote cs generalizing n with
  | case1 => cases h
  | case2 => cases h
  | case3 c cs ih =>
    obtain ⟨m, hm, rfl⟩ := Option.map_eq_some_iff.mp h
    obtain ⟨body, htake, hbody, hfirst⟩ := ih hm
    refine ⟨'\\' :: c :: body, by simp [htake], by rwa [escapes_backslash], ?_⟩
    intro before after heq
    rcases before with _ | ⟨d, _ | ⟨e, before⟩⟩
    · exact absurd (cons.inj heq).1.symm hquote
    · cases heq
      rfl
    · simp only [cons_append, cons.injEq] at heq
      obtain ⟨rfl, rfl, hrest⟩ := heq
      exact (escapes_backslash _ _).mpr (hfirst before after hrest)
  | case4 cs hnil hcons =>
    obtain rfl : 1 = n := Option.some.inj h
    exact ⟨[], by simp, by simp [Escapes], by simp⟩
  | case5 c cs hnil hcons hc ih =>
    obtain ⟨m, hm, rfl⟩ := Option.map_eq_some_iff.mp h
    obtain ⟨body, htake, hbody, hfirst⟩ := ih hm
    have hback := ne_backslash_of_cases hnil hcons
    refine ⟨c :: body, by simp [htake], by rwa [escapes_cons hback], ?_⟩
    intro before after heq
    cases before with
    | nil => exact absurd (cons.inj heq).1 hc
    | cons d before =>
      simp only [cons_append, cons.injEq] at heq
      obtain ⟨rfl, hrest⟩ := heq
      exact (escapes_cons hback).mpr (hfirst before after hrest)

/-! ## Marks -/

/-- Whether a text starts with a choice and a number without a digit before its point. -/
def startsChoice : List Char → Bool
  | '?' :: '.' :: cs => startsWithDigit cs
  | _ => false

lemma markAt?_of_startsChoice (h : startsChoice cs = true) : markAt? cs = some "?" := by
  unfold startsChoice at h
  split at h
  · simp [markAt?, marks, h]
  · cases h

lemma length_le_markAt? {mark longer : String} (h : markAt? cs = some mark)
    (hchoice : startsChoice cs = false) (hlonger : longer ∈ marks) (hbegins : longer.toList <+: cs) :
    longer.toList.length ≤ mark.toList.length := by
  obtain ⟨hmark, before, after, hmarks, hbefore⟩ := find?_eq_some_iff_append.mp h
  simp only [Bool.and_eq_true, isPrefixOf_iff_prefix] at hmark
  have hpairwise := marks_pairwise
  rw [hmarks, pairwise_append, pairwise_cons] at hpairwise
  rw [hmarks, mem_append, mem_cons] at hlonger
  rcases hlonger with hlonger | rfl | hlonger
  · have hskipped := hbefore longer hlonger
    simp only [List.isPrefixOf_iff_prefix.mpr hbegins, Bool.true_and, Bool.not_not,
      Bool.and_eq_true, beq_iff_eq] at hskipped
    obtain ⟨rfl, hdigit⟩ := hskipped
    obtain ⟨tail, rfl⟩ := hbegins
    exact absurd (hchoice.symm.trans hdigit) (by decide)
  · exact le_rfl
  · -- a mark after this one does not go on from it
    have hshort := hpairwise.2.1.1 longer hlonger
    rcases prefix_or_prefix_of_prefix hbegins hmark.1 with hle | hge
    · exact hle.length_le
    · simp [List.isPrefixOf_iff_prefix.mpr hge] at hshort

/-! ## Tokens -/

/-- **What a token takes from the text at which it is read**, if `rest` is the text that it
leaves. A choice before a number that starts with a point is the one mark that could be
longer. -/
def Lexeme.IsLongest : Lexeme → List Char → Prop
  | .word text, rest => isName text.toList = true ∧ ∀ c ∈ rest.head?, isWordChar c = false
  | .number text, rest =>
    IsNumeral text.toList ∧
      (∀ longer, IsNumeral longer → longer <+: text.toList ++ rest →
        longer.length ≤ text.toList.length) ∧
      ∀ before after, text.toList ++ rest = before ++ '.' :: '.' :: after →
        text.toList.length ≤ before.length
  | .quoted text, _ =>
    ∃ quote body, (quote = '"' ∨ quote = '\'') ∧ text.toList = quote :: (body ++ [quote]) ∧
      ¬ Escapes body ∧ ∀ before after, body = before ++ quote :: after → Escapes before
  | .mark text, rest =>
    text ∈ marks ∧
      if startsChoice (text.toList ++ rest) then text = "?"
      else ∀ longer ∈ marks, longer.toList <+: text.toList ++ rest →
        longer.toList.length ≤ text.toList.length
  | .finish, rest => rest = []

lemma isWordChar_head?_dropWhile (cs : List Char) :
    ∀ c ∈ (cs.dropWhile isWordChar).head?, isWordChar c = false := by
  intro c hc
  have h := head?_dropWhile_not isWordChar cs
  rw [Option.mem_def.mp hc] at h
  exact h

lemma isLongest_number (h : startsNumber cs = true) :
    (Lexeme.number (String.ofList (cs.take (numberLength cs)))).IsLongest
      (cs.drop (numberLength cs)) := by
  have hnumeral := isNumeral_take h
  simp only [Lexeme.IsLongest, String.toList_ofList]
  refine ⟨hnumeral, fun longer hlonger hbegins => ?_, fun _ _ => hnumeral.length_le_of_points⟩
  rw [take_append_drop] at hbegins
  obtain ⟨tail, rfl⟩ := hbegins
  rw [length_take, Nat.min_eq_left (numberLength_le _)]
  exact hlonger.length_le tail

lemma isLongest_quoted {quote : Char} {n : Nat} (hquote : quote = '"' ∨ quote = '\'')
    (h : quotedLength? quote cs = some n) (rest : List Char) :
    (Lexeme.quoted (String.ofList ((quote :: cs).take (1 + n)))).IsLongest rest := by
  have hback : quote ≠ '\\' := by rcases hquote with rfl | rfl <;> decide
  obtain ⟨body, htake, hend, hfirst⟩ := quotedLength?_spec hback h
  exact ⟨quote, body, hquote, by simp [Nat.add_comm 1 n, htake], hend, hfirst⟩

lemma isLongest_mark {mark : String} (h : markAt? cs = some mark) :
    (Lexeme.mark (String.ofList (cs.take mark.toList.length))).IsLongest
      (cs.drop mark.toList.length) := by
  have hsplit := take_append_drop mark.toList.length cs
  rw [take_length_markAt? h] at hsplit ⊢
  rw [String.ofList_toList]
  refine ⟨mem_of_find?_eq_some h, ?_⟩
  rw [hsplit]
  split
  · rename_i hchoice
    rw [markAt?_of_startsChoice hchoice] at h
    exact (Option.some.inj h).symm
  · rename_i hchoice
    exact fun longer hlonger => length_le_markAt? h (by simpa using hchoice) hlonger

lemma Token.isLongest_of_readAt {start after : Cursor} {t : Token}
    (h : readAt start = .ok (t, after)) : t.lexeme.IsLongest after.rest := by
  unfold readAt at h
  split at h
  · rename_i hrest
    cases h
    exact hrest
  · rename_i c cs hrest
    split at h
    · rename_i hword
      cases h
      have hname : isName ((c :: cs).takeWhile isWordChar) = true := isName_takeWhile hword
      have hend := isWordChar_head?_dropWhile start.rest
      rw [← Cursor.rest_skipRun] at hend
      rw [← hrest] at hname ⊢
      have htake := prefix_iff_eq_take.mp (List.takeWhile_prefix isWordChar (l := start.rest))
      exact ⟨by rwa [String.toList_ofList, ← htake], hend⟩
    · split at h
      · rename_i hnumber
        cases h
        rw [← hrest] at hnumber ⊢
        exact isLongest_number hnumber
      · split at h
        · rename_i hquote
          split at h
          · rename_i n hlength
            cases h
            rw [hrest]
            exact isLongest_quoted (by simpa using hquote) hlength _
          · cases h
        · split at h
          · rename_i mark hmark
            cases h
            rw [← hrest] at hmark
            exact isLongest_mark hmark
          · cases h

/-! ## One token after another -/

/-- **The tokens that are read one after another** from a place on, and the place after the
last one. -/
inductive Token.Run : Cursor → List Token → Cursor → Prop
  | nil (cur : Cursor) : Run cur [] cur
  | cons {cur mid next : Cursor} {t : Token} {ts : List Token}
      (hread : read cur = .ok (t, mid)) (ht : t.lexeme ≠ .finish) (hrun : Run mid ts next) :
      Run cur (t :: ts) next

/-- **Tokens divide a source** from one offset to another: before each of them stand blanks
only, its characters stand at its region, and it is the longest token there. -/
def Token.Partition (source : List Char) : Nat → List Token → Nat → Prop
  | start, [], stop => start = stop
  | start, t :: ts, stop =>
    (∃ before blanks rest, source = before ++ (blanks ++ (t.lexeme.chars ++ rest)) ∧
      start = byteLength before ∧ (∀ c ∈ blanks, Text.isBlank c = true) ∧
      t.span = ⟨start + byteLength blanks, start + byteLength blanks + byteLength t.lexeme.chars⟩ ∧
      t.span.start < t.span.stop ∧ t.lexeme.IsLongest rest) ∧
    Partition source t.span.stop ts stop

variable {source : List Char} {cur next : Cursor} {t : Token} {ts : List Token}

lemma Token.eq_skipBlanks_of_finish {after : Cursor} (h : read cur = .ok (t, after))
    (ht : t.lexeme = .finish) : cur.skipBlanks = after := by
  have hreads := reads_of_readAt h
  rw [ht] at hreads
  exact hreads.eq_of_nil

lemma Cursor.isBlank_of_run (cur : Cursor) : ∀ c ∈ cur.run Text.isBlank, Text.isBlank c = true :=
  fun _ => mem_takeWhile_imp

lemma Token.Run.partition (h : Run cur ts next) (hcur : cur.IsIn source) :
    Partition source cur.offset ts next.offset ∧ next.IsIn source := by
  induction h with
  | nil cur => exact ⟨rfl, hcur⟩
  | @cons cur mid next t ts hread ht hrun ih =>
    have hblanks : cur.Reads (cur.run Text.isBlank) cur.skipBlanks := cur.reads_skipRun _
    have htoken : cur.skipBlanks.Reads t.lexeme.chars mid := reads_of_readAt hread
    have hspan : t.span = cur.skipBlanks.spanTo mid := (readAt_spec hread).2
    have hmid := hcur.trans (hblanks.reaches.trans htoken.reaches)
    have hstop : t.span.stop = mid.offset := by rw [hspan]; rfl
    obtain ⟨hpartition, hnext⟩ := ih hmid
    obtain ⟨before, hbefore, hoffset⟩ := hcur
    refine ⟨⟨⟨before, _, mid.rest, ?_, ?_, cur.isBlank_of_run, ?_, ?_,
      isLongest_of_readAt hread⟩, by rwa [hstop]⟩, hnext⟩
    · rw [← htoken.rest_eq, ← hblanks.rest_eq]
      exact hbefore
    · simpa [Cursor.ofSource] using hoffset
    · rw [hspan, Cursor.spanTo, htoken.offset_eq, hblanks.offset_eq]
    · rw [hspan]
      exact htoken.offset_lt (readAt_remaining_lt hread ht)

lemma Token.exists_run (cur : Cursor) : ∃ ts next, Run cur ts next ∧
    ((∃ failure, read next = .error failure) ∨
      ∃ t, read next = .ok (t, next.skipBlanks) ∧ t.lexeme = .finish) := by
  induction hn : cur.remaining using Nat.strong_induction_on generalizing cur with
  | _ n ih =>
    subst hn
    cases hread : read cur with
    | error failure => exact ⟨[], cur, .nil cur, .inl ⟨failure, hread⟩⟩
    | ok p =>
      obtain ⟨t, mid⟩ := p
      by_cases ht : t.lexeme = .finish
      · obtain rfl := eq_skipBlanks_of_finish hread ht
        exact ⟨[], cur, .nil cur, .inr ⟨t, hread, ht⟩⟩
      · obtain ⟨ts, next, hrun, hstop⟩ := ih _ (read_remaining_lt hread ht) mid rfl
        exact ⟨t :: ts, next, .cons hread ht hrun, hstop⟩

/-- **The tokens that are read divide the source**, from any place of it on, each of them is
the longest at its place, and nothing but blanks is left when reading ends without an error. -/
theorem Token.partition_of_run (before rest : List Char) :
    (∃ ts next, Run ⟨byteLength before, rest⟩ ts next ∧
      ((∃ failure, read next = .error failure) ∨
        ∃ t, read next = .ok (t, next.skipBlanks) ∧ t.lexeme = .finish)) ∧
    ∀ ts next, Run ⟨byteLength before, rest⟩ ts next →
      Partition (before ++ rest) (byteLength before) ts next.offset ∧
      ∀ t after, read next = .ok (t, after) → t.lexeme = .finish →
        (∀ c ∈ next.rest, Text.isBlank c = true) ∧
        next.offset + byteLength next.rest = byteLength (before ++ rest) := by
  refine ⟨exists_run _, fun ts next hrun => ?_⟩
  have hcur : Cursor.IsIn (before ++ rest) ⟨byteLength before, rest⟩ :=
    ⟨before, rfl, by simp [Cursor.ofSource]⟩
  obtain ⟨hpartition, hin⟩ := hrun.partition hcur
  refine ⟨hpartition, fun t after hread ht => ?_⟩
  have hend := rest_of_read_finish hread ht
  obtain rfl := eq_skipBlanks_of_finish hread ht
  have hblanks : next.Reads (next.run Text.isBlank) next.skipBlanks := next.reads_skipRun _
  have hrest : next.rest = next.run Text.isBlank := by rw [hblanks.rest_eq, hend, append_nil]
  have hoffset := (hin.trans hblanks.reaches).offset_of_rest hend
  rw [hrest, ← hblanks.offset_eq]
  exact ⟨next.isBlank_of_run, hoffset⟩

end ComponentTemplate
