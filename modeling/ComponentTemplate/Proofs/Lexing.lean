import Mathlib
import ComponentTemplate.Token.Scan

/-!
# Tokens and their texts

A token is read back from its own text, as long as what follows does not prolong it. What
prolongs a token is decided by the first characters that follow: a word by the characters of
words, a number by digits and fractions, a mark by the characters of longer marks.
-/

namespace ComponentTemplate

open List (all_eq_true cons_append mem_cons_self)

/-- The characters of a token. -/
def Lexeme.chars (l : Lexeme) : List Char := (l.text?.getD "").toList

@[simp]
lemma Lexeme.chars_word (text : String) : (Lexeme.word text).chars = text.toList := rfl

@[simp]
lemma Lexeme.chars_number (text : String) : (Lexeme.number text).chars = text.toList := rfl

@[simp]
lemma Lexeme.chars_quoted (text : String) : (Lexeme.quoted text).chars = text.toList := rfl

@[simp]
lemma Lexeme.chars_mark (text : String) : (Lexeme.mark text).chars = text.toList := rfl

/-- **A quoted string**: a quote, and a text that the same quote closes at its very end. -/
def IsQuoted : List Char → Prop
  | [] => False
  | quote :: body => (quote = '"' ∨ quote = '\'') ∧ quotedLength? quote body = some body.length

/-- **The tokens that are read.** -/
def Lexeme.IsSound : Lexeme → Prop
  | .word text => isName text.toList = true
  | .quoted text => IsQuoted text.toList
  | .mark text => text ∈ marks
  | .number _ | .finish => True

/-- **The tokens that are written.** Numbers are written with digits only. -/
def Lexeme.IsWritten : Lexeme → Prop
  | .number text => text.toList ≠ [] ∧ ∀ c ∈ text.toList, c.isDigit = true
  | .finish => False
  | l => l.IsSound

def prolongsMark (mark : String) (c : Char) : Bool :=
  ((mark == "." || mark == "?.") && c.isDigit) ||
    marks.any fun longer => (mark.toList ++ [c]).isPrefixOf longer.toList

/-- **A text ends the token that it follows.** -/
def Lexeme.EndsBefore : Lexeme → List Char → Prop
  | .word _, rest => ∀ c ∈ rest.head?, isWordChar c = false
  | .number _, rest => startsWithDigit rest = false ∧ fractionLength rest = 0
  | .mark text, rest => ∀ c ∈ rest.head?, prolongsMark text c = false
  | .quoted _, _ | .finish, _ => True

/-! ## Strings -/

variable {quote c : Char} {cs rest : List Char} {mark : String} {l : Lexeme} {n : Nat}

lemma quotedLength?_cons (hc : c ≠ '\\') (cs : List Char) :
    quotedLength? quote (c :: cs) =
      if c = quote then some 1 else (quotedLength? quote cs).map (· + 1) := by
  rw [quotedLength?.eq_4]
  · exact fun h _ => hc h
  · exact fun _ _ h _ => hc h

lemma ne_backslash_of_cases (hnil : c = '\\' → cs = [] → False)
    (hcons : ∀ d ds, c = '\\' → cs = d :: ds → False) : c ≠ '\\' := by
  rintro rfl
  cases cs with
  | nil => exact hnil rfl rfl
  | cons d ds => exact hcons d ds rfl rfl

lemma quotedLength?_append (h : quotedLength? quote cs = some n) (rest : List Char) :
    quotedLength? quote (cs ++ rest) = some n := by
  fun_induction quotedLength? quote cs generalizing n with
  | case1 => simp at h
  | case2 => simp at h
  | case3 c cs ih =>
    obtain ⟨m, hm, rfl⟩ := Option.map_eq_some_iff.mp h
    simp [quotedLength?, ih hm]
  | case4 cs hnil hcons =>
    rw [cons_append, quotedLength?_cons (ne_backslash_of_cases hnil hcons), if_pos rfl]
    exact h
  | case5 c cs hnil hcons hc ih =>
    obtain ⟨m, hm, rfl⟩ := Option.map_eq_some_iff.mp h
    rw [cons_append, quotedLength?_cons (ne_backslash_of_cases hnil hcons), if_neg hc, ih hm,
      Option.map_some]

lemma quotedLength?_take (h : quotedLength? quote cs = some n) :
    n ≤ cs.length ∧ quotedLength? quote (cs.take n) = some n := by
  fun_induction quotedLength? quote cs generalizing n with
  | case1 => simp at h
  | case2 => simp at h
  | case3 c cs ih =>
    obtain ⟨m, hm, rfl⟩ := Option.map_eq_some_iff.mp h
    obtain ⟨hle, htake⟩ := ih hm
    exact ⟨by simpa using hle, by simp [quotedLength?, htake]⟩
  | case4 cs hnil hcons =>
    obtain rfl : 1 = n := Option.some.inj h
    refine ⟨by simp, ?_⟩
    rw [List.take_succ_cons, quotedLength?_cons (ne_backslash_of_cases hnil hcons), if_pos rfl]
  | case5 c cs hnil hcons hc ih =>
    obtain ⟨m, hm, rfl⟩ := Option.map_eq_some_iff.mp h
    obtain ⟨hle, htake⟩ := ih hm
    refine ⟨by simpa using hle, ?_⟩
    rw [List.take_succ_cons, quotedLength?_cons (ne_backslash_of_cases hnil hcons), if_neg hc,
      htake, Option.map_some]

/-! ## Marks -/

lemma marks_pairwise :
    marks.Pairwise fun before after => before.toList.isPrefixOf after.toList = false := by
  decide +kernel

lemma char_of_mem_marks (hmark : mark ∈ marks) (hc : c ∈ mark.toList) :
    isWordChar c = false ∧ c ≠ '"' ∧ c ≠ '\'' ∧ Text.isBlank c = false := by
  have h : (marks.all fun mark => mark.toList.all fun c =>
      !isWordChar c && c != '"' && c != '\'' && !Text.isBlank c) = true := by
    decide +kernel
  simpa [and_assoc] using all_eq_true.mp (all_eq_true.mp h mark hmark) c hc

lemma exists_cons_of_mem_marks (hmark : mark ∈ marks) : ∃ c cs, mark.toList = c :: cs :=
  List.exists_cons_of_length_pos (length_pos_of_mem_marks mark hmark)

lemma prolongsMark_eq_false (hc : ∀ longer ∈ marks, c ∉ longer.toList)
    (hdigit : mark = "." ∨ mark = "?." → c.isDigit = false) : prolongsMark mark c = false := by
  simp only [prolongsMark, Bool.or_eq_false_iff, Bool.and_eq_false_iff, List.any_eq_false,
    List.isPrefixOf_iff_prefix]
  constructor
  · by_cases hmark : mark = "." ∨ mark = "?."
    · exact .inr (hdigit hmark)
    · exact .inl (by simpa using hmark)
  · intro longer hlonger hbegins
    exact hc longer hlonger (hbegins.subset (by simp))

lemma isDigit_eq_false_of_isWordChar (h : isWordChar c = false) : c.isDigit = false := by
  simp only [isWordChar, Char.isAlphanum, Bool.or_eq_false_iff] at h
  exact h.1.1.2

lemma isWordStart_eq_false_of_isWordChar (h : isWordChar c = false) : isWordStart c = false :=
  Bool.eq_false_iff.mpr fun hstart => Bool.eq_false_iff.mp h (isWordChar_of_isWordStart hstart)

lemma startsNumber_mark_append (hmark : mark ∈ marks)
    (h : ∀ c ∈ rest.head?, prolongsMark mark c = false) :
    startsNumber (mark.toList ++ rest) = false := by
  have hmarks : ∀ mark ∈ marks, startsNumber mark.toList = false := by decide +kernel
  obtain ⟨c, cs, hcs⟩ := exists_cons_of_mem_marks hmark
  obtain ⟨hword, -⟩ := char_of_mem_marks hmark (hcs ▸ mem_cons_self ..)
  have hnumber := hmarks mark hmark
  rw [hcs] at hnumber ⊢
  cases cs with
  | cons d ds => exact hnumber
  | nil =>
    cases rest with
    | nil => exact hnumber
    | cons d ds =>
      have hd := h d rfl
      by_cases hc : c = '.'
      · obtain rfl : mark = "." := by rw [← String.ofList_toList (s := mark), hcs, hc]
        simp [prolongsMark] at hd
        simp [startsNumber, hc, startsWithDigit, hd.1]
      · simp [startsNumber, hc, isDigit_eq_false_of_isWordChar hword]

lemma markAt?_append (hmark : mark ∈ marks) (h : ∀ c ∈ rest.head?, prolongsMark mark c = false) :
    markAt? (mark.toList ++ rest) = some mark := by
  obtain ⟨before, after, hmarks⟩ := List.append_of_mem hmark
  have hpairwise := marks_pairwise
  rw [hmarks, List.pairwise_append] at hpairwise
  rw [markAt?, List.find?_eq_some_iff_append]
  refine ⟨?_, before, after, hmarks, ?_⟩
  · by_cases hoptional : mark = "?."
    · subst hoptional
      cases rest with
      | nil => rfl
      | cons c cs =>
        have hc := h c rfl
        simp [prolongsMark] at hc
        simp [startsWithDigit, hc.1]
    · simp [hoptional]
  · intro other hother
    -- a mark that stands before this one does not begin it, so it would have to be longer
    have hshort := hpairwise.2.2 other hother mark (mem_cons_self ..)
    have hmem : other ∈ marks := hmarks ▸ List.mem_append_left _ hother
    by_contra hfound
    simp only [Bool.not_eq_true, Bool.not_eq_false', Bool.and_eq_true,
      List.isPrefixOf_iff_prefix] at hfound
    rcases List.prefix_or_prefix_of_prefix hfound.1 (List.prefix_append _ _) with hle | ⟨t, ht⟩
    · simp [List.isPrefixOf_iff_prefix.mpr hle] at hshort
    · cases t with
      | nil =>
        have hself : other.toList <+: mark.toList := by simp [← ht]
        simp [List.isPrefixOf_iff_prefix.mpr hself] at hshort
      | cons c cs =>
        have hrest : rest.head? = some c := by
          rw [← ht] at hfound
          obtain ⟨u, hu⟩ := (List.prefix_append_right_inj _).mp hfound.1
          simp [← hu]
        have hlonger : prolongsMark mark c = true := by
          simp only [prolongsMark, Bool.or_eq_true, List.any_eq_true]
          exact .inr ⟨other, hmem, List.isPrefixOf_iff_prefix.mpr ⟨cs, by simp [← ht]⟩⟩
        simp [h c hrest] at hlonger

/-! ## Reading a token back -/

lemma Token.take_append (kind : String → Lexeme) (offset : Nat) (cs rest : List Char) :
    Token.take kind ⟨offset, cs ++ rest⟩ cs.length =
      (⟨kind (String.ofList cs), ⟨offset, offset + byteLength cs⟩⟩,
        ⟨offset + byteLength cs, rest⟩) := by
  simp [Token.take, Cursor.spanTo, Cursor.skip]

lemma takeWhile_append_of_all (hcs : ∀ c ∈ cs, p c = true) (hrest : ∀ c ∈ rest.head?, p c = false) :
    (cs ++ rest).takeWhile p = cs := by
  rw [List.takeWhile_append_of_pos hcs]
  cases rest with
  | nil => simp
  | cons c rest => simp [hrest c rfl]

lemma isWordChar_of_isDigit (h : c.isDigit = true) : isWordChar c = true := by
  simp [isWordChar, Char.isAlphanum, h]

lemma isWordStart_of_isDigit (h : c.isDigit = true) : isWordStart c = false := by
  by_contra hstart
  simp only [Bool.not_eq_false, isWordStart, Char.isAlpha, Char.isUpper, Char.isLower,
    Bool.or_eq_true, Bool.and_eq_true, decide_eq_true_eq, beq_iff_eq, ge_iff_le,
    UInt32.le_iff_toNat_le, Char.isDigit] at h hstart
  rcases hstart with ((hupper | hlower) | rfl) | rfl
  · exact absurd (hupper.1.trans h.2) (by decide)
  · exact absurd (hlower.1.trans h.2) (by decide)
  · exact absurd h.2 (by decide)
  · exact absurd h.1 (by decide)

def Token.Takes (kind : String → Lexeme) (offset : Nat) (cs rest : List Char) : Prop :=
  Token.readAt ⟨offset, cs ++ rest⟩ =
    .ok (⟨kind (String.ofList cs), ⟨offset, offset + byteLength cs⟩⟩,
      ⟨offset + byteLength cs, rest⟩)

lemma Token.takes_word (hname : isName cs = true) (hend : ∀ c ∈ rest.head?, isWordChar c = false)
    (offset : Nat) : Token.Takes .word offset cs rest := by
  cases cs with
  | nil => simp [isName] at hname
  | cons c cs =>
    simp only [isName, Bool.and_eq_true, all_eq_true] at hname
    have hall : ∀ d ∈ c :: cs, isWordChar d = true := by
      simpa [isWordChar_of_isWordStart hname.1] using hname.2
    have htake := takeWhile_append_of_all hall hend
    unfold Takes readAt
    simp only [cons_append] at htake ⊢
    rw [if_pos hname.1, htake]
    exact congrArg Except.ok (take_append .word offset (c :: cs) rest)

lemma Token.takes_number (hne : cs ≠ []) (hdigits : ∀ c ∈ cs, c.isDigit = true)
    (hstart : startsWithDigit rest = false) (hfraction : fractionLength rest = 0) (offset : Nat) :
    Token.Takes .number offset cs rest := by
  have htake : (cs ++ rest).takeWhile Char.isDigit = cs := by
    refine takeWhile_append_of_all hdigits fun c hc => ?_
    cases rest with
    | nil => cases hc
    | cons d ds => cases hc; exact hstart
  have hlength : numberLength (cs ++ rest) = cs.length := by
    simp [numberLength, digitRun, htake, hfraction]
  cases cs with
  | nil => exact absurd rfl hne
  | cons c cs =>
    have hc := hdigits c (mem_cons_self ..)
    unfold Takes readAt
    simp only [cons_append] at hlength ⊢
    rw [if_neg (by simp [isWordStart_of_isDigit hc]), if_pos (by simp [startsNumber, hc]), hlength]
    exact congrArg Except.ok (take_append .number offset (c :: cs) rest)

lemma Token.takes_quoted (hquoted : IsQuoted cs) (rest : List Char) (offset : Nat) :
    Token.Takes .quoted offset cs rest := by
  cases cs with
  | nil => exact hquoted.elim
  | cons quote body =>
    obtain ⟨hquote, hlength⟩ := hquoted
    have hlength := quotedLength?_append hlength rest
    have htest : (quote == '"' || quote == '\'') = true := by simpa using hquote
    have hword : isWordStart quote = false := by rcases hquote with rfl | rfl <;> decide
    have hnumber : startsNumber (quote :: (body ++ rest)) = false := by
      rcases hquote with rfl | rfl <;> rfl
    unfold Takes readAt
    simp only [cons_append]
    rw [if_neg (by simp [hword]), if_neg (by simp [hnumber]), if_pos htest, hlength]
    have h := take_append .quoted offset (quote :: body) rest
    rw [List.length_cons, Nat.add_comm] at h
    exact congrArg Except.ok h

lemma Token.takes_mark (hmark : mark ∈ marks)
    (hend : ∀ c ∈ rest.head?, prolongsMark mark c = false) (offset : Nat) :
    Token.Takes .mark offset mark.toList rest := by
  have hnumber := startsNumber_mark_append hmark hend
  have hfind := markAt?_append hmark hend
  obtain ⟨c, cs, hcs⟩ := exists_cons_of_mem_marks hmark
  obtain ⟨hword, hdouble, hsingle, -⟩ := char_of_mem_marks hmark (hcs ▸ mem_cons_self ..)
  have htake := take_append .mark offset mark.toList rest
  unfold Takes readAt
  rw [hcs] at hnumber hfind htake ⊢
  simp only [cons_append] at hnumber hfind htake ⊢
  rw [if_neg (by simp [isWordStart_eq_false_of_isWordChar hword]), if_neg (by simp [hnumber]),
    if_neg (by simp [hdouble, hsingle]), hfind]
  dsimp only
  rw [hcs]
  exact congrArg Except.ok htake

/-- **A token is read back from its own text**, if what follows ends it. -/
theorem Token.readAt_chars (hl : l.IsWritten) (hend : l.EndsBefore rest) (offset : Nat) :
    Token.readAt ⟨offset, l.chars ++ rest⟩ =
      .ok (⟨l, ⟨offset, offset + byteLength l.chars⟩⟩, ⟨offset + byteLength l.chars, rest⟩) := by
  cases l with
  | finish => exact hl.elim
  | word text => simpa [Takes] using takes_word hl hend offset
  | number text => simpa [Takes] using takes_number hl.1 hl.2 hend.1 hend.2 offset
  | quoted text => simpa [Takes] using takes_quoted hl rest offset
  | mark text => simpa [Takes] using takes_mark hl hend offset

/-! ## What holds of the tokens that are read -/

lemma isName_takeWhile (h : isWordStart c = true) :
    isName ((c :: cs).takeWhile isWordChar) = true := by
  rw [List.takeWhile_cons_of_pos (isWordChar_of_isWordStart h)]
  simp only [isName, h, Bool.true_and, all_eq_true]
  exact fun d hd => List.mem_takeWhile_imp hd

lemma take_length_markAt? (h : markAt? cs = some mark) :
    cs.take mark.toList.length = mark.toList := by
  have hbegins := List.find?_some h
  simp only [Bool.and_eq_true, List.isPrefixOf_iff_prefix] at hbegins
  exact (List.prefix_iff_eq_take.mp hbegins.1).symm

lemma Token.readAt_spec (h : Token.readAt start = .ok (t, after)) :
    t.lexeme.IsSound ∧ t.span = start.spanTo after := by
  unfold readAt at h
  split at h
  · cases h
    exact ⟨trivial, rfl⟩
  · rename_i c cs hrest
    split at h
    · rename_i hword
      cases h
      refine ⟨?_, rfl⟩
      have htake : start.rest.take ((c :: cs).takeWhile isWordChar).length =
          (c :: cs).takeWhile isWordChar := by
        rw [hrest]
        exact (List.prefix_iff_eq_take.mp (List.takeWhile_prefix _)).symm
      simp only [Lexeme.IsSound, htake, String.toList_ofList]
      exact isName_takeWhile hword
    · split at h
      · cases h
        exact ⟨trivial, rfl⟩
      · split at h
        · rename_i hquote
          split at h
          · rename_i n hlength
            cases h
            refine ⟨?_, rfl⟩
            obtain ⟨hle, htake⟩ := quotedLength?_take hlength
            simp only [Lexeme.IsSound, hrest, String.toList_ofList, Nat.add_comm 1 n,
              List.take_succ_cons, IsQuoted, htake, List.length_take, Nat.min_eq_left hle]
            exact ⟨by simpa using hquote, trivial⟩
          · cases h
        · split at h
          · rename_i mark hmark
            cases h
            refine ⟨?_, rfl⟩
            simp only [Lexeme.IsSound, hrest, take_length_markAt? hmark, String.ofList_toList]
            exact List.mem_of_find?_eq_some hmark
          · cases h

/-! ## Tokens next to each other -/

/-- **Two tokens may stand next to each other**: the second does not prolong the first. -/
def Lexeme.joins : Lexeme → Lexeme → Bool
  | .quoted _, _ => true
  | .word _, .mark _ | .number _, .mark _ | .mark _, .word _ | .mark _, .quoted _ => true
  | .mark text, .number _ => text != "." && text != "?."
  | .mark text, .mark next => next.toList.head?.all fun c => !prolongsMark text c
  | _, _ => false

lemma isWordChar_eq_false_of_isBlank (h : Text.isBlank c = true) : isWordChar c = false := by
  by_contra hword
  simp only [Bool.not_eq_false, isWordChar, Char.isAlphanum, Char.isAlpha, Char.isUpper,
    Char.isLower, Char.isDigit, Bool.or_eq_true, Bool.and_eq_true, decide_eq_true_eq, beq_iff_eq,
    ge_iff_le, UInt32.le_iff_toNat_le] at hword
  simp only [Text.isBlank, Bool.or_eq_true, Bool.and_eq_true, decide_eq_true_eq, beq_iff_eq,
    Char.toNat] at h
  rcases hword with ((((h' | h') | h') | rfl) | rfl)
  · have h₁ : 65 ≤ c.val.toNat := h'.1
    have h₂ : c.val.toNat ≤ 90 := h'.2
    omega
  · have h₁ : 97 ≤ c.val.toNat := h'.1
    have h₂ : c.val.toNat ≤ 122 := h'.2
    omega
  · have h₁ : 48 ≤ c.val.toNat := h'.1
    have h₂ : c.val.toNat ≤ 57 := h'.2
    omega
  · exact absurd h (by decide)
  · exact absurd h (by decide)

lemma Lexeme.endsBefore_of_blank (l : Lexeme) (h : ∀ c ∈ rest.head?, Text.isBlank c = true) :
    l.EndsBefore rest := by
  cases l with
  | word text => exact fun c hc => isWordChar_eq_false_of_isBlank (h c hc)
  | number text =>
    cases rest with
    | nil => exact ⟨rfl, rfl⟩
    | cons c cs =>
      have hblank := h c rfl
      refine ⟨isDigit_eq_false_of_isWordChar (isWordChar_eq_false_of_isBlank hblank), ?_⟩
      unfold fractionLength
      split
      · rename_i heq
        cases heq
        exact absurd hblank (by decide)
      · rfl
  | quoted text => trivial
  | mark text =>
    intro c hc
    have hblank := h c hc
    refine prolongsMark_eq_false (fun longer hlonger hmem => ?_) fun _ =>
      isDigit_eq_false_of_isWordChar (isWordChar_eq_false_of_isBlank hblank)
    simp [(char_of_mem_marks hlonger hmem).2.2.2] at hblank
  | finish => trivial

lemma fractionLength_of_not_startsNumber (h : startsNumber cs = false) :
    startsWithDigit cs = false ∧ fractionLength cs = 0 := by
  cases cs with
  | nil => exact ⟨rfl, rfl⟩
  | cons c cs =>
    simp only [startsNumber, Bool.or_eq_false_iff] at h
    refine ⟨h.1, ?_⟩
    unfold fractionLength
    split
    · rename_i heq
      cases heq
      have hdigit : startsWithDigit cs = false := by simpa using h.2
      simp [hdigit]
    · rfl

lemma prolongsMark_eq_false_of_isWordChar (h : isWordChar c = true)
    (hdigit : mark = "." ∨ mark = "?." → c.isDigit = false) : prolongsMark mark c = false := by
  refine prolongsMark_eq_false (fun longer hlonger hmem => ?_) hdigit
  simp [(char_of_mem_marks hlonger hmem).1] at h

/-- **A token ends before one that it joins**, if that one ends before the rest. -/
theorem Lexeme.endsBefore_of_joins (hjoins : l.joins next = true) (hnext : next.IsWritten)
    (hend : next.EndsBefore rest) : l.EndsBefore (next.chars ++ rest) := by
  cases l with
  | quoted text => trivial
  | finish => trivial
  | word text =>
    cases next with
    | mark next =>
      obtain ⟨c, cs, hcs⟩ := exists_cons_of_mem_marks hnext
      have hc := char_of_mem_marks hnext (hcs ▸ mem_cons_self ..)
      simpa [EndsBefore, hcs] using hc.1
    | _ => simp [joins] at hjoins
  | number text =>
    cases next with
    | mark next => exact fractionLength_of_not_startsNumber (startsNumber_mark_append hnext hend)
    | _ => simp [joins] at hjoins
  | mark text =>
    cases next with
    | finish => simp [joins] at hjoins
    | mark next =>
      obtain ⟨c, cs, hcs⟩ := exists_cons_of_mem_marks hnext
      simpa [EndsBefore, joins, hcs] using hjoins
    | word next =>
      have hname : isName next.toList = true := hnext
      cases hcs : next.toList with
      | nil => simp [hcs, isName] at hname
      | cons c cs =>
        simp only [hcs, isName, Bool.and_eq_true] at hname
        have hdigit : c.isDigit = false :=
          Bool.eq_false_iff.mpr fun h => by simp [isWordStart_of_isDigit h] at hname
        simpa [EndsBefore, hcs] using prolongsMark_eq_false_of_isWordChar
          (isWordChar_of_isWordStart hname.1) fun _ => hdigit
    | number next =>
      obtain ⟨c, cs, hcs⟩ := List.exists_cons_of_ne_nil hnext.1
      have hdigit := hnext.2 c (hcs ▸ mem_cons_self ..)
      simp only [joins, Bool.and_eq_true, bne_iff_ne] at hjoins
      simpa [EndsBefore, hcs] using prolongsMark_eq_false_of_isWordChar
        (isWordChar_of_isDigit hdigit) fun h => absurd h (by simp [hjoins])
    | quoted next =>
      have hquoted : IsQuoted next.toList := hnext
      cases hcs : next.toList with
      | nil => simp [hcs, IsQuoted] at hquoted
      | cons c cs =>
        rw [hcs] at hquoted
        have hprolongs : prolongsMark text c = false := by
          refine prolongsMark_eq_false (fun longer hlonger hmem => ?_) fun _ => ?_
          · obtain ⟨-, hdouble, hsingle, -⟩ := char_of_mem_marks hlonger hmem
            exact hquoted.1.elim hdouble hsingle
          · rcases hquoted.1 with rfl | rfl <;> rfl
        simpa [EndsBefore, hcs] using hprolongs

lemma Lexeme.IsWritten.exists_cons (h : l.IsWritten) :
    ∃ c cs, l.chars = c :: cs ∧ Text.isBlank c = false := by
  have hword {c : Char} (hc : isWordChar c = true) : Text.isBlank c = false :=
    Bool.eq_false_iff.mpr fun hblank => by simp [isWordChar_eq_false_of_isBlank hblank] at hc
  cases l with
  | finish => exact h.elim
  | word text =>
    have hname : isName text.toList = true := h
    cases hcs : text.toList with
    | nil => simp [hcs, isName] at hname
    | cons c cs =>
      simp only [hcs, isName, Bool.and_eq_true] at hname
      exact ⟨c, cs, hcs, hword (isWordChar_of_isWordStart hname.1)⟩
  | number text =>
    obtain ⟨c, cs, hcs⟩ := List.exists_cons_of_ne_nil h.1
    exact ⟨c, cs, hcs, hword (isWordChar_of_isDigit (h.2 c (hcs ▸ mem_cons_self ..)))⟩
  | quoted text =>
    have hquoted : IsQuoted text.toList := h
    cases hcs : text.toList with
    | nil => simp [hcs, IsQuoted] at hquoted
    | cons c cs =>
      rw [hcs] at hquoted
      exact ⟨c, cs, hcs, by rcases hquoted.1 with rfl | rfl <;> decide⟩
  | mark text =>
    obtain ⟨c, cs, hcs⟩ := exists_cons_of_mem_marks h
    exact ⟨c, cs, hcs, (char_of_mem_marks h (hcs ▸ mem_cons_self ..)).2.2.2⟩

lemma getLast?_of_quotedLength? (h : quotedLength? quote cs = some cs.length) :
    cs.getLast? = some quote := by
  fun_induction quotedLength? quote cs with
  | case1 => simp at h
  | case2 => simp at h
  | case3 c cs ih =>
    have hlast := ih (by simpa using h)
    cases cs with
    | nil => simp at hlast
    | cons d ds => simpa using hlast
  | case4 cs _ _ =>
    cases cs with
    | nil => rfl
    | cons d ds => simp at h
  | case5 c cs _ _ _ ih =>
    have hlast := ih (by simpa using h)
    cases cs with
    | nil => simp at hlast
    | cons d ds => simpa using hlast

lemma Lexeme.IsWritten.getLast?_ne (h : l.IsWritten) : l.chars.getLast? ≠ some '\n' := by
  intro hlast
  have hmem : '\n' ∈ l.chars := List.mem_of_getLast? hlast
  cases l with
  | finish => exact h.elim
  | word text =>
    have hname : isName text.toList = true := h
    rw [chars_word] at hmem
    cases hcs : text.toList with
    | nil => simp [hcs] at hmem
    | cons c cs =>
      simp only [hcs, isName, Bool.and_eq_true, all_eq_true] at hname
      rcases List.mem_cons.mp (hcs ▸ hmem) with rfl | hmem
      · exact absurd hname.1 (by decide)
      · exact absurd (hname.2 _ hmem) (by decide)
  | number text => exact absurd (h.2 _ hmem) (by decide)
  | quoted text =>
    have hquoted : IsQuoted text.toList := h
    rw [chars_quoted] at hlast
    cases hcs : text.toList with
    | nil => simp [hcs, IsQuoted] at hquoted
    | cons c cs =>
      rw [hcs] at hquoted hlast
      have hend := getLast?_of_quotedLength? hquoted.2
      cases cs with
      | nil => simp at hend
      | cons d ds =>
        rw [List.getLast?_cons_cons, hend, Option.some.injEq] at hlast
        rcases hquoted.1 with rfl | rfl <;> simp at hlast
  | mark text => exact absurd (char_of_mem_marks h hmem).2.2.2 (by decide)

end ComponentTemplate
