import ComponentTemplate.Proofs.Blanks
import ComponentTemplate.Proofs.Levels
import ComponentTemplate.Proofs.Regions

/-!
# Texts inside of other texts

A phrase that is read from a text of its own is read from every longer text that it stands in, as
long as what follows prolongs none of its tokens and continues no phrase that ends with the text.
Every step of the one reading is then a step of the other one, and the places differ by the length
of what stands before.
-/

namespace ComponentTemplate

open Text Token

def Span.shift (k : Nat) (span : Span) : Span := ⟨span.start + k, span.stop + k⟩

lemma Span.shift_merge (k : Nat) (a b : Span) :
    (a.merge b).shift k = (a.shift k).merge (b.shift k) := by
  simp [shift, merge, Nat.add_min_add_right, Nat.add_max_add_right]

lemma Expr.span_mapSpans (f : Span → Span) (e : Expr) : (e.mapSpans f).span = f e.span := by
  cases e <;> rfl

lemma Expr.isAssignable_mapSpans (f : Span → Span) (e : Expr) :
    (e.mapSpans f).isAssignable = e.isAssignable := by
  cases e <;> rfl

lemma Expr.bareKey?_mapSpans (f : Span → Span) (key : Expr) :
    (key.mapSpans f).bareKey? = key.bareKey? := by
  cases key <;> rfl

mutual

theorem Expr.normal_mapSpans (f : Span → Span) : ∀ e : Expr, (e.mapSpans f).normal = e.normal
  | .identifier .. | .string .. | .number .. | .boolean .. | .null _ => rfl
  | .unary _ _ argument | .update _ _ _ argument => by
    simp [Expr.mapSpans, argument.normal_mapSpans f]
  | .binary _ _ left right | .assignment _ _ left right | .member _ left right _ _ => by
    simp [Expr.mapSpans, left.normal_mapSpans f, right.normal_mapSpans f]
  | .conditional _ test consequent alternate => by
    simp [Expr.mapSpans, test.normal_mapSpans f, consequent.normal_mapSpans f,
      alternate.normal_mapSpans f]
  | .call _ head arguments _ | .filter _ head _ arguments => by
    simp [Expr.mapSpans, head.normal_mapSpans f, Expr.normals_mapSpans f arguments]
  | .arrow _ params body => by
    simp [Expr.mapSpans, body.normal_mapSpans f, Expr.normals_mapSpans f params]
  | .array _ elements => by simp [Expr.mapSpans, Expr.normals_mapSpans f elements]
  | .object _ properties => by simp [Expr.mapSpans, Property.normals_mapSpans f properties]

theorem Expr.normals_mapSpans (f : Span → Span) :
    ∀ es : List Expr, Expr.normals (Expr.mapSpansList f es) = Expr.normals es
  | [] => rfl
  | e :: es => by simp [Expr.mapSpansList, e.normal_mapSpans f, Expr.normals_mapSpans f es]

theorem Property.normals_mapSpans (f : Span → Span) :
    ∀ ps : List Property, Property.normals (Property.mapSpansList f ps) = Property.normals ps
  | [] => rfl
  | .mk key value :: ps => by
    simp [Property.mapSpansList, key.normal_mapSpans f, value.normal_mapSpans f,
      Property.normals_mapSpans f ps, Expr.bareKey?_mapSpans]

end

/-! ## Tokens before the end of a text -/

/-- **No token reaches over the end of a text** into what follows it: the second text starts with
no character of a word and with no number, and its first character makes no mark with the last one
of the first text. -/
structure TokensApart (cs tail : List Char) : Prop where
  word : ∀ c ∈ tail.head?, isWordChar c = false
  number : startsNumber tail = false
  mark : ∀ d ∈ cs.getLast?, ∀ c ∈ tail.head?, ∀ mark ∈ marks, ¬ [d, c] <:+: mark.toList

lemma TokensApart.nil (cs : List Char) : TokensApart cs [] := ⟨by simp, rfl, by simp⟩

variable {cs tail : List Char} {c : Char} {cur after : Cursor} {t : Token} {k n : Nat} {e : Expr}
  {st : Stream}

lemma TokensApart.of_suffix (h : TokensApart cs tail) (hs : cs' <:+ cs) : TokensApart cs' tail := by
  refine ⟨h.word, h.number, fun d hd => h.mark d ?_⟩
  obtain ⟨before, rfl⟩ := hs
  rw [Option.mem_def] at hd
  simp [List.getLast?_append, hd]

lemma mem_of_infix_pair (h : [d, c] <:+: cs) : d ∈ cs.dropLast ∧ c ∈ cs.tail := by
  obtain ⟨front, back, rfl⟩ := h
  constructor
  · rw [List.append_assoc, List.dropLast_append_of_ne_nil (by simp)]
    simp
  · cases front <;> simp

lemma TokensApart.of_head (cs : List Char) (hword : isWordChar c = false)
    (hnumber : startsNumber (c :: tail) = false) (hmark : ∀ mark ∈ marks, c ∉ mark.toList.tail) :
    TokensApart cs (c :: tail) := by
  refine ⟨by simpa using hword, hnumber, ?_⟩
  rintro d - c ⟨⟩ mark hmem hpair
  exact hmark mark hmem (mem_of_infix_pair hpair).2

lemma TokensApart.of_blank (cs : List Char) (hc : isBlank c = true) :
    TokensApart cs (c :: tail) := by
  have hword := isWordChar_eq_false_of_isBlank hc
  have hpoint : c ≠ '.' := by
    rintro rfl
    exact absurd hc (by decide)
  refine .of_head cs hword ?_ fun mark hmark hmem => ?_
  · simp [startsNumber, isDigit_eq_false_of_isWordChar hword, hpoint]
  · have hblank := (char_of_mem_marks hmark (List.mem_of_mem_tail hmem)).2.2.2
    rw [hc] at hblank
    cases hblank

section Lengths

variable (cs : List Char)

lemma digitRun_le_length : digitRun cs ≤ cs.length := (List.takeWhile_prefix _).length_le

lemma fractionLength_le_length : fractionLength cs ≤ cs.length := by
  cases cs with
  | nil => exact Nat.le_refl _
  | cons c cs =>
    have hle := digitRun_le_length cs
    unfold fractionLength
    split
    · split
      · rename_i heq _
        cases heq
        simp only [List.length_cons]
        omega
      · exact Nat.zero_le _
    · exact Nat.zero_le _

lemma numberLength_le_length : numberLength cs ≤ cs.length := by
  have hfraction := fractionLength_le_length (cs.drop (digitRun cs))
  have hdigits := digitRun_le_length cs
  rw [List.length_drop] at hfraction
  rw [numberLength]
  omega

end Lengths

namespace TokensApart

variable {cs tail : List Char}

lemma takeWhile_append (hp : ∀ c ∈ tail.head?, p c = false) :
    (cs ++ tail).takeWhile p = cs.takeWhile p := by
  induction cs with
  | nil =>
    cases tail with
    | nil => rfl
    | cons c tail => simp [hp c rfl]
  | cons c cs ih => simp [List.takeWhile_cons, ih]

lemma isDigit_head (h : TokensApart cs tail) : ∀ c ∈ tail.head?, c.isDigit = false :=
  fun c hc => isDigit_eq_false_of_isWordChar (h.word c hc)

lemma startsWithDigit_append (h : TokensApart cs tail) :
    startsWithDigit (cs ++ tail) = startsWithDigit cs := by
  cases cs with
  | cons c cs => rfl
  | nil =>
    cases tail with
    | nil => rfl
    | cons c tail => exact h.isDigit_head c rfl

lemma startsNumber_append (h : TokensApart cs tail) :
    startsNumber (cs ++ tail) = startsNumber cs := by
  cases cs with
  | nil => exact h.number
  | cons c cs =>
    have hrest := h.of_suffix (List.suffix_cons c cs)
    simp [startsNumber, hrest.startsWithDigit_append]

lemma digitRun_append (h : TokensApart cs tail) : digitRun (cs ++ tail) = digitRun cs := by
  rw [digitRun, takeWhile_append h.isDigit_head, digitRun]

lemma fractionLength_of_startsNumber (h : startsNumber tail = false) : fractionLength tail = 0 := by
  unfold fractionLength
  split
  · rename_i cs
    have hdigit : startsWithDigit cs = false := by simpa [startsNumber] using h
    simp [hdigit]
  · rfl

lemma fractionLength_append (h : TokensApart cs tail) :
    fractionLength (cs ++ tail) = fractionLength cs := by
  cases cs with
  | nil => exact fractionLength_of_startsNumber h.number
  | cons c cs =>
    have hrest := h.of_suffix (List.suffix_cons c cs)
    by_cases hc : c = '.'
    · simp [hc, fractionLength, hrest.startsWithDigit_append, hrest.digitRun_append]
    · simp [fractionLength, hc]

lemma numberLength_append (h : TokensApart cs tail) :
    numberLength (cs ++ tail) = numberLength cs := by
  have hrest : TokensApart (cs.drop (digitRun cs)) tail := h.of_suffix (List.drop_suffix _ _)
  rw [numberLength, h.digitRun_append, List.drop_append_of_le_length (digitRun_le_length cs),
    hrest.fractionLength_append, numberLength]

lemma isPrefixOf_append (h : TokensApart cs tail) (hne : cs ≠ []) {mark : String}
    (hmark : mark ∈ marks) :
    mark.toList.isPrefixOf (cs ++ tail) = mark.toList.isPrefixOf cs := by
  rw [Bool.eq_iff_iff, List.isPrefixOf_iff_prefix, List.isPrefixOf_iff_prefix]
  refine ⟨fun hbegins => ?_, fun hbegins => hbegins.trans (List.prefix_append ..)⟩
  rcases List.prefix_or_prefix_of_prefix hbegins (List.prefix_append cs tail) with hle | ⟨t, ht⟩
  · exact hle
  · cases t with
    | nil => simp [← ht]
    | cons c t =>
      -- the mark would have the last character of the text and the first one after it
      rw [← ht] at hbegins
      obtain ⟨u, hu⟩ := (List.prefix_append_right_inj _).mp hbegins
      have hhead : c ∈ tail.head? := by simp [← hu]
      obtain ⟨front, d, rfl⟩ : ∃ front d, cs = front ++ [d] :=
        ⟨_, _, (List.dropLast_append_getLast hne).symm⟩
      refine (h.mark d (by simp) c hhead mark hmark ⟨front, t, ?_⟩).elim
      simp [← ht]

lemma markAt?_append (h : TokensApart cs tail) (hne : cs ≠ []) :
    markAt? (cs ++ tail) = markAt? cs := by
  refine List.find?_congr fun mark hmark => ?_
  rw [h.isPrefixOf_append hne hmark]
  -- only the mark of an optional access looks at what follows it
  by_cases hoptional : mark = "?."
  · by_cases hbegins : mark.toList.isPrefixOf cs = true
    · have hlength := (List.isPrefixOf_iff_prefix.mp hbegins).length_le
      replace hlength : 2 ≤ cs.length := by simpa [hoptional] using hlength
      have hrest : TokensApart (cs.drop 2) tail := h.of_suffix (List.drop_suffix _ _)
      rw [List.drop_append_of_le_length hlength, hrest.startsWithDigit_append]
    · simp [hbegins]
  · rw [beq_false_of_ne hoptional]
    rfl

end TokensApart

/-! ## Places and tokens in surroundings -/

/-- **What stands around a text**: a number of bytes before it, and a text after it, which is set
apart from it, with its first token. This token assigns nothing. -/
structure Surroundings (source : List Char) where
  before : Nat
  tail : List Char
  first : Token
  after : Cursor
  apart : TokensApart source tail
  read : read ⟨before + byteLength source, tail⟩ = .ok (first, after)
  assignment : AssignmentOp.ofLexeme? first.lexeme = none

variable {source : List Char} {s : Surroundings source}

def Surroundings.ofAt {o : Nat} {tail : List Char} {st : Stream}
    (hat : st.At ⟨o + byteLength source, tail⟩) (hapart : TokensApart source tail)
    (hassign : AssignmentOp.ofLexeme? st.current.lexeme = none) : Surroundings source :=
  ⟨o, tail, st.current, st.after, hapart, hat.read, hassign⟩

/-- **A place of a text in its surroundings.** -/
def Cursor.amid (s : Surroundings source) (cur : Cursor) : Cursor :=
  ⟨cur.offset + s.before, cur.rest ++ s.tail⟩

/-- **A stream of a text in its surroundings.** At the end of the text stands the first token after
it. -/
def Stream.amid (s : Surroundings source) (st : Stream) : Stream :=
  if st.current.lexeme = .finish then ⟨s.first, s.after, st.lastStop + s.before⟩
  else ⟨⟨st.current.lexeme, st.current.span.shift s.before⟩, st.after.amid s,
    st.lastStop + s.before⟩

lemma Cursor.IsIn.rest_suffix (h : cur.IsIn source) : cur.rest <:+ source := by
  obtain ⟨part, hrest, -⟩ := h
  exact ⟨part, hrest.symm⟩

lemma Cursor.skip_amid (hn : n ≤ cur.rest.length) : (cur.amid s).skip n = (cur.skip n).amid s := by
  simp [skip, amid, List.take_append_of_le_length hn, List.drop_append_of_le_length hn,
    Nat.add_right_comm]

lemma Token.take_amid (hn : n ≤ cur.rest.length) (h : take kind cur n = (t, after)) :
    take kind (cur.amid s) n = (⟨t.lexeme, t.span.shift s.before⟩, after.amid s) := by
  obtain ⟨rfl, rfl⟩ := Prod.mk.inj h
  have hrest : (cur.amid s).rest.take n = cur.rest.take n := List.take_append_of_le_length hn
  simp only [take, hrest, Cursor.skip_amid hn]
  rfl

lemma Token.readAt_amid (s : Surroundings source) (hapart : TokensApart cur.rest s.tail)
    (h : readAt cur = .ok (t, after)) (hne : cur.rest ≠ []) :
    readAt (cur.amid s) = .ok (⟨t.lexeme, t.span.shift s.before⟩, after.amid s) := by
  obtain ⟨c, cs, hrest⟩ := List.exists_cons_of_ne_nil hne
  have hinside : (cur.amid s).rest = c :: (cs ++ s.tail) := by simp [Cursor.amid, hrest]
  rw [hrest] at hapart
  unfold readAt at h ⊢
  rw [hrest] at h
  rw [hinside]
  dsimp only at h ⊢
  rw [← List.cons_append, TokensApart.takeWhile_append hapart.word, hapart.startsNumber_append,
    hapart.numberLength_append, hapart.markAt?_append (List.cons_ne_nil _ _)]
  split at h
  · rename_i hword
    rw [if_pos hword, take_amid _ (Except.ok.inj h)]
    rw [hrest]
    exact (List.takeWhile_prefix _).length_le
  · rename_i hword
    rw [if_neg hword]
    split at h
    · rename_i hnumber
      rw [if_pos hnumber, take_amid _ (Except.ok.inj h)]
      rw [hrest]
      exact numberLength_le_length _
    · rename_i hnumber
      rw [if_neg hnumber]
      split at h
      · rename_i hquote
        rw [if_pos hquote]
        split at h
        · rename_i n hlength
          rw [quotedLength?_append hlength]
          dsimp only
          rw [take_amid _ (Except.ok.inj h)]
          have hle := (quotedLength?_take hlength).1
          rw [hrest, List.length_cons]
          omega
        · cases h
      · rename_i hquote
        rw [if_neg hquote]
        split at h
        · rename_i mark hmark
          rw [take_amid _ (Except.ok.inj h)]
          have htake := congrArg List.length (take_length_markAt? hmark)
          rw [List.length_take] at htake
          rw [hrest]
          omega
        · cases h

lemma Token.ne_finish_of_readAt (h : readAt cur = .ok (t, after)) (hne : cur.rest ≠ []) :
    t.lexeme ≠ .finish := by
  unfold readAt at h
  split at h
  · exact absurd ‹_› hne
  · repeat' split at h
    all_goals cases h
    all_goals exact Lexeme.noConfusion

lemma Token.read_blanks (hblanks : Blank blanks) (offset : Nat) (cs : List Char) :
    read ⟨offset, blanks ++ cs⟩ = read ⟨offset + byteLength blanks, cs⟩ := by
  obtain ⟨more, rest, rfl, hmore, hrest⟩ : ∃ more rest, cs = more ++ rest ∧
      Blank more ∧ ∀ c ∈ rest.head?, isBlank c = false :=
    ⟨_, _, (blankStart_append_trimStart cs).symm, blank_blankStart cs,
      head_trimStart cs⟩
  rw [read, read, ← List.append_assoc, skipBlanks_append (hblanks.append hmore) hrest,
    skipBlanks_append hmore hrest, byteLength_append, Nat.add_assoc]

/-- **A token is read in the surroundings as in the text**, and the first token after the text at
its end. -/
theorem Token.read_amid (s : Surroundings source) (hcur : cur.IsIn source)
    (h : read cur = .ok (st.current, st.after)) :
    read (cur.amid s) = .ok ((st.amid s).current, (st.amid s).after) := by
  obtain ⟨offset, rest⟩ := cur
  obtain ⟨blanks, cs, rfl, hblanks, hcs⟩ : ∃ blanks cs, rest = blanks ++ cs ∧
      Blank blanks ∧ ∀ c ∈ cs.head?, isBlank c = false :=
    ⟨_, _, (blankStart_append_trimStart rest).symm, blank_blankStart rest,
      head_trimStart rest⟩
  rw [read, skipBlanks_append hblanks hcs] at h
  rw [Cursor.amid, List.append_assoc]
  cases cs with
  | nil =>
    -- the blanks go on up to the first token after the text
    obtain ⟨hcurrent, -⟩ := Prod.mk.inj (Except.ok.inj h)
    have hfinish : st.current.lexeme = .finish := by rw [← hcurrent]
    obtain ⟨part, hpart, hoffset⟩ := hcur
    have hlength : byteLength source = offset + byteLength blanks := by
      have hsource : source = part ++ blanks := by simpa [Cursor.ofSource] using hpart
      have hoffset : offset = byteLength part := by simpa [Cursor.ofSource] using hoffset
      rw [hsource, hoffset, byteLength_append]
    rw [Stream.amid, if_pos hfinish, List.nil_append, read_blanks hblanks, ← s.read, hlength,
      Nat.add_right_comm, Nat.add_comm]
  | cons c cs =>
    have hne := ne_finish_of_readAt h (by simp)
    have hspaced : ∀ d ∈ (c :: cs ++ s.tail).head?, isBlank d = false := by simpa using hcs
    have hapart := s.apart.of_suffix ((List.suffix_append blanks _).trans hcur.rest_suffix)
    have hread := readAt_amid s hapart h (by simp)
    rw [read, skipBlanks_append hblanks hspaced, Stream.amid, if_neg hne, ← hread]
    simp [Cursor.amid, Nat.add_right_comm]

namespace Stream

variable {st st₁ : Stream}

@[simp]
lemma lastStop_amid : (st.amid s).lastStop = st.lastStop + s.before := by
  unfold amid
  split <;> rfl

lemma amid_of_ne (h : st.current.lexeme ≠ .finish) :
    st.amid s = ⟨⟨st.current.lexeme, st.current.span.shift s.before⟩, st.after.amid s,
      st.lastStop + s.before⟩ :=
  if_neg h

lemma amid_of_finish (h : st.current.lexeme = .finish) :
    st.amid s = ⟨s.first, s.after, st.lastStop + s.before⟩ :=
  if_pos h

lemma lexeme_amid_of_ne (h : st.current.lexeme ≠ .finish) :
    (st.amid s).current.lexeme = st.current.lexeme := by
  rw [amid_of_ne h]

lemma Next.amid (h : st.Next st₁) (s : Surroundings source) (hst : st.IsIn source) :
    (st.amid s).Next (st₁.amid s) := by
  have hread := read_amid s hst.after h.read
  rw [amid_of_ne h.ne_finish]
  exact ⟨h.ne_finish, hread, by rw [lastStop_amid, h.lastStop]; rfl⟩

variable {l : Lexeme} {lastStop : Nat}

lemma Passes.ne_finish (h : st.Passes l st₁) : st.current.lexeme ≠ .finish := h.next.ne_finish

lemma Passes.amid (h : st.Passes l st₁) (s : Surroundings source) (hst : st.IsIn source) :
    (st.amid s).Passes l (st₁.amid s) :=
  ⟨by rw [lexeme_amid_of_ne h.ne_finish, h.lexeme_eq], h.next.amid s hst⟩

lemma lexeme_amid {P : Lexeme → Prop} (h : P st.current.lexeme) (hfirst : P s.first.lexeme) :
    P (st.amid s).current.lexeme := by
  unfold amid
  split
  · exact hfirst
  · exact h

lemma Operator.amid (h : st.Operator op st₁) (s : Surroundings source) (hst : st.IsIn source)
    (hne : st₁.current.lexeme ≠ .finish) : (st.amid s).Operator op (st₁.amid s) := by
  cases h with
  | single hop hnext hnot =>
    refine .single ?_ (hnext.amid s hst) fun his => ?_
    · rwa [lexeme_amid_of_ne hnext.ne_finish]
    · rw [lexeme_amid_of_ne hne]
      exact hnot his
  | notIn hnot hin => exact .notIn (hnot.amid s hst) (hin.amid s (hnot.next.isIn hst))
  | isNot his hnot => exact .isNot (his.amid s hst) (hnot.amid s (his.next.isIn hst))

lemma Next.of_lastStop (h : st.Next st₁) : (⟨st.current, st.after, lastStop⟩ : Stream).Next st₁ :=
  ⟨h.ne_finish, h.read, h.lastStop⟩

lemma Passes.of_lastStop (h : st.Passes l st₁) :
    (⟨st.current, st.after, lastStop⟩ : Stream).Passes l st₁ :=
  ⟨h.lexeme_eq, h.next.of_lastStop⟩

lemma At.amid (hat : st.At (.ofSource source)) (s : Surroundings source) :
    (st.amid s).At ⟨s.before, source ++ s.tail⟩ := by
  have hread := read_amid s (Cursor.isIn_ofSource source) hat.read
  have hplace : (Cursor.ofSource source).amid s = ⟨s.before, source ++ s.tail⟩ := by
    simp [Cursor.amid, Cursor.ofSource]
  rw [hplace] at hread
  refine ⟨hread, ?_⟩
  rw [lastStop_amid, hat.lastStop]
  exact Nat.zero_add _

end Stream

/-! ## Phrases in surroundings -/

lemma Token.literal?_shift (h : t.literal? = some e) :
    (⟨t.lexeme, t.span.shift k⟩ : Token).literal? = some (e.mapSpans (.shift k)) := by
  unfold literal? at h ⊢
  split at h <;> cases h <;> simp_all [Expr.mapSpans]

lemma Token.atom?_shift (h : t.atom? = some e) :
    (⟨t.lexeme, t.span.shift k⟩ : Token).atom? = some (e.mapSpans (.shift k)) := by
  unfold atom? at h ⊢
  dsimp only
  split at h
  · cases h; rfl
  · cases h; rfl
  · cases h; rfl
  · split at h
    · cases h
    · rename_i hfree
      cases h
      exact if_neg hfree
  · exact literal?_shift h

lemma Token.key?_shift (h : t.key? = some e) :
    (⟨t.lexeme, t.span.shift k⟩ : Token).key? = some (e.mapSpans (.shift k)) := by
  unfold key? at h ⊢
  dsimp only
  split at h
  · cases h; rfl
  · exact literal?_shift h

lemma AssignmentOp.endsOperand_of_ofLexeme? (h : AssignmentOp.ofLexeme? l = some op) :
    l.endsOperand = true ∧ l ≠ .mark "?" := by
  unfold AssignmentOp.ofLexeme? at h
  split at h
  all_goals first | cases h; done | exact ⟨by decide, by decide⟩

namespace Grammar

def Phrase.shift (k : Nat) : Phrase → Phrase
  | .expression e => .expression (e.mapSpans (.shift k))
  | .choice e => .choice (e.mapSpans (.shift k))
  | .binary tier e => .binary tier (e.mapSpans (.shift k))
  | .binaryRest tier left e => .binaryRest tier (left.mapSpans (.shift k)) (e.mapSpans (.shift k))
  | .unary e => .unary (e.mapSpans (.shift k))
  | .suffixed e => .suffixed (e.mapSpans (.shift k))
  | .suffixes start head e =>
    .suffixes (start + k) (head.mapSpans (.shift k)) (e.mapSpans (.shift k))
  | .optionalSuffix start head e =>
    .optionalSuffix (start + k) (head.mapSpans (.shift k)) (e.mapSpans (.shift k))
  | .primary e => .primary (e.mapSpans (.shift k))
  | .elements close es => .elements close (Expr.mapSpansList (.shift k) es)
  | .properties ps => .properties (Property.mapSpansList (.shift k) ps)
  | .params ps => .params (Expr.mapSpansList (.shift k) ps)

/-- **A phrase is not continued at a stream.** What closes itself is continued nowhere. -/
def Phrase.EndsAt (st : Stream) : Phrase → Prop
  | .expression _ | .choice _ => st.Stops 0 ∧ st.current.lexeme ≠ .mark "?"
  | .binary tier _ | .binaryRest tier _ _ => st.Stops tier
  | .unary _ | .suffixed _ | .suffixes .. => st.current.lexeme.startsSuffix = false
  | .elements close _ => (Lexeme.mark close).endsExpr = true
  | .properties _ => st.current.lexeme = .mark "\x7d"
  | .params _ => st.current.lexeme = .mark ")"
  | .primary _ | .optionalSuffix .. => True

variable {st st₁ st' : Stream} {phrase : Phrase} {e left : Expr} {tier : Nat} {l : Lexeme}

lemma ne_finish_of_opens (h : l.Opens bare) : l ≠ .finish := by
  rintro rfl
  exact h

lemma endsAt_of_endsExpr (h : st.current.lexeme.endsExpr = true) :
    (Phrase.expression e).EndsAt st :=
  ⟨(Stream.Ends.of_endsExpr h).stops, (Stream.Ends.of_endsExpr h).ne_question⟩

lemma atArrow_of_name (hname : st.Passes (.word name) st₁)
    (hmark : st₁.current.lexeme = .mark "=>") : st.atArrow = .ok true := by
  unfold Stream.atArrow
  rw [hname.lexeme_eq, arrowMarkAt_of_next hname.next]
  simp [hmark]

lemma Derives.tier_lt (h : Derives phrase st st')
    (hphrase : (∃ e, phrase = .binary tier e) ∨ ∃ left e, phrase = .binaryRest tier left e)
    (hop : st'.Operator op st₁) : op.tier < tier := by
  obtain ⟨found, hfound, -, htier⟩ := Stream.passOperator_of_operator hop
  -- only the derivations of operands of operators and of their rows are left
  induction h with grind only

lemma startsSuffix_amid_of_binaryRest (h : Derives (.binaryRest tier left e) st st')
    (hst : st.IsIn source) (hends : (st'.amid s).current.lexeme.startsSuffix = false) :
    (st.amid s).current.lexeme.startsSuffix = false := by
  cases h with
  | binaryEnd _ => exact hends
  | binaryWeaker _ _ => exact hends
  | binaryStep hop _ hright _ =>
    have hop' := hop.amid s hst (ne_finish_of_opens (opens_of_derives hright))
    exact (hop'.stops (Nat.lt_succ_self _)).startsSuffix

lemma stops_amid_of_binaryRest (hright : Derives (.binary tier' right) st₁ st)
    (hrest : Derives (.binaryRest tier left e) st st') (hst : st.IsIn source) (hle : tier ≤ tier')
    (hends : (st'.amid s).Stops tier) : (st.amid s).Stops tier' := by
  cases hrest with
  | binaryEnd _ | binaryWeaker _ _ => exact hends.mono hle
  | binaryStep hop _ hnext _ =>
    have hne := ne_finish_of_opens (opens_of_derives hnext)
    exact (hop.amid s hst hne).stops (hright.tier_lt (.inl ⟨_, rfl⟩) hop)

lemma ne_amid_of_suffixes (hl : l.startsSuffix = true)
    (h : Derives (.suffixes start head e) st st') (hne : st.current.lexeme ≠ l)
    (hends : (st'.amid s).current.lexeme.startsSuffix = false) :
    (st.amid s).current.lexeme ≠ l := by
  by_cases hfinish : st.current.lexeme = .finish
  · obtain rfl : st = st' := by
      cases h with grind only [Stream.Next.ne_finish, Stream.Passes.ne_finish]
    intro hl'
    rw [hl', hl] at hends
    cases hends
  · rwa [Stream.lexeme_amid_of_ne hfinish]

/-- **A phrase of a text is a phrase in its surroundings**, if what follows the text does not
continue it. -/
theorem Derives.amid (s : Surroundings source) (h : Derives phrase st st') (hst : st.IsIn source)
    (hends : phrase.EndsAt (st'.amid s)) :
    Derives (phrase.shift s.before) (st.amid s) (st'.amid s) := by
  have hclosing : ∀ mark ∈ [")", "]", "\x7d", ":", ","], (Lexeme.mark mark).endsExpr = true := by
    decide
  have hquestion : (Lexeme.mark "?").endsOperand = true := by decide
  have hcloses {st : Stream} (h : st.current.lexeme.endsExpr = true) :
      st.Stops 0 ∧ st.current.lexeme ≠ .mark "?" :=
    endsAt_of_endsExpr (e := default) h
  have hnext {st st₁ : Stream} (h : st.Next st₁) (hst : st.IsIn source) :
      (st.amid s).Next (st₁.amid s) ∧ st₁.IsIn source ∧
        (st.amid s).current = ⟨st.current.lexeme, st.current.span.shift s.before⟩ :=
    ⟨h.amid s hst, h.isIn hst, by rw [Stream.amid_of_ne h.ne_finish]⟩
  have hpasses {st st₁ : Stream} {l : Lexeme} (h : st.Passes l st₁) (hst : st.IsIn source) :
      (st.amid s).Passes l (st₁.amid s) ∧ st₁.IsIn source ∧ (st.amid s).current.lexeme = l ∧
        (st.amid s).current.span = st.current.span.shift s.before :=
    ⟨h.amid s hst, h.next.isIn hst, (h.amid s hst).lexeme_eq,
      by rw [Stream.amid_of_ne h.ne_finish]⟩
  have hsteps {phrase : Phrase} {st st' : Stream} (h : Derives phrase st st')
      (hst : st.IsIn source) : st'.IsIn source :=
    (h.isIn_all hst).1
  have hopens {e : Expr} {st st' : Stream}
      (h : Derives (.expression e) st st' ∨ Derives (.primary e) st st') :
      (st.amid s).current = ⟨st.current.lexeme, st.current.span.shift s.before⟩ := by
    have hne : st.current.lexeme ≠ .finish := by
      obtain h | h := h <;> exact ne_finish_of_opens (opens_of_derives h)
    rw [Stream.amid_of_ne hne]
  -- by induction on the derivation: each part ends in the surroundings before what the grammar
  -- has after it, or where the whole phrase does
  induction h with
  | plain _ _ hop ih =>
    have hchoice := ih hst hends
    refine .plain (atArrow_of_choice hchoice hends.1.ne_arrow) hchoice ?_
    exact Stream.lexeme_amid (P := fun l => AssignmentOp.ofLexeme? l = none) hop s.assignment
  | binary hleft hrest ihleft ihrest =>
    have hst₁ := hsteps hleft hst
    have hsuffix := startsSuffix_amid_of_binaryRest hrest hst₁ hends.startsSuffix
    exact .binary (ihleft hst hsuffix) (ihrest hst₁ hends)
  | binaryEnd _ | binaryWeaker _ _ => exact hends.binaryRest _
  | binaryStep hop htier hright hrest ihright ihrest =>
    have hst₁ := hop.steps.isIn hst
    have hst₂ := hsteps hright hst₁
    have hstops := stops_amid_of_binaryRest hright hrest hst₂ (htier.trans (Nat.le_succ _)) hends
    refine .binaryStep (hop.amid s hst (ne_finish_of_opens (opens_of_derives hright))) htier
      (ihright hst₁ hstops) ?_
    rw [Expr.span_mapSpans, Expr.span_mapSpans, ← Span.shift_merge]
    exact ihrest hst₂ hends
  | filter hmark hname hopen hrest ih =>
    have hst₁ := hmark.next.isIn hst
    refine .filter (hmark.amid s hst) (hname.amid s hst₁)
      (ne_amid_of_suffixes (by decide) hrest hopen hends) ?_
    rw [Stream.lastStop_amid]
    exact ih (hname.next.isIn hst₁) hends
  | _ =>
    simp only [Phrase.shift, Phrase.EndsAt, Expr.mapSpans, Expr.mapSpansList,
      Property.mapSpansList, List.mem_cons, forall_eq_or_imp] at *
    grind -ring -linarith -lia only [intro Derives, Stream.lastStop_amid, Span.shift,
      Span.shift_merge, Expr.span_mapSpans, Expr.isAssignable_mapSpans, atom?_shift,
      key?_shift, atArrow_of_name, atArrow_of_choice, atArrow_of_params,
      Level.operand_of_suffixed, Stream.Stops.ne_arrow, Stream.Stops.of_endsOperand,
      Stream.Passes.lexeme_eq, AssignmentOp.endsOperand_of_ofLexeme?]

def Phrase.startsItself : Phrase → Bool
  | .expression _ | .choice _ | .binary _ _ | .unary _ | .suffixed _ | .primary _
  | .elements _ _ => true
  | _ => false

lemma Derives.of_lastStop (h : Derives phrase st st') (hstarts : phrase.startsItself = true)
    (lastStop : Nat) : Derives phrase ⟨st.current, st.after, lastStop⟩ st' := by
  generalize hst₀ : (⟨st.current, st.after, lastStop⟩ : Stream) = st₀
  have hcurrent : st₀.current = st.current ∧ st₀.atArrow = st.atArrow := by
    rw [← hst₀]
    exact ⟨rfl, rfl⟩
  have hnext {st₁ : Stream} (h : st.Next st₁) : st₀.Next st₁ := hst₀ ▸ h.of_lastStop
  have hpasses {l : Lexeme} {st₁ : Stream} (h : st.Passes l st₁) : st₀.Passes l st₁ :=
    hst₀ ▸ h.of_lastStop
  induction h with grind -ring -linarith -lia only [intro Derives, Phrase.startsItself]

end Grammar

end ComponentTemplate
