import ComponentTemplate.Proofs.BareOperands
import ComponentTemplate.Proofs.ReadBack

/-!
# Chains of suffixes

Members, calls and filters are suffixes of what they are applied to, and a chain of them is printed
suffix by suffix after its head. The chain is read back suffix by suffix, too, with one exception: a
filter without arguments has no parentheses, so those of a call right after it are taken for its
arguments.
-/

namespace ComponentTemplate

open Grammar Doc

lemma Token.startsNumber_of_read (h : Token.read cur = .ok (t, after))
    (ht : ∀ text, t.lexeme ≠ .word text ∧ t.lexeme ≠ .number text) :
    (∀ c ∈ cur.rest.head?, isWordChar c = false) ∧ startsNumber cur.rest = false := by
  obtain ⟨o, cs⟩ := cur
  cases cs with
  | nil => simp [startsNumber]
  | cons c cs =>
    by_cases hblank : Text.isBlank c = true
    · have hapart : TokensApart [] (c :: cs) := .of_blank [] hblank
      exact ⟨hapart.word, hapart.number⟩
    · have hskip : Cursor.skipBlanks ⟨o, c :: cs⟩ = ⟨o, c :: cs⟩ :=
        skipBlanks_append Text.Blank.nil (by simpa using hblank) o
      rw [read, hskip, readAt] at h
      dsimp only at h
      split at h
      · cases h
        exact absurd rfl (ht _).1
      · rename_i hstart
        split at h
        · cases h
          exact absurd rfl (ht _).2
        · rename_i hnumber
          refine ⟨?_, by simpa using hnumber⟩
          rintro _ ⟨⟩
          simp only [isWordStart, startsNumber, Bool.or_eq_true, not_or, Bool.not_eq_true]
            at hstart hnumber
          simp [isWordChar, Char.isAlphanum, hstart, hnumber]

/-! ## Suffixes -/

/-- **A suffix of an expression**: a member by its name or by its value, a call, or a filter. -/
inductive Suffix where
  | member (span place : Span) (name : String) (optional : Bool)
  | computed (span : Span) (property : Expr) (optional : Bool)
  | call (span : Span) (arguments : List Expr) (optional : Bool)
  | filter (span : Span) (name : String) (arguments : List Expr)

namespace Suffix

def apply (head : Expr) : Suffix → Expr
  | member span place name optional => .member span head (.identifier place name) false optional
  | computed span property optional => .member span head property true optional
  | call span arguments optional => .call span head arguments optional
  | filter span name arguments => .filter span head name arguments

def operands : Suffix → List Expr
  | member .. => []
  | computed _ property _ => [property]
  | call _ arguments _ | filter _ _ arguments => arguments

def name? : Suffix → Option String
  | member _ _ name _ | filter _ name _ => some name
  | computed .. | call .. => none

def mark : Suffix → String
  | member _ _ _ optional => if optional then "?." else "."
  | computed _ _ optional => if optional then "?." else "["
  | call _ _ optional => if optional then "?." else "("
  | filter .. => "|"

/-- **A suffix is sound**: its name is a word, and the expressions inside it are read back. -/
structure IsSound (breaks : Breaks) (unit : String) (level : Nat) (s : Suffix) : Prop where
  name : ∀ name ∈ s.name?, isName name.toList = true
  operands : ∀ e ∈ s.operands, e.ReadsBack breaks unit level

/-- **A filter without arguments before a call.** -/
def fuses : Suffix → Suffix → Bool
  | filter _ _ [], call _ _ false => true
  | _, _ => false

/-- **The chain that is read**: the arguments of a call of a bare filter are those of the filter. -/
def fuse : List Suffix → List Suffix
  | filter span name [] :: call _ arguments false :: rest => filter span name arguments :: fuse rest
  | s :: rest => s :: fuse rest
  | [] => []

end Suffix

namespace Expr

/-- **A chain of suffixes** after a head. -/
def chain (head : Expr) (suffixes : List Suffix) : Expr := suffixes.foldl Suffix.apply head

def isSuffixed : Expr → Bool
  | member .. | call .. | filter .. => true
  | _ => false

def suffixCount : Expr → Nat
  | member _ head _ _ _ | call _ head _ _ | filter _ head _ _ => head.suffixCount + 1
  | _ => 0

lemma suffixCount_normal : ∀ e : Expr, e.normal.suffixCount = e.suffixCount
  | member _ head _ _ _ | call _ head _ _ | filter _ head _ _ => by
    simp [normal, suffixCount, head.suffixCount_normal]
  | identifier .. | string .. | number .. | boolean .. | null _ | unary .. | update .. | binary ..
  | conditional .. | arrow .. | assignment .. | array .. | object .. => rfl

lemma suffixCount_apply (head : Expr) (s : Suffix) :
    (s.apply head).suffixCount = head.suffixCount + 1 := by
  cases s <;> rfl

lemma suffixCount_chain (head : Expr) (suffixes : List Suffix) :
    (head.chain suffixes).suffixCount = head.suffixCount + suffixes.length := by
  induction suffixes generalizing head with
  | nil => rfl
  | cons s rest ih =>
    have hrest := ih (s.apply head)
    rw [suffixCount_apply] at hrest
    rw [chain, List.foldl_cons, ← chain, hrest, List.length_cons]
    omega

lemma normal_chain {head head' : Expr} (h : head.normal = head'.normal) (suffixes : List Suffix) :
    (head.chain suffixes).normal = (head'.chain suffixes).normal := by
  induction suffixes generalizing head head' with
  | nil => exact h
  | cons s rest ih =>
    have hstep : (s.apply head).normal = (s.apply head').normal := by
      cases s <;> simp only [Suffix.apply, normal, h]
    exact ih hstep

end Expr

/-! ## The chain that is read -/

namespace Suffix

lemma length_fuse_le (suffixes : List Suffix) : (fuse suffixes).length ≤ suffixes.length := by
  fun_induction fuse suffixes with
  | case1 span name _ arguments rest ih =>
    simp only [List.length_cons]
    omega
  | case2 s rest _ ih => simpa using ih
  | case3 => exact Nat.le_refl _

lemma length_fuse_eq_iff (suffixes : List Suffix) :
    (fuse suffixes).length = suffixes.length ↔
      suffixes.IsChain fun s next => s.fuses next = false := by
  fun_induction fuse suffixes with
  | case1 span name _ arguments rest ih =>
    have hle := length_fuse_le rest
    simp only [List.length_cons, List.isChain_cons_cons, fuses]
    constructor
    · intro hlength
      omega
    · intro hchain
      exact absurd hchain.1 (by decide)
  | case2 s rest hne ih =>
    rw [List.length_cons, List.length_cons, Nat.add_right_cancel_iff, ih]
    cases rest with
    | nil => simp
    | cons next rest =>
      have hfuses : s.fuses next = false := by
        unfold fuses
        split
        · exact absurd rfl (hne _ _ _ _ rest rfl)
        · rfl
      simp [List.isChain_cons_cons, hfuses]
  | case3 => simp

lemma fuse_eq_self {suffixes : List Suffix}
    (h : suffixes.IsChain fun s next => s.fuses next = false) : fuse suffixes = suffixes := by
  fun_induction fuse suffixes with
  | case1 => exact Bool.noConfusion h.rel
  | case2 s rest _ ih => rw [ih h.tail]
  | case3 => rfl

/-! ## The text of a chain -/

variable {breaks : Breaks} {unit : String} {level : Nat} {s : Suffix} {suffixes : List Suffix}

def argumentsText (breaks : Breaks) (unit : String) (level : Nat) (arguments : List Expr) :
    List Char :=
  '(' :: (commaText (arguments.map (·.textAt breaks unit level)) ++ [')'])

/-- **The text of a suffix.** -/
def text (breaks : Breaks) (unit : String) (level : Nat) : Suffix → List Char
  | member _ _ name true => "?.".toList ++ name.toList
  | member _ _ name false => ".".toList ++ name.toList
  | computed _ property true => "?.".toList ++ '[' :: (property.textAt breaks unit level ++ [']'])
  | computed _ property false => '[' :: (property.textAt breaks unit level ++ [']'])
  | call _ arguments true => "?.".toList ++ argumentsText breaks unit level arguments
  | call _ arguments false => argumentsText breaks unit level arguments
  | filter _ name arguments => "|".toList ++ (name.toList ++
      if arguments.isEmpty then [] else argumentsText breaks unit level arguments)

def texts (breaks : Breaks) (unit : String) (level : Nat) (suffixes : List Suffix) : List Char :=
  suffixes.flatMap (text breaks unit level)

variable {name : String} {arguments es : List Expr} {head : Expr} {cs tail : List Char} {o : Nat}
  {st' st : Stream}

lemma goesOn_name (h : isName name.toList = true) : (Doc.text name).GoesOn unit level name.toList :=
  goesOn_text (Lexeme.IsWritten.getLast?_ne (l := .word name) h)

lemma goesOn_arguments (h : ∀ e ∈ arguments, e.ReadsBack breaks unit level) :
    ((Doc.text "(" ++ .commas (Expr.docs breaks arguments)) ++ Doc.text ")").GoesOn unit level
      (argumentsText breaks unit level arguments) := by
  have hdocs : List.Forall₂ (GoesOn unit level) (Expr.docs breaks arguments)
      (arguments.map (·.textAt breaks unit level)) := by
    induction arguments with
    | nil => exact .nil
    | cons e rest ih =>
      have hrest := ih fun e he => h e (List.mem_cons_of_mem _ he)
      exact .cons (h e (List.mem_cons_self ..)).goesOn hrest
  have hopening : (Doc.text "(").GoesOn unit level ['('] := goesOn_text (by decide)
  have hclosing : (Doc.text ")").GoesOn unit level [')'] := goesOn_text (by decide)
  exact (hopening.append (goesOn_commas hdocs)).append hclosing

/-- **What a suffix is printed as** goes on after what it is applied to. -/
theorem IsSound.goesOn (h : s.IsSound breaks unit level)
    (hhead : (parens .head head (head.doc breaks)).GoesOn unit level cs) :
    ((s.apply head).doc breaks).GoesOn unit level (cs ++ s.text breaks unit level) := by
  have hmark (mark : String) (hlast : mark.toList.getLast? ≠ some '\n') :
      (Doc.text mark).GoesOn unit level mark.toList := goesOn_text hlast
  -- a document is written in the same way however its parts are grouped: hence `fun w`
  cases s with
  | member span place name optional =>
    have hname : (Doc.text name).GoesOn unit level name.toList := goesOn_name (h.name name rfl)
    cases optional with
    | true => exact hhead.append ((hmark "?." (by decide)).append hname)
    | false => exact hhead.append ((hmark "." (by decide)).append hname)
  | computed span property optional =>
    have hproperty := (h.operands property (List.mem_singleton_self _)).goesOn
    have hclosed := hproperty.append (hmark "]" (by decide))
    cases optional with
    | true => exact fun w => hhead.append ((hmark "?.[" (by decide)).append hclosed) w
    | false => exact fun w => hhead.append ((hmark "[" (by decide)).append hclosed) w
  | call span arguments optional =>
    have harguments := goesOn_arguments h.operands
    cases optional with
    | true => exact fun w => (hhead.append ((hmark "?." (by decide)).append harguments)) w
    | false => exact fun w => (hhead.append (goesOn_empty.append harguments)) w
  | filter span name arguments =>
    have hname : (Doc.text name).GoesOn unit level name.toList := goesOn_name (h.name name rfl)
    have harguments := goesOn_arguments h.operands
    cases arguments with
    | nil =>
      exact fun w => hhead.append ((hmark "|" (by decide)).append (hname.append Doc.goesOn_empty)) w
    | cons first rest =>
      exact fun w => hhead.append ((hmark "|" (by decide)).append (hname.append harguments)) w

lemma needsParens_apply (s : Suffix) (head : Expr) : needsParens .head (s.apply head) = false := by
  cases s <;> rfl

lemma goesOn_chain (h : ∀ s ∈ suffixes, s.IsSound breaks unit level)
    (hhead : (parens .head head (head.doc breaks)).GoesOn unit level cs) :
    (parens .head (head.chain suffixes) ((head.chain suffixes).doc breaks)).GoesOn unit level
      (cs ++ texts breaks unit level suffixes) := by
  induction suffixes generalizing head cs with
  | nil =>
    rw [texts, List.flatMap_nil, List.append_nil]
    exact hhead
  | cons s rest ih =>
    have hstep := (h s (List.mem_cons_self ..)).goesOn hhead
    -- what has a suffix needs no parentheses before the next one
    have hrest : (parens .head (s.apply head) ((s.apply head).doc breaks)).GoesOn unit level
        (cs ++ s.text breaks unit level) := by
      rwa [parens, needsParens_apply, if_neg Bool.false_ne_true]
    have hchain := ih (fun s hs => h s (List.mem_cons_of_mem _ hs)) hrest
    rw [List.append_assoc] at hchain
    exact hchain

lemma needsParens_chain (hne : suffixes ≠ []) :
    needsParens .head (head.chain suffixes) = false := by
  rw [← List.dropLast_append_getLast hne, Expr.chain, List.foldl_append]
  exact needsParens_apply _ _

/-! ## One suffix -/

/-- **A suffix is read between two streams**, after every head and before all that follows. -/
structure ReadsBetween (s : Suffix) (st st' : Stream) : Prop where
  lexeme : st.current.lexeme = .mark s.mark
  exists_suffixes : ∀ (start : Nat) (head : Expr) (lastStop : Nat), ∃ applied : Expr,
    applied.normal = (s.apply head).normal ∧ ∀ ⦃e : Expr⦄ ⦃fin : Stream⦄,
      Derives (.suffixes start applied e) st' fin →
        Derives (.suffixes start head e) ⟨st.current, st.after, lastStop⟩ fin

lemma exists_elements (h : ∀ e ∈ es, e.ReadsBack breaks unit level)
    (hat : st'.At ⟨o + (byteLength (commaText (es.map (·.textAt breaks unit level))) + 1),
      tail⟩) :
    ∃ (st : Stream) (es' : List Expr),
      st.At ⟨o, commaText (es.map (·.textAt breaks unit level)) ++ ')' :: tail⟩ ∧
      Expr.normals es' = Expr.normals es ∧ Derives (.elements ")" es') st st' := by
  induction es generalizing o with
  | nil =>
    obtain ⟨st, hst, hclose⟩ := Stream.exists_passes_enclosing ")" (by decide) hat
    exact ⟨st, [], hst, rfl, .elementsNil hclose⟩
  | cons e rest ih =>
    have he := h e (List.mem_cons_self ..)
    cases rest with
    | nil =>
      have hlength : o + (byteLength (e.textAt breaks unit level) + 1) =
          o + byteLength (e.textAt breaks unit level) + 1 := by omega
      have hat' : st'.At ⟨o + byteLength (e.textAt breaks unit level) + 1, tail⟩ := hlength ▸ hat
      obtain ⟨st₁, hst₁, hclose⟩ := Stream.exists_passes_enclosing ")" (by decide) hat'
      obtain ⟨st, e', _, hst, hnormal, hderives⟩ := he.exists_expression hst₁
        (.of_enclosing _ (by decide) tail) (by rw [hclose.lexeme_eq]; decide)
      refine ⟨st, [e'], hst, by simp [Expr.normals, hnormal],
        .elementsLast (ne_close_of_derives hderives (by decide)) hderives ?_ hclose.of_lastStop⟩
      simp [hclose.lexeme_eq]
    | cons next rest =>
      -- from the end: the other arguments, the comma, and this one
      let cs := e.textAt breaks unit level
      let ds := commaText ((next :: rest).map (·.textAt breaks unit level))
      have hlength : o + (byteLength (cs ++ ',' :: ' ' :: ds) + 1) =
          o + byteLength cs + 1 + 1 + (byteLength ds + 1) := by
        rw [byteLength_append, byteLength_cons, byteLength_cons]
        show o + (byteLength cs + (1 + (1 + byteLength ds)) + 1) = _
        omega
      have hat' : st'.At ⟨o + byteLength cs + 1 + 1 + (byteLength ds + 1), tail⟩ := hlength ▸ hat
      obtain ⟨st₃, es', hst₃, hnormals, hrest⟩ :=
        ih (fun e he => h e (List.mem_cons_of_mem _ he)) hat'
      -- the blank after the comma belongs to the next argument
      obtain ⟨st₁, hst₁, hcomma⟩ := Stream.exists_passes_enclosing "," (by decide)
        (hst₃.before_blanks Text.blank_space)
      obtain ⟨st, e', _, hst, hnormal, hderives⟩ := he.exists_expression hst₁
        (.of_enclosing _ (by decide) _) (by rw [hcomma.lexeme_eq]; decide)
      refine ⟨st, e' :: es', ?_, by simp [hnormal, hnormals],
        .elementsCons (ne_close_of_derives hderives (by decide)) hderives hcomma.of_lastStop
          (hrest.of_lastStop rfl _)⟩
      show st.At ⟨o, (cs ++ ',' :: ' ' :: ds) ++ ')' :: tail⟩
      rw [List.append_assoc]
      exact hst

lemma exists_arguments (h : ∀ e ∈ es, e.ReadsBack breaks unit level)
    (hat : st'.At ⟨o + byteLength (argumentsText breaks unit level es), tail⟩) :
    ∃ (st st₁ : Stream) (es' : List Expr), st.At ⟨o, argumentsText breaks unit level es ++ tail⟩ ∧
      st.Passes (.mark "(") st₁ ∧ Derives (.elements ")" es') st₁ st' ∧
      Expr.normals es' = Expr.normals es := by
  have hlength : o + byteLength (argumentsText breaks unit level es) =
      o + 1 + (byteLength (commaText (es.map (·.textAt breaks unit level))) + 1) := by
    rw [argumentsText, byteLength_enclosed rfl rfl]
    omega
  rw [hlength] at hat
  obtain ⟨st₁, es', hst₁, hnormals, hderives⟩ := exists_elements h hat
  obtain ⟨st, hst, hopen⟩ := Stream.exists_passes_enclosing "(" (by decide) hst₁
  refine ⟨st, st₁, es', ?_, hopen, hderives, hnormals⟩
  rw [argumentsText, List.cons_append, List.append_assoc]
  exact hst

variable {o : Nat} {tail : List Char} {st' : Stream}

lemma exists_passes_named {mark : String} (hmark : mark ∈ marks)
    (hname : isName name.toList = true) (hword : ∀ c ∈ tail.head?, isWordChar c = false)
    (hat : st'.At ⟨o + byteLength (mark.toList ++ name.toList), tail⟩) :
    ∃ st st₁ : Stream, st.At ⟨o, (mark.toList ++ name.toList) ++ tail⟩ ∧
      st.Passes (.mark mark) st₁ ∧ st₁.Passes (.word name) st' := by
  rw [byteLength_append, ← Nat.add_assoc] at hat
  obtain ⟨st₁, hst₁, hpass⟩ := Stream.exists_passes_joined (l := .word name) hname hword hat
  have hwritten : (Lexeme.word name).IsWritten := hname
  have hends : (Lexeme.mark mark).EndsBefore ((Lexeme.word name).chars ++ tail) :=
    Lexeme.endsBefore_of_joins rfl hwritten hword
  obtain ⟨st, hst, hfirst⟩ := Stream.exists_passes_joined (l := .mark mark) hmark hends hst₁
  refine ⟨st, st₁, ?_, hfirst, hpass⟩
  rw [List.append_assoc]
  exact hst

lemma exists_passes_optional (opening : String) (hopening : opening ∈ ["(", "["])
    (hat : st'.At ⟨o + byteLength "?.".toList, opening.toList ++ rest⟩) :
    ∃ st : Stream, st.At ⟨o, "?.".toList ++ (opening.toList ++ rest)⟩ ∧
      st.Passes (.mark "?.") st' := by
  have hmarks : ∀ opening ∈ ["(", "["], opening ∈ enclosingMarks ∧ opening ∈ marks ∧
      (Lexeme.mark "?.").joins (.mark opening) = true := by decide +kernel
  obtain ⟨henclosing, hmem, hjoins⟩ := hmarks opening hopening
  exact Stream.exists_passes_joined (l := .mark "?.") (show "?." ∈ marks by decide)
    (Lexeme.endsBefore_of_joins hjoins hmem (endsBefore_of_enclosing henclosing rest)) hat

lemma exists_readsBetween_computed (h : property.ReadsBack breaks unit level) (span : Span)
    (optional : Bool)
    (hat : st'.At ⟨o + byteLength ((computed span property optional).text breaks unit level),
      tail⟩) : ∃ st : Stream, st.At ⟨o, (computed span property optional).text breaks unit level ++ tail⟩ ∧
      (computed span property optional).ReadsBetween st st' := by
  let cs := property.textAt breaks unit level
  have hlength : byteLength ('[' :: (cs ++ [']'])) = byteLength cs + 2 :=
    byteLength_enclosed rfl rfl cs
  have happend : ('[' :: (cs ++ [']'])) ++ tail = "[".toList ++ (cs ++ ("]".toList ++ tail)) := by
    simp
  cases optional with
  | false =>
    rw [text, hlength] at hat
    obtain ⟨st, st₁, st₂, e', hst, hopen, hderives, hclose, hnormal⟩ :=
      h.exists_enclosed "[" "]" (by decide) (by decide) (by decide) hat
    refine ⟨st, ?_, hopen.lexeme_eq, fun start head lastStop =>
      ⟨.member ⟨start, st'.lastStop⟩ head e' true false, ?_, fun e fin hrest =>
        .computed hopen.of_lastStop hderives hclose hrest⟩⟩
    · rwa [text, happend]
    · simp [apply, hnormal]
  | true =>
    rw [text, byteLength_append, hlength, ← Nat.add_assoc] at hat
    obtain ⟨st₀, st₁, st₂, e', hst₀, hopen, hderives, hclose, hnormal⟩ :=
      h.exists_enclosed "[" "]" (by decide) (by decide) (by decide) hat
    obtain ⟨st, hst, hmark⟩ := exists_passes_optional "[" (by decide) hst₀
    refine ⟨st, ?_, hmark.lexeme_eq, fun start head lastStop =>
      ⟨.member ⟨start, st'.lastStop⟩ head e' true true, ?_, fun e fin hrest =>
        .optional hmark.of_lastStop (.optionalComputed hopen hderives hclose) hrest⟩⟩
    · rwa [text, List.append_assoc, happend]
    · simp [apply, hnormal]

lemma exists_readsBetween_call (h : ∀ e ∈ arguments, e.ReadsBack breaks unit level) (span : Span)
    (optional : Bool)
    (hat : st'.At ⟨o + byteLength ((call span arguments optional).text breaks unit level), tail⟩) :
    ∃ st : Stream, st.At ⟨o, (call span arguments optional).text breaks unit level ++ tail⟩ ∧
      (call span arguments optional).ReadsBetween st st' := by
  cases optional with
  | false =>
    obtain ⟨st, st₁, es', hst, hopen, hderives, hnormals⟩ := exists_arguments h hat
    refine ⟨st, hst, hopen.lexeme_eq, fun start head lastStop =>
      ⟨.call ⟨start, st'.lastStop⟩ head es' false, ?_, fun e fin hrest =>
        .call hopen.of_lastStop hderives hrest⟩⟩
    simp [apply, hnormals]
  | true =>
    rw [text, byteLength_append, ← Nat.add_assoc] at hat
    obtain ⟨st₀, st₁, es', hst₀, hopen, hderives, hnormals⟩ := exists_arguments h hat
    obtain ⟨st, hst, hmark⟩ := exists_passes_optional "(" (by decide) hst₀
    refine ⟨st, ?_, hmark.lexeme_eq, fun start head lastStop =>
      ⟨.call ⟨start, st'.lastStop⟩ head es' true, ?_, fun e fin hrest =>
        .optional hmark.of_lastStop (.optionalCall hopen hderives) hrest⟩⟩
    · exact hst
    · simp [apply, hnormals]

lemma exists_readsBetween_member (hname : isName name.toList = true) (span place : Span)
    (optional : Bool) (hword : ∀ c ∈ tail.head?, isWordChar c = false)
    (hat : st'.At ⟨o + byteLength ((member span place name optional).text breaks unit level),
      tail⟩) :
    ∃ st : Stream, st.At ⟨o, (member span place name optional).text breaks unit level ++ tail⟩ ∧
      (member span place name optional).ReadsBetween st st' := by
  cases optional with
  | false =>
    obtain ⟨st, st₁, hst, hmark, hpass⟩ := exists_passes_named (by decide) hname hword hat
    exact ⟨st, hst, hmark.lexeme_eq, fun start head lastStop =>
      ⟨.member ⟨start, st'.lastStop⟩ head (.identifier st₁.current.span name) false false, rfl,
        fun e fin hrest => .member hmark.of_lastStop hpass hrest⟩⟩
  | true =>
    obtain ⟨st, st₁, hst, hmark, hpass⟩ := exists_passes_named (by decide) hname hword hat
    exact ⟨st, hst, hmark.lexeme_eq, fun start head lastStop =>
      ⟨.member ⟨start, st'.lastStop⟩ head (.identifier st₁.current.span name) false true, rfl,
        fun e fin hrest => .optional hmark.of_lastStop (.optionalMember hpass) hrest⟩⟩

lemma exists_readsBetween_filterCall (hname : isName name.toList = true)
    (h : ∀ e ∈ arguments, e.ReadsBack breaks unit level) (span : Span)
    (hat : st'.At ⟨o + byteLength ("|".toList ++ (name.toList ++
      argumentsText breaks unit level arguments)), tail⟩) :
    ∃ st : Stream, st.At ⟨o, ("|".toList ++ (name.toList ++
        argumentsText breaks unit level arguments)) ++ tail⟩ ∧
      (filter span name arguments).ReadsBetween st st' := by
  rw [← List.append_assoc] at hat ⊢
  rw [byteLength_append, ← Nat.add_assoc] at hat
  obtain ⟨st₂, st₃, es', hst₂, hopen, hderives, hnormals⟩ := exists_arguments h hat
  have hword : ∀ c ∈ (argumentsText breaks unit level arguments ++ tail).head?,
      isWordChar c = false := by
    rintro c ⟨⟩
    decide
  obtain ⟨st, st₁, hst, hmark, hpass⟩ := exists_passes_named (by decide) hname hword hst₂
  refine ⟨st, ?_, hmark.lexeme_eq, fun start head lastStop =>
    ⟨.filter ⟨start, st'.lastStop⟩ head name es', ?_, fun e fin hrest =>
      .filterCall hmark.of_lastStop hpass hopen hderives hrest⟩⟩
  · rw [List.append_assoc]
    exact hst
  · simp [apply, hnormals]

/-- **One suffix is read**, before what starts no word, and if it is a filter without arguments also
before no parenthesis. -/
theorem exists_readsBetween (h : s.IsSound breaks unit level)
    (hword : ∀ c ∈ tail.head?, isWordChar c = false)
    (hopen : ∀ span name, s = filter span name [] → st'.current.lexeme ≠ .mark "(")
    (hat : st'.At ⟨o + byteLength (s.text breaks unit level), tail⟩) :
    ∃ st : Stream, st.At ⟨o, s.text breaks unit level ++ tail⟩ ∧ s.ReadsBetween st st' := by
  cases s with
  | member span place name optional =>
    exact exists_readsBetween_member (h.name name rfl) span place optional hword hat
  | computed span property optional =>
    have hproperty := h.operands property (List.mem_singleton_self _)
    exact exists_readsBetween_computed hproperty span optional hat
  | call span arguments optional => exact exists_readsBetween_call h.operands span optional hat
  | filter span name arguments =>
    have hname := h.name name rfl
    cases arguments with
    | nil =>
      simp only [text, List.isEmpty_nil, if_true, List.append_nil] at hat ⊢
      obtain ⟨st, st₁, hst, hmark, hpass⟩ := exists_passes_named (by decide) hname hword hat
      exact ⟨st, hst, hmark.lexeme_eq, fun start head lastStop =>
        ⟨.filter ⟨start, st'.lastStop⟩ head name [], rfl,
          fun e fin hrest => .filter hmark.of_lastStop hpass (hopen span name rfl) hrest⟩⟩
    | cons first rest =>
      simp only [text, List.isEmpty_cons, Bool.false_eq_true, if_false] at hat ⊢
      exact exists_readsBetween_filterCall hname h.operands span hat

/-! ## All suffixes -/

def firstLexeme : List Suffix → Lexeme
  | [] => .finish
  | s :: _ => .mark s.mark

/-- **Suffixes are read up to the end of a text**, after every head. -/
structure ReadsToEnd (suffixes : List Suffix) (st : Stream) : Prop where
  lexeme : st.current.lexeme = firstLexeme suffixes
  exists_suffixes : ∀ (start : Nat) (head : Expr) (lastStop : Nat), ∃ (e : Expr) (fin : Stream),
    e.normal = (head.chain suffixes).normal ∧ fin.current.lexeme = .finish ∧
      Derives (.suffixes start head e) ⟨st.current, st.after, lastStop⟩ fin

lemma readsToEnd_nil (o : Nat) : ∃ st : Stream, st.At ⟨o, []⟩ ∧ ReadsToEnd [] st :=
  ⟨_, Stream.at_finish o, rfl, fun _ head _ => ⟨head, _, rfl, rfl, .suffixesEnd rfl⟩⟩

lemma ReadsToEnd.cons (hrest : ReadsToEnd suffixes st') (h : s.ReadsBetween st st') :
    ReadsToEnd (s :: suffixes) st := by
  refine ⟨h.lexeme, fun start head lastStop => ?_⟩
  obtain ⟨applied, hnormal, hsuffixes⟩ := h.exists_suffixes start head lastStop
  obtain ⟨e, fin, he, hfinish, hderives⟩ := hrest.exists_suffixes start applied st'.lastStop
  exact ⟨e, fin, he.trans (Expr.normal_chain hnormal suffixes), hfinish, hsuffixes hderives⟩

lemma firstLexeme_fuse (suffixes : List Suffix) :
    firstLexeme (fuse suffixes) = firstLexeme suffixes := by
  fun_cases fuse suffixes <;> rfl

lemma exists_call_of_firstLexeme (h : firstLexeme suffixes = .mark "(") :
    ∃ span arguments rest, suffixes = call span arguments false :: rest := by
  cases suffixes with
  | nil => cases h
  | cons s rest =>
    have hmark : s.mark = "(" := Lexeme.mark.inj h
    cases s with
    | call span arguments optional =>
      cases optional with
      | false => exact ⟨span, arguments, rest, rfl⟩
      | true => simp [mark] at hmark
    | member _ _ _ optional | computed _ _ optional => cases optional <;> simp [mark] at hmark
    | filter _ _ _ => simp [mark] at hmark

lemma firstLexeme_ne (suffixes : List Suffix) (text : String) :
    firstLexeme suffixes ≠ .word text ∧ firstLexeme suffixes ≠ .number text := by
  cases suffixes <;> simp [firstLexeme]

lemma assignment_firstLexeme (suffixes : List Suffix) :
    AssignmentOp.ofLexeme? (firstLexeme suffixes) = none := by
  cases suffixes with
  | nil => rfl
  | cons s rest =>
    cases s with
    | member _ _ _ optional | computed _ _ optional | call _ _ optional => cases optional <;> rfl
    | filter _ _ _ => rfl

lemma ReadsToEnd.startsNumber (h : ReadsToEnd suffixes st) (hat : st.At cur) :
    (∀ c ∈ cur.rest.head?, isWordChar c = false) ∧ startsNumber cur.rest = false := by
  refine Token.startsNumber_of_read hat.read fun text => ?_
  rw [h.lexeme]
  exact firstLexeme_ne suffixes text

/-- **A chain of suffixes is read as the fused chain**, up to the end of its text. -/
theorem exists_readsToEnd (h : ∀ s ∈ suffixes, s.IsSound breaks unit level) (o : Nat) :
    ∃ st : Stream, st.At ⟨o, texts breaks unit level suffixes⟩ ∧ ReadsToEnd (fuse suffixes) st := by
  -- the recursion of the fused chain: a bare filter takes the call after it, all others are read
  -- one by one
  fun_induction fuse suffixes generalizing o with
  | case1 span name place arguments rest ih =>
    -- the texts of the two suffixes are the text of one filter with parentheses
    have hfilter := h (filter span name []) (by simp)
    have harguments : ∀ e ∈ arguments, e.ReadsBack breaks unit level :=
      (h (call place arguments false) (by simp)).operands
    have hrest : ∀ s ∈ rest, s.IsSound breaks unit level := fun s hs => h s (by simp [hs])
    obtain ⟨st', hst', hends⟩ := ih hrest (o + byteLength ("|".toList ++ (name.toList ++
      argumentsText breaks unit level arguments)))
    obtain ⟨st, hst, hreads⟩ :=
      exists_readsBetween_filterCall (hfilter.name name rfl) harguments span hst'
    refine ⟨st, ?_, hends.cons hreads⟩
    simpa [texts, text] using hst
  | case2 s rest hne ih =>
    have hrest : ∀ s ∈ rest, s.IsSound breaks unit level :=
      fun s hs => h s (List.mem_cons_of_mem _ hs)
    obtain ⟨st', hst', hends⟩ := ih hrest (o + byteLength (s.text breaks unit level))
    -- a parenthesis after a bare filter would be that of a call, which is the first case
    have hopen (span : Span) (name : String) (hs : s = filter span name []) :
        st'.current.lexeme ≠ .mark "(" := by
      rw [hends.lexeme, firstLexeme_fuse]
      intro hlexeme
      obtain ⟨place, arguments, more, hcall⟩ := exists_call_of_firstLexeme hlexeme
      exact hne span name place arguments more hs hcall
    obtain ⟨st, hst, hreads⟩ := exists_readsBetween (h s (List.mem_cons_self ..))
      (hends.startsNumber hst').1 hopen hst'
    exact ⟨st, hst, hends.cons hreads⟩
  | case3 => exact readsToEnd_nil o

end Suffix

/-! ## The last character of a text -/

lemma isWordChar_of_mem_name (h : isName name = true) (hc : c ∈ name) : isWordChar c = true := by
  cases name with
  | nil => cases hc
  | cons first rest =>
    simp only [isName, Bool.and_eq_true, List.all_eq_true] at h
    rcases List.mem_cons.mp hc with rfl | hc
    · exact isWordChar_of_isWordStart h.1
    · exact h.2 c hc

lemma quote_of_getLast? (h : IsQuoted raw) (hlast : raw.getLast? = some d) :
    d = '"' ∨ d = '\'' := by
  cases raw with
  | nil => cases hlast
  | cons quote cs =>
    have hend := getLast?_of_quotedLength? h.2
    cases cs with
    | nil => cases hend
    | cons c cs =>
      rw [List.getLast?_cons_cons, hend] at hlast
      obtain rfl := Option.some.inj hlast
      exact h.1

namespace Doc

variable {unit : String} {level : Nat}

lemma toList_renderAt_text (text : String) :
    ((Doc.text text).renderAt unit level).toList = text.toList := by
  cases htext : text.toList with
  | nil => simp [renderAt, Writer.output, write_text, htext, Writer.add]
  | cons c cs =>
    simp [renderAt, Writer.output, write_text, htext, Writer.add, Writer.atLineStart]

lemma getLast?_renderAt_append (a : Doc) {text : String} {d : Char}
    (hlast : text.toList.getLast? = some d) :
    ((a ++ Doc.text text).renderAt unit level).toList.getLast? = some d := by
  have hne : text.toList ≠ [] := fun hnil => by simp [hnil] at hlast
  obtain ⟨c, cs, hcs⟩ := List.exists_cons_of_ne_nil hne
  rw [hcs] at hlast
  simp [renderAt, Writer.output, write_append, write_text, hcs, Writer.add, hlast]

lemma getLast?_collection (opening pad : Doc) {closing : String} {d : Char} (broken : Bool)
    (entries : List Doc) (hlast : closing.toList.getLast? = some d) :
    ((collection opening closing pad broken entries).renderAt unit level).toList.getLast? =
      some d := by
  unfold collection
  split
  · exact getLast?_renderAt_append _ hlast
  · split
    · exact getLast?_renderAt_append _ hlast
    · exact getLast?_renderAt_append _ hlast

end Doc

/-! ## The head of a chain -/

/-- Whether an expression is an atom, a list or an object: what has no suffix and stands before a
suffix without parentheses. -/
def Expr.isPrimary : Expr → Bool
  | identifier .. | string .. | number .. | boolean .. | null _ | array .. | object .. => true
  | _ => false

/-- **What a phrase that goes on after its head stands for**: the head alone, or no primary
expression. -/
def Grammar.Phrase.KeepsHead (st st' : Stream) : Phrase → Prop
  | .binaryRest _ head e | .suffixes _ head e => e = head ∧ st' = st ∨ e.isPrimary = false
  | .optionalSuffix _ _ e => e.isPrimary = false
  | _ => True

lemma Grammar.keepsHead_of_derives (h : Derives phrase st st') : phrase.KeepsHead st st' := by
  -- an operator or a suffix that is applied leaves no primary expression, and nothing after it
  -- makes one again
  induction h with
  | binaryEnd _ | binaryWeaker _ _ | suffixesEnd _ => exact .inl ⟨rfl, rfl⟩
  | trailingUpdate _ _ => exact .inr rfl
  | optionalCall _ _ _ => exact rfl
  | optionalComputed _ _ _ _ => exact rfl
  | optionalMember _ => exact rfl
  | binaryStep _ _ _ _ _ ih | member _ _ _ ih => exact .inr (ih.elim (fun heq => heq.1 ▸ rfl) id)
  | optional _ _ _ happlied ih => exact .inr (ih.elim (fun heq => heq.1 ▸ happlied) id)
  | computed _ _ _ _ _ ih | call _ _ _ _ ih | filter _ _ _ _ ih | filterCall _ _ _ _ _ _ ih =>
    exact .inr (ih.elim (fun heq => heq.1 ▸ rfl) id)
  | _ => trivial

namespace Expr

variable {breaks : Breaks} {unit : String} {level : Nat} {e : Expr}

lemma isPrimary_normal (e : Expr) : e.normal.isPrimary = e.isPrimary := by cases e <;> rfl

lemma isPrimary_of_needsParens (hparens : needsParens .head e = false)
    (h : e.isSuffixed = false) : e.isPrimary = true := by
  cases e <;> simp [needsParens, isOpenEnded, isSuffixed, isPrimary] at hparens h ⊢

lemma primary_of_expression (h : Derives (.expression e) st st') (he : e.isPrimary = true) :
    Derives (.primary e) st st' := by
  have hne {e' : Expr} (h : e'.isPrimary = false) : e ≠ e' := by
    rintro rfl
    exact Bool.noConfusion (he.symm.trans h)
  have hlevel : e.level ≠ .expression := by
    intro hlevel
    cases e <;> simp [isPrimary, Expr.level] at he hlevel
  cases binary_of_expression h hlevel with
  | binary hleft hrest =>
    rcases keepsHead_of_derives hrest with ⟨rfl, rfl⟩ | hfalse
    · cases hleft with
      | unary _ _ _ | leadingUpdate _ _ _ _ => exact absurd rfl (hne rfl)
      | operand _ _ hsuffixed =>
        cases hsuffixed with
        | suffixed hhead hsuffixes =>
          rcases keepsHead_of_derives hsuffixes with ⟨rfl, rfl⟩ | hfalse
          · exact hhead
          · exact absurd rfl (hne hfalse)
    · exact absurd rfl (hne hfalse)

lemma last_of_isPrimary (he : e.isPrimary = true) (hwf : e.normal.WellFormed) :
    ∀ d ∈ (e.textAt breaks unit level).getLast?, ∀ mark ∈ marks, d ∉ mark.toList.dropLast := by
  -- atoms end with characters that are in no mark, lists and objects with marks of one character
  have hchar {d : Char} (hd : isWordChar d = true ∨ d = '"' ∨ d = '\'') :
      ∀ mark ∈ marks, d ∉ mark.toList.dropLast := by
    intro mark hmark hmem
    obtain ⟨hword, hdouble, hsingle, -⟩ := char_of_mem_marks hmark (List.dropLast_subset _ hmem)
    rcases hd with hd | rfl | rfl
    · exact Bool.noConfusion (hd.symm.trans hword)
    · exact hdouble rfl
    · exact hsingle rfl
  have hbracket : ∀ mark ∈ marks, ']' ∉ mark.toList.dropLast ∧ '}' ∉ mark.toList.dropLast := by
    decide +kernel
  intro d hd
  have hlast (text : String) (hdoc : e.doc breaks = .text text) :
      text.toList.getLast? = some d := by
    rwa [textAt, hdoc, toList_renderAt_text] at hd
  cases e with
  | identifier span name =>
    have hname := hlast name (by rw [Expr.doc])
    exact hchar (.inl (isWordChar_of_mem_name hwf.1 (List.mem_of_getLast? hname)))
  | string span value raw =>
    have hraw := hlast raw (by rw [Expr.doc])
    exact hchar (.inr (quote_of_getLast? hwf.1 hraw))
  | number span value raw =>
    obtain ⟨c, hc, hword⟩ := value.getLast?_text
    have hvalue := hlast (String.ofList value.text) (by rw [Expr.doc])
    rw [String.toList_ofList, hc] at hvalue
    obtain rfl := Option.some.inj hvalue
    exact hchar (.inl hword)
  | boolean span value =>
    have he : d = 'e' := by
      cases value with
      | true => simpa using (hlast "true" (by rfl)).symm
      | false => simpa using (hlast "false" (by rfl)).symm
    rw [he]
    exact hchar (.inl (by decide))
  | null span =>
    have hl : d = 'l' := by simpa using (hlast "null" (by rw [Expr.doc])).symm
    rw [hl]
    exact hchar (.inl (by decide))
  | array span elements =>
    rw [textAt, Expr.doc, getLast?_collection _ _ (d := ']') _ _ (by decide)] at hd
    cases hd
    exact fun mark hmark => (hbracket mark hmark).1
  | object span properties =>
    rw [textAt, Expr.doc, getLast?_collection _ _ (d := '}') _ _ (by decide)] at hd
    cases hd
    exact fun mark hmark => (hbracket mark hmark).2
  | _ => simp [isPrimary] at he

lemma exists_primary (h : e.ReadsBack breaks unit level) (he : e.isSuffixed = false) {o : Nat}
    {tail : List Char} {st' : Stream}
    (hat : st'.At ⟨o + byteLength (e.textInSlot breaks unit level .head), tail⟩)
    (hword : ∀ c ∈ tail.head?, isWordChar c = false) (hnumber : startsNumber tail = false)
    (hassign : AssignmentOp.ofLexeme? st'.current.lexeme = none) :
    ∃ (st : Stream) (e' : Expr) (lastStop : Nat),
      st.At ⟨o, e.textInSlot breaks unit level .head ++ tail⟩ ∧ e'.normal = e.normal ∧
      Derives (.primary e') st ⟨st'.current, st'.after, lastStop⟩ := by
  by_cases hparens : needsParens .head e = true
  · -- parentheses close themselves, so what follows does not matter
    obtain ⟨st, e', hst, hnormal, hderives⟩ := h.exists_parens hparens hat
    exact ⟨st, e', st'.lastStop, hst, hnormal, hderives⟩
  · rw [Bool.not_eq_true] at hparens
    have hprimary := isPrimary_of_needsParens hparens he
    rw [textInSlot_of_needsParens hparens] at hat ⊢
    have hapart : TokensApart (e.textAt breaks unit level) tail :=
      ⟨hword, hnumber, fun d hd _ _ mark hmem hpair =>
        last_of_isPrimary hprimary h.wellFormed d hd mark hmem (mem_of_infix_pair hpair).1⟩
    obtain ⟨s, e', st, fin, lastStop, hnormal, hderives, hin, hst, hfin⟩ :=
      h.exists_amid hat hapart hassign
    have hprimary' : e'.isPrimary = true := by
      rw [← e'.isPrimary_normal, hnormal, e.isPrimary_normal, hprimary]
    refine ⟨st.amid s, e'.mapSpans (.shift s.before), lastStop, hst,
      (e'.normal_mapSpans _).trans hnormal, ?_⟩
    rw [← hfin]
    exact (primary_of_expression hderives hprimary').amid s hin trivial

/-! ## Chains -/

lemma exists_parse_chain {p : Expr} {suffixes : List Suffix} (hp : p.ReadsBack breaks unit level)
    (hhead : p.isSuffixed = false) (h : ∀ s ∈ suffixes, s.IsSound breaks unit level) :
    ∃ e', Expr.parse (((p.chain suffixes).doc breaks).renderAt unit level) = .ok e' ∧
      e'.normal = (p.chain (Suffix.fuse suffixes)).normal := by
  by_cases hne : suffixes = []
  · rw [hne]
    exact hp
  · -- streams are found from the end: first that of the suffixes, then that of the head
    let cs := p.textInSlot breaks unit level .head
    obtain ⟨st₁, hst₁, hends⟩ := Suffix.exists_readsToEnd h (0 + byteLength cs)
    obtain ⟨hword, hnumber⟩ := hends.startsNumber hst₁
    have hassign : AssignmentOp.ofLexeme? st₁.current.lexeme = none := by
      rw [hends.lexeme, Suffix.assignment_firstLexeme]
    obtain ⟨st, head, lastStop, hst, hnormal, hprimary⟩ :=
      exists_primary hp hhead hst₁ hword hnumber hassign
    obtain ⟨e', fin, he', hfinish, hsuffixes⟩ :=
      hends.exists_suffixes st.current.span.start head lastStop
    have hunary : Derives (.unary e') st fin :=
      Level.operand_of_suffixed (.suffixed hprimary hsuffixes)
    refine ⟨e', parse_of_climbs (t := .leaf e') trivial (.leaf hunary) ?_ hfinish,
      he'.trans (normal_chain hnormal _)⟩
    have hchain := Suffix.goesOn_chain h (hp.goesOn_parens .head)
    rw [Doc.parens, Suffix.needsParens_chain hne, if_neg Bool.false_ne_true] at hchain
    rw [hchain.renderAt_eq]
    exact hst

/-- **The chains that are read back.** A chain of suffixes after a head, with everything inside it
read back, is always read, and as the same chain, with the same names and arguments, exactly if no
call stands right after a filter without arguments. If one does, its arguments are read as those of
the filter. -/
theorem readsBack_chain_iff {p : Expr} {suffixes : List Suffix} (hp : p.ReadsBack breaks unit level)
    (hhead : p.isSuffixed = false) (h : ∀ s ∈ suffixes, s.IsSound breaks unit level) :
    (∃ e', Expr.parse (((p.chain suffixes).doc breaks).renderAt unit level) = .ok e' ∧
      e'.normal = (p.chain (Suffix.fuse suffixes)).normal) ∧
    ((p.chain suffixes).ReadsBack breaks unit level ↔
      suffixes.IsChain fun s next => s.fuses next = false) := by
  obtain ⟨e', hparse, hnormal⟩ := exists_parse_chain hp hhead h
  refine ⟨⟨e', hparse, hnormal⟩, fun hreads => ?_, fun hchain => ?_⟩
  · -- a fused chain is shorter
    have hsame := (hreads.normal_of_parse hparse).symm.trans hnormal
    have hcount := congrArg suffixCount hsame
    rw [suffixCount_normal, suffixCount_normal, suffixCount_chain, suffixCount_chain] at hcount
    exact (Suffix.length_fuse_eq_iff suffixes).mp (by omega)
  · rw [Suffix.fuse_eq_self hchain] at hnormal
    exact ⟨e', hparse, hnormal⟩

/-- Chains after a sum: a filter without arguments is kept before a member and before an optional
call, and not before a call. -/
theorem readsBack_chain_iff_sum :
    let a : Expr := .identifier ⟨0, 1⟩ "a"
    let sum : Expr := .binary ⟨0, 5⟩ .add a a
    let suffixes : List Suffix := [.filter ⟨0, 7⟩ "f" [], .member ⟨0, 10⟩ ⟨9, 10⟩ "is" true,
      .computed ⟨0, 15⟩ sum true, .call ⟨0, 20⟩ [a, sum] false, .filter ⟨0, 25⟩ "g" [],
      .call ⟨0, 30⟩ [] true]
    let called : List Suffix := [.filter ⟨0, 7⟩ "f" [], .call ⟨0, 9⟩ [a] false]
    sum.ReadsBack (fun _ _ _ => false) "  " 1 ∧ sum.isSuffixed = false ∧
      (∀ s ∈ suffixes ++ called, s.IsSound (fun _ _ _ => false) "  " 1) ∧
      (sum.chain suffixes).ReadsBack (fun _ _ _ => false) "  " 1 ∧
      ¬ (sum.chain called).ReadsBack (fun _ _ _ => false) "  " 1 := by
  intro a sum suffixes called
  have hunit : ∀ c ∈ "  ".toList, Text.isBlank c = true := by simp [Text.isBlank]
  have ha : a.ReadsBack (fun _ _ _ => false) "  " 1 :=
    exists_parse_doc (by simp only [a, WellFormed]; decide)
      (by simp [a, Plain, outline, inSlot, parts, KeepsShape]) hunit 1
  have hsum : sum.ReadsBack (fun _ _ _ => false) "  " 1 :=
    exists_parse_doc (by simp only [sum, a, WellFormed]; decide)
      (by simp [sum, a, Plain, outline, inSlot, parts, KeepsShape]) hunit 1
  have hnames : ∀ name ∈ ["f", "is", "g"], isName name.toList = true := by decide
  have hsound : ∀ s ∈ suffixes ++ called, s.IsSound (fun _ _ _ => false) "  " 1 := by
    intro s hs
    simp only [suffixes, called, List.cons_append, List.nil_append, List.mem_cons,
      List.not_mem_nil, or_false] at hs
    rcases hs with rfl | rfl | rfl | rfl | rfl | rfl | rfl | rfl
    all_goals constructor
    all_goals simp_all [Suffix.name?, Suffix.operands]
  refine ⟨hsum, rfl, hsound, ?_, fun hreads => ?_⟩
  · have hiff := readsBack_chain_iff hsum rfl fun s hs => hsound s (List.mem_append_left called hs)
    exact hiff.2.mpr (by decide)
  · have hiff := readsBack_chain_iff hsum rfl fun s hs =>
      hsound s (List.mem_append_right suffixes hs)
    exact absurd (hiff.2.mp hreads) (by decide)

/-- **The call of a filter without arguments is lost**: its parentheses are those of the filter, and
next time they are not printed. -/
theorem parse_chain_bareFilter :
    ((Expr.parse "(a|f)()").toOption.map fun e =>
        (e.suffixCount, (e.doc fun _ _ _ => false).renderAt "" 0)) = some (2, "a|f()") ∧
    ((Expr.parse "a|f()").toOption.map fun e =>
        (e.suffixCount, (e.doc fun _ _ _ => false).renderAt "" 0)) = some (1, "a|f") := by
  decide +kernel

end Expr

end ComponentTemplate
