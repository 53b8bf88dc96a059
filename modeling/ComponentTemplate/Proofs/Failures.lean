import ComponentTemplate.Proofs.MarkupRegions

/-!
# Where reading fails

A failure names a region of the source. That this region lies in the source is part of what each
reader guarantees, together with where its value leaves off: a reader that starts in the source
either goes on in the source, not before the place where it started, or fails in a region of the
source. The guarantees are Hoare triples, and those of readers that call each other are proved
together, by induction on a bound of what is left to read.
-/

set_option mvcgen.warning false

namespace ComponentTemplate

open Std.Do Grammar

variable {source : List Char}

/-! ## Outcomes of reading -/

variable {α : Type} {P : Prop} {Q good : α → Prop} {R : Failure → Prop} {x : Except Failure α}
  {e : Failure} {a : α} {m : Nat}

lemma triple_iff : ⦃⌜P⌝⦄ x ⦃⟨fun r => ⌜Q r⌝, fun e => ⌜R e⌝, ()⟩⦄ ↔
      (P → (∀ r, x = .ok r → Q r) ∧ ∀ e, x = .error e → R e) := by
  cases x <;> simp [Triple] <;> rfl

@[spec]
lemma triple_ok {Q : PostCond α (.except Failure .pure)} :
    ⦃Q.1 a⦄ (Except.ok a : Except Failure α) ⦃Q⦄ :=
  Triple.pure a .rfl

@[spec]
lemma triple_error {Q : PostCond α (.except Failure .pure)} :
    ⦃Q.2.1 e⦄ (Except.error e : Except Failure α) ⦃Q⦄ :=
  Triple.of_entails_wp .rfl

@[spec high]
lemma triple_throw {Q : PostCond α (.except Failure .pure)} :
    ⦃Q.2.1 e⦄ (throw e : Except Failure α) ⦃Q⦄ :=
  Triple.of_entails_wp .rfl

lemma triple_of_lt_zero : ⦃⌜P ∧ m < 0⌝⦄ x ⦃⟨fun r => ⌜Q r⌝, fun e => ⌜R e⌝, ()⟩⦄ :=
  triple_iff.mpr fun h => absurd h.2 (Nat.not_lt_zero m)

lemma triple_of_below (h : ∀ n, ⦃⌜P ∧ m < n⌝⦄ x ⦃⟨fun r => ⌜Q r⌝, fun e => ⌜R e⌝, ()⟩⦄) :
    ⦃⌜P⌝⦄ x ⦃⟨fun r => ⌜Q r⌝, fun e => ⌜R e⌝, ()⟩⦄ :=
  triple_iff.mpr fun hP => triple_iff.mp (h (m + 1)) ⟨hP, Nat.lt_succ_self m⟩

/-- **Outcomes in a source**: a value with a property, or a failure in a region of the source. -/
abbrev Within (source : List Char) {α : Type} (good : α → Prop) :
    PostCond α (.except Failure .pure) :=
  ⟨fun r => ⌜good r⌝, fun e => ⌜e.span.IsIn source⌝, ()⟩

lemma isIn_of_error (h : ⦃⌜P⌝⦄ x ⦃Within source good⦄) (hP : P) (he : x = .error e) :
    e.span.IsIn source :=
  (triple_iff.mp h hP).2 e he

/-- A value read from a stream: what follows is still in the source, and not before an offset. -/
@[grind =]
def Stream.NotBefore (source : List Char) (start : Nat) {bound : Nat} {α : Type} (p : Parsed bound α) :
    Prop :=
  p.next.IsIn source ∧ start ≤ p.next.after.offset ∧ p.next.remaining < bound

/-- A value read at a place: what follows is still in the source, and not before an offset. -/
@[grind =]
def Cursor.NotBefore (source : List Char) (start : Nat) {bound : Nat} {α : Type} (p : Scanned bound α) :
    Prop :=
  p.next.IsIn source ∧ start ≤ p.next.offset ∧ p.next.remaining < bound

abbrev Stream.Stays (source : List Char) (st : Stream) {bound : Nat} {α : Type} :
    PostCond (Parsed bound α) (.except Failure .pure) :=
  Within source (Stream.NotBefore source st.after.offset)

abbrev Cursor.Stays (source : List Char) (cur : Cursor) {bound : Nat} {α : Type} :
    PostCond (Scanned bound α) (.except Failure .pure) :=
  Within source (Cursor.NotBefore source cur.offset)

def IfPassed {α : Type} (good : α → Prop) : Option α → Prop
  | none => True
  | some a => good a

@[simp, grind =]
lemma ifPassed_some : IfPassed good (some a) ↔ good a := Iff.rfl

/-! ## Tokens -/

namespace Cursor

variable {cur : Cursor}

lemma IsIn.skip (h : cur.IsIn source) (n : Nat) : (cur.skip n).IsIn source :=
  h.trans (cur.reaches_skip n)

lemma IsIn.skipBlanks (h : cur.IsIn source) : cur.skipBlanks.IsIn source :=
  h.trans cur.reaches_skipBlanks

lemma offset_le_skip (cur : Cursor) (n : Nat) : cur.offset ≤ (cur.skip n).offset :=
  (cur.reaches_skip n).offset_le

lemma offset_le_skipBlanks (cur : Cursor) : cur.offset ≤ cur.skipBlanks.offset :=
  cur.reaches_skipBlanks.offset_le

-- a place that is skipped to is known as soon as it is named
grind_pattern IsIn.skip => cur.IsIn source, cur.skip n
grind_pattern IsIn.skipBlanks => cur.IsIn source, cur.skipBlanks
grind_pattern offset_le_skip => cur.skip n
grind_pattern offset_le_skipBlanks => cur.skipBlanks
grind_pattern remaining_skip => (cur.skip n).remaining
grind_pattern remaining_skipBlanks_le => cur.skipBlanks

@[grind ←]
lemma IsIn.toEnd (h : cur.IsIn source) : cur.toEnd.IsIn source := by
  have hspan := h.spanTo (cur.reaches_skip cur.rest.length)
  rwa [Cursor.spanTo, Cursor.skip, List.take_length] at hspan

@[grind ←]
lemma IsIn.here (h : cur.IsIn source) : cur.here.IsIn source := h.spanTo (cur.reaches_skip 1)

end Cursor

attribute [grind =] Cursor.spanTo Stream.unexpected Progress.map
attribute [grind →] Cursor.IsIn.isBoundary Cursor.remaining_pos Stream.IsIn.after

@[grind →]
lemma Token.isIn_of_read_error {cur : Cursor} (hcur : cur.IsIn source) {failure : Failure}
    (h : Token.read cur = .error failure) : failure.span.IsIn source := by
  unfold Token.read Token.readAt at h
  grind

namespace Stream

variable (st : Stream)

lemma gives_of_eq_ok {σ α : Type} {size : σ → Nat} {bound : Nat}
    {x : Except Failure (Progress σ size bound α)} {r : Progress σ size bound α} (h : x = .ok r) :
    Gives x r.value r.next :=
  ⟨r.lt, h⟩

@[spec]
lemma next_within (h) : ⦃⌜st.IsIn source⌝⦄ st.next h
    ⦃Within source fun r => NotBefore source st.after.offset r ∧ r.value = st.current⦄ := by
  refine triple_iff.mpr fun hst => ⟨fun r hr => ?_, fun e he => ?_⟩
  · obtain ⟨hvalue, hnext⟩ := gives_next_iff.mp (gives_of_eq_ok hr)
    have hat : r.next.At st.after := ⟨hnext.read, by rw [hnext.lastStop, hst.stop_eq]⟩
    exact ⟨⟨hnext.isIn hst, hat.reaches.offset_le, r.lt⟩, hvalue⟩
  · unfold Stream.next at he
    split at he
    · cases he
    · cases he
      exact Token.isIn_of_read_error hst.after ‹_›

@[spec]
lemma start_within (cur : Cursor) :
    ⦃⌜cur.IsIn source⌝⦄ Stream.start cur ⦃Within source (NotBefore source cur.offset)⦄ := by
  refine triple_iff.mpr fun hcur => ⟨fun r hr => ?_, fun e he => ?_⟩
  · have hat : r.next.At cur := .of_start hr
    exact ⟨hat.isIn hcur, hat.reaches.offset_le, r.lt⟩
  · unfold Stream.start at he
    split at he
    · cases he
    · cases he
      exact Token.isIn_of_read_error hcur ‹_›

@[spec]
lemma acceptMark_within (text : String) : ⦃⌜st.IsIn source⌝⦄ st.acceptMark text
    ⦃Within source (IfPassed (NotBefore source st.after.offset))⦄ := by
  mvcgen [Stream.acceptMark]
  all_goals grind

@[spec]
lemma acceptWord_within (text : String) : ⦃⌜st.IsIn source⌝⦄ st.acceptWord text
    ⦃Within source (IfPassed (NotBefore source st.after.offset))⦄ := by
  mvcgen [Stream.acceptWord]
  all_goals grind

@[spec]
lemma expectMark_within (text : String) :
    ⦃⌜st.IsIn source⌝⦄ st.expectMark text ⦃st.Stays source⦄ := by
  mvcgen [Stream.expectMark]
  all_goals grind

@[spec]
lemma expectWord_within (text : String) :
    ⦃⌜st.IsIn source⌝⦄ st.expectWord text ⦃st.Stays source⦄ := by
  mvcgen [Stream.expectWord]
  all_goals grind

@[spec]
lemma name_within : ⦃⌜st.IsIn source⌝⦄ st.name
    ⦃Within source fun r => NotBefore source st.after.offset r ∧ r.value.2.IsIn source⦄ := by
  unfold Stream.name
  mvcgen
  all_goals grind

@[spec]
lemma string_within : ⦃⌜st.IsIn source⌝⦄ st.string ⦃st.Stays source⦄ := by
  unfold Stream.string
  mvcgen
  all_goals grind

@[spec]
lemma identifierExpr_within : ⦃⌜st.IsIn source⌝⦄ st.identifierExpr ⦃st.Stays source⦄ := by
  unfold identifierExpr identifier
  mvcgen
  all_goals grind

@[spec]
lemma nameExpr_within : ⦃⌜st.IsIn source⌝⦄ st.nameExpr ⦃st.Stays source⦄ := by
  unfold nameExpr
  mvcgen
  all_goals grind

@[spec]
lemma closeInline_within : ⦃⌜st.IsIn source⌝⦄ st.closeInline ⦃st.after.Stays source⦄ := by
  unfold closeInline
  mvcgen
  all_goals grind

@[spec]
lemma closeBlock_within : ⦃⌜st.IsIn source⌝⦄ st.closeBlock ⦃st.after.Stays source⦄ := by
  unfold closeBlock
  mvcgen
  all_goals grind

@[grind →]
lemma isIn_of_read {cur : Cursor} {t : Token} {after : Cursor}
    (h : Token.read cur = .ok (t, after)) (hcur : cur.IsIn source) : after.IsIn source := by
  have hat : (Stream.mk t after cur.offset).At cur := ⟨h, rfl⟩
  exact hcur.trans hat.reaches

/-! ### Looking ahead -/

@[spec]
lemma read_within (cur : Cursor) :
    ⦃⌜cur.IsIn source⌝⦄ Token.read cur ⦃Within source fun r => r.2.IsIn source⦄ :=
  triple_iff.mpr fun hcur => ⟨fun _ hr => isIn_of_read hr hcur, fun _ => Token.isIn_of_read_error hcur⟩

@[spec]
lemma arrowMarkAt_within (cur : Cursor) :
    ⦃⌜cur.IsIn source⌝⦄ arrowMarkAt cur ⦃Within source fun _ => True⦄ := by
  mvcgen [arrowMarkAt]

@[spec]
lemma paramsAhead_within (wanted : Bool) (cur : Cursor) :
    ⦃⌜cur.IsIn source⌝⦄ paramsAhead wanted cur ⦃Within source fun _ => True⦄ := by
  refine triple_iff.mpr fun hcur => ⟨fun _ _ => trivial, fun e he => ?_⟩
  fun_induction paramsAhead wanted cur with
  | case6 _ _ _ after hread =>
    exact isIn_of_error (arrowMarkAt_within after) (isIn_of_read hread hcur) he
  | _ => grind

@[spec]
lemma atArrow_within : ⦃⌜st.IsIn source⌝⦄ st.atArrow ⦃Within source fun _ => True⦄ := by
  unfold atArrow
  mvcgen
  all_goals grind

@[spec]
lemma operator?_within : ⦃⌜st.IsIn source⌝⦄ st.operator? ⦃Within source fun _ => True⦄ := by
  unfold operator? peek
  mvcgen
  all_goals grind

lemma params_within_lt (n : Nat) (st : Stream) :
    ⦃⌜st.IsIn source ∧ st.remaining < n⌝⦄ st.params ⦃st.Stays source⦄ := by
  induction n generalizing st with
  | zero => exact triple_of_lt_zero
  | succ n ih =>
    unfold params
    mvcgen [ih]
    all_goals grind

@[spec]
lemma params_within : ⦃⌜st.IsIn source⌝⦄ st.params ⦃st.Stays source⦄ :=
  triple_of_below fun n => params_within_lt n st

@[spec]
lemma passOperator_within (op : BinaryOp) (h) :
    ⦃⌜st.IsIn source⌝⦄ st.passOperator op h ⦃st.Stays source⦄ := by
  unfold passOperator
  mvcgen
  all_goals grind

end Stream

/-! ## Expressions -/

namespace Grammar

variable (st : Stream)

@[spec]
lemma arrowParams_within : ⦃⌜st.IsIn source⌝⦄ arrowParams st ⦃st.Stays source⦄ := by
  mvcgen [arrowParams]
  all_goals grind

@[spec]
lemma literal?_within (expected : Expected) : ⦃⌜st.IsIn source⌝⦄
    (literal? st).getD (.error (st.unexpected expected))
    ⦃st.Stays source⦄ := by
  unfold literal?
  split
  all_goals mvcgen [Option.getD]
  all_goals grind

@[spec]
lemma key_within : ⦃⌜st.IsIn source⌝⦄ key st ⦃st.Stays source⦄ := by mvcgen [key]

@[spec]
lemma wordPrimary_within (text : String) (h) : ⦃⌜st.IsIn source⌝⦄ wordPrimary st text h
    ⦃st.Stays source⦄ := by
  unfold wordPrimary
  all_goals mvcgen
  all_goals grind

/-- **The readers of expressions stay in a source** as long as their measure is below a bound. -/
structure StaysBelow (source : List Char) (n : Nat) : Prop where
  expression (st : Stream) :
    ⦃⌜st.IsIn source ∧ st.remaining * 8 + 6 < n⌝⦄ expression st ⦃st.Stays source⦄
  choice (st : Stream) : ⦃⌜st.IsIn source ∧ st.remaining * 8 + 5 < n⌝⦄ choice st ⦃st.Stays source⦄
  binary (tier : Nat) (st : Stream) :
    ⦃⌜st.IsIn source ∧ st.remaining * 8 + 4 < n⌝⦄ binary tier st ⦃st.Stays source⦄
  binaryRest (tier : Nat) (left : Expr) (st : Stream) :
    ⦃⌜st.IsIn source ∧ st.remaining * 8 < n⌝⦄ binaryRest tier left st ⦃st.Stays source⦄
  unary (st : Stream) : ⦃⌜st.IsIn source ∧ st.remaining * 8 + 3 < n⌝⦄ unary st ⦃st.Stays source⦄
  suffixed (st : Stream) :
    ⦃⌜st.IsIn source ∧ st.remaining * 8 + 2 < n⌝⦄ suffixed st ⦃st.Stays source⦄
  suffixes (start : Nat) (e : Expr) (st : Stream) :
    ⦃⌜st.IsIn source ∧ st.remaining * 8 < n⌝⦄ suffixes start e st ⦃st.Stays source⦄
  optionalSuffix (start : Nat) (e : Expr) (st : Stream) :
    ⦃⌜st.IsIn source ∧ st.remaining * 8 < n⌝⦄ optionalSuffix start e st ⦃st.Stays source⦄
  primary (st : Stream) : ⦃⌜st.IsIn source ∧ st.remaining * 8 + 1 < n⌝⦄ primary st ⦃st.Stays source⦄
  elements (close : String) (st : Stream) :
    ⦃⌜st.IsIn source ∧ st.remaining * 8 + 7 < n⌝⦄ elements close st ⦃st.Stays source⦄
  properties (st : Stream) :
    ⦃⌜st.IsIn source ∧ st.remaining * 8 < n⌝⦄ properties st ⦃st.Stays source⦄

@[grind →]
lemma isIn_of_operator?_error {st : Stream} {failure : Failure} (h : st.operator? = .error failure)
    (hst : st.IsIn source) : failure.span.IsIn source :=
  isIn_of_error st.operator?_within hst h

lemma span_of_choice_within {st : Stream} {P : Prop}
    (h : ⦃⌜st.IsIn source ∧ P⌝⦄ choice st ⦃st.Stays source⦄) :
    ⦃⌜st.IsIn source ∧ P⌝⦄ choice st ⦃Within source fun r =>
      Stream.NotBefore source st.after.offset r ∧ r.value.span.IsIn source⦄ := by
  refine triple_iff.mpr fun hpre => ⟨fun r hr => ?_, (triple_iff.mp h hpre).2⟩
  have hreads : Reads (.choice r.value) st r.next := Stream.gives_of_eq_ok hr
  exact ⟨(triple_iff.mp h hpre).1 r hr,
    (derives_of_reads hreads).isIn hpre.1 _ r.value.span_mem_spans⟩

lemma staysBelow (n : Nat) : StaysBelow source n := by
  induction n with
  | zero => constructor <;> (intros; exact triple_of_lt_zero)
  | succ n ih =>
    obtain ⟨hexpression, hchoice, hbinary, hbinaryRest, hunary, hsuffixed, hsuffixes,
      hoptionalSuffix, hprimary, helements, hproperties⟩ := ih
    replace hchoice := fun st => span_of_choice_within (hchoice st)
    constructor <;> intros
    case' expression =>
      unfold expression
      mvcgen [hexpression, hchoice]
    case' choice =>
      unfold choice
      mvcgen [hexpression, hbinary]
    case' binary =>
      unfold binary
      mvcgen [hunary, hbinaryRest]
    case' binaryRest =>
      unfold binaryRest
      mvcgen [hbinary, hbinaryRest]
    case' unary =>
      unfold unary
      mvcgen [hunary, hsuffixed]
    case' suffixed =>
      unfold suffixed
      mvcgen [hprimary, hsuffixes]
    case' suffixes =>
      unfold suffixes
      mvcgen [hsuffixes, hoptionalSuffix, hexpression, helements]
    case' optionalSuffix =>
      unfold optionalSuffix
      mvcgen [hexpression, helements]
    case' primary =>
      unfold primary
      mvcgen [hexpression, helements, hproperties]
    case' elements =>
      unfold elements
      mvcgen [hexpression, helements]
    case' properties =>
      unfold properties
      mvcgen [hexpression, hproperties]
    all_goals clear hexpression hchoice hbinary hbinaryRest hunary hsuffixed hsuffixes
    all_goals clear hoptionalSuffix hprimary helements hproperties
    -- on every path: the bounds of the calls, and that what they leave is in the source
    all_goals grind

@[spec]
lemma expression_within : ⦃⌜st.IsIn source⌝⦄ expression st ⦃Within source fun r =>
    Stream.NotBefore source st.after.offset r ∧ r.value.span.IsIn source⦄ := by
  have h : ⦃⌜st.IsIn source⌝⦄ expression st ⦃st.Stays source⦄ :=
    triple_of_below fun n => (staysBelow n).expression st
  refine triple_iff.mpr fun hst => ⟨fun r hr => ?_, (triple_iff.mp h hst).2⟩
  have hreads : Reads (.expression r.value) st r.next := Stream.gives_of_eq_ok hr
  exact ⟨(triple_iff.mp h hst).1 r hr, (derives_of_reads hreads).isIn hst _ r.value.span_mem_spans⟩

end Grammar

/-! ## Scripts -/

/-- **The readers of statements stay in a source** as long as their measure is below a bound. -/
structure Grammar.ScriptStaysBelow (source : List Char) (n : Nat) : Prop where
  statements (nested : Bool) (st : Stream) :
    ⦃⌜st.IsIn source ∧ st.remaining * 2 + 1 < n⌝⦄ statements nested st ⦃st.Stays source⦄
  statement (st : Stream) : ⦃⌜st.IsIn source ∧ st.remaining * 2 < n⌝⦄ statement st ⦃st.Stays source⦄

lemma Grammar.scriptStaysBelow (n : Nat) : ScriptStaysBelow source n := by
  induction n with
  | zero => constructor <;> (intros; exact triple_of_lt_zero)
  | succ n ih =>
    obtain ⟨hstatements, hstatement⟩ := ih
    constructor <;> intros
    case statements =>
      unfold statements
      mvcgen [hstatements, hstatement]
      all_goals grind
    case statement =>
      unfold statement
      mvcgen [hstatements]
      all_goals grind

lemma Grammar.statements_within (nested : Bool) (st : Stream) :
    ⦃⌜st.IsIn source⌝⦄ statements nested st ⦃st.Stays source⦄ :=
  triple_of_below fun n => (scriptStaysBelow n).statements nested st

lemma Statement.ofCursor_within (cur : Cursor) :
    ⦃⌜cur.IsIn source⌝⦄ Statement.ofCursor cur ⦃Within source fun _ => True⦄ := by
  mvcgen [Statement.ofCursor, statements_within]
  all_goals grind

end ComponentTemplate
