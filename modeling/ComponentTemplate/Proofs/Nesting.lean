import ComponentTemplate.Proofs.Plain
import ComponentTemplate.Proofs.Regions

/-!
# Nested regions

Expressions are read from left to right, so that the children of one stand in its region one after
another. A list of parts becomes an expression when what surrounds the parts is known: the token
that it starts with, or the first and the last part.
-/

namespace ComponentTemplate

namespace Expr

variable {e : Expr} {es es' : List Expr} {start stop : Nat}

def isCollection : Expr → Bool
  | array .. | object .. => true
  | _ => false

/-- **An expression holds its children**: they stand in its region one after another, and after
the bracket that opens a list or an object. -/
structure HoldsChildren (e : Expr) : Prop where
  lt : e.span.start < e.span.stop
  inside : ∀ child ∈ e.children, e.span.start ≤ child.span.start ∧ child.span.stop ≤ e.span.stop
  inOrder : e.children.Pairwise fun a b => a.span.stop ≤ b.span.start
  bracket : e.isCollection = true → ∀ child ∈ e.children, e.span.start < child.span.start

/-- **Nested regions**: all parts hold their children. -/
def Nests (e : Expr) : Prop := ∀ part ∈ e.outline, part.expr.HoldsChildren

/-- **A row of expressions** from one place to another: one after another, with nested regions. -/
def Row (start : Nat) : List Expr → Nat → Prop
  | [], stop => start ≤ stop
  | e :: es, stop => start ≤ e.span.start ∧ e.Nests ∧ Row e.span.stop es stop

lemma Nests.holds (h : e.Nests) : e.HoldsChildren := (forall_mem_outline_iff.mp h).1

lemma Row.nil : Row start [] start := le_rfl

lemma Row.le (h : Row start es stop) : start ≤ stop := by
  induction es generalizing start with
  | nil => exact h
  | cons e es ih =>
    obtain ⟨hle, hnests, hrest⟩ := h
    exact hle.trans (hnests.holds.lt.le.trans (ih hrest))

lemma Row.mono {start' stop' : Nat} (h : Row start es stop) (hstart : start' ≤ start)
    (hstop : stop ≤ stop') : Row start' es stop' := by
  induction es generalizing start start' with
  | nil => exact hstart.trans (h.trans hstop)
  | cons e es ih => exact ⟨hstart.trans h.1, h.2.1, ih h.2.2 le_rfl⟩

lemma Row.append {mid : Nat} (h : Row start es mid) (h' : Row mid es' stop) :
    Row start (es ++ es') stop := by
  induction es generalizing start with
  | nil => exact h'.mono h le_rfl
  | cons e es ih => exact ⟨h.1, h.2.1, ih h.2.2⟩

lemma Row.mem (h : Row start es stop) (hmem : e ∈ es) :
    start ≤ e.span.start ∧ e.span.stop ≤ stop ∧ e.Nests := by
  induction es generalizing start with
  | nil => cases hmem
  | cons first es ih =>
    obtain ⟨hle, hnests, hrest⟩ := h
    rcases List.mem_cons.mp hmem with rfl | hmem
    · exact ⟨hle, hrest.le, hnests⟩
    · obtain ⟨hstart, hstop⟩ := ih hrest hmem
      exact ⟨hle.trans (hnests.holds.lt.le.trans hstart), hstop⟩

lemma Row.pairwise (h : Row start es stop) : es.Pairwise fun a b => a.span.stop ≤ b.span.start := by
  induction es generalizing start with
  | nil => exact .nil
  | cons e es ih => exact .cons (fun _ hmem => (h.2.2.mem hmem).1) (ih h.2.2)

lemma Row.append_of_le {mid mid' : Nat} (h : Row start es mid) (hle : mid ≤ mid')
    (h' : Row mid' es' stop) : Row start (es ++ es') stop :=
  h.append (h'.mono hle le_rfl)

/-- **An expression around a row** of children. -/
lemma row_around {mid : Nat} (h : Row mid e.children stop) (hspan : e.span = ⟨start, stop⟩)
    (hle : start ≤ mid) (hlt : start < stop)
    (hbracket : e.isCollection = true → ∀ child ∈ e.children, start < child.span.start) :
    Row start [e] stop := by
  have hchild {child : Expr} (hmem : child ∈ e.children) := h.mem hmem
  refine ⟨by rw [hspan], forall_mem_outline_iff.mpr ⟨⟨?_, fun child hmem => ?_, h.pairwise, ?_⟩,
    fun child hmem => (hchild hmem).2.2⟩, by rw [Row, hspan]⟩
  · rwa [hspan]
  · rw [hspan]
    exact ⟨hle.trans (hchild hmem).1, (hchild hmem).2.1⟩
  · rwa [hspan]

/-- An expression that starts before its children. -/
lemma row_after {mid : Nat} (h : Row mid e.children stop) (hspan : e.span = ⟨start, stop⟩)
    (hlt : start < mid) : Row start [e] stop :=
  row_around h hspan hlt.le (hlt.trans_le h.le) fun _ _ hmem => hlt.trans_le (h.mem hmem).1

/-- An expression that starts with its first child. -/
lemma row_from {head : Expr} {mid mid' : Nat} (hhead : Row start [head] mid) (hle : mid ≤ mid')
    (h : Row mid' es stop) (hspan : e.span = ⟨start, stop⟩) (hchildren : e.children = head :: es)
    (hbracket : e.isCollection = false) : Row start [e] stop := by
  have hrow : Row start e.children stop := hchildren ▸ hhead.append_of_le hle h
  have hlt : start < mid := hhead.1.trans_lt (hhead.2.1.holds.lt.trans_le hhead.2.2)
  exact row_around hrow hspan le_rfl (hlt.trans_le (hle.trans h.le)) (by simp [hbracket])

lemma Row.to_last {last : Expr} (h : Row start (es ++ [last]) stop) :
    Row start (es ++ [last]) last.span.stop := by
  induction es generalizing start with
  | nil => exact ⟨h.1, h.2.1, le_rfl⟩
  | cons e es ih => exact ⟨h.1, h.2.1, ih h.2.2⟩

/-- An expression from its first child to its last one. -/
lemma row_merge {first last : Expr} (es : List Expr) (h : Row start e.children stop)
    (hspan : e.span = first.span.merge last.span) (hchildren : e.children = first :: (es ++ [last]))
    (hbracket : e.isCollection = false) : Row start [e] stop := by
  rw [hchildren] at h
  obtain ⟨hstart, hfirst, hrest⟩ := h
  obtain ⟨hle, hstop, hlast⟩ := hrest.mem (List.mem_append_right _ (List.mem_singleton_self last))
  have hrow : Row first.span.start e.children last.span.stop := by
    rw [hchildren]
    exact ⟨le_rfl, hfirst, hrest.to_last⟩
  have hlt := hfirst.holds.lt
  have hlt' := hlast.holds.lt
  have heq : e.span = ⟨first.span.start, last.span.stop⟩ := by
    rw [hspan, Span.merge, Nat.min_eq_left (by omega), Nat.max_eq_right (by omega)]
  have hmerged := row_around hrow heq le_rfl (by omega) (by simp [hbracket])
  exact hmerged.mono hstart hstop

lemma spans_ne_nil (e : Expr) : e.spans ≠ [] := List.ne_nil_of_mem e.span_mem_spans

/-- What has one region only is that region, without children. -/
lemma span_of_spans {span : Span} (h : e.spans = [span]) : e.span = span ∧ e.children = [] := by
  have hne := spans_ne_nil
  cases e with
  | array _ elements =>
    cases elements <;> simp_all [Expr.spans, Expr.spansList, Expr.span, Expr.children]
  | object _ properties =>
    rcases properties with _ | ⟨⟨key, value⟩, properties⟩ <;>
      simp_all [Expr.spans, Property.spansList, Expr.span, Expr.children]
  | _ => simp_all [Expr.spans, Expr.span, Expr.children]

end Expr

namespace Stream

variable {source : List Char} {st st₁ : Stream} {e : Expr}

@[grind →]
lemma Next.start_lt (h : st.Next st₁) (hst : st.IsIn source) :
    st.current.span.start < st₁.lastStop := by
  rw [h.lastStop]
  exact hst.lt h.ne_finish

lemma Next.row (h : st.Next st₁) (hst : st.IsIn source) (he : e.spans = [st.current.span]) :
    Expr.Row st.current.span.start [e] st₁.lastStop := by
  obtain ⟨hspan, hchildren⟩ := Expr.span_of_spans he
  have hrow : Expr.Row st.current.span.start e.children st.current.span.stop := by
    rw [hchildren]
    exact hst.span.le
  rw [h.lastStop]
  exact Expr.row_around hrow hspan le_rfl (hst.lt h.ne_finish) (by simp [hchildren])

lemma Passes.row {name : String} (h : st.Passes (.word name) st₁) (hst : st.IsIn source) :
    Expr.Row st.current.span.start [.identifier st.current.span name] st₁.lastStop :=
  h.next.row hst rfl

end Stream

namespace Grammar

variable {source : List Char} {phrase : Phrase} {st st' : Stream}

@[grind →]
lemma Derives.isIn_next (h : Derives phrase st st') (hst : st.IsIn source) :
    st'.IsIn source ∧ st.lastStop ≤ st'.lastStop :=
  ⟨(h.isIn_all hst).1, (h.isIn_all hst).2.1⟩

/-- **A phrase stands for a row** between its streams. What goes on from an expression keeps the
row that it is in. -/
def Phrase.Row (st st' : Stream) : Phrase → Prop
  | .expression e | .choice e | .binary _ e | .unary e | .suffixed e | .primary e =>
    Expr.Row st.current.span.start [e] st'.lastStop
  | .binaryRest _ left e =>
    ∀ start, Expr.Row start [left] st.lastStop → Expr.Row start [e] st'.lastStop
  | .suffixes start head e | .optionalSuffix start head e =>
    Expr.Row start [head] st.lastStop → Expr.Row start [e] st'.lastStop
  | .elements _ es | .params es => Expr.Row st.lastStop es st'.lastStop
  | .properties ps => Expr.Row st.lastStop (ps.flatMap fun p => [p.key, p.value]) st'.lastStop

theorem Derives.row (h : Derives phrase st st') (hst : st.IsIn source) : phrase.Row st st' := by
  induction h with
  | arrow _ hopen hparams hclose hmark hbody ihparams ihbody =>
    have hrow := (ihparams (by grind)).append_of_le (by grind) (ihbody (by grind))
    exact Expr.row_after hrow rfl (by grind)
  | shortArrow _ hname _ hmark hbody ihbody =>
    exact Expr.row_from (hname.row hst) (by grind) (ihbody (by grind)) rfl rfl rfl
  | plain _ _ _ ih => exact ih hst
  | assignment _ hleft _ _ hnext hright ihleft ihright =>
    have hrow := (ihleft hst).append_of_le (by grind) (ihright (by grind))
    exact Expr.row_merge [] hrow rfl rfl rfl
  | test _ _ ih => exact ih hst
  | conditional htest hmark hconsequent hcolon halternate ihtest ihconsequent ihalternate =>
    have hrow := (ihtest hst).append_of_le (by grind)
      ((ihconsequent (by grind)).append_of_le (by grind) (ihalternate (by grind)))
    exact Expr.row_merge [_] hrow rfl rfl rfl
  | binary hleft hrest ihleft ihrest => exact ihrest (by grind) _ (ihleft hst)
  | binaryEnd _ | binaryWeaker _ _ => exact fun _ h => h
  | binaryStep hop _ hright hrest ihright ihrest =>
    intro start hleft
    have hrow := hleft.append_of_le (by grind) (ihright (by grind))
    exact ihrest (by grind) _ (Expr.row_merge [] hrow rfl rfl rfl)
  | unary _ hnext hargument ih | leadingUpdate _ _ hnext hargument ih =>
    exact Expr.row_after (ih (by grind)) rfl (by grind)
  | operand _ _ _ ih => exact ih hst
  | suffixed hhead hsuffixes ihhead ihsuffixes => exact ihsuffixes (by grind) (ihhead hst)
  | member hmark hname hrest ih =>
    have hrow := hname.row (hmark.next.isIn hst)
    exact fun hhead => ih (by grind) (Expr.row_from hhead (by grind) hrow rfl rfl rfl)
  | optional hmark happlied hrest ihapplied ihrest =>
    exact fun hhead => ihrest (by grind) (ihapplied (by grind) (hhead.mono le_rfl (by grind)))
  | computed hopen hproperty hclose hrest ihproperty ihrest =>
    exact fun hhead => ihrest (by grind) (Expr.row_from hhead (by grind)
      ((ihproperty (by grind)).mono le_rfl (by grind)) rfl rfl rfl)
  | call hopen harguments hrest iharguments ihrest
  | filterCall _ _ hopen harguments hrest iharguments ihrest =>
    exact fun hhead => ihrest (by grind) (Expr.row_from hhead (by grind) (iharguments (by grind))
      rfl rfl rfl)
  | filter hmark hname _ hrest ih =>
    exact fun hhead => ih (by grind) (Expr.row_from hhead (by grind) .nil rfl rfl rfl)
  | trailingUpdate _ hnext => exact fun hhead => Expr.row_from hhead (by grind) .nil rfl rfl rfl
  | suffixesEnd _ => exact fun h => h
  | optionalCall hopen harguments ih =>
    exact fun hhead => Expr.row_from hhead (by grind) (ih (by grind)) rfl rfl rfl
  | optionalComputed hopen hproperty hclose ih =>
    exact fun hhead => Expr.row_from hhead (by grind) ((ih (by grind)).mono le_rfl (by grind))
      rfl rfl rfl
  | optionalMember hname =>
    exact fun hhead => Expr.row_from hhead (by grind) (hname.row hst) rfl rfl rfl
  | atom hatom hnext => exact hnext.row hst (Token.spans_of_atom? hatom)
  | parens hopen hinner hclose ih => exact (ih (by grind)).mono (by grind) (by grind)
  | array hopen hitems ih => exact Expr.row_after (ih (by grind)) rfl (by grind)
  | object hopen hentries hclose ih =>
    exact Expr.row_after ((ih (by grind)).mono le_rfl (by grind)) rfl (by grind)
  | elementsNil hclose => exact Expr.Row.nil.mono (by grind) le_rfl
  | elementsLast _ hfirst _ hclose ih => exact (ih hst).mono (by grind) (by grind)
  | elementsCons _ hfirst hcomma hrest ihfirst ihrest =>
    exact ((ihfirst hst).append_of_le (by grind) (ihrest (by grind))).mono (by grind) le_rfl
  | propertiesNil _ => exact .nil
  | propertiesLast hkey hnext hcolon hvalue _ ih =>
    have hrow := hnext.row hst (Token.spans_of_key? hkey)
    exact (hrow.append_of_le (by grind) (ih (by grind))).mono (by grind) le_rfl
  | propertiesCons hkey hnext hcolon hvalue hcomma hrest ihvalue ihrest =>
    have hrow := hnext.row hst (Token.spans_of_key? hkey)
    have hentry := hrow.append_of_le (by grind) (ihvalue (by grind))
    exact (hentry.append_of_le (by grind) (ihrest (by grind))).mono (by grind) le_rfl
  | paramsNil _ => exact .nil
  | paramsLast hname _ _ => exact (hname.row hst).mono (by grind) le_rfl
  | paramsCons hname _ hcomma hrest ih =>
    exact ((hname.row hst).append_of_le (by grind) (ih (by grind))).mono (by grind) le_rfl

end Grammar

end ComponentTemplate
