import ComponentTemplate.Proofs.Lookahead
import ComponentTemplate.Proofs.Reading
import ComponentTemplate.Script.Parser

/-!
# Derivations of statements

The grammar of statements as a relation between two streams, over the derivations of
expressions.
-/

namespace ComponentTemplate

open Statement

mutual

def Statement.exprs : Statement → List Expr
  | .expression _ expr => [expr]
  | .block _ body => exprsOf body

def Statement.exprsOf : List Statement → List Expr
  | [] => []
  | statement :: rest => statement.exprs ++ exprsOf rest

end

lemma Lexeme.Opens.ne_mark {l : Lexeme} {bare : Bool} (h : l.Opens bare) {text : String}
    (htext : text ∉ openingMarks ++ signs) : l ≠ .mark text := by
  rintro rfl
  rcases h with h | ⟨-, h⟩
  · exact htext (List.mem_append_left _ h)
  · exact htext (List.mem_append_right _ h)

namespace Grammar

/-- **The phrases of scripts**: statements in a row, in a block if `nested`, and one
statement. -/
inductive ScriptPhrase where
  | statements (nested : Bool) (body : List Statement)
  | statement (statement : Statement)

/-- Where statements in a row end: before the closing brace of their block, or at the end of
the input. -/
def statementsEnd (nested : Bool) : Lexeme := if nested then .mark "\x7d" else .finish

/-- **The phrase between two streams.** -/
inductive ScriptDerives : ScriptPhrase → Stream → Stream → Prop
  | done {st} {nested} (hend : st.current.lexeme = statementsEnd nested) :
      ScriptDerives (.statements nested []) st st
  | skip {st st₁ st₂} {nested} {body}
      (hsemicolon : st.Passes (.mark ";") st₁)
      (hrest : ScriptDerives (.statements nested body) st₁ st₂) :
      ScriptDerives (.statements nested body) st st₂
  | cons {st st₁ st₂} {nested} {first} {rest}
      (hfirst : ScriptDerives (.statement first) st st₁)
      (hrest : ScriptDerives (.statements nested rest) st₁ st₂) :
      ScriptDerives (.statements nested (first :: rest)) st st₂
  | block {st st₁ st₂ st₃} {body}
      (hopen : st.Passes (.mark "\x7b") st₁)
      (hbody : ScriptDerives (.statements true body) st₁ st₂)
      (hclose : st₂.Passes (.mark "\x7d") st₃) :
      ScriptDerives (.statement (.block ⟨st.current.span.start, st₃.lastStop⟩ body)) st st₃
  | ended {st st₁ st₂} {e} (hopen : st.current.lexeme ≠ .mark "\x7b")
      (hexpr : Derives (.expression e) st st₁) (hsemicolon : st₁.Passes (.mark ";") st₂) :
      ScriptDerives (.statement (.expression ⟨st.current.span.start, st₂.lastStop⟩ e)) st st₂
  | last {st st₁} {e} (hopen : st.current.lexeme ≠ .mark "\x7b")
      (hexpr : Derives (.expression e) st st₁)
      (hend : st₁.current.lexeme = .mark "\x7d" ∨ st₁.current.lexeme = .finish) :
      ScriptDerives (.statement (.expression ⟨st.current.span.start, st₁.lastStop⟩ e)) st st₁

/-! ## What is read has a derivation -/

mutual

theorem derives_of_statements (h : Gives (statements nested st) body st') :
    ScriptDerives (.statements nested body) st st' := by
  rw [statements] at h
  split at h
  · rename_i hfinish
    cases nested with
    | true => exact absurd h not_gives_error
    | false =>
      obtain ⟨rfl, rfl⟩ := gives_pure.mp h
      exact .done (decide_eq_true_iff.mp hfinish)
  · split at h
    · rename_i hclose
      obtain ⟨rfl, hclose⟩ := Bool.and_eq_true_iff.mp hclose
      obtain ⟨rfl, rfl⟩ := gives_pure.mp h
      exact .done (Stream.atMark_iff.mp hclose)
    · simp only [gives_acceptMark_iff, gives_bind, gives_pure] at h
      obtain ⟨-, _, _, hfirst, _, _, hrest, rfl, rfl⟩ | ⟨_, hsemicolon, _, _, hbody, rfl, rfl⟩ := h
      · have hlt := hfirst.lt
        exact .cons (derives_of_statement hfirst) (derives_of_statements hrest)
      · have hlt := hsemicolon.next.remaining_lt
        exact .skip hsemicolon (derives_of_statements hbody)
termination_by st.remaining * 2 + 1
decreasing_by all_goals omega

theorem derives_of_statement (h : Gives (statement st) s st') :
    ScriptDerives (.statement s) st st' := by
  rw [statement] at h
  simp only [gives_acceptMark_iff, gives_bind, gives_expectMark_iff, gives_expression_iff,
    gives_pure] at h
  obtain ⟨hopen, _, _, hexpr, ⟨-, h⟩ | ⟨_, hsemicolon, rfl, rfl⟩⟩ |
    ⟨_, hmark, _, _, hbody, _, _, ⟨-, hclose⟩, rfl, rfl⟩ := h
  · split at h
    · rename_i hend
      obtain ⟨rfl, rfl⟩ := gives_pure.mp h
      exact .last hopen hexpr (by simpa [Stream.atMark, Stream.atFinish] using hend)
    · exact absurd h not_gives_error
  · exact .ended hopen hexpr hsemicolon
  · have hlt := hmark.next.remaining_lt
    exact .block hmark (derives_of_statements hbody) hclose
termination_by st.remaining * 2
decreasing_by all_goals omega

end

/-! ## What has a derivation is read -/

def ScriptPhrase.Reads (st st' : Stream) : ScriptPhrase → Prop
  | statements nested body => Gives (Grammar.statements nested st) body st'
  | statement s => Gives (Grammar.statement st) s st' ∧ st.current.lexeme.Opens false

lemma reads_of_scriptDerives {phrase : ScriptPhrase} {st st' : Stream}
    (h : ScriptDerives phrase st st') : phrase.Reads st st' := by
  induction h with
  | @done st nested hend =>
    rw [ScriptPhrase.Reads, statements]
    cases nested <;> simp_all [statementsEnd, Stream.atFinish, Stream.atMark, gives_pure]
  | @skip st _ _ nested _ hsemicolon _ ih =>
    have hfinish : ¬ st.atFinish = true := by simp [Stream.atFinish, hsemicolon.lexeme_eq]
    have hclose : ¬ (nested && st.atMark "\x7d") = true := by
      simp [Stream.atMark, hsemicolon.lexeme_eq]
    rw [ScriptPhrase.Reads, statements, if_neg hfinish, if_neg hclose]
    simp only [gives_acceptMark_iff, gives_bind, gives_pure]
    exact .inr ⟨_, hsemicolon, _, _, ih, rfl, rfl⟩
  | @cons st _ _ nested _ _ _ _ ihfirst ihrest =>
    obtain ⟨hfirst, hopens⟩ := ihfirst
    -- no statement starts with a token that ends the statements or stands between them
    have hfinish : ¬ st.atFinish = true := by
      intro hfinish
      rw [decide_eq_true_iff.mp hfinish] at hopens
      exact hopens
    have hclose : ¬ (nested && st.atMark "\x7d") = true := by
      simp [Stream.atMark, show st.current.lexeme ≠ .mark "\x7d" from hopens.ne_mark (by decide)]
    rw [ScriptPhrase.Reads, statements, if_neg hfinish, if_neg hclose]
    simp only [gives_acceptMark_iff, gives_bind, gives_pure]
    exact .inl ⟨hopens.ne_mark (by decide), _, _, hfirst, _, _, ihrest, rfl, rfl⟩
  | block hopen _ hclose ih =>
    refine ⟨?_, by rw [hopen.lexeme_eq]; exact .inl (by decide)⟩
    rw [statement]
    simp only [gives_acceptMark_iff, gives_bind, gives_expectMark_iff, gives_pure]
    exact .inr ⟨_, hopen, _, _, ih, _, _, ⟨rfl, hclose⟩, rfl, rfl⟩
  | ended hopen hexpr hsemicolon =>
    refine ⟨?_, opens_of_derives hexpr⟩
    rw [statement]
    simp only [gives_acceptMark_iff, gives_bind, gives_expression_iff, gives_pure]
    exact .inl ⟨hopen, _, _, hexpr, .inr ⟨_, hsemicolon, rfl, rfl⟩⟩
  | @last _ st₁ _ hopen hexpr hend =>
    refine ⟨?_, opens_of_derives hexpr⟩
    have hsemicolon : st₁.current.lexeme ≠ .mark ";" := by
      rcases hend with hend | hend <;> simp [hend]
    have hat : (st₁.atMark "\x7d" || st₁.atFinish) = true := by
      simpa [Stream.atMark, Stream.atFinish] using hend
    rw [statement]
    simp only [gives_acceptMark_iff, gives_bind, gives_expression_iff, gives_pure]
    refine .inl ⟨hopen, _, _, hexpr, .inl ⟨hsemicolon, ?_⟩⟩
    rw [if_pos hat]
    exact gives_pure.mpr ⟨rfl, rfl⟩

/-! ## What has a derivation is well-formed -/

def ScriptPhrase.exprs : ScriptPhrase → List Expr
  | statements _ body => exprsOf body
  | statement s => s.exprs

/-- **Statements that have a derivation hold well-formed expressions only**, and leave a sound
token. -/
theorem wellFormed_of_scriptDerives (h : ScriptDerives phrase st st')
    (hsound : st.current.lexeme.IsSound) :
    (∀ e ∈ phrase.exprs, e.WellFormed) ∧ st'.current.lexeme.IsSound := by
  induction h with
  | done _ => exact ⟨by simp [ScriptPhrase.exprs, exprsOf], hsound⟩
  | skip hsemicolon _ ih => exact ih hsemicolon.next.isSound
  | cons _ _ ihfirst ihrest =>
    obtain ⟨hfirst, hsound₁⟩ := ihfirst hsound
    obtain ⟨hrest, hsound₂⟩ := ihrest hsound₁
    refine ⟨fun e he => ?_, hsound₂⟩
    rcases List.mem_append.mp he with he | he
    · exact hfirst e he
    · exact hrest e he
  | block hopen _ hclose ih => exact ⟨(ih hopen.next.isSound).1, hclose.next.isSound⟩
  | ended _ hexpr hsemicolon =>
    refine ⟨fun e he => ?_, hsemicolon.next.isSound⟩
    obtain rfl := List.mem_singleton.mp he
    exact (wellFormed_of_derives hexpr hsound).1
  | last _ hexpr _ =>
    obtain ⟨hwf, hsound₁⟩ := wellFormed_of_derives hexpr hsound
    refine ⟨fun e he => ?_, hsound₁⟩
    obtain rfl := List.mem_singleton.mp he
    exact hwf

end Grammar

lemma Statement.ofCursor_eq_ok_iff :
    ofCursor cur = .ok body ↔ ∃ st st' : Stream, st.At cur ∧
      Grammar.ScriptDerives (.statements false body) st st' := by
  unfold ofCursor
  constructor
  · intro h
    obtain ⟨⟨_, st, _⟩, hstart, h⟩ := bind_eq_ok.mp h
    obtain ⟨⟨body', st', _⟩, hbody, h⟩ := bind_eq_ok.mp h
    cases h
    exact ⟨st, st', .of_start hstart, Grammar.derives_of_statements (.of_eq_ok hbody)⟩
  · rintro ⟨st, st', hat, hderives⟩
    obtain ⟨_, hstart⟩ := hat.start_eq
    obtain ⟨_, hbody⟩ : Gives (Grammar.statements false st) body st' :=
      Grammar.reads_of_scriptDerives hderives
    rw [hstart]
    simp only [ok_bind, hbody]
    rfl

lemma Statement.wellFormed_of_ofCursor (h : ofCursor cur = .ok body) :
    ∀ e ∈ exprsOf body, e.WellFormed := by
  obtain ⟨st, st', hat, hderives⟩ := ofCursor_eq_ok_iff.mp h
  exact (Grammar.wellFormed_of_scriptDerives hderives hat.isSound).1

end ComponentTemplate
