import ComponentTemplate.Proofs.Elements
import ComponentTemplate.Proofs.TagPieces

/-!
# Printing and reading tags and blocks

An inline tag is printed as one tag, and a block as its opening tag, its content, perhaps tags in
the middle with further content, and its closing tag. All of them are read back, wherever they
stand, if their content is.
-/

namespace ComponentTemplate

open MarkupGrammar Node Doc List
open LineBreaks (ofSource)
open Option (Rel map_some)

/-! ## Texts between two places -/

/-- **A text stands between two places** of a source. -/
def Occurs (source cs : List Char) (cur next : Cursor) : Prop :=
  ∃ before after, source = before ++ (cs ++ after) ∧ cur = ⟨byteLength before, cs ++ after⟩ ∧
    next = ⟨byteLength before + byteLength cs, after⟩

variable {source cs ds : List Char} {cur next : Cursor}

lemma Occurs.append (h : Occurs source (cs ++ ds) cur next) :
    ∃ mid, Occurs source cs cur mid ∧ Occurs source ds mid next := by
  obtain ⟨before, after, hsource, rfl, rfl⟩ := h
  refine ⟨⟨byteLength before + byteLength cs, ds ++ after⟩,
    ⟨before, ds ++ after, by rw [hsource, append_assoc], by rw [append_assoc], rfl⟩,
    ⟨before ++ cs, after, by simp [hsource], by rw [byteLength_append], ?_⟩⟩
  rw [byteLength_append, byteLength_append, Nat.add_assoc]

lemma Occurs.eq_of_nil (h : Occurs source [] cur next) : next = cur := by
  obtain ⟨before, after, -, rfl, rfl⟩ := h
  rfl

section Reading

variable {ctx : MarkupContext} {p : Printing} {n : Node} {nodes : List Node}

lemma Node.reads_iff : n.Reads ctx p cs ↔ ∀ source cur next, Occurs source cs cur next →
    ∃ n', Derives (.item ctx (.node n')) cur next ∧ n.Reprints p (p.reread source) n' := by
  constructor
  · rintro h source cur next ⟨before, after, hsource, rfl, rfl⟩
    exact h hsource
  · intro h source before after hsource
    exact h source _ _ ⟨before, after, hsource, rfl, rfl⟩

lemma Node.ReadsInside.derives (h : ReadsInside ctx p nodes cs)
    (hoccurs : Occurs source cs cur next) (hkeywords : ∀ keyword ∈ keywords, keyword ∉ itemWords)
    (hstops : Stops (some (.blockTag keywords)) next) :
    ∃ nodes', Derives (.sequence ctx (some (.blockTag keywords)) nodes') cur next ∧
      ReprintsAll p (p.reread source) nodes nodes' := by
  obtain ⟨before, after, hsource, rfl, rfl⟩ := hoccurs
  exact h hsource hkeywords hstops

end Reading

/-! ## Tags -/

section Tags

variable {breaks : Breaks} {word : String} {ps : List Piece} {e : Expr}

lemma BlockText.occurs (h : BlockText word ps cs) (hword : isName word.toList = true)
    (hps : Piece.Spaced ps) (hoccurs : Occurs source cs cur next) :
    (∃ inner, cur.rest = '{' :: '%' :: inner) ∧ ∃ st st' : Stream, OpensTag word cur st ∧
      st.Covers (ofSource source) ps st' ∧ st'.EndsBlock next := by
  obtain ⟨before, after, hsource, rfl, rfl⟩ := hoccurs
  exact h.covers hword hps hsource

lemma BlockText.expression (h : BlockText word (e.pieces breaks .space) cs)
    (hword : isName word.toList = true) (he : e.Sound breaks)
    (hoccurs : Occurs source cs cur next) :
    (∃ inner, cur.rest = '{' :: '%' :: inner) ∧ ∃ e' st st₁, OpensTag word cur st ∧
      Grammar.Derives (.expression e') st st₁ ∧ st₁.EndsBlock next ∧
      e.Reprints breaks (ofSource source).atLeast e' := by
  obtain ⟨hrest, st, st₁, hopens, hcovers, hend⟩ := h.occurs hword he.spaced hoccurs
  obtain ⟨e', hreprints, -, hderives⟩ := he.rereads hcovers (by rw [hend.lexeme_eq]; decide)
  exact ⟨hrest, e', st, st₁, hopens, hderives, hend, hreprints⟩

lemma BlockText.wordTag (h : BlockText word [] cs) (hword : isName word.toList = true)
    (hoccurs : Occurs source cs cur next) :
    blockKeyword? cur = some word ∧ WordTag word cur next := by
  obtain ⟨⟨inner, hrest⟩, st, _, hopens, ⟨⟩, hend⟩ := h.occurs hword .nil hoccurs
  exact ⟨blockKeyword?_eq hrest hopens, st, hopens, hend⟩

lemma InlineText.sign
    (h : InlineText (⟨.space, .mark "@"⟩ :: ⟨.none, .word word⟩ :: e.pieces breaks .space) cs)
    (hword : isName word.toList = true) (he : e.Sound breaks)
    (hoccurs : Occurs source cs cur next) :
    (∃ inner, cur.rest = '{' :: '{' :: inner) ∧ ∃ e', ∃ st st₁ st₂ st₃ : Stream,
      st.At (cur.skip 2) ∧ st.Passes (.mark "@") st₁ ∧ st₁.Passes (.word word) st₂ ∧
      Grammar.Derives (.expression e') st₂ st₃ ∧ st₃.EndsInline next ∧
      e.Reprints breaks (ofSource source).atLeast e' := by
  obtain ⟨before, after, hsource, rfl, rfl⟩ := hoccurs
  obtain ⟨hrest, st, st₃, hat, hcovers, hend⟩ := h.covers (legible_sign he hword) hsource
  obtain ⟨st₁, hsign, -, hcovers⟩ := Stream.covers_cons.mp hcovers
  obtain ⟨st₂, hname, -, hcovers⟩ := Stream.covers_cons.mp hcovers
  obtain ⟨e', hreprints, -, hderives⟩ := he.rereads hcovers (by rw [hend.lexeme_eq]; decide)
  exact ⟨hrest, e', st, st₁, st₂, st₃, hat, hsign, hname, hderives, hend, hreprints⟩

lemma Expr.isCall_normal (e : Expr) : e.normal.isCall = e.isCall := by cases e <;> rfl

lemma Expr.isAssignment_normal (e : Expr) : e.normal.isAssignment = e.isAssignment := by
  cases e <;> rfl

end Tags

section Nodes

variable {ctx : MarkupContext} {p : Printing} {span : Span} {e : Expr}

lemma Node.readsBack_variableTag (h : e.Sound p.breaks) (hassignment : e.isAssignment = true) :
    (variableTag span e).ReadsBack ctx p := by
  refine (h.prints.sets_block "set" (by decide)).mono fun cs hcs => ?_
  refine reads_iff.mpr fun source cur next hoccurs => ?_
  obtain ⟨⟨inner, hrest⟩, e', st, st₁, hopens, hderives, hend, hreprints⟩ :=
    BlockText.expression hcs (by decide) h hoccurs
  have hassignment' : e'.isAssignment = true := by
    rw [← e'.isAssignment_normal, hreprints.normal, e.isAssignment_normal, hassignment]
  refine ⟨_, .variableTag hrest hopens hderives hassignment' hend, ?_, fun w => ?_⟩
  · rw [normal, normal, hreprints.normal]
  · rw [doc, doc, Printing.reread, hreprints.doc]

/-- **An expression in an inline tag** is read back, on as many lines. -/
theorem Node.readsBack_expressionTag (h : e.Sound p.breaks) :
    (expressionTag span e).ReadsBack ctx p := by
  rw [ReadsBack, doc]
  refine (sets_tagDoc h span.start).mono fun cs hcs => ?_
  generalize hbroken : p.breaks 1 (span.start + 2) e.span.start = broken at hcs
  intro source before after hsource
  have hlegible := (e.run h.wellFormed h.plain (tagGap broken)).legible
  obtain ⟨⟨inner, hrest⟩, st, st', hat, hcovers, hend⟩ := InlineText.covers hcs hlegible hsource
  obtain ⟨e', hreprints, hplaced, hderives⟩ := h.rereads hcovers (by rw [hend.lexeme_eq]; decide)
  have hne : st.current.lexeme ≠ .mark "@" := by
    obtain ⟨l, hl, -, hopens⟩ := (e.run h.wellFormed h.plain (tagGap broken)).head
    obtain ⟨ps, hps⟩ := List.head?_eq_some_iff.mp hl
    rw [hps] at hcovers
    obtain ⟨_, hpass, -, -⟩ := Stream.covers_cons.mp hcovers
    rw [hpass.lexeme_eq]
    exact hopens.ne_mark (by decide)
  refine ⟨_, .inlineTag hrest (.expression hat hne hderives hend), ?_, fun w => ?_⟩
  · rw [normal, normal, hreprints.normal]
  · -- the line breaks before the expression are those of its first piece
    obtain ⟨l, hstands⟩ := Expr.stands_of_pieces hcovers
    have hlast : st.lastStop = byteLength before + 2 := by
      rw [hat.lastStop, Cursor.skip, hrest]
      rfl
    have hbroken' : (ofSource source).atLeast 1 (byteLength before + 2) e'.span.start =
        broken := by
      rw [← hlast, hplaced.start.atLeast_right hstands.lastStop_le, hstands.before]
      cases broken <;> rfl
    simp [doc, tagDoc, Printing.reread, Cursor.spanTo, hbroken, hbroken', hreprints.doc]

lemma Node.readsBack_htmlTag (h : e.Sound p.breaks) : (htmlTag span e).ReadsBack ctx p := by
  refine (sets_signTag h "html" (by decide)).mono fun cs hcs => ?_
  refine reads_iff.mpr fun source cur next hoccurs => ?_
  obtain ⟨⟨inner, hrest⟩, e', st, st₁, st₂, st₃, hat, hsign, hword, hderives, hend, hreprints⟩ :=
    InlineText.sign hcs (by decide) h hoccurs
  refine ⟨_, .inlineTag hrest (.html hat hsign hword hderives hend), ?_, fun w => ?_⟩
  · rw [normal, normal, hreprints.normal]
  · rw [doc, doc, Printing.reread, hreprints.doc]

lemma Node.readsBack_renderTag (h : e.Sound p.breaks) (hcall : e.isCall = true) :
    (renderTag span e).ReadsBack ctx p := by
  refine (sets_signTag h "render" (by decide)).mono fun cs hcs => ?_
  refine reads_iff.mpr fun source cur next hoccurs => ?_
  obtain ⟨⟨inner, hrest⟩, e', st, st₁, st₂, st₃, hat, hsign, hword, hderives, hend, hreprints⟩ :=
    InlineText.sign hcs (by decide) h hoccurs
  have hcall' : e'.isCall = true := by
    rw [← e'.isCall_normal, hreprints.normal, e.isCall_normal, hcall]
  refine ⟨_, .inlineTag hrest (.render hat hsign hword hderives hcall' hend), ?_, fun w => ?_⟩
  · rw [normal, normal, hreprints.normal]
  · rw [doc, doc, Printing.reread, hreprints.doc]

end Nodes

/-! ## Further content of blocks -/

section Options

variable {p p' : Printing} {breaks breaks' : Breaks}

lemma Expr.map_normal_eq (h : Rel (Expr.Reprints breaks breaks') name name') :
    name'.map Expr.normal = name.map Expr.normal := by
  cases h with
  | none => rfl
  | some h => rw [map_some, map_some, h.normal]

lemma Node.map_normals_eq (h : Rel (ReprintsAll p p') nodes nodes') :
    nodes'.map normals = nodes.map normals := by
  cases h with
  | none => rfl
  | some h => rw [map_some, map_some, h.normals]

def elseDoc (p : Printing) : Option (List Node) → Doc
  | none => .empty
  | some nodes => "\x7b% else %\x7d" ++ .fragment (siblings p nodes)

lemma write_elseDoc (h : Rel (ReprintsAll p p') nodes nodes') (w : Writer) :
    (elseDoc p' nodes').write w = (elseDoc p nodes).write w := by
  cases h with
  | none => rfl
  | some h => rw [elseDoc, elseDoc, write_append, write_append, h.write]

end Options

variable {ctx : MarkupContext} {p : Printing}

/-- **A text starts with one of some tags** where it occurs, and is read there. -/
def ReadsTail (keywords : List String) (R : List Char → Cursor → Cursor → Prop)
    (cs : List Char) : Prop :=
  ∀ ⦃source cur next⦄, Occurs source cs cur next →
    Stops (some (.blockTag keywords)) cur ∧ R source cur next

/-- **A text is read up to one of some tags**, and with them starts with one of others. -/
def ReadsUpTo (words keywords : List String) (R : List Char → Cursor → Cursor → Prop)
    (cs : List Char) : Prop :=
  ∀ ⦃source cur next⦄, Occurs source cs cur next → Stops (some (.blockTag keywords)) next →
    Stops (some (.blockTag words)) cur ∧ R source cur next

section Parts

variable {words keywords : List String} {R R' : List Char → Cursor → Cursor → Prop}
  {tag part last : Doc} {body : List Node}

lemma sets_closing (close : String) (hclose : isName close.toList = true) :
    (Doc.text ("\x7b% " ++ close ++ " %\x7d")).Sets
      (ReadsTail [close] fun _ => WordTag close) := by
  refine (sets_wordTag close hclose).mono fun cs hcs source cur next hoccurs => ?_
  obtain ⟨hkeyword, hwordTag⟩ := BlockText.wordTag hcs hclose hoccurs
  exact ⟨⟨close, by simp, hkeyword⟩, hwordTag⟩

lemma sets_upTo (hpart : part.Lays (ReadsUpTo words keywords R))
    (hlast : last.Sets (ReadsTail keywords R')) :
    (part ++ last).Sets
      (ReadsTail words fun source cur next => ∃ mid, R source cur mid ∧ R' source mid next) := by
  refine (hpart.sets hlast).mono ?_
  rintro _ ⟨_, _, rfl, hpart, hlast⟩ source cur next hoccurs
  obtain ⟨mid, hoccursPart, hoccursLast⟩ := hoccurs.append
  obtain ⟨hmid, hread⟩ := hlast hoccursLast
  obtain ⟨hcur, hreadPart⟩ := hpart hoccursPart hmid
  exact ⟨hcur, mid, hreadPart, hread⟩

/-- **A tag and its content are read back** up to what follows the content. -/
theorem Node.sets_content (htag : tag.Sets (BlockText word ps))
    (hbody : ContentReadsBack ctx p body) (hkeywords : ∀ keyword ∈ keywords, keyword ∉ itemWords)
    (hlast : last.Sets (ReadsTail keywords R)) :
    (tag ++ .fragment (siblings p body) ++ last).Sets fun cs => ∀ ⦃source cur next⦄,
      Occurs source cs cur next → ∃ opening after close body',
        BlockText word ps opening ∧ Occurs source opening cur after ∧
        Derives (.sequence ctx (some (.blockTag keywords)) body') after close ∧
        ReprintsAll p (p.reread source) body body' ∧ R source close next := by
  refine ((htag.fills hbody).sets hlast).mono ?_
  rintro _ ⟨_, _, rfl, ⟨opening, inner, rfl, htag, hinner⟩, hlast⟩ source cur next hoccurs
  obtain ⟨close, hoccurs, hoccursLast⟩ := hoccurs.append
  obtain ⟨after, hoccursTag, hoccursInner⟩ := hoccurs.append
  obtain ⟨hstops, hread⟩ := hlast hoccursLast
  obtain ⟨body', hbody', hreprints⟩ := hinner.derives hoccursInner hkeywords hstops
  exact ⟨opening, after, close, body', htag, hoccursTag, hbody', hreprints, hread⟩

end Parts

lemma Node.lays_else (close : String) (hclose : close ≠ "else") (hword : close ∉ itemWords)
    (h : ∀ ns ∈ nodes, ContentReadsBack ctx p ns) :
    (elseDoc p nodes).Lays (ReadsUpTo ["else", close] [close] fun source cur next =>
      ∃ nodes', Derives (.elseBranch ctx close nodes') cur next ∧
        Rel (ReprintsAll p (p.reread source)) nodes nodes') := by
  cases nodes with
  | none =>
    refine lays_empty.mono ?_
    rintro _ rfl source cur next hoccurs ⟨keyword, hmem, hkeyword⟩
    obtain rfl := hoccurs.eq_of_nil
    obtain rfl := mem_singleton.mp hmem
    refine ⟨⟨keyword, by simp, hkeyword⟩, none, .noElse ?_, .none⟩
    simpa [hkeyword] using hclose
  | some ns =>
    have htag := sets_wordTag "else" (by decide)
    refine (htag.fills (h ns rfl)).mono ?_
    rintro _ ⟨tag, inner, rfl, htag, hinner⟩ source cur next hoccurs hstops
    obtain ⟨mid, hoccursTag, hoccursInner⟩ := hoccurs.append
    obtain ⟨helse, hwordTag⟩ := BlockText.wordTag htag (by decide) hoccursTag
    obtain ⟨ns', hderives, hreprints⟩ := hinner.derives hoccursInner (by simpa using hword) hstops
    exact ⟨⟨"else", by simp, helse⟩, some ns', .elseBranch helse hwordTag hderives, .some hreprints⟩

/-! ## Conditions -/

def alternateDoc (p : Printing) : Option (List Node) → Doc
  | none => .empty
  | some nodes =>
    if isSingleBranch nodes then plainDocs p nodes
    else "\x7b% else %\x7d" ++ .fragment (siblings p nodes)

lemma alternateDoc_eq_elseDoc (h : ∀ ns ∈ nodes, isSingleBranch ns = false) :
    alternateDoc p nodes = elseDoc p nodes := by
  cases nodes with
  | none => rfl
  | some ns => simp [alternateDoc, elseDoc, h ns rfl]

section Conditions

variable {span : Span} {test : Expr} {consequent : List Node} {alternate : Option (List Node)}

lemma Node.doc_ifBlock (isBranch : Bool) :
    (ifBlock span isBranch test consequent alternate).doc p =
      .text (if isBranch then "\x7b% elseif " else "\x7b% if ") ++ test.doc p.breaks ++ " %\x7d" ++
        .fragment (siblings p consequent) ++ alternateDoc p alternate ++
        .onlyIf (!isBranch) "\x7b% endif %\x7d" := by
  cases alternate <;> rfl

lemma Node.normal_ifBlock (isBranch : Bool) :
    (ifBlock span isBranch test consequent alternate).normal =
      .ifBlock default isBranch test.normal (normals consequent)
        (alternate.map normals) := by
  cases alternate <;> rfl

/-- **What follows the first branch of a condition is printed as something else**, and differs
from it only in what the normal form forgets. -/
structure Node.ReprintsAlternate (p p' : Printing) (alternate alternate' : Option (List Node)) :
    Prop where
  normals : alternate'.map normals = alternate.map normals
  write : ∀ w, (alternateDoc p' alternate').write w = (alternateDoc p alternate).write w

/-- **A text is read as what follows the first branch of a condition**, with the closing tag. -/
def Node.ReadsAlternative (ctx : MarkupContext) (p : Printing) (alternate : Option (List Node)) :
    List Char → Prop :=
  ReadsTail ["elseif", "else", "endif"] fun source cur next =>
    ∃ alternate', Derives (.alternative ctx alternate') cur next ∧
      ReprintsAlternate p (p.reread source) alternate alternate'

/-- **What follows the first branch of a condition is read back**, with the closing tag. -/
def Node.AlternateReadsBack (ctx : MarkupContext) (p : Printing)
    (alternate : Option (List Node)) : Prop :=
  (alternateDoc p alternate ++ "\x7b% endif %\x7d").Sets (ReadsAlternative ctx p alternate)

lemma Item.StandsAs.eq_node_or_raw {found : Item} {first : Node} {ending : Option Ending}
    (h : found.StandsAs first ending) :
    found = .node first ∨ ∃ element, found = .raw element ∧ first = element.toNode := by
  cases ending with
  | none =>
    have h : found.topLevel false false = .ok (.node first) := h
    cases found with
    | node n =>
      cases h
      exact .inl rfl
    | importTag tag => cases h
    | raw element =>
      refine .inr ⟨element, rfl, ?_⟩
      unfold Item.topLevel at h
      dsimp only at h
      split at h
      · obtain ⟨_, -, h⟩ := bind_eq_ok.mp h
        cases h
      · split at h
        · cases h
        · cases h
          rfl
  | some ending =>
    cases found with
    | node n =>
      cases h
      exact .inl rfl
    | importTag tag => cases h
    | raw element =>
      cases h
      exact .inr ⟨element, rfl, rfl⟩

lemma isSingleBranch_of_derives {ending : Option Ending} {nodes : List Node}
    (h : Derives (.sequence ctx ending nodes) cur next) : isSingleBranch nodes = false := by
  rw [← Bool.not_eq_true]
  intro hbranch
  unfold isSingleBranch at hbranch
  split at hbranch
  · rename_i span isBranch test consequent alternate
    subst hbranch
    generalize hnodes : [ifBlock span true test consequent alternate] = nodes at h
    cases h with
    | stop _ => cases hnodes
    | @cons _ _ found first rest _ _ _ _ hitem hfirst _ =>
      have hhead := isText_head_cons first rest
      rw [← hnodes] at hhead
      rw [cons_of_not_isText (Option.some.inj hhead).symm] at hnodes
      cases hnodes
      obtain rfl | ⟨element, rfl, heq⟩ := hfirst.eq_node_or_raw
      · cases hitem with
        | inlineTag _ htag => cases htag
      · cases heq
  · cases hbranch

lemma Node.readsBack_otherwise (hbranch : ∀ ns ∈ alternate, isSingleBranch ns = false)
    (h : ∀ ns ∈ alternate, ContentReadsBack ctx p ns) :
    AlternateReadsBack ctx p alternate := by
  have helse := lays_else "endif" (by decide) (by decide) h
  rw [AlternateReadsBack, alternateDoc_eq_elseDoc hbranch]
  refine (sets_upTo helse (sets_closing "endif" (by decide))).mono ?_
  intro cs hcs source cur next hoccurs
  obtain ⟨⟨keyword, hkeyword, hcur⟩, mid, ⟨alternate', hderives, hrel⟩, hwordTag⟩ := hcs hoccurs
  have hkeyword' : keyword ∈ ["elseif", "else", "endif"] := mem_cons_of_mem _ hkeyword
  have helseif : blockKeyword? cur ≠ some "elseif" := by
    rw [hcur]
    rintro ⟨rfl⟩
    simp at hkeyword
  refine ⟨⟨keyword, hkeyword', hcur⟩, alternate', .otherwise helseif hderives hwordTag,
    map_normals_eq hrel, fun w => ?_⟩
  have hbranch' : ∀ ns ∈ alternate', isSingleBranch ns = false := by
    intro ns hns
    cases hderives with
    | noElse _ => cases hns
    | elseBranch _ _ hnodes =>
      cases hns
      exact isSingleBranch_of_derives hnodes
  rw [alternateDoc_eq_elseDoc hbranch, alternateDoc_eq_elseDoc hbranch', write_elseDoc hrel]

/-- **A text is read as a tag with a test and the branches after it**, with the closing tag of the
condition. -/
def Node.ReadsBranches (ctx : MarkupContext) (p : Printing) (word : String) (test : Expr)
    (consequent : List Node) (alternate : Option (List Node)) (cs : List Char) : Prop :=
  ∀ ⦃source cur next⦄, Occurs source cs cur next →
    (∃ inner, cur.rest = '{' :: '%' :: inner) ∧
    ∃ test' consequent' alternate' st st₁ after, OpensTag word cur st ∧
      Grammar.Derives (.expression test') st st₁ ∧ st₁.EndsBlock after ∧
      Derives (.branches ctx consequent' alternate') after next ∧
      test.Reprints p.breaks (p.reread source).breaks test' ∧
      ReprintsAll p (p.reread source) consequent consequent' ∧
      ReprintsAlternate p (p.reread source) alternate alternate'

lemma Node.sets_branches (word : String) (hword : isName word.toList = true)
    (htest : test.Sound p.breaks)
    (hconsequent : ContentReadsBack ctx p consequent)
    (halternate : AlternateReadsBack ctx p alternate) :
    (Doc.text ("\x7b% " ++ word ++ " ") ++ test.doc p.breaks ++ " %\x7d" ++
        .fragment (siblings p consequent) ++
        (alternateDoc p alternate ++ "\x7b% endif %\x7d")).Sets
      (ReadsBranches ctx p word test consequent alternate) := by
  have htag := htest.prints.sets_block word hword
  refine (sets_content htag hconsequent (by decide) halternate).mono ?_
  intro cs hcs source cur next hoccurs
  obtain ⟨tag, after, close, consequent', htag, hoccursTag, hconsequent', hreprints, alternate',
    halternate', hreprints'⟩ := hcs hoccurs
  obtain ⟨hrest, test', st, st₁, hopens, hderives, hend, htest'⟩ :=
    BlockText.expression htag hword htest hoccursTag
  exact ⟨hrest, test', consequent', alternate', st, st₁, after, hopens, hderives, hend,
    .branches hconsequent' halternate', htest', hreprints, hreprints'⟩

lemma Node.reprints_ifBlock (htest : test.Reprints p.breaks p'.breaks test')
    (hconsequent : ReprintsAll p p' consequent consequent')
    (halternate : ReprintsAlternate p p' alternate alternate') (isBranch : Bool) :
    (ifBlock span isBranch test consequent alternate).Reprints p p'
      (.ifBlock span' isBranch test' consequent' alternate') := by
  refine ⟨?_, fun w => ?_⟩
  · simp [normal_ifBlock, htest.normal, hconsequent.normals, halternate.normals]
  · simp [doc_ifBlock, write_append, htest.doc, hconsequent.write, halternate.write]

lemma Node.readsBack_ifBlock (htest : test.Sound p.breaks)
    (hconsequent : ContentReadsBack ctx p consequent)
    (halternate : AlternateReadsBack ctx p alternate) :
    (ifBlock span false test consequent alternate).ReadsBack ctx p := by
  have hbranches := sets_branches "if" (by decide) htest hconsequent halternate
  refine (hbranches.mono fun cs hcs => ?_).congr fun w => by rw [doc_ifBlock]; rfl
  refine reads_iff.mpr fun source cur next hoccurs => ?_
  obtain ⟨⟨inner, hrest⟩, test', consequent', alternate', st, st₁, after, hopens, hderives, hend,
    hbranches, htest', hconsequent', halternate'⟩ := hcs hoccurs
  exact ⟨_, .ifBlock hrest hopens hderives hend hbranches,
    reprints_ifBlock htest' hconsequent' halternate' false⟩

lemma Node.readsBack_elseif (htest : test.Sound p.breaks)
    (hconsequent : ContentReadsBack ctx p consequent)
    (halternate : AlternateReadsBack ctx p alternate) :
    AlternateReadsBack ctx p (some [.ifBlock span true test consequent alternate]) := by
  have hdoc (p : Printing) (n : Node) (h : isSingleBranch [n] = true) (w : Writer) :
      (alternateDoc p (some [n])).write w = (n.doc p).write w := by
    rw [alternateDoc, if_pos h, plainDocs, plainDocs]
    rfl
  have hbranches := sets_branches "elseif" (by decide) htest hconsequent halternate
  refine (hbranches.mono fun cs hcs => ?_).congr fun w => by
    rw [write_append, hdoc _ _ rfl, doc_ifBlock]
    rfl
  intro source cur next hoccurs
  obtain ⟨⟨inner, hrest⟩, test', consequent', alternate', st, st₁, after, hopens, hderives, hend,
    hbranches, htest', hconsequent', halternate'⟩ := hcs hoccurs
  have hkeyword := blockKeyword?_eq hrest hopens
  have hreprints : (ifBlock span true test consequent alternate).Reprints p (p.reread source)
      (.ifBlock (cur.spanTo next) true test' consequent' alternate') :=
    reprints_ifBlock htest' hconsequent' halternate' true
  refine ⟨⟨"elseif", by simp, hkeyword⟩, _, .elseif hkeyword hopens hderives hend hbranches, ?_,
    fun w => by rw [hdoc _ _ rfl, hdoc _ _ rfl, hreprints.write]⟩
  simp only [map_some, normals_eq, filter_cons, isBlank, Bool.not_false,
    if_true, filter_nil, map_cons, map_nil, hreprints.normal]

end Conditions

/-! ## Loops, keyed blocks and snippets -/

section Blocks

variable {span : Span} {body : List Node} {index key : Option Expr} {item subject : Expr}
  {fallback : Option (List Node)}

lemma Node.doc_forBlock :
    (forBlock span index item subject key body fallback).doc p =
      loopTag p.breaks index item subject key ++ .fragment (siblings p body) ++
        elseDoc p fallback ++ "\x7b% endfor %\x7d" := by
  cases fallback <;> rfl

lemma Node.normal_forBlock :
    (forBlock span index item subject key body fallback).normal =
      .forBlock default (index.map Expr.normal) item.normal subject.normal (key.map Expr.normal)
        (normals body) (fallback.map normals) := by
  cases fallback <;> rfl

lemma loopTag_eq (hindex : Rel (Expr.Reprints breaks breaks') index index')
    (hitem : item.Reprints breaks breaks' item')
    (hsubject : subject.Reprints breaks breaks' subject')
    (hkey : Rel (Expr.Reprints breaks breaks') key key') :
    loopTag breaks' index' item' subject' key' = loopTag breaks index item subject key := by
  unfold loopTag
  rw [hitem.doc, hsubject.doc]
  cases hindex with
  | none =>
    cases hkey with
    | none => rfl
    | some hkey => simp [ofOption, hkey.doc]
  | some hindex =>
    cases hkey with
    | none => simp [ofOption, hindex.doc]
    | some hkey => simp only [ofOption, hindex.doc, hkey.doc]

lemma Node.readsBack_forBlock (hindex : ∀ e ∈ index, e.IsParam) (hitem : item.IsParam)
    (hsubject : subject.Sound p.breaks) (hkey : ∀ e ∈ key, e.Sound p.breaks)
    (hbody : ContentReadsBack ctx p body)
    (hfallback : ∀ ns ∈ fallback, ContentReadsBack ctx p ns) :
    (forBlock span index item subject key body fallback).ReadsBack ctx p := by
  have htag := sets_loopTag hindex hitem hsubject hkey
  have helse := sets_upTo (lays_else "endfor" (by decide) (by decide) hfallback)
    (sets_closing "endfor" (by decide))
  refine ((sets_content htag hbody (by decide) helse).mono fun cs hcs => ?_).congr
    fun w => by rw [doc_forBlock]; rfl
  refine reads_iff.mpr fun source cur next hoccurs => ?_
  obtain ⟨tag, after, close, body', htag, hoccursTag, hbody', hreprints, beforeClose,
    ⟨fallback', hfallback', hrel⟩, hwordTag⟩ := hcs hoccurs
  have hspaced : Piece.Spaced (loopPieces p.breaks index item subject key) :=
    (spaced_index hindex).append (hitem.sound.spaced.append
      ((Piece.spaced_word (by decide)).append (hsubject.spaced.append (spaced_key hkey))))
  obtain ⟨⟨rest, hrest⟩, st, st', hopens, hcovers, hend⟩ :=
    BlockText.occurs htag (by decide) hspaced hoccursTag
  obtain ⟨index', item', subject', key', st₁, st₂, st₃, hnames, hin, hderives, hloopKey, hindex',
    hitem', hsubject', hkey'⟩ := loop_of_covers hindex hitem hsubject hkey hcovers hend
  refine ⟨_, .forBlock hrest hopens hnames hin hderives hloopKey hend hbody' hfallback' hwordTag,
    ?_, fun w => ?_⟩
  · simp [normal_forBlock, Expr.map_normal_eq hindex', hitem'.normal, hsubject'.normal,
      Expr.map_normal_eq hkey', hreprints.normals, map_normals_eq hrel]
  · have htag' : loopTag (p.reread source).breaks index' item' subject' key' = _ :=
      loopTag_eq hindex' hitem' hsubject' hkey'
    simp [doc_forBlock, write_append, htag', hreprints.write, write_elseDoc hrel]

lemma Node.readsBack_keyBlock (he : e.Sound p.breaks) (hbody : ContentReadsBack ctx p body) :
    (keyBlock span e body).ReadsBack ctx p := by
  have htag := he.prints.sets_block "key" (by decide)
  have hclose := sets_closing "endkey" (by decide)
  refine ((sets_content htag hbody (by decide) hclose).mono fun cs hcs => ?_).congr fun w => by rfl
  refine reads_iff.mpr fun source cur next hoccurs => ?_
  obtain ⟨tag, after, close, body', htag, hoccursTag, hbody', hreprints, hwordTag⟩ := hcs hoccurs
  obtain ⟨⟨rest, hrest⟩, e', st, st₁, hopens, hderives, hend, he'⟩ :=
    BlockText.expression htag (by decide) he hoccursTag
  refine ⟨_, .keyBlock hrest hopens hderives hend hbody' hwordTag, ?_, fun w => ?_⟩
  · simp only [normal, he'.normal, hreprints.normals]
  · have hdoc : e'.doc (p.reread source).breaks = e.doc p.breaks := he'.doc
    simp only [doc, write_append, hdoc, hreprints.write]

lemma Node.readsBack_snippetBlock (hname : isName name.toList = true)
    (hparams : ∀ e ∈ params, e.IsParam) (hbody : ContentReadsBack ctx p body) :
    (snippetBlock span name params body).ReadsBack ctx p := by
  have htag : (_ : Doc).Sets (BlockText "snippet" (snippetPieces p.breaks name params)) :=
    sets_snippetTag hname hparams
  have hclose := sets_closing "endsnippet" (by decide)
  refine ((sets_content htag hbody (by decide) hclose).mono fun cs hcs => ?_).congr fun w => by rfl
  refine reads_iff.mpr fun source cur next hoccurs => ?_
  obtain ⟨tag, after, close, body', htag, hoccursTag, hbody', hreprints, hwordTag⟩ := hcs hoccurs
  obtain ⟨⟨rest, hrest⟩, st, st', hopens, hcovers, hend⟩ :=
    BlockText.occurs htag (by decide) (spaced_snippet hname hparams) hoccursTag
  obtain ⟨params', st₁, st₂, st₃, hword, hopen, hderives, hparen, hparams'⟩ :=
    snippet_of_covers hparams hcovers
  refine ⟨_, .snippetBlock hrest hopens hword hopen hderives hparen hend hbody' hwordTag, ?_,
    fun w => ?_⟩
  · simp [normal, hparams'.normals, hreprints.normals]
  · have hdocs : Expr.docs (p.reread source).breaks params' = Expr.docs p.breaks params :=
      hparams'.docs
    simp [doc, write_append, hdocs, hreprints.write]

end Blocks

/-! ## Awaiting blocks -/

section Outcomes

variable {word : String} {name : Option Expr} {nodes : Option (List Node)} {keywords : List String}

lemma outcomeTag_eq (h : Rel (Expr.Reprints breaks breaks') name name') (text : String) :
    outcomeTag breaks' text name' = outcomeTag breaks text name := by
  cases h with
  | none => rfl
  | some h => simp [outcomeTag, ofOption, h.doc]

/-- **A further outcome of waiting is printed as another one**, and differs from it only in what
the normal form forgets. -/
structure Node.ReprintsOutcome (p p' : Printing) (word : String) (name : Option Expr)
    (nodes : Option (List Node)) (name' : Option Expr) (nodes' : Option (List Node)) : Prop where
  kept : keptOutcome (name'.map Expr.normal) (nodes'.map normals) =
    keptOutcome (name.map Expr.normal) (nodes.map normals)
  write : ∀ w, (outcomeDoc p'.breaks word name' (nodes'.map (siblings p'))).write w =
    (outcomeDoc p.breaks word name (nodes.map (siblings p))).write w

/-- **A text is read as a further outcome of waiting** up to the tag that ends it. -/
def Node.ReadsOutcome (ctx : MarkupContext) (p : Printing) (word : String)
    (keywords : List String) (name : Option Expr) (nodes : Option (List Node)) :
    List Char → Prop :=
  ReadsUpTo (word :: keywords) keywords fun source cur next =>
    ∃ name' nodes', Derives (.outcome ctx word (.blockTag keywords) name' nodes') cur next ∧
      ReprintsOutcome p (p.reread source) word name nodes name' nodes'

lemma Node.lays_noOutcome (hword : word ∉ keywords)
    (hdoc : outcomeDoc p.breaks word name (nodes.map (siblings p)) = .empty)
    (hkept : keptOutcome (name.map Expr.normal) (nodes.map normals) = (none, none)) :
    (outcomeDoc p.breaks word name (nodes.map (siblings p))).Lays
      (ReadsOutcome ctx p word keywords name nodes) := by
  rw [hdoc]
  refine lays_empty.mono ?_
  rintro _ rfl source cur next hoccurs ⟨keyword, hkeyword, hnext⟩
  obtain rfl := hoccurs.eq_of_nil
  have hne : blockKeyword? next ≠ some word := by
    rw [hnext]
    rintro ⟨rfl⟩
    exact hword hkeyword
  exact ⟨⟨keyword, mem_cons_of_mem _ hkeyword, hnext⟩, none, none, .noOutcome hne,
    hkept.symm, fun w => by rw [hdoc]; rfl⟩

/-- **A further outcome of waiting** is laid out as a text that is read back. -/
theorem Node.lays_outcome (hname : isName word.toList = true) (hword : word ∉ keywords)
    (hkeywords : ∀ keyword ∈ keywords, keyword ∉ itemWords) (hparam : ∀ e ∈ name, e.IsParam)
    (h : ∀ ns ∈ nodes, ContentReadsBack ctx p ns) :
    (outcomeDoc p.breaks word name (nodes.map (siblings p))).Lays
      (ReadsOutcome ctx p word keywords name nodes) := by
  cases nodes with
  | none => exact lays_noOutcome hword rfl rfl
  | some ns =>
    have hempty := isEmptyFragment_eq p ns
    cases hnormals : normals ns with
    | nil =>
      rw [hnormals, isEmpty_nil] at hempty
      refine lays_noOutcome hword ?_ ?_
      · rw [map_some, outcomeDoc, ofOption, hempty]
        rfl
      · rw [map_some, hnormals]
        rfl
    | cons n rest =>
      rw [hnormals, isEmpty_cons] at hempty
      have htag : (_ : Doc).Sets (BlockText word (bindingPieces p.breaks name)) :=
        ((starts_word word hname).binding hparam).sets_block
      have hdoc : outcomeDoc p.breaks word name (some (siblings p ns)) =
          outcomeTag p.breaks ("\x7b% " ++ word) name ++ .fragment (siblings p ns) := by
        rw [outcomeDoc, ofOption, hempty]
        rfl
      rw [map_some, hdoc]
      refine (htag.fills (h ns rfl)).mono ?_
      rintro _ ⟨tag, inner, rfl, htag, hinner⟩ source cur next hoccurs hstops
      obtain ⟨mid, hoccursTag, hoccursInner⟩ := hoccurs.append
      obtain ⟨ns', hderives, hreprints⟩ := hinner.derives hoccursInner hkeywords hstops
      obtain ⟨⟨rest', hrest⟩, st, st', hopens, hcovers, hend⟩ :=
        BlockText.occurs htag hname (spaced_binding hparam) hoccursTag
      obtain ⟨name', hrel, hbinds⟩ := binds_of_covers hparam hcovers hend
      have hkeyword := blockKeyword?_eq hrest hopens
      have hempty' : Sibling.isEmptyFragment (siblings (p.reread source) ns') = false := by
        rw [hreprints.isEmptyFragment_eq, hempty]
      refine ⟨⟨word, by simp, hkeyword⟩, name', some ns',
        .outcome hkeyword ⟨st, st', hopens, hbinds, hend⟩ hderives, ?_, fun w => ?_⟩
      · simp only [map_some, hreprints.normals, Expr.map_normal_eq hrel]
      · have htag' : outcomeTag (p.reread source).breaks ("\x7b% " ++ word) name' = _ :=
          outcomeTag_eq hrel _
        rw [map_some, map_some, hdoc, outcomeDoc, ofOption, hempty', htag']
        simp only [Bool.not_false, onlyIf, if_true, write_append, hreprints.write]

end Outcomes

section Await

variable {span : Span} {e : Expr} {value error : Option Expr}
  {pending resolved rejected : Option (List Node)}

lemma Node.doc_awaitBlock :
    (awaitBlock span e value error pending resolved rejected).doc p =
      awaitDoc p.breaks e value error (pending.map (siblings p))
        (resolved.map (siblings p)) (rejected.map (siblings p)) := by
  unfold doc
  cases pending <;> cases resolved <;> cases rejected <;> rfl

lemma Node.normal_awaitBlock :
    (awaitBlock span e value error pending resolved rejected).normal =
      .keptAwait e.normal (value.map Expr.normal) (error.map Expr.normal)
        (pending.map normals) (resolved.map normals) (rejected.map normals) := by
  unfold normal
  cases pending <;> cases resolved <;> cases rejected <;> rfl

lemma AwaitOpening.sets_await {opening : AwaitOpening} (he : e.Sound p.breaks)
    (hopening : ∀ name ∈ opening.name?, name.IsParam) :
    ("\x7b% await " ++ e.doc p.breaks ++ opening.doc p.breaks : Doc).Sets
      (BlockText "await" (e.pieces p.breaks .space ++ opening.pieces p.breaks)) :=
  AwaitOpening.sets ((starts_wordSpace "await" (by decide)).append he.prints) hopening

lemma BlockText.await {breaks : Breaks} {opening : AwaitOpening}
    (h : BlockText "await" (e.pieces breaks .space ++ opening.pieces breaks) cs)
    (he : e.Sound breaks) (hopening : ∀ name ∈ opening.name?, name.IsParam)
    (hoccurs : Occurs source cs cur next) :
    (∃ inner, cur.rest = '{' :: '%' :: inner) ∧ ∃ e' opening' st st₁, OpensTag "await" cur st ∧
      Grammar.Derives (.expression e') st st₁ ∧ OpensAwait st₁ next opening' ∧
      e.Reprints breaks (ofSource source).atLeast e' ∧
      opening.Reprints breaks (ofSource source).atLeast opening' := by
  obtain ⟨hrest, st, st', hopens, hcovers, hend⟩ :=
    h.occurs (by decide) (he.spaced.append (AwaitOpening.spaced hopening)) hoccurs
  obtain ⟨st₁, hcovers, hcoversOpening⟩ := Stream.covers_append.mp hcovers
  obtain ⟨hends, opening', hopens', hreprints'⟩ :=
    AwaitOpening.opens_of_covers hopening hcoversOpening hend
  obtain ⟨e', hreprints, -, hderives⟩ := he.rereads hcovers hends
  exact ⟨hrest, e', opening', st, st₁, hopens, hderives, hopens', hreprints, hreprints'⟩

lemma Node.readsBack_awaitRejected {rejected : List Node} (he : e.Sound p.breaks)
    (herror : ∀ name ∈ error, name.IsParam)
    (hrejected : ContentReadsBack ctx p rejected) :
    (awaitBlock span e none error none none (some rejected)).ReadsBack ctx p := by
  have htag : (_ ++ (AwaitOpening.rejected error).doc p.breaks : Doc).Sets _ :=
    AwaitOpening.sets_await he herror
  have hclose := sets_closing "endawait" (by decide)
  refine ((sets_content htag hrejected (by decide) hclose).mono fun cs hcs => ?_).congr
    fun w => by rfl
  refine reads_iff.mpr fun source cur next hoccurs => ?_
  obtain ⟨tag, after, close, rejected', htag, hoccursTag, hrejected', hreprints, hwordTag⟩ :=
    hcs hoccurs
  obtain ⟨⟨rest, hrest⟩, e', _, st, st₁, hopens, hderives, hopening, he', hopening'⟩ :=
    BlockText.await htag he herror hoccursTag
  cases hopening' with
  | rejected hrel =>
    refine ⟨_, .awaitBlock hrest hopens hderives hopening (.rejected hrejected' hwordTag), ?_,
      fun w => ?_⟩
    · simp [normal_awaitBlock, he'.normal, Expr.map_normal_eq hrel, hreprints.normals]
    · have hdoc : e'.doc (p.reread source).breaks = e.doc p.breaks := he'.doc
      have htag' : outcomeTag (p.reread source).breaks " catch" _ = _ := outcomeTag_eq hrel _
      simp [doc_awaitBlock, awaitDoc, write_append, hdoc, htag', hreprints.write]

lemma Node.readsBack_awaitResolved {resolved : List Node} (he : e.Sound p.breaks)
    (hvalue : ∀ name ∈ value, name.IsParam) (herror : ∀ name ∈ error, name.IsParam)
    (hresolved : ContentReadsBack ctx p resolved)
    (hrejected : ∀ ns ∈ rejected, ContentReadsBack ctx p ns) :
    (awaitBlock span e value error none (some resolved) rejected).ReadsBack ctx p := by
  have htag : (_ ++ (AwaitOpening.resolved value).doc p.breaks : Doc).Sets _ :=
    AwaitOpening.sets_await he hvalue
  have hcatch : (_ : Doc).Lays (ReadsOutcome ctx p "catch" ["endawait"] error rejected) :=
    lays_outcome (by decide) (by decide) (by decide) herror hrejected
  have hlast := sets_upTo hcatch (sets_closing "endawait" (by decide))
  refine ((sets_content htag hresolved (by decide) hlast).mono fun cs hcs => ?_).congr
    fun w => by rw [doc_awaitBlock]; rfl
  refine reads_iff.mpr fun source cur next hoccurs => ?_
  obtain ⟨tag, after, afterThen, resolved', htag, hoccursTag, hresolved', hreprints, close,
    ⟨error', rejected', hrejected', hcatch'⟩, hwordTag⟩ := hcs hoccurs
  obtain ⟨⟨rest, hrest⟩, e', _, st, st₁, hopens, hderives, hopening, he', hopening'⟩ :=
    BlockText.await htag he hvalue hoccursTag
  cases hopening' with
  | resolved hrel =>
    refine ⟨_, .awaitBlock hrest hopens hderives hopening
      (.resolved hresolved' hrejected' hwordTag), ?_, fun w => ?_⟩
    · simp [normal_awaitBlock, keptAwait, he'.normal, Expr.map_normal_eq hrel, hreprints.normals,
        hcatch'.kept]
    · have hdoc : e'.doc (p.reread source).breaks = e.doc p.breaks := he'.doc
      have htag' : outcomeTag (p.reread source).breaks " then" _ = _ := outcomeTag_eq hrel _
      simp [doc_awaitBlock, awaitDoc, write_append, hdoc, htag', hreprints.write, hcatch'.write]

/-- **An awaiting block that starts with what to show while waiting.** -/
theorem Node.readsBack_awaitPending {pending : List Node} (he : e.Sound p.breaks)
    (hvalue : ∀ name ∈ value, name.IsParam) (herror : ∀ name ∈ error, name.IsParam)
    (hpending : ContentReadsBack ctx p pending)
    (hresolved : ∀ ns ∈ resolved, ContentReadsBack ctx p ns)
    (hrejected : ∀ ns ∈ rejected, ContentReadsBack ctx p ns) :
    (awaitBlock span e value error (some pending) resolved rejected).ReadsBack ctx p := by
  have htag : (_ ++ AwaitOpening.pending.doc p.breaks : Doc).Sets _ :=
    AwaitOpening.sets_await he (by simp [AwaitOpening.name?])
  have hthen : (_ : Doc).Lays
      (ReadsOutcome ctx p "then" ["catch", "endawait"] value resolved) :=
    lays_outcome (by decide) (by decide) (by decide) hvalue hresolved
  have hcatch : (_ : Doc).Lays (ReadsOutcome ctx p "catch" ["endawait"] error rejected) :=
    lays_outcome (by decide) (by decide) (by decide) herror hrejected
  have hlast := sets_upTo hthen (sets_upTo hcatch (sets_closing "endawait" (by decide)))
  refine ((sets_content htag hpending (by decide) hlast).mono fun cs hcs => ?_).congr
    fun w => by rw [doc_awaitBlock]; rfl
  refine reads_iff.mpr fun source cur next hoccurs => ?_
  obtain ⟨tag, after, afterPending, pending', htag, hoccursTag, hpending', hreprints, afterThen,
    ⟨value', resolved', hresolved', hthen'⟩, close, ⟨error', rejected', hrejected', hcatch'⟩,
    hwordTag⟩ := hcs hoccurs
  obtain ⟨⟨rest, hrest⟩, e', _, st, st₁, hopens, hderives, hopening, he', ⟨⟩⟩ :=
    BlockText.await htag he (by simp [AwaitOpening.name?]) hoccursTag
  refine ⟨_, .awaitBlock hrest hopens hderives hopening
    (.pending hpending' hresolved' hrejected' hwordTag), ?_, fun w => ?_⟩
  · simp [normal_awaitBlock, keptAwait, he'.normal, hreprints.normals, hthen'.kept, hcatch'.kept]
  · have hdoc : e'.doc (p.reread source).breaks = e.doc p.breaks := he'.doc
    simp [doc_awaitBlock, awaitDoc, write_append, hdoc, hreprints.write, hthen'.write,
      hcatch'.write]

end Await

end ComponentTemplate
