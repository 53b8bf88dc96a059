import ComponentTemplate.Proofs.JoinedTexts
import ComponentTemplate.Proofs.MarkupRoundTrip

/-!
# Reading the content of components again

What is set apart from a component leaves gaps in its content: the texts on the two sides of a gap
become one text, and a text may come to stand right before a tag. The printed content is read as
the same nodes again exactly if every text stays a text where it now stands.
-/

namespace ComponentTemplate

open MarkupGrammar Node Doc Sibling
open Text (Blank)

/-! ## What is compared of nodes -/

section Views

variable {β : Type}

/-- **A view of nodes**: it shows of a text what is between its blanks, and of any node whether it
is a text and how it is printed first. -/
structure Node.IsView (f : Node → β) : Prop where
  text_iff : ∀ {span span' : Span} {data data' : String},
    f (.text span' data') = f (.text span data) ↔ Text.trim data'.toList = Text.trim data.toList
  isText_eq : ∀ {n n' : Node}, f n' = f n → n'.isText = n.isText
  opensBrace_eq : ∀ {n n' : Node}, f n' = f n → n'.opensBrace = n.opensBrace

/-- What is seen of the nodes that are not blank. -/
def Node.seen (f : Node → β) (nodes : List Node) : List β := (nodes.filter (!·.isBlank)).map f

variable {f : Node → β} {n : Node} {nodes : List Node}

lemma Node.seen_cons_of_not_isText (hn : n.isText = false) :
    seen f (n :: nodes) = f n :: seen f nodes := by
  simp [seen, isBlank_of_not_isText hn]

lemma Node.seen_cons_text (f : Node → β) (span : Span) (data : String) (nodes : List Node) :
    seen f (.text span data :: nodes) =
      if Text.trim data.toList = [] then seen f nodes
      else f (.text span data) :: seen f nodes := by
  rw [seen, List.filter_cons, isBlank_text]
  cases Text.trim data.toList <;> simp [seen]

lemma Node.opensBrace_normal (n : Node) : n.normal.opensBrace = n.opensBrace := by
  cases n
  case awaitBlock span e value error pending resolved rejected =>
    unfold normal
    cases pending <;> cases resolved <;> rfl
  all_goals rfl

lemma Node.isView_normal : IsView normal where
  text_iff := by simp [normal, String.ofList_inj]
  isText_eq h := by rw [← isText_normal, h, isText_normal]
  opensBrace_eq h := by rw [← opensBrace_normal, h, opensBrace_normal]

lemma Node.seen_normal (nodes : List Node) : seen normal nodes = normals nodes :=
  (normals_eq nodes).symm

end Views

/-! ## Reading a text that lays nodes out -/

/-- **A text is read as a node at the top level**, wherever it stands: as an item that is seen as
the node, and that stands among the nodes unless the node is to be set `apart`. -/
def Node.Returns {β : Type} (ctx : MarkupContext) (f : Node → β) (apart : Node → Bool) (n : Node)
    (cs : List Char) : Prop :=
  ∀ before after : List Char, ∃ found n',
    Derives (.item ctx found) ⟨byteLength before, cs ++ after⟩
      ⟨byteLength before + byteLength cs, after⟩ ∧
    found.nested = .ok n' ∧ f n' = f n ∧ (found.StandsAs n' none ↔ apart n = false)

namespace Node.Laid

variable {β : Type} {ctx : MarkupContext} {f : Node → β} {apart : Node → Bool}
  {trim first : Bool} {nodes : List Node} {cs : List Char}

lemma head_eq (hview : IsView f) (h : Laid (Returns ctx f apart) trim first nodes cs)
    (hnodes : ∀ n ∈ nodes.head?, n.isText = false) :
    (cs = [] ∨ startsItem cs = true) ∧
      cs.head? = nodes.head?.map fun n => if n.opensBrace then '\x7b' else '<' := by
  cases h with
  | nil => exact ⟨.inl rfl, rfl⟩
  | text _ _ _ _ => cases hnodes _ rfl
  | @node _ n _ core cs hn hcore _ =>
    obtain ⟨found, n', hitem, hfound, hf, -⟩ := hcore [] cs
    have hn' : n'.isText = false := (hview.isText_eq hf).trans hn
    have hhead := head_of_item hitem hfound hn'
    rw [hview.opensBrace_eq hf] at hhead
    refine ⟨.inr (startsItem_of_item hitem ?_), hhead⟩
    rintro _ rfl
    cases hfound
    exact hn'

variable {before core after front rest : List Char} {data : String} {lead trail : Padding}
  {nodes' : List Node} {next : Cursor}

lemma staysText_iff
    (hpad : (Sibling.text data.toList : Sibling Doc).pad trim first nodes.isEmpty =
      .text lead core trail)
    (hlead : lead.Fits before) (htrail : trail.Fits after)
    (hstarts : cs = [] ∨ startsItem cs = true)
    (hhead : cs.head? = nodes.head?.map fun n => if n.opensBrace then '\x7b' else '<') :
    StaysText (before ++ (core ++ after)) cs ↔ CleanText data.toList ∧
      (data.toList.getLast? = some '\x7b' → ∀ n ∈ nodes.head?, n.opensBrace = false) := by
  obtain ⟨hcore, -⟩ := core_of_pad hpad
  -- whether the last brace of the text and the next character touch
  have htouch : ∀ n ∈ nodes.head?, (data.toList.getLast? = some '\x7b' ↔
      core.getLast? = some '\x7b' ∧ after = []) := by
    intro n hn
    have hne : nodes.isEmpty = false := by
      cases nodes
      · cases hn
      · rfl
    rw [hne] at hpad
    rw [getLast?_eq_some_iff (by decide) hpad]
    refine and_congr_right fun _ => ⟨?_, ?_⟩
    · rintro rfl
      exact htrail
    · rintro rfl
      exact htrail.eq_none
  constructor
  · intro h
    constructor
    · -- other blanks around the core change nothing
      have hclean : CleanText core :=
        h.cleanText.of_isInfix ⟨before, after, by rw [List.append_assoc]⟩
      rw [hcore] at hclean
      obtain ⟨start, stop, hstart, hstop, heq⟩ := Text.exists_trim_eq data.toList
      have hstays := @StaysText.padded _ stop start [] hclean (by simp) hstart hstop (.inl rfl)
      rw [Text.trim_of_trimmed (Text.trimmed_trim _), ← heq] at hstays
      exact hstays.cleanText
    · intro hlast n hn
      obtain ⟨hbrace, rfl⟩ := (htouch n hn).mp hlast
      obtain ⟨front, rfl⟩ := List.getLast?_eq_some_iff.mp hbrace
      have hnot := h ['\x7b'] (by simp) ⟨before ++ front, by simp⟩
      rw [show nodes.head? = some n from hn, Option.map_some] at hhead
      obtain ⟨rest, rfl⟩ := List.head?_eq_some_iff.mp hhead
      rw [← Bool.not_eq_true]
      intro hopens
      simp [hopens, startsItem] at hnot
  · rintro ⟨hclean, hbrace⟩
    rw [hcore]
    refine StaysText.padded hclean (fun hlast hnil => ?_) hlead.blank htrail.blank hstarts
    rw [hhead]
    cases hnodes : nodes.head? with
    | none => simp
    | some n =>
      have hends := (htouch n hnodes).mpr ⟨hcore ▸ hlast, hnil⟩
      simp [hbrace hends n hnodes]

lemma trim_eq
    (hpad : (Sibling.text data.toList : Sibling Doc).pad trim first last = .text lead core trail)
    (hlead : lead.Fits before) (htrail : trail.Fits after) :
    Text.trim (before ++ (core ++ after)) = Text.trim data.toList := by
  obtain ⟨hcore, -⟩ := Sibling.core_of_pad hpad
  rw [hcore]
  exact Text.trim_append hlead.blank htrail.blank (Text.trimmed_trim _)

/-- **Nodes are read from a text that lays them out**, if the texts among them stay texts and none
of them is set apart. -/
theorem exists_sequence (hview : IsView f)
    (h : Laid (Returns ctx f apart) trim first nodes cs)
    (hchain : nodes.IsChain fun a b => a.isText = false ∨ b.isText = false)
    (hstay : TextsStay nodes) (hapart : ∀ n ∈ nodes, n.isText = false → apart n = false)
    (front : List Char) :
    ∃ nodes', Derives (.sequence ctx none nodes') ⟨byteLength front, cs⟩
        ⟨byteLength front + byteLength cs, []⟩ ∧ seen f nodes' = seen f nodes := by
  induction h generalizing front with
  | nil => exact ⟨[], .stop rfl, rfl⟩
  | @node _ n nodes core cs hn hcore _ ih =>
    obtain ⟨found, n', hitem, -, hf, hstands⟩ := hcore front cs
    have hn' : n'.isText = false := (hview.isText_eq hf).trans hn
    have hfirst := hstands.mpr (hapart n (List.mem_cons_self ..) hn)
    obtain ⟨later, hlater, hseen⟩ := ih hchain.tail hstay.tail
      (fun m hm => hapart m (List.mem_cons_of_mem _ hm)) (front ++ core)
    rw [byteLength_append] at hlater
    have hgoes : GoesOn none _ := goesOn_of_item hitem trivial
    have hcons := Derives.cons hgoes hitem hfirst hlater
    rw [cons_of_not_isText hn'] at hcons
    refine ⟨n' :: later, by rwa [byteLength_append, ← Nat.add_assoc], ?_⟩
    rw [seen_cons_of_not_isText hn', seen_cons_of_not_isText hn, hf, hseen]
  | @text _ span data nodes _ _ before core after cs hpad hlead htrail hrest ih =>
    obtain ⟨hstarts, hhead⟩ := hrest.head_eq hview (head_of_isChain hchain)
    obtain ⟨htext, hstay⟩ := TextsStay.text_iff.mp hstay
    have hstays := (staysText_iff hpad hlead htrail hstarts hhead).mpr htext
    have htrim := trim_eq hpad hlead htrail
    generalize before ++ (core ++ after) = padded at hstays htrim ⊢
    obtain ⟨later, hlater, hseen⟩ := ih hchain.tail hstay
      (fun m hm => hapart m (List.mem_cons_of_mem _ hm)) (front ++ padded)
    by_cases hne : padded = []
    · -- nothing of the text is left
      subst hne
      rw [trim_of_blank .nil] at htrim
      refine ⟨later, by simpa using hlater, ?_⟩
      rw [hseen, seen_cons_text, if_pos htrim.symm]
    · rw [byteLength_append] at hlater
      obtain ⟨span', htext⟩ :=
        derives_text hstarts (isText_of_startsItem hstarts hlater) hne hstays hlater
      have hsame : f (.text span' (String.ofList padded)) = f (.text span data) :=
        hview.text_iff.mpr (by rw [String.toList_ofList, htrim])
      refine ⟨_, by rwa [byteLength_append, ← Nat.add_assoc], ?_⟩
      rw [seen_cons_text, seen_cons_text, String.toList_ofList, htrim, hseen, hsame]

lemma trim_ne_of_startsItem {item : List Char} (hbefore : Blank before) (hafter : Blank after)
    (heq : before ++ (core ++ after) = front ++ item) (hitem : startsItem (item ++ rest) = true)
    (hne : item ≠ []) : Text.trim front ≠ core := by
  intro hcore
  -- more than the core is not blank
  have hcount {cs : List Char} (hcs : Blank cs) : cs.countP (!Text.isBlank ·) = 0 := by
    rw [List.countP_eq_zero]
    exact fun c hc => by simp [hcs c hc]
  obtain ⟨start, stop, hstart, hstop, hfront⟩ := Text.exists_trim_eq front
  rw [hfront, hcore] at heq
  obtain ⟨c, item, rfl⟩ := List.exists_cons_of_ne_nil hne
  have hc : Text.isBlank c = false := by
    rw [← Bool.not_eq_true]
    intro hblank
    rw [List.cons_append, startsItem_of_isBlank hblank] at hitem
    cases hitem
  have hlength := congrArg (List.countP (!Text.isBlank ·)) heq
  simp [hcount hbefore, hcount hafter, hcount hstart, hcount hstop, hc] at hlength

lemma exists_seen_of_startsItem (hrest : startsItem rest = true)
    (hshorter : StaysText shorter rest)
    (h : Derives (.sequence ctx none nodes') ⟨offset, shorter ++ rest⟩ next) :
    ∃ n others, seen f nodes' = f n :: others ∧
      (n.isText = false ∨ ∃ span, n = .text span (String.ofList shorter)) := by
  have hne : rest ≠ [] := by
    rintro rfl
    cases hrest
  -- an item that is no text is the first node where it starts
  have hitem {offset : Nat} {nodes : List Node}
      (h : Derives (.sequence ctx none nodes) ⟨offset, rest⟩ next) :
      ∃ n others, seen f nodes = f n :: others ∧ n.isText = false := by
    have htext := isText_of_startsItem (.inr hrest) h
    obtain ⟨n, others, rfl⟩ := List.exists_cons_of_ne_nil (ne_nil_of_rest_ne hne h)
    exact ⟨n, _, seen_cons_of_not_isText (htext n rfl), htext n rfl⟩
  by_cases hnil : shorter = []
  · subst hnil
    obtain ⟨n, others, hseen, hn⟩ := hitem h
    exact ⟨n, others, hseen, .inl hn⟩
  · obtain ⟨span, later, rfl, hlater⟩ := exists_of_text (.inr hrest) hnil hshorter h
    rw [seen_cons_text]
    split
    · obtain ⟨n, others, hseen, hn⟩ := hitem hlater
      exact ⟨n, others, hseen, .inl hn⟩
    · exact ⟨_, _, rfl, .inr ⟨span, rfl⟩⟩

/-- **The texts among nodes stay texts, and none of the nodes is set apart**, if what is read from a
text that lays them out is seen as the nodes. -/
theorem textsStay_of_sequence (hview : IsView f)
    (h : Laid (Returns ctx f apart) trim first nodes cs)
    (hchain : nodes.IsChain fun a b => a.isText = false ∨ b.isText = false)
    (hread : Derives (.sequence ctx none nodes') ⟨byteLength front, cs⟩ next)
    (hseen : seen f nodes' = seen f nodes) :
    TextsStay nodes ∧ ∀ n ∈ nodes, n.isText = false → apart n = false := by
  induction h generalizing front nodes' with
  | nil => exact ⟨.nil, by simp⟩
  | @node _ n nodes core cs hn hcore _ ih =>
    obtain ⟨found, n', hitem, hfound, hf, hstands⟩ := hcore front cs
    have hn' : n'.isText = false := (hview.isText_eq hf).trans hn
    have hgoes : GoesOn none _ := goesOn_of_item hitem trivial
    obtain ⟨m, later, rfl, hfirst, hlater⟩ := exists_of_item hitem hgoes hread
    obtain rfl : m = n' := Except.ok.inj (hfirst.nested_eq.symm.trans hfound)
    rw [cons_of_not_isText hn', seen_cons_of_not_isText hn',
      seen_cons_of_not_isText hn, List.cons.injEq] at hseen
    rw [← byteLength_append] at hlater
    obtain ⟨hstay, hapart⟩ := ih hchain.tail hlater hseen.2
    refine ⟨hstay.node hn, List.forall_mem_cons.mpr ⟨fun _ => ?_, hapart⟩⟩
    exact hstands.mp hfirst
  | @text _ span data nodes _ _ before core after cs hpad hlead htrail hrest ih =>
    obtain ⟨hstarts, hhead⟩ := hrest.head_eq hview (head_of_isChain hchain)
    have htrim := trim_eq hpad hlead htrail
    have hiff := staysText_iff hpad hlead htrail hstarts hhead
    obtain ⟨hcore, -⟩ := core_of_pad hpad
    -- if an item started in the text, a shorter text or no text would be seen
    have hstays : StaysText (before ++ (core ++ after)) cs := by
      by_contra hnot
      obtain ⟨shorter, item, heq, hne, hitem, hshorter⟩ := exists_item_of_not_staysText hnot
      have hcoreNe : Text.trim data.toList ≠ [] := by
        intro hnil
        rw [hcore, hnil] at hnot
        exact hnot (.of_blank (hlead.blank.append htrail.blank))
      rw [heq, List.append_assoc] at hread
      obtain ⟨n, others, hothers, hn⟩ := exists_seen_of_startsItem (f := f) hitem hshorter hread
      rw [hothers, seen_cons_text, if_neg hcoreNe, List.cons.injEq] at hseen
      rcases hn with hn | ⟨span', rfl⟩
      · rw [hview.isText_eq hseen.1] at hn
        cases hn
      · have hsame := hview.text_iff.mp hseen.1
        rw [String.toList_ofList, ← hcore] at hsame
        exact trim_ne_of_startsItem hlead.blank htrail.blank heq hitem hne hsame
    have htext := hiff.mp hstays
    generalize before ++ (core ++ after) = padded at hread hstays htrim
    by_cases hne : padded = []
    · subst hne
      rw [trim_of_blank .nil] at htrim
      rw [seen_cons_text, if_pos htrim.symm] at hseen
      obtain ⟨hstay, hapart⟩ := ih hchain.tail hread hseen
      exact ⟨TextsStay.text_iff.mpr ⟨htext, hstay⟩, List.forall_mem_cons.mpr ⟨nofun, hapart⟩⟩
    · obtain ⟨span', later, rfl, hlater⟩ := exists_of_text hstarts hne hstays hread
      rw [← byteLength_append] at hlater
      have hlaterSeen : seen f later = seen f nodes := by
        rw [seen_cons_text, seen_cons_text, String.toList_ofList, htrim] at hseen
        split at hseen
        · exact hseen
        · exact (List.cons.inj hseen).2
      obtain ⟨hstay, hapart⟩ := ih hchain.tail hlater hlaterSeen
      exact ⟨TextsStay.text_iff.mpr ⟨htext, hstay⟩, List.forall_mem_cons.mpr ⟨nofun, hapart⟩⟩

end Node.Laid

/-! ## The content in the output -/

def Writer.after (w : Writer) (front : List Char) : Writer :=
  { w with written := w.written ++ front }

namespace Doc

variable {a b : Doc} {w : Writer}

lemma exists_written_write (doc : Doc) (w : Writer) :
    ∃ added, (doc.write w).written = added ++ w.written := by
  induction doc generalizing w with
  | empty => exact ⟨[], rfl⟩
  | text s =>
    rw [write_text]
    cases s.toList with
    | nil => exact ⟨[], rfl⟩
    | cons c cs => exact ⟨_, by rw [Writer.add, List.append_assoc]⟩
  | append a b iha ihb =>
    obtain ⟨first, hfirst⟩ := iha w
    obtain ⟨second, hsecond⟩ := ihb (a.write w)
    exact ⟨second ++ first, by rw [write, hsecond, hfirst, List.append_assoc]⟩
  | nest doc ih => exact ih w.indent

lemma written_ne_nil (doc : Doc) (hne : w.written ≠ []) : (doc.write w).written ≠ [] := by
  obtain ⟨added, hadded⟩ := exists_written_write doc w
  simp [hadded, hne]

lemma write_after (doc : Doc) (hne : w.written ≠ []) (front : List Char) :
    doc.write (w.after front) = (doc.write w).after front := by
  induction doc generalizing w with
  | empty => rfl
  | text s =>
    have hline : (w.after front).atLineStart = w.atLineStart := by
      simp [Writer.atLineStart, Writer.after, List.head?_append_of_ne_nil _ hne]
    rw [write_text, write_text]
    cases s.toList with
    | nil => rfl
    | cons c cs =>
      simp only [Writer.add, hline]
      simp [Writer.after, Writer.indentation]
  | append a b iha ihb => rw [write, write, iha hne, ihb (written_ne_nil a hne)]
  | nest doc ih =>
    have hindent : doc.write (w.after front).indent = (doc.write w.indent).after front :=
      @ih w.indent hne
    show (doc.write (w.after front).indent).atLevel w.level = _
    rw [hindent]
    rfl

/-- **A document moves** at the left margin: it is written alike at the start of the output and
after more text. -/
def Moves (doc : Doc) : Prop :=
  ∀ unit front, doc.write ⟨unit, 0, front⟩ = (doc.write ⟨unit, 0, []⟩).after front

lemma moves_empty : empty.Moves := fun _ _ => rfl

lemma moves_text (text : String) : (Doc.text text).Moves := by
  intro unit front
  rw [write_text, write_text]
  -- nothing is indented at the margin
  cases text.toList <;> simp [Writer.add, Writer.after, Writer.indentation]

lemma write_eq (doc : Doc) (w : Writer) :
    doc.write w = ⟨w.unit, w.level, (doc.write w).written⟩ := by
  have hunit := doc.unit_write w
  have hlevel := doc.level_write w
  rw [← hunit, ← hlevel]

lemma Moves.append (ha : a.Moves) (hb : b.Moves) : (a ++ b).Moves := by
  intro unit front
  rw [write_append, write_append, ha]
  by_cases hnil : (a.write ⟨unit, 0, []⟩).written = []
  · have hstart := a.write_eq ⟨unit, 0, []⟩
    rw [hnil] at hstart
    rw [hstart]
    exact hb unit front
  · exact write_after b hnil front

/-- **A document opens** with a text at its own level. -/
structure Opens (doc : Doc) : Prop where
  moves : doc.Moves
  written_ne : ∀ unit, (doc.write ⟨unit, 0, []⟩).written ≠ []

lemma opens_text {text : String} (hne : text ≠ "") : (Doc.text text).Opens := by
  refine ⟨moves_text text, fun unit => ?_⟩
  rw [write_text]
  cases h : text.toList with
  | nil => exact absurd (String.toList_eq_nil_iff.mp h) hne
  | cons c cs => simp [Writer.add]

lemma Opens.append (ha : a.Opens) (b : Doc) : (a ++ b).Opens := by
  refine ⟨fun unit front => ?_, fun unit => written_ne_nil b (ha.written_ne unit)⟩
  rw [write_append, write_append, ha.moves]
  exact write_after b (ha.written_ne unit) front

end Doc

lemma opens_elementDoc (p : Printing) (start : Nat) (kind : ElementKind) (name : String)
    (attributes : List Attribute) (code : Option String) (content : List (Sibling Doc)) :
    (elementDoc p start kind name attributes code content).Opens := by
  have hopening (name : String) : (Doc.text ("<" ++ name) ++
      attributesDoc p.breaks start name attributes).Opens :=
    (opens_text (by simp)).append _
  unfold elementDoc
  cases kind with
  | regular =>
    dsimp only
    split
    · exact ((hopening name).append _).append _
    · exact (((hopening name).append _).append _).append _
  | title => exact (((hopening "title").append _).append _).append _
  | component | specialSelf | specialHead | specialElement | specialComponent =>
    dsimp only
    split
    · exact ((hopening name).append _).append _
    · exact (((hopening name).append _).append _).append _

lemma opens_tagDoc (breaks : Breaks) (start : Nat) (e : Expr) : (tagDoc breaks start e).Opens := by
  unfold tagDoc
  split
  · exact ((((opens_text (by decide)).append _).append _).append _).append _
  · exact ((opens_text (by decide)).append _).append _

variable {n : Node} {source special : String} {p : Printing} {component : Component}

lemma Node.opens_doc (p : Printing) (hn : n.isText = false) : (n.doc p).Opens := by
  cases n with
  | text => cases hn
  | comment span data => exact opens_text (by simp)
  | element span kind name attributes children => exact opens_elementDoc ..
  | expressionTag span e => exact opens_tagDoc ..
  | htmlTag span e | renderTag span e | variableTag span e =>
    exact ((opens_text (by decide)).append _).append _
  | ifBlock span isBranch test consequent alternate =>
    have hopening : (Doc.text (if isBranch then "\x7b% elseif " else "\x7b% if ")).Opens :=
      opens_text (by cases isBranch <;> decide)
    cases alternate <;> exact ((((hopening.append _).append _).append _).append _).append _
  | forBlock span index name subject key body fallback =>
    have hopening : (loopTag p.breaks index name subject key).Opens :=
      ((((((opens_text (by decide)).append _).append _).append _).append _).append _).append _
    cases fallback <;> exact ((hopening.append _).append _).append _
  | keyBlock span e body =>
    exact ((((opens_text (by decide)).append _).append _).append _).append _
  | snippetBlock span name params body =>
    exact ((((opens_text (by simp)).append _).append _).append _).append _
  | awaitBlock span e value error pending resolved rejected =>
    cases pending <;> cases resolved <;> cases rejected <;>
      exact (((opens_text (by decide)).append _).append _).append _

lemma Node.moves_siblings (p : Printing) (nodes : List Node) (trim first : Bool) :
    (Doc.siblings (padFrom trim first (nodes.map (sibling p)))).Moves := by
  induction nodes generalizing first with
  | nil => exact moves_empty
  | cons n nodes ih =>
    refine Moves.append ?_ (ih false)
    by_cases hn : n.isText = false
    · rw [sibling_of_not_isText p hn]
      exact (opens_doc p hn).moves
    · obtain ⟨span, data, rfl⟩ : ∃ span data, n = .text span data := by
        cases n
        case text span data => exact ⟨span, data, rfl⟩
        all_goals exact absurd rfl hn
      exact ((moves_text _).append (moves_text _)).append (moves_text _)

lemma Component.moves_content (p : Printing) (nodes : List Node) :
    (Doc.siblings (reconcile true (siblings p nodes))).Moves := by
  rw [reconcile]
  split
  · exact moves_empty
  · rw [if_pos rfl, siblings_eq_map, dropBlankEnds_siblings]
    exact moves_siblings p _ true true

lemma Component.write_content (p : Printing) (nodes : List Node) (w : Writer) :
    ((ofNodes nodes).doc p []).write w =
      (siblings (reconcile true (siblings p nodes))).write w := by
  simp [Component.doc, ofNodes, write_append, concat, ofOption, onlyIf, write]

lemma Component.exists_render_eq (p : Printing) (component : Component) (sheet : List StyleNode)
    (unit : String) : ∃ opening closing, (component.doc p sheet).render unit =
      opening ++ ((ofNodes component.nodes).doc p []).render unit ++ closing := by
  obtain ⟨imports, script, nodes, style⟩ := component
  generalize hbody : siblings (reconcile true (siblings p nodes)) = body
  have hmoves : body.Moves := hbody ▸ moves_content p nodes
  -- what is set apart is written before the content and after it
  obtain ⟨before, after, hwrite⟩ : ∃ before after : Doc, ∀ w,
      ((⟨imports, script, nodes, style⟩ : Component).doc p sheet).write w =
        after.write (body.write (before.write w)) :=
    ⟨_, _, fun w => by rw [← hbody]; rfl⟩
  have hcontent : ((ofNodes nodes).doc p []).write (Writer.start unit) =
      body.write (Writer.start unit) := by
    rw [← hbody]
    exact write_content p nodes _
  have hstart : before.write (Writer.start unit) =
      ⟨unit.toList, 0, (before.write (Writer.start unit)).written⟩ := before.write_eq _
  obtain ⟨closing, hclosing⟩ :=
    after.exists_written_write (body.write (before.write (Writer.start unit)))
  refine ⟨String.ofList (before.write (Writer.start unit)).written.reverse,
    String.ofList closing.reverse, ?_⟩
  rw [render, render, Writer.output, Writer.output, hwrite, hclosing, hcontent, hstart,
    hmoves]
  simp [Writer.after, Writer.start, String.ofList_append, String.append_assoc]

/-! ## Blank texts at the ends -/

namespace Node

variable {n : Node} {nodes : List Node}

lemma textsStay_of_isBlank (h : n.isBlank = true) :
    (∀ data ∈ n.textData?, CleanText data) ∧ n.endsInBrace = false ∧ n.opensBrace = false := by
  cases n
  case text span data =>
    have hblank : Blank data.toList := by simpa [isBlank, Text.isBlankText, Blank] using h
    refine ⟨?_, ?_, rfl⟩
    · rintro _ ⟨⟩
      exact (@StaysText.of_blank _ [] hblank).cleanText
    · rw [← Bool.not_eq_true]
      intro hlast
      have hbrace : data.toList.getLast? = some '\x7b' := by simpa [endsInBrace, textData?] using hlast
      exact absurd (hblank _ (List.mem_of_getLast? hbrace)) (by decide)
  all_goals cases h

lemma isChain_of_isBlank (h : ∀ n ∈ nodes, n.isBlank = true) :
    nodes.IsChain fun n next => n.endsInBrace = true → next.opensBrace = false := by
  induction nodes with
  | nil => exact List.isChain_nil
  | cons n nodes ih =>
    refine (ih fun m hm => h m (List.mem_cons_of_mem _ hm)).cons fun m _ hends => ?_
    rw [(textsStay_of_isBlank (h n (List.mem_cons_self ..))).2.1] at hends
    cases hends

lemma textsStay_dropBlankEnds_iff :
    TextsStay (dropBlankEnds nodes) ↔ TextsStay nodes := by
  obtain ⟨before, after, heq, hbefore, hafter⟩ := exists_eq_dropBlankEnds nodes
  generalize dropBlankEnds nodes = kept at heq
  subst heq
  constructor
  · intro h
    refine ⟨?_, ?_⟩
    · intro n hn
      rcases List.mem_append.mp hn with hn | hn
      · exact (textsStay_of_isBlank (hbefore n hn)).1
      · rcases List.mem_append.mp hn with hn | hn
        · exact h.clean n hn
        · exact (textsStay_of_isBlank (hafter n hn)).1
    · refine List.isChain_append.mpr ⟨isChain_of_isBlank hbefore, List.isChain_append.mpr
        ⟨h.apart, isChain_of_isBlank hafter, fun n _ m hm _ => ?_⟩, fun n hn m _ hends => ?_⟩
      · exact (textsStay_of_isBlank (hafter m (List.mem_of_mem_head? hm))).2.2
      · rw [(textsStay_of_isBlank (hbefore n (List.mem_of_getLast? hn))).2.1] at hends
        cases hends
  · intro h
    have hinside := (List.isChain_append.mp (List.isChain_append.mp h.apart).2.1).1
    exact ⟨fun n hn => h.clean n (by simp [hn]), hinside⟩

variable {β : Type}

lemma seen_append (f : Node → β) (front back : List Node) :
    seen f (front ++ back) = seen f front ++ seen f back := by
  simp [seen]

lemma seen_of_isBlank (f : Node → β) (h : ∀ n ∈ nodes, n.isBlank = true) :
    seen f nodes = [] := by
  rw [seen, List.map_eq_nil_iff, List.filter_eq_nil_iff]
  intro n hn
  simp [h n hn]

lemma seen_dropBlankEnds (f : Node → β) (nodes : List Node) :
    seen f (dropBlankEnds nodes) = seen f nodes := by
  obtain ⟨before, after, heq, hbefore, hafter⟩ := exists_eq_dropBlankEnds nodes
  conv_rhs => rw [heq]
  rw [seen_append, seen_append, seen_of_isBlank f hbefore, seen_of_isBlank f hafter,
    List.nil_append, List.append_nil]

lemma mem_dropBlankEnds (hn : n ∈ nodes) (htext : n.isText = false) : n ∈ dropBlankEnds nodes := by
  obtain ⟨before, after, heq, hbefore, hafter⟩ := exists_eq_dropBlankEnds nodes
  have hblank := isBlank_of_not_isText htext
  rw [heq] at hn
  rcases List.mem_append.mp hn with hn | hn
  · simp [hbefore n hn] at hblank
  · rcases List.mem_append.mp hn with hn | hn
    · exact hn
    · simp [hafter n hn] at hblank

end Node

/-! ## Reading the content again -/

namespace Component

variable {β : Type} {special unit : String} {p : Printing} {f : Node → β} {apart : Node → Bool}
  {nodes : List Node}

lemma exists_parse_content_iff (hview : IsView f)
    (h : ∀ n ∈ nodes, n.isText = false → (n.doc p).Sets (Returns { special } f apart n))
    (hchain : nodes.IsChain fun a b => a.isText = false ∨ b.isText = false)
    (hunit : (Writer.start unit).Indents) :
    (∃ nodes', parse (((ofNodes nodes).doc p []).render unit) special = .ok (ofNodes nodes') ∧
        seen f nodes' = seen f nodes) ↔
      TextsStay nodes ∧ ∀ n ∈ nodes, n.isText = false → apart n = false := by
  have hinside := dropBlankEnds_isInfix nodes
  have hchain' := hchain.infix hinside
  have hlaid := laid_render (fun n hn => h n (hinside.subset hn)) hchain' hunit
  generalize ((ofNodes nodes).doc p []).render unit = body at hlaid
  constructor
  · rintro ⟨nodes', hparse, hseen⟩
    obtain ⟨next, hderives⟩ := ofChars_eq_ok_iff.mp (parse_eq_ok_iff.mp hparse)
    have hsequence : MarkupGrammar.Derives (.sequence { special } none nodes')
        ⟨byteLength [], body.toList⟩ next := hderives.sequence rfl rfl rfl
    obtain ⟨hstay, hapart⟩ := hlaid.textsStay_of_sequence hview hchain' hsequence
      (by rw [seen_dropBlankEnds]; exact hseen)
    refine ⟨textsStay_dropBlankEnds_iff.mp hstay, fun n hn htext => ?_⟩
    exact hapart n (mem_dropBlankEnds hn htext) htext
  · rintro ⟨hstay, hapart⟩
    obtain ⟨nodes', hsequence, hseen⟩ := hlaid.exists_sequence hview hchain'
      (textsStay_dropBlankEnds_iff.mpr hstay) (fun n hn => hapart n (hinside.subset hn)) []
    rw [seen_dropBlankEnds] at hseen
    exact ⟨nodes', parse_eq_ok_iff.mpr (reads_of_derives hsequence), hseen⟩

end Component

lemma Node.ReadsBack.returns (h : n.ReadsBack ctx p) :
    (n.doc p).Sets (Returns ctx normal (fun _ => false) n) := by
  refine Sets.mono h fun cs hcs before after => ?_
  obtain ⟨n', hitem, hreprints⟩ := @hcs (before ++ (cs ++ after)) before after rfl
  exact ⟨.node n', n', hitem, rfl, hreprints.normal, fun _ => rfl, fun _ => rfl⟩

lemma Component.readsBack_of_plain (hparse : parse source special = .ok component)
    (hn : n ∈ component.nodes) (htext : n.isText = false) (hplain : n.Plain p.breaks) :
    n.ReadsBack { special } p := by
  obtain ⟨_, hderives⟩ := ofChars_eq_ok_iff.mp (parse_eq_ok_iff.mp hparse)
  have hwf := hderives.wellFormed
  have hback := readsBackInPlace (p := p) n htext (allWellFormed_iff.mp hwf.nodes n hn)
    hplain
  rwa [ReadsBackInPlace, if_neg (by simp [hwf.isBranch n hn])] at hback

def Node.isVariable : Node → Bool
  | .expressionTag _ (.identifier ..) => true
  | _ => false

lemma Node.plain_of_isVariable (breaks : Breaks) (h : n.isVariable = true) : n.Plain breaks := by
  unfold isVariable at h
  split at h
  · simp [Plain, Expr.Plain, Expr.outline, Expr.inSlot, Expr.parts, Expr.KeepsShape]
  · cases h

/-- How a source is printed. -/
def formatPrinting (source : String) : Printing :=
  ⟨(LineBreaks.ofSource source.toList).atLeast, reindentScript⟩

/-- **The body of the output**: what formatting prints for the content of a component. -/
def FormatOptions.body (options : FormatOptions) (source : String) (component : Component) :
    String :=
  Component.printed options.indentUnit reindentScript source.toList component.nodes

/-- **The body stands in the output**, between what is set apart. -/
theorem FormatOptions.exists_output_eq
    (hparse : Component.parse source options.specialPart = .ok component)
    (hformat : formatSource options source = .ok output) :
    ∃ opening closing, output = opening ++ options.body source component ++ closing := by
  have hread := Component.parse_eq_ok_iff.mp hparse
  obtain ⟨text, htext, hoption⟩ := bind_eq_ok.mp hformat
  cases hsheet : component.stylesheet source.toList with
  | error failure =>
    rw [formatWith_of_stylesheet_eq_error hread hsheet] at htext
    cases htext
  | ok sheet =>
    rw [formatWith_of_eq_ok hread hsheet] at htext
    obtain ⟨opening, closing, hrender⟩ := component.exists_render_eq (formatPrinting source) sheet
      options.indentUnit
    have heq : text = opening ++ options.body source component ++ closing :=
      (Except.ok.inj htext).symm.trans hrender
    -- the line feed at the end comes after what is set apart
    split at hoption
    · cases hoption
      exact ⟨opening, closing ++ "\n", by rw [heq, String.append_assoc]⟩
    · cases hoption
      exact ⟨opening, closing, heq⟩

/-- **The body is read as the same nodes again** exactly if every text of the content stays a text
where it stands without what is set apart, given that all other nodes are read back. -/
theorem Component.exists_parse_body_iff (options : FormatOptions) {source output : String}
    {component : Component} (hparse : parse source options.specialPart = .ok component)
    (hformat : formatSource options source = .ok output)
    (hnodes : ∀ n ∈ component.nodes, n.isText = false →
      n.ReadsBack { special := options.specialPart } (formatPrinting source)) :
    ∃ opening body closing, output = opening ++ body ++ closing ∧
      body = options.body source component ∧
      ((∃ nodes, parse body options.specialPart = .ok ⟨[], none, nodes, none⟩ ∧
          normals nodes = normals component.nodes) ↔
        TextsStay component.nodes) := by
  obtain ⟨opening, closing, houtput⟩ := options.exists_output_eq hparse hformat
  refine ⟨opening, _, closing, houtput, rfl, ?_⟩
  obtain ⟨_, hderives⟩ := ofChars_eq_ok_iff.mp (parse_eq_ok_iff.mp hparse)
  have hiff := exists_parse_content_iff isView_normal
    (fun n hn htext => (hnodes n hn htext).returns) hderives.wellFormed.apart options.indents
  simp only [seen_normal, implies_true, and_true] at hiff
  exact hiff

/-- A text on the two sides of a style, before a tag. -/
theorem Component.exists_parse_body_joined : ∃ component output opening body closing nodes,
    parse "a \x7b<style></style>b \x7b\x7b c \x7d\x7d" "zvelte" = .ok component ∧
    formatSource {} "a \x7b<style></style>b \x7b\x7b c \x7d\x7d" = .ok output ∧
    output = opening ++ body ++ closing ∧
    parse body "zvelte" = .ok ⟨[], none, nodes, none⟩ ∧
    normals nodes = normals component.nodes := by
  obtain ⟨component, hparse⟩ := exists_eq_ok_of_isOk
    (x := parse "a \x7b<style></style>b \x7b\x7b c \x7d\x7d" "zvelte") (by decide +kernel)
  obtain ⟨output, hformat⟩ := exists_eq_ok_of_isOk
    (x := formatSource {} "a \x7b<style></style>b \x7b\x7b c \x7d\x7d") (by decide +kernel)
  have hcheck : ((parse "a \x7b<style></style>b \x7b\x7b c \x7d\x7d" "zvelte").toOption.any
      fun c => c.nodes.all (fun n => n.isText || n.isVariable) && decide (TextsStay c.nodes)) =
        true := by decide +kernel
  rw [hparse] at hcheck
  obtain ⟨hvariable, hstay⟩ : (∀ n ∈ component.nodes, n.isText = true ∨ n.isVariable = true) ∧
      TextsStay component.nodes := by
    simpa [Except.toOption, List.all_eq_true] using hcheck
  obtain ⟨opening, body, closing, houtput, -, hiff⟩ := exists_parse_body_iff {} hparse hformat
    fun n hn htext => readsBack_of_plain hparse hn htext
      (plain_of_isVariable _ ((hvariable n hn).resolve_left (by simp [htext])))
  obtain ⟨nodes, hread, hnormals⟩ := hiff.mpr hstay
  exact ⟨component, output, opening, body, closing, nodes, hparse, hformat, houtput, hread, hnormals⟩

/-- **A joined text is read as a tag.** What stands on the two sides of a style is one text, and is
printed as the tag that it spells. -/
theorem Component.isText_nodes_joined :
    ((parse "a \x7b<style></style>\x7bb\x7d\x7d c" "zvelte").toOption.map
      (·.nodes.map isText)) = some [true] ∧
    (formatSource {} "a \x7b<style></style>\x7bb\x7d\x7d c").toOption =
      some "a \x7b\x7bb\x7d\x7d c\n\n<style></style>\n" ∧
    ((parse "a \x7b\x7bb\x7d\x7d c\n\n<style></style>\n" "zvelte").toOption.map
      (·.nodes.map isText)) = some [true, false, true] := by
  decide +kernel

end ComponentTemplate
