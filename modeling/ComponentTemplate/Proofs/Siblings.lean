import ComponentTemplate.Proofs.MarkupNormal

/-!
# Printing and reading siblings

A sequence of siblings is printed as one text: its nodes, and its texts between blanks of the
classes of their padding. This text is read as siblings again, which differ from the first ones in
blanks only if their nodes do. Siblings are thus kept if their nodes are.
-/

namespace ComponentTemplate

open Node Sibling

open Text (Blank Trimmed trim isBlank)
open List (append_assoc append_nil isPrefixOf map_cons mem_cons_self)

/-! ## Items in a sequence -/

namespace MarkupGrammar

def itemWords : List String := ["if", "for", "key", "snippet", "await", "set", "import"]

/-- **No item ends a sequence.** -/
def EndsApart : Option Ending → Prop
  | some (.blockTag keywords) => ∀ keyword ∈ keywords, keyword ∉ itemWords
  | _ => True

variable {ctx : MarkupContext} {ending : Option Ending} {cur next : Cursor}

lemma goesOn_of_blockTag (hending : EndsApart ending) (hrest : cur.rest = '{' :: '%' :: cs)
    (hopens : OpensTag word cur st) (hword : word ∈ itemWords) : GoesOn ending cur := by
  refine ⟨by simp [hrest], by simp [Cursor.startsWith, hrest, isPrefixOf], fun e he => ?_⟩
  obtain rfl : ending = some e := he
  rw [blockKeyword?_eq hrest hopens]
  cases e with
  | closingTag name => rfl
  | blockTag keywords =>
    have hnot : word ∉ keywords := fun hmem => hending word hmem hword
    simpa [Ending.matches] using hnot

lemma goesOn_of_rest (hrest : cur.rest = c :: d :: cs) (hblock : d ≠ '%') (hclosing : d ≠ '/') :
    GoesOn ending cur := by
  have hkeyword : blockKeyword? cur = none := by
    unfold blockKeyword?
    split
    · rename_i heq
      rw [hrest] at heq
      cases heq
      exact absurd rfl hblock
    · rfl
  refine ⟨by simp [hrest], ?_, fun e _ => ?_⟩
  · simp [Cursor.startsWith, hrest, isPrefixOf, Ne.symm hclosing]
  · rw [hkeyword]
    cases e <;> rfl

lemma ne_of_isAlpha (h : c.isAlpha = true) : c ≠ '%' ∧ c ≠ '/' := by
  refine ⟨?_, ?_⟩ <;>
    · rintro rfl
      cases h

lemma goesOn_of_item (h : Derives (.item ctx found) cur next) (hending : EndsApart ending) :
    GoesOn ending cur := by
  cases h with
  | text hrest hstarts =>
    obtain ⟨offset, rest⟩ := cur
    obtain rfl : rest = _ := hrest
    exact goesOn_of_text hstarts
  | comment hrest _ | inlineTag hrest _ => exact goesOn_of_rest hrest (by decide) (by decide)
  | variableTag hrest hopens _ _ _ | importTag hrest hopens _ =>
    exact goesOn_of_blockTag hending hrest hopens (by decide)
  | complete hrest hc _ _ | raw hrest hc _ _ _ _ | element hrest hc _ _ _ _ _ =>
    exact goesOn_of_rest hrest (ne_of_isAlpha hc).1 (ne_of_isAlpha hc).2
  | ifBlock hrest hopens _ _ _ | forBlock hrest hopens _ _ _ _ _ _ _ _
  | keyBlock hrest hopens _ _ _ _ | snippetBlock hrest hopens _ _ _ _ _ _ _
  | awaitBlock hrest hopens _ _ _ => exact goesOn_of_blockTag hending hrest hopens (by decide)

lemma startsItem_of_item (h : Derives (.item ctx found) cur next)
    (hfound : ∀ n, found = .node n → n.isText = false) : startsItem cur.rest = true := by
  cases h with
  | text hrest hstarts => cases hfound _ rfl
  | comment hrest _ => simp [hrest, startsItem, isPrefixOf]
  | complete hrest hc _ _ | raw hrest hc _ _ _ _ | element hrest hc _ _ _ _ _ =>
    simp [hrest, startsItem, hc]
  | inlineTag hrest _ | variableTag hrest _ _ _ _ | importTag hrest _ _ | ifBlock hrest _ _ _ _
  | forBlock hrest _ _ _ _ _ _ _ _ _ | keyBlock hrest _ _ _ _ _
  | snippetBlock hrest _ _ _ _ _ _ _ _ | awaitBlock hrest _ _ _ _ => simp [hrest, startsItem]

lemma isText_head_cons (first : Node) (rest : List Node) :
    (first.cons rest).head?.map isText = some first.isText := by
  cases first
  case text =>
    cases rest with
    | nil => rfl
    | cons n rest => cases n <;> rfl
  all_goals rfl

lemma startsItem_of_sequence (h : Derives (.sequence ctx ending (n :: nodes)) cur next)
    (hn : n.isText = false) : startsItem cur.rest = true := by
  generalize hall : n :: nodes = all at h
  cases h with
  | stop => cases hall
  | @cons _ _ found first rest _ _ _ _ hitem hfirst _ =>
    have hhead := isText_head_cons first rest
    rw [← hall, List.head?_cons, Option.map_some, hn, Option.some.injEq] at hhead
    refine startsItem_of_item hitem fun m hm => ?_
    subst hm
    cases ending with
    | none => rw [show m = first by simpa [Item.StandsAs, Item.topLevel] using hfirst, ← hhead]
    | some e => rw [show m = first by simpa [Item.StandsAs, Item.nested] using hfirst, ← hhead]

lemma startsItem_of_stops (h : Stops ending cur) : cur.rest = [] ∨ startsItem cur.rest = true := by
  match ending, h with
  | none, h => exact .inl h
  | some (.closingTag _), h =>
    obtain ⟨tail, htail⟩ := List.isPrefixOf_iff_prefix.mp (show cur.startsWith "</" = true from h)
    rw [← htail]
    exact .inr rfl
  | some (.blockTag _), h =>
    obtain ⟨_, _, hkeyword⟩ := h
    unfold blockKeyword? at hkeyword
    split at hkeyword
    · rename_i hrest
      rw [hrest]
      exact .inr rfl
    · cases hkeyword

end MarkupGrammar

/-! ## Siblings that are printed alike -/

/-- **Siblings are printed as others**, and differ from them only in blanks and in what the normal
forms of nodes forget. A text without padding and core may be missing. -/
inductive Node.Follows (p p' : Printing) (trim : Bool) : Bool → List Node → List Node → Prop
  | nil {first} : Follows p p' trim first [] []
  | node {first} {n n'} {rest rest'} (hn : n.isText = false)
      (hn' : n'.isText = false) (hreprints : n.Reprints p p' n')
      (hrest : Follows p p' trim false rest rest') :
      Follows p p' trim first (n :: rest) (n' :: rest')
  | text {first} {span span'} {data data'} {rest rest'}
      (hpad : (Sibling.text data'.toList : Sibling Doc).pad trim first rest'.isEmpty =
        (Sibling.text data.toList : Sibling Doc).pad trim first rest.isEmpty)
      (hrest : Follows p p' trim false rest rest') :
      Follows p p' trim first (.text span data :: rest) (.text span' data' :: rest')
  | gone {first} {span} {data} {rest rest'}
      (hpad : (Sibling.text data.toList : Sibling Doc).pad trim first rest.isEmpty =
        .text .none [] .none)
      (hnode : ∀ n ∈ rest'.head?, n.isText = false)
      (hrest : Follows p p' trim false rest rest') :
      Follows p p' trim first (.text span data :: rest) rest'

lemma Node.isBlank_text (span : Span) (data : String) :
    (text span data).isBlank = (trim data.toList).isEmpty :=
  Text.isBlankText_eq data.toList

lemma Node.isBlank_of_not_isText {n : Node} (hn : n.isText = false) : n.isBlank = false :=
  Bool.eq_false_iff.mpr fun h => by simp [isText_of_isBlank h] at hn

lemma Doc.write_siblings_cons (padded : Padded Doc) (rest : List (Padded Doc)) (w : Writer) :
    (Doc.siblings (padded :: rest)).write w = (Doc.siblings rest).write (padded.doc.write w) := rfl

namespace Node.Follows

variable {p p' : Printing} {trim first : Bool} {nodes nodes' : List Node}

lemma normals_eq (h : Follows p p' trim first nodes nodes') :
    normals nodes' = normals nodes := by
  induction h with
  | nil => rfl
  | node hn hn' hreprints _ ih =>
    rw [normals, normals, isBlank_of_not_isText hn, isBlank_of_not_isText hn',
      hreprints.normal, ih]
  | text hpad _ ih =>
    have htrim := trim_eq_of_pad hpad
    simp [normals, isBlank_text, normal, htrim, ih]
  | gone hpad _ _ ih =>
    have htrim := (core_of_pad hpad).1
    simp [normals, isBlank_text, ← htrim, ih]

lemma padFrom_of_head (hnode : ∀ n ∈ nodes.head?, n.isText = false) :
    padFrom trim first (nodes.map (sibling p)) =
      padFrom trim false (nodes.map (sibling p)) := by
  cases nodes with
  | nil => rfl
  | cons n nodes =>
    rw [map_cons, padFrom, padFrom, sibling_of_not_isText p (hnode n rfl)]
    rfl

lemma write_eq (h : Follows p p' trim first nodes nodes') (w : Writer) :
    (Doc.siblings (Sibling.padFrom trim first (nodes'.map (sibling p')))).write w =
      (Doc.siblings (padFrom trim first (nodes.map (sibling p)))).write w := by
  induction h generalizing w with
  | nil => rfl
  | node hn hn' hreprints _ ih =>
    simp only [map_cons, padFrom, sibling_of_not_isText _ hn,
      sibling_of_not_isText _ hn', pad, Doc.write_siblings_cons, Padded.doc]
    rw [hreprints.write, ih]
  | text hpad _ ih => simp [padFrom, sibling, hpad, Doc.write_siblings_cons, ih]
  | gone hpad hnode _ ih =>
    rw [padFrom_of_head hnode]
    simp only [map_cons, padFrom, sibling, List.isEmpty_map, hpad,
      Doc.write_siblings_cons, ih]
    rfl

end Node.Follows

/-! ## Reading siblings back -/

def Printing.reread (p : Printing) (source : List Char) : Printing :=
  ⟨(LineBreaks.ofSource source).atLeast, p.script⟩

open MarkupGrammar

/-- **A text is read as a node**, wherever it stands. -/
def Node.Reads (ctx : MarkupContext) (p : Printing) (n : Node) (cs : List Char) : Prop :=
  ∀ ⦃source before after : List Char⦄, source = before ++ (cs ++ after) →
    ∃ n', Derives (.item ctx (.node n')) ⟨byteLength before, cs ++ after⟩
      ⟨byteLength before + byteLength cs, after⟩ ∧ n.Reprints p (p.reread source) n'

/-- **A text is read as siblings** up to what ends them. Blanks that are dropped may follow the
text, and are read as a part of its last node or as a text of their own. -/
def Node.ReadsFrom (ctx : MarkupContext) (p : Printing) (trim first : Bool) (nodes : List Node)
    (cs : List Char) : Prop :=
  ∀ ⦃source before tail after : List Char⦄ ⦃ending : Option Ending⦄ ⦃next : Cursor⦄,
    source = before ++ (cs ++ (tail ++ after)) → Blank tail → (tail ≠ [] → trim = true) →
    EndsApart ending → next = ⟨byteLength before + byteLength cs + byteLength tail, after⟩ →
    Stops ending next →
    ∃ nodes' extra, Derives (.sequence ctx ending (nodes' ++ extra))
        ⟨byteLength before, cs ++ (tail ++ after)⟩ next ∧
      Follows p (p.reread source) trim first nodes nodes' ∧
      (∀ n ∈ extra, n.isBlank = true) ∧ (tail = [] → extra = [])

variable {ctx : MarkupContext} {p : Printing} {trim first : Bool}

lemma Node.readsFrom_nil : ReadsFrom ctx p trim first [] [] := by
  intro source before tail after ending next hsource htail _ hending hnext hstops
  rw [List.nil_append]
  rw [byteLength_nil, Nat.add_zero] at hnext
  by_cases hne : tail = []
  · subst hne
    obtain rfl : next = ⟨byteLength before, after⟩ := by simpa using hnext
    exact ⟨[], [], .stop hstops, .nil, by simp, fun _ => rfl⟩
  · have hrest := startsItem_of_stops hstops
    rw [hnext] at hrest hstops
    have hstop : Derives (.sequence ctx ending []) _ _ := .stop hstops
    obtain ⟨span, hderives⟩ := derives_text hrest (by simp) hne (.of_blank htail) hstop
    rw [hnext]
    refine ⟨[], _, hderives, .nil, ?_, fun htail => absurd htail hne⟩
    intro n hn
    obtain rfl := List.mem_singleton.mp hn
    simpa [isBlank, Text.isBlankText] using fun c => htail c

lemma Node.isText_normal (n : Node) : n.normal.isText = n.isText := by
  cases n
  case awaitBlock span e value error pending resolved rejected =>
    cases pending <;> cases resolved <;> rfl
  all_goals rfl

lemma Node.cons_of_not_isText (hn : n.isText = false) (nodes : List Node) :
    n.cons nodes = n :: nodes := by
  cases n
  case text => cases hn
  all_goals rfl

lemma Node.readsFrom_node (hn : n.isText = false) (hcore : n.Reads ctx p core)
    (hrest : ReadsFrom ctx p trim false nodes cs) :
    ReadsFrom ctx p trim first (n :: nodes) (core ++ cs) := by
  intro source before tail after ending next hsource htail htrim hending hnext hstops
  rw [append_assoc] at hsource ⊢
  obtain ⟨n', hitem, hreprints⟩ := hcore hsource
  have hn' : n'.isText = false := by rw [← n'.isText_normal, hreprints.normal, n.isText_normal, hn]
  have hsource' : source = (before ++ core) ++ (cs ++ (tail ++ after)) := by
    rw [hsource, append_assoc]
  have hnext' : next = ⟨byteLength (before ++ core) + byteLength cs + byteLength tail, after⟩ := by
    simpa [Nat.add_assoc] using hnext
  obtain ⟨nodes', extra, hderives, hfollows, hextra, hnil⟩ :=
    hrest hsource' htail htrim hending hnext' hstops
  rw [byteLength_append] at hderives
  have hcons := derives_cons (goesOn_of_item hitem hending) hitem hderives
  rw [cons_of_not_isText hn'] at hcons
  exact ⟨n' :: nodes', extra, hcons, .node hn hn' hreprints hfollows, hextra, hnil⟩

lemma StaysText.padded (hclean : CleanText data)
    (hbrace : (Text.trim data).getLast? = some '{' → after = [] → rest.head? ≠ some '{')
    (hbefore : Blank before) (hafter : Blank after) (hrest : rest = [] ∨ startsItem rest = true) :
    StaysText (before ++ (Text.trim data ++ after)) rest := by
  refine (StaysText.of_blank hbefore).append
    ((StaysText.of_cleanText hclean.trim (fun hlast => ?_) fun c hc => ?_).append (.of_blank hafter))
  · cases after with
    | nil => exact hbrace hlast rfl
    | cons d after =>
      rintro ⟨⟩
      exact absurd (hafter '{' (mem_cons_self ..)) (by decide)
  · cases after with
    | nil =>
      rcases hrest with rfl | hstarts
      · cases hc
      · obtain ⟨rest, rfl⟩ := List.head?_eq_some_iff.mp hc
        exact closesText_of_startsItem hstarts
    | cons d after =>
      cases hc
      simp [closesText, hafter c (mem_cons_self ..)]

section Text

variable {span : Span} {data : String} {lead trail : Padding} {before after core : List Char}

lemma Padding.Fits.eq_none {padding : Padding} (h : padding.Fits []) : padding = .none :=
  Padding.fits_nil_iff.mp h

lemma Node.readsFrom_lastText (hclean : CleanText data.toList)
    (hbrace : (Text.trim data.toList).getLast? ≠ some '{')
    (hpad : (Sibling.text data.toList : Sibling Doc).pad trim first true = .text lead core trail)
    (hlead : lead.Fits before) (htrail : trail.Fits after) :
    ReadsFrom ctx p trim first [.text span data] (before ++ (core ++ after)) := by
  intro source front tail rest ending next hsource htail htrim hending hnext hstops
  have hcore := (core_of_pad hpad).1
  have hassoc : before ++ (core ++ after) ++ (tail ++ rest) =
      before ++ (core ++ (after ++ tail)) ++ rest := by
    simp
  rw [hassoc]
  have hnext' : next = ⟨byteLength front + byteLength (before ++ (core ++ (after ++ tail))), rest⟩ := by
    simpa [Nat.add_assoc] using hnext
  by_cases hne : before ++ (core ++ (after ++ tail)) = []
  · simp only [List.append_eq_nil_iff] at hne
    obtain ⟨rfl, hnil, rfl, rfl⟩ := hne
    rw [hlead.eq_none, htrail.eq_none, hnil] at hpad
    obtain rfl : next = ⟨byteLength front, rest⟩ := by simpa [hnil] using hnext'
    refine ⟨[], [], ?_, .gone hpad (by simp) .nil, by simp, fun _ => rfl⟩
    simpa [hnil] using Derives.stop hstops
  · have hrest := startsItem_of_stops hstops
    rw [hnext'] at hrest hstops
    have hstays := StaysText.padded hclean (absurd · hbrace) hlead.blank
      (htrail.blank.append htail) hrest
    rw [← hcore] at hstays
    have hstop : Derives (.sequence ctx ending []) _ _ := .stop hstops
    obtain ⟨span', hderives⟩ := derives_text hrest (by simp) hne hstays hstop
    refine ⟨_, [], by rw [hnext']; exact hderives, .text ?_ .nil, by simp, fun _ => rfl⟩
    rw [String.toList_ofList]
    exact (pad_text_eq hpad hlead htrail htail fun hne => ⟨htrim hne, rfl⟩).trans hpad.symm

/-- **A text before a node** is read before it, unless nothing of it is left. -/
theorem Node.readsFrom_text {n : Node} {nodes : List Node} {cs : List Char}
    (hclean : CleanText data.toList) (hbrace : (Text.trim data.toList).getLast? ≠ some '{')
    (hn : n.isText = false)
    (hpad : (Sibling.text data.toList : Sibling Doc).pad trim first false = .text lead core trail)
    (hlead : lead.Fits before) (htrail : trail.Fits after)
    (hrest : ReadsFrom ctx p trim false (n :: nodes) cs) :
    ReadsFrom ctx p trim first (.text span data :: n :: nodes)
      (before ++ (core ++ after) ++ cs) := by
  intro source front tail rest ending next hsource htail htrim hending hnext hstops
  have hcore := (core_of_pad hpad).1
  rw [append_assoc (before ++ (core ++ after))] at hsource ⊢
  have hsource' : source = (front ++ (before ++ (core ++ after))) ++ (cs ++ (tail ++ rest)) := by
    rw [hsource, append_assoc front]
  have hnext' : next = ⟨byteLength (front ++ (before ++ (core ++ after))) + byteLength cs +
      byteLength tail, rest⟩ := by
    simpa [Nat.add_assoc] using hnext
  obtain ⟨nodes', extra, hderives, hfollows, hextra, hnil⟩ :=
    hrest hsource' htail htrim hending hnext' hstops
  obtain ⟨n', nodes', hn', rfl⟩ : ∃ n' rest', n'.isText = false ∧ nodes' = n' :: rest' := by
    cases hfollows with
    | node _ hn' _ _ => exact ⟨_, _, hn', rfl⟩
    | text _ _ => cases hn
    | gone _ _ _ => cases hn
  have hstarts := startsItem_of_sequence hderives hn'
  rw [byteLength_append] at hderives
  by_cases hne : before ++ (core ++ after) = []
  · have hempty := hne
    simp only [List.append_eq_nil_iff] at hne
    obtain ⟨rfl, rfl, rfl⟩ := hne
    rw [hlead.eq_none, htrail.eq_none] at hpad
    exact ⟨n' :: nodes', extra, by simpa using hderives, .gone hpad (by simpa using hn') hfollows,
      hextra, hnil⟩
  · have hstays := StaysText.padded hclean (absurd · hbrace) hlead.blank htrail.blank (.inr hstarts)
    rw [← hcore] at hstays
    obtain ⟨span', hderives'⟩ :=
      derives_text (.inr hstarts) (by simpa using hn') hne hstays hderives
    refine ⟨_ :: n' :: nodes', extra, hderives', .text ?_ hfollows, hextra, hnil⟩
    rw [String.toList_ofList]
    have hagain := pad_text_eq hpad hlead htrail .nil (by simp)
    rw [append_nil] at hagain
    exact hagain.trans hpad.symm

end Text

/-! ## Printing siblings -/

/-- **A node is read back**: it is written as a text that is read as this node again. -/
def Node.ReadsBack (ctx : MarkupContext) (p : Printing) (n : Node) : Prop :=
  (n.doc p).Sets (n.Reads ctx p)

/-- **What printing asks of siblings**: that their nodes are read back, that their texts stay
texts, and that no text follows another one. -/
structure Node.Printable (ctx : MarkupContext) (p : Printing) (nodes : List Node) : Prop where
  readsBack : ∀ n ∈ nodes, n.isText = false → n.ReadsBack ctx p
  texts : ∀ span data, .text span data ∈ nodes →
    CleanText data.toList ∧ (Text.trim data.toList).getLast? ≠ some '{'
  apart : nodes.IsChain fun a b => a.isText = false ∨ b.isText = false

lemma Node.Printable.tail (h : Printable ctx p (n :: nodes)) : Printable ctx p nodes :=
  ⟨fun m hm => h.readsBack m (List.mem_cons_of_mem _ hm),
    fun span data hm => h.texts span data (List.mem_cons_of_mem _ hm), h.apart.tail⟩

lemma Writer.atLevel_of_write (doc : Doc) (w : Writer) :
    (doc.write w).atLevel w.level = doc.write w := by
  conv_rhs => rw [← Writer.atLevel_level (doc.write w), Doc.level_write]

/-- **A text lays siblings out**: it is made of the texts of the nodes, each of which is as asked,
and of the cores of the texts between blanks of the classes of their padding. -/
inductive Node.Laid (P : Node → List Char → Prop) (trim : Bool) :
    Bool → List Node → List Char → Prop
  | nil {first : Bool} : Laid P trim first [] []
  | node {first : Bool} {n : Node} {nodes : List Node} {core cs : List Char}
      (hn : n.isText = false) (hcore : P n core) (hrest : Laid P trim false nodes cs) :
      Laid P trim first (n :: nodes) (core ++ cs)
  | text {first : Bool} {span : Span} {data : String} {nodes : List Node} {lead trail : Padding}
      {before core after cs : List Char}
      (hpad : (Sibling.text data.toList : Sibling Doc).pad trim first nodes.isEmpty =
        .text lead core trail)
      (hlead : lead.Fits before) (htrail : trail.Fits after) (hrest : Laid P trim false nodes cs) :
      Laid P trim first (.text span data :: nodes) (before ++ (core ++ after) ++ cs)

/-- **Siblings are written as a text that lays them out.** Only a node may start a line. -/
theorem Node.exists_laid {P : Node → List Char → Prop} {nodes : List Node}
    (h : ∀ n ∈ nodes, n.isText = false → (n.doc p).Sets (P n))
    (hapart : nodes.IsChain fun a b => a.isText = false ∨ b.isText = false) {w : Writer}
    (hw : w.Indents) (hstart : w.atLineStart = true → ∃ n ∈ nodes.head?, n.isText = false)
    (level : Nat) :
    ∃ cs, (((Doc.siblings (Sibling.padFrom trim first (nodes.map (sibling p)))).write
        w).atLevel level).front = w.front ++ cs ∧ Laid P trim first nodes cs := by
  induction nodes generalizing first w with
  | nil =>
    have hline : w.atLineStart = false := by
      rw [← Bool.not_eq_true]
      intro hline
      obtain ⟨n, hn, -⟩ := hstart hline
      cases hn
    refine ⟨[], ?_, .nil⟩
    rw [append_nil, Writer.front_of_not_atLineStart hline]
    exact Writer.front_of_not_atLineStart hline
  | cons n nodes ih =>
    rw [map_cons, padFrom, Doc.write_siblings_cons, List.isEmpty_map]
    have hrest := @ih false (fun m hm => h m (List.mem_cons_of_mem _ hm)) hapart.tail
    by_cases hn : n.isText = false
    · obtain ⟨core, hfront, hline, hcore⟩ := h n (mem_cons_self ..) hn w hw
      obtain ⟨cs, hwritten, hlaid⟩ := hrest (hw.write (n.doc p)) (by simp [hline])
      rw [sibling_of_not_isText p hn]
      refine ⟨core ++ cs, ?_, .node hn hcore hlaid⟩
      rw [← append_assoc, ← hfront]
      exact hwritten
    · obtain ⟨span, data, rfl⟩ : ∃ span data, n = .text span data := by
        cases n
        case text span data => exact ⟨span, data, rfl⟩
        all_goals exact absurd rfl hn
      have hline : w.atLineStart = false := by
        rw [← Bool.not_eq_true]
        intro hline
        obtain ⟨n, ⟨⟩, hn⟩ := hstart hline
        cases hn
      obtain ⟨lead, core, trail, hpad⟩ :=
        exists_pad_text (α := Doc) trim first nodes.isEmpty data.toList
      obtain ⟨hcore, hnone⟩ := core_of_pad hpad
      have htrimmed : Trimmed core := hcore ▸ Text.trimmed_trim _
      rw [sibling, hpad]
      cases nodes with
      | nil =>
        obtain ⟨before, after, hlead, htrail, hfront⟩ :=
          Padded.exists_front htrimmed hnone hw hline level
        have hlaid : Laid P trim first [.text span data] (before ++ (core ++ after) ++ []) :=
          .text hpad hlead htrail .nil
        rw [append_nil] at hlaid
        exact ⟨_, hfront, hlaid⟩
      | cons n nodes =>
        have hn : n.isText = false := by
          simpa [isText] using (List.isChain_cons_cons.mp hapart).1
        obtain ⟨before, after, hlead, htrail, hfront⟩ :=
          Padded.exists_front htrimmed hnone hw hline w.level
        rw [Writer.atLevel_of_write] at hfront
        obtain ⟨cs, hwritten, hlaid⟩ :=
          hrest (hw.write (Padded.text lead core trail).doc) fun _ => ⟨n, rfl, hn⟩
        refine ⟨before ++ (core ++ after) ++ cs, ?_, .text hpad hlead htrail hlaid⟩
        rw [← append_assoc, ← hfront]
        exact hwritten

/-- **Siblings are read from a text that lays them out**, if their texts stay texts. -/
theorem Node.Laid.readsFrom (h : Laid (Reads ctx p) trim first nodes cs)
    (hprintable : Printable ctx p nodes) : ReadsFrom ctx p trim first nodes cs := by
  induction h with
  | nil => exact readsFrom_nil
  | node hn hcore _ ih => exact readsFrom_node hn hcore (ih hprintable.tail)
  | @text _ span data nodes _ _ _ _ _ _ hpad hlead htrail hrest ih =>
    obtain ⟨hclean, hbrace⟩ := hprintable.texts span data (mem_cons_self ..)
    cases nodes with
    | nil =>
      cases hrest
      rw [append_nil]
      exact readsFrom_lastText hclean hbrace hpad hlead htrail
    | cons n nodes =>
      have hn : n.isText = false := by
        simpa [isText] using (List.isChain_cons_cons.mp hprintable.apart).1
      exact readsFrom_text hclean hbrace hn hpad hlead htrail (ih hprintable.tail)

/-- **Printable siblings are written as a text that is read back as siblings.** Only a node may
start a line. -/
theorem Node.Printable.exists_front (h : Printable ctx p nodes) (hw : w.Indents)
    (hstart : w.atLineStart = true → ∃ n ∈ nodes.head?, n.isText = false) (level : Nat) :
    ∃ cs, (((Doc.siblings (padFrom trim first (nodes.map (sibling p)))).write
        w).atLevel level).front = w.front ++ cs ∧ ReadsFrom ctx p trim first nodes cs := by
  obtain ⟨cs, hfront, hlaid⟩ := exists_laid h.readsBack h.apart hw hstart level
  exact ⟨cs, hfront, hlaid.readsFrom h⟩

/-! ## Fragments -/

/-- **A text is read as the content of an element or a block**, wherever it stands. -/
def Node.ReadsInside (ctx : MarkupContext) (p : Printing) (nodes : List Node) (cs : List Char) :
    Prop :=
  ∀ ⦃source before after : List Char⦄ ⦃ending : Ending⦄, source = before ++ (cs ++ after) →
    EndsApart (some ending) → Stops (some ending) ⟨byteLength before + byteLength cs, after⟩ →
    ∃ nodes', Derives (.sequence ctx (some ending) nodes') ⟨byteLength before, cs ++ after⟩
        ⟨byteLength before + byteLength cs, after⟩ ∧
      ReprintsAll p (p.reread source) nodes nodes'

lemma Node.write_fragment_of_blank (hall : nodes.all isBlank = true) (p : Printing)
    (w : Writer) : (Doc.fragment (siblings p nodes)).write w = w := by
  rw [Doc.fragment, reconcile, all_isBlank_siblings, if_pos hall]
  rfl

lemma Node.write_fragment (hall : nodes.all isBlank = false) (p : Printing) (w : Writer) :
    (Doc.fragment (siblings p nodes)).write w =
      ((Doc.siblings (padFrom false true (nodes.map (sibling p)))).write
        w.indent).atLevel w.level := by
  rw [Doc.fragment, reconcile, all_isBlank_siblings, hall, siblings_eq_map]
  rfl

lemma Node.all_isBlank_eq (h : normals nodes' = normals nodes) :
    nodes'.all isBlank = nodes.all isBlank := by
  rw [← isEmpty_normals, ← isEmpty_normals, h]

/-- **The content of an element or a block is read back**: it is written as a text that is read as
this content again. -/
def Node.ContentReadsBack (ctx : MarkupContext) (p : Printing) (nodes : List Node) : Prop :=
  (Doc.fragment (siblings p nodes)).Fills (ReadsInside ctx p nodes)

/-- **Printable siblings are read back** as the content of an element or a block. -/
theorem Node.Printable.contentReadsBack (h : Printable ctx p nodes) :
    ContentReadsBack ctx p nodes := by
  intro w hw hline
  by_cases hall : nodes.all isBlank = true
  · refine ⟨[], by rw [write_fragment_of_blank hall, append_nil], ?_⟩
    intro source before after ending hsource hending hstops
    have hnil : normals nodes = [] := List.isEmpty_iff.mp (by rw [isEmpty_normals, hall])
    refine ⟨[], .stop hstops, by rw [hnil, normals], fun w => ?_⟩
    rw [write_fragment_of_blank hall, write_fragment_of_blank rfl]
  · have hall : nodes.all isBlank = false := Bool.eq_false_iff.mpr hall
    have hstart : w.indent.atLineStart = true →
        ∃ n ∈ nodes.head?, n.isText = false := fun hstart => by
      rw [show w.indent.atLineStart = w.atLineStart from rfl, hline] at hstart
      cases hstart
    obtain ⟨cs, hfront, hreads⟩ := h.exists_front (w := w.indent) hw hstart w.level
    refine ⟨cs, ?_, ?_⟩
    · rw [write_fragment hall, hfront, Writer.front_of_not_atLineStart hline,
        Writer.front_of_not_atLineStart (w := w.indent) hline]
      rfl
    · intro source before after ending hsource hending hstops
      obtain ⟨nodes', extra, hderives, hfollows, -, hextra⟩ :=
        @hreads source before [] after _ _ hsource .nil (by simp) hending rfl hstops
      rw [hextra rfl, append_nil] at hderives
      refine ⟨nodes', hderives, hfollows.normals_eq, fun w => ?_⟩
      have hall' : nodes'.all isBlank = false := by
        rw [all_isBlank_eq hfollows.normals_eq, hall]
      rw [write_fragment hall, write_fragment hall', hfollows.write_eq]

end ComponentTemplate
