import ComponentTemplate.Component.Parser
import ComponentTemplate.Proofs.Tags

/-!
# The grammar of markup

The content of a component as a relation between a phrase and two places of the source: the
phrase stands between them. The reading functions decide by what stands at a place; the relation
has one rule for each way in which they can succeed.
-/

namespace ComponentTemplate

/-- **Whether a text ends here**: a tag, a comment, an element or a closing tag starts. -/
def startsItem : List Char → Bool
  | '{' :: c :: _ => c == '{' || c == '%'
  | '<' :: c :: cs => c.isAlpha || c == '/' || (c == '!' && "--".toList.isPrefixOf cs)
  | _ => false

def Item.StandsAs (item : Item) (first : Node) : Option Ending → Prop
  | none => item.topLevel false false = .ok (.node first)
  | some _ => item.nested = .ok first

namespace MarkupGrammar

/-- **A sequence of nodes ends here**: at the tag that ends it, or at the end of the source. -/
def Stops : Option Ending → Cursor → Prop
  | none, cur => cur.rest = []
  | some (.closingTag _), cur => cur.startsWith "</" = true
  | some (.blockTag keywords), cur => ∃ keyword ∈ keywords, blockKeyword? cur = some keyword

/-- **A sequence of nodes goes on here.** -/
structure GoesOn (ending : Option Ending) (cur : Cursor) : Prop where
  rest_ne : cur.rest ≠ []
  not_closing : cur.startsWith "</" = false
  not_ending : ∀ e ∈ ending, e.matches (blockKeyword? cur) = false

/-- **What may stand between two places of the source.** -/
inductive Phrase where
  | sequence (ctx : MarkupContext) (ending : Option Ending) (nodes : List Node)
  | item (ctx : MarkupContext) (item : Item)
  | branches (ctx : MarkupContext) (consequent : List Node) (alternate : Option (List Node))
  | alternative (ctx : MarkupContext) (alternate : Option (List Node))
  | elseBranch (ctx : MarkupContext) (close : String) (nodes : Option (List Node))
  | outcome (ctx : MarkupContext) (word : String) (ending : Ending) (name : Option Expr)
      (nodes : Option (List Node))
  /-- What follows the opening tag of an awaiting block, with the closing tag. -/
  | outcomes (ctx : MarkupContext) (opening : AwaitOpening) (value error : Option Expr)
      (pending resolved rejected : Option (List Node))

/-- **The rules of the grammar.** -/
inductive Derives : Phrase → Cursor → Cursor → Prop
  | stop {ctx} {ending} {cur} (hstops : Stops ending cur) :
      Derives (.sequence ctx ending []) cur cur
  | cons {ctx} {ending} {found} {first}
      {rest} {cur after next} (hgoes : GoesOn ending cur)
      (hitem : Derives (.item ctx found) cur after) (hfirst : found.StandsAs first ending)
      (hrest : Derives (.sequence ctx ending rest) after next) :
      Derives (.sequence ctx ending (first.cons rest)) cur next
  -- texts, comments and tags
  | text {ctx} {cur} {c} {cs}
      (hrest : cur.rest = c :: cs) (hstarts : startsItem (c :: cs) = false) :
      Derives (.item ctx (.node (.text (cur.spanTo (cur.skip (1 + (textRun cs).length)))
        (String.ofList (c :: textRun cs))))) cur (cur.skip (1 + (textRun cs).length))
  | comment {ctx} {cur} {cs data}
      (hrest : cur.rest = '<' :: '!' :: '-' :: '-' :: cs)
      (hdata : beforeText? "-->".toList cs = some data) :
      Derives (.item ctx (.node (.comment (cur.spanTo (cur.skip (data.length + 7)))
        (String.ofList data)))) cur (cur.skip (data.length + 7))
  | inlineTag {ctx} {node} {cur next} {cs}
      (hrest : cur.rest = '{' :: '{' :: cs) (htag : InlineTag cur next node) :
      Derives (.item ctx (.node node)) cur next
  | variableTag {ctx} {e} {st st₁} {cur next}
      {cs} (hrest : cur.rest = '{' :: '%' :: cs) (hopens : OpensTag "set" cur st)
      (he : Grammar.Derives (.expression e) st st₁) (hassignment : e.isAssignment = true)
      (hend : st₁.EndsBlock next) :
      Derives (.item ctx (.node (.variableTag (cur.spanTo next) e))) cur next
  | importTag {ctx} {tag} {st} {cur next}
      {cs} (hrest : cur.rest = '{' :: '%' :: cs) (hopens : OpensTag "import" cur st)
      (htag : Gives (MarkupGrammar.importTag cur st) tag next) :
      Derives (.item ctx (.importTag tag)) cur next
  -- elements
  | complete {ctx} {tag} {cur next} {c}
      {cs} (hrest : cur.rest = '<' :: c :: cs) (hc : c.isAlpha = true)
      (htag : Gives (openingTag ctx cur) tag next) (hcomplete : tag.isComplete = true) :
      Derives (.item ctx (.node
        (.element (cur.spanTo next) tag.kind tag.name tag.attributes []))) cur next
  | raw {ctx} {tag} {code} {codeSpan}
      {cur after next} {c} {cs} (hrest : cur.rest = '<' :: c :: cs)
      (hc : c.isAlpha = true) (htag : Gives (openingTag ctx cur) tag after)
      (hcomplete : tag.isComplete = false) (hraw : tag.isRaw = true)
      (hcode : Gives (rawContent tag.name after) (code, codeSpan) next) :
      Derives (.item ctx (.raw ⟨cur.spanTo next, tag.name, tag.attributes, code, codeSpan⟩)) cur next
  | element {ctx} {tag} {children}
      {cur after close next} {c} {cs}
      (hrest : cur.rest = '<' :: c :: cs) (hc : c.isAlpha = true)
      (htag : Gives (openingTag ctx cur) tag after) (hcomplete : tag.isComplete = false)
      (hraw : tag.isRaw = false)
      (hchildren : Derives (.sequence { ctx with inHead := tag.kind = .specialHead }
        (some (.closingTag tag.name)) children) after close)
      (hclose : Gives (closingTag tag.name close) () next) :
      Derives (.item ctx (.node
        (.element (cur.spanTo next) tag.kind tag.name tag.attributes children))) cur next
  -- conditions
  | ifBlock {ctx} {test} {consequent}
      {alternate} {st st₁} {cur after next}
      {cs} (hrest : cur.rest = '{' :: '%' :: cs) (hopens : OpensTag "if" cur st)
      (htest : Grammar.Derives (.expression test) st st₁) (hend : st₁.EndsBlock after)
      (hbranches : Derives (.branches ctx consequent alternate) after next) :
      Derives (.item ctx (.node (.ifBlock (cur.spanTo next) false test consequent alternate))) cur
        next
  | branches {ctx} {consequent} {alternate}
      {cur after next}
      (hconsequent : Derives (.sequence ctx (some (.blockTag ["elseif", "else", "endif"]))
        consequent) cur after)
      (halternate : Derives (.alternative ctx alternate) after next) :
      Derives (.branches ctx consequent alternate) cur next
  | elseif {ctx} {test} {consequent}
      {alternate} {st st₁} {cur after next}
      (hkeyword : blockKeyword? cur = some "elseif") (hopens : OpensTag "elseif" cur st)
      (htest : Grammar.Derives (.expression test) st st₁) (hend : st₁.EndsBlock after)
      (hbranches : Derives (.branches ctx consequent alternate) after next) :
      Derives (.alternative ctx (some [.ifBlock (cur.spanTo next) true test consequent alternate]))
        cur next
  | otherwise {ctx} {alternate} {cur close next}
      (hkeyword : blockKeyword? cur ≠ some "elseif")
      (helse : Derives (.elseBranch ctx "endif" alternate) cur close)
      (hend : WordTag "endif" close next) : Derives (.alternative ctx alternate) cur next
  | noElse {ctx} {close} {cur}
      (hkeyword : blockKeyword? cur ≠ some "else") : Derives (.elseBranch ctx close none) cur cur
  | elseBranch {ctx} {close} {nodes}
      {cur after next} (hkeyword : blockKeyword? cur = some "else")
      (htag : WordTag "else" cur after)
      (hnodes : Derives (.sequence ctx (some (.blockTag [close])) nodes) after next) :
      Derives (.elseBranch ctx close (some nodes)) cur next
  -- loops, keyed blocks and snippets
  | forBlock {ctx} {index} {name subject}
      {key} {body} {fallback}
      {st st₁ st₂ st₃ st₄} {cur after afterBody close next} {cs}
      (hrest : cur.rest = '{' :: '%' :: cs) (hopens : OpensTag "for" cur st)
      (hnames : LoopNames st index name st₁) (hin : st₁.Passes (.word "in") st₂)
      (hsubject : Grammar.Derives (.expression subject) st₂ st₃) (hkey : LoopKey st₃ key st₄)
      (hend : st₄.EndsBlock after)
      (hbody : Derives (.sequence ctx (some (.blockTag ["else", "endfor"])) body) after afterBody)
      (hfallback : Derives (.elseBranch ctx "endfor" fallback) afterBody close)
      (hclose : WordTag "endfor" close next) :
      Derives (.item ctx (.node (.forBlock (cur.spanTo next) index name subject key body fallback)))
        cur next
  | keyBlock {ctx} {e} {body} {st st₁}
      {cur after close next} {cs} (hrest : cur.rest = '{' :: '%' :: cs)
      (hopens : OpensTag "key" cur st) (he : Grammar.Derives (.expression e) st st₁)
      (hend : st₁.EndsBlock after)
      (hbody : Derives (.sequence ctx (some (.blockTag ["endkey"])) body) after close)
      (hclose : WordTag "endkey" close next) :
      Derives (.item ctx (.node (.keyBlock (cur.spanTo next) e body))) cur next
  | snippetBlock {ctx} {name} {params} {body}
      {st st₁ st₂ st₃ st₄} {cur after close next} {cs}
      (hrest : cur.rest = '{' :: '%' :: cs) (hopens : OpensTag "snippet" cur st)
      (hname : st.Passes (.word name) st₁) (hopen : st₁.Passes (.mark "(") st₂)
      (hparams : Grammar.Derives (.params params) st₂ st₃) (hparen : st₃.Passes (.mark ")") st₄)
      (hend : st₄.EndsBlock after)
      (hbody : Derives (.sequence ctx (some (.blockTag ["endsnippet"])) body) after close)
      (hclose : WordTag "endsnippet" close next) :
      Derives (.item ctx (.node (.snippetBlock (cur.spanTo next) name params body))) cur next
  -- awaiting blocks
  | awaitBlock {ctx} {e} {opening}
      {value error} {pending resolved rejected}
      {st st₁} {cur after next} {cs}
      (hrest : cur.rest = '{' :: '%' :: cs) (hopens : OpensTag "await" cur st)
      (he : Grammar.Derives (.expression e) st st₁) (hopening : OpensAwait st₁ after opening)
      (houtcomes : Derives (.outcomes ctx opening value error pending resolved rejected) after next) :
      Derives (.item ctx (.node
        (.awaitBlock (cur.spanTo next) e value error pending resolved rejected))) cur next
  | noOutcome {ctx} {word} {ending} {cur}
      (hkeyword : blockKeyword? cur ≠ some word) :
      Derives (.outcome ctx word ending none none) cur cur
  | outcome {ctx} {word} {ending} {name}
      {nodes} {cur after next} (hkeyword : blockKeyword? cur = some word)
      (htag : BindingTag word name cur after)
      (hnodes : Derives (.sequence ctx (some ending) nodes) after next) :
      Derives (.outcome ctx word ending name (some nodes)) cur next
  | rejected {ctx} {error} {rejected}
      {cur close next}
      (hrejected : Derives (.sequence ctx (some (.blockTag ["endawait"])) rejected) cur close)
      (hclose : WordTag "endawait" close next) :
      Derives (.outcomes ctx (.rejected error) none error none none (some rejected)) cur next
  | resolved {ctx} {value error} {resolved}
      {rejected} {cur after close next}
      (hresolved : Derives (.sequence ctx (some (.blockTag ["catch", "endawait"])) resolved) cur
        after)
      (hrejected : Derives (.outcome ctx "catch" (.blockTag ["endawait"]) error rejected) after
        close)
      (hclose : WordTag "endawait" close next) :
      Derives (.outcomes ctx (.resolved value) value error none (some resolved) rejected) cur next
  | pending {ctx} {value error} {pending}
      {resolved rejected} {cur after afterThen close next}
      (hpending : Derives (.sequence ctx (some (.blockTag ["then", "catch", "endawait"])) pending)
        cur after)
      (hresolved : Derives (.outcome ctx "then" (.blockTag ["catch", "endawait"]) value resolved)
        after afterThen)
      (hrejected : Derives (.outcome ctx "catch" (.blockTag ["endawait"]) error rejected) afterThen
        close)
      (hclose : WordTag "endawait" close next) :
      Derives (.outcomes ctx .pending value error (some pending) resolved rejected) cur next

/-! ## What is read has a derivation -/

variable {ctx : MarkupContext} {cur : Cursor}

lemma startsItem_eq_false {c : Char} {cs : List Char} (hrest : cur.rest = c :: cs)
    (hclosing : cur.startsWith "</" = false) (hblock : ¬ cur.startsWith "\x7b%" = true)
    (hinline : ¬ cur.startsWith "\x7b\x7b" = true) (hcomment : ¬ cur.startsWith "<!--" = true)
    (helement : ¬ (cur.startsWith "<" && (cur.rest.drop 1).head?.any Char.isAlpha) = true) :
    startsItem (c :: cs) = false := by
  simp only [Cursor.startsWith, hrest] at hclosing hblock hinline hcomment helement
  unfold startsItem
  split
  · rename_i d ds heq
    cases heq
    have hblock : d ≠ '%' := fun h => hblock (by simp [h])
    have hinline : d ≠ '{' := fun h => hinline (by simp [h])
    simp [hblock, hinline]
  · rename_i d ds heq
    cases heq
    have hletter : d.isAlpha = false := by simpa using helement
    have hslash : d ≠ '/' := fun h => by simp [h] at hclosing
    have hdashes : ¬ (d = '!' ∧ "--".toList.isPrefixOf ds = true) :=
      fun ⟨hd, hds⟩ => hcomment (by simpa [hd] using hds)
    simp only [hletter, Bool.false_or, Bool.or_eq_false_iff, beq_eq_false_iff_ne, ne_eq, hslash,
      not_false_iff, true_and]
    rw [← Bool.not_eq_true, Bool.and_eq_true, beq_iff_eq]
    exact hdashes
  · rfl

lemma stops_of_matches {ending : Ending}
    (h : ending.matches (blockKeyword? cur) = true) : Stops (some ending) cur := by
  cases ending with
  | closingTag name => cases h
  | blockTag keywords =>
    cases hkeyword : blockKeyword? cur with
    | none =>
      rw [hkeyword] at h
      cases h
    | some keyword =>
      rw [hkeyword] at h
      exact ⟨keyword, List.contains_iff_mem.mp h, hkeyword⟩

open Grammar (gives_expression_iff gives_params_iff)

mutual

theorem derives_of_fragment {ctx : MarkupContext} {ending : Ending} {cur next : Cursor}
    {nodes : List Node} (h : Gives (fragment ctx ending cur) nodes next) :
    Derives (.sequence ctx (some ending) nodes) cur next := by
  rw [fragment.eq_def] at h
  split at h
  · split at h <;> exact absurd h not_gives_error
  · rename_i hrest
    split at h
    · split at h
      · obtain ⟨rfl, rfl⟩ := gives_pure.mp h
        exact .stop ‹_›
      · exact absurd h not_gives_error
    · rename_i hclosing
      replace hclosing := Bool.eq_false_iff.mpr hclosing
      split at h
      · obtain ⟨rfl, rfl⟩ := gives_pure.mp h
        exact .stop (stops_of_matches ‹_›)
      · rename_i hending
        obtain ⟨found, after, hitem, h⟩ := gives_bind.mp h
        obtain ⟨first, hfirst, h⟩ := gives_bind_ok.mp h
        obtain ⟨rest, _, hnodes, h⟩ := gives_bind.mp h
        obtain ⟨rfl, rfl⟩ := gives_pure.mp h
        have hgoes : GoesOn (some ending) cur := ⟨by simp [hrest], hclosing, by simpa using hending⟩
        have hlt := hitem.lt
        exact .cons hgoes (derives_of_item hitem hclosing) hfirst (derives_of_fragment hnodes)
termination_by cur.remaining * 8 + 3
decreasing_by all_goals omega

theorem derives_of_item {ctx : MarkupContext} {cur next : Cursor} {hpos : 0 < cur.remaining}
    {found : Item} (h : Gives (item ctx cur hpos) found next)
    (hclosing : cur.startsWith "</" = false) :
    Derives (.item ctx found) cur next := by
  rw [item] at h
  split at h
  · rename_i hblock
    obtain ⟨cs, hrest⟩ := List.isPrefixOf_iff_prefix.mp hblock
    exact derives_of_blockTag h hrest.symm
  · rename_i hblock
    split at h
    · rename_i hinline
      obtain ⟨cs, hrest⟩ := List.isPrefixOf_iff_prefix.mp hinline
      obtain ⟨node, _, hnode, h⟩ := gives_bind.mp h
      obtain ⟨rfl, rfl⟩ := gives_pure.mp h
      exact .inlineTag hrest.symm (gives_inlineNode_iff.mp hnode)
    · rename_i hinline
      split at h
      · rename_i hcomment
        obtain ⟨cs, hrest⟩ := List.isPrefixOf_iff_prefix.mp hcomment
        obtain ⟨node, _, hnode, h⟩ := gives_bind.mp h
        obtain ⟨rfl, rfl⟩ := gives_pure.mp h
        unfold MarkupGrammar.comment at hnode
        split at hnode
        · exact absurd hnode not_gives_error
        · rename_i data hdata
          obtain ⟨rfl, rfl⟩ := gives_ok.mp hnode
          rw [Cursor.until?, Cursor.rest_skip, ← hrest] at hdata
          exact .comment hrest.symm hdata
      · rename_i hcomment
        split at h
        · rename_i helement
          obtain ⟨hopen, hletter⟩ := Bool.and_eq_true_iff.mp helement
          obtain ⟨cs, hrest⟩ := List.isPrefixOf_iff_prefix.mp hopen
          rw [← hrest] at hletter
          cases cs with
          | nil => cases hletter
          | cons c cs => exact derives_of_element h hrest.symm (by simpa using hletter)
        · rename_i helement
          obtain ⟨rfl, rfl⟩ := gives_pure.mp h
          cases hrest : cur.rest with
          | nil => simp [Cursor.remaining, hrest] at hpos
          | cons c cs =>
            have hstarts := startsItem_eq_false hrest hclosing hblock hinline hcomment helement
            have htext : Derives (.item ctx _) cur _ := .text hrest hstarts
            simpa [textNode, Progress.map, hrest] using htext
termination_by cur.remaining * 8 + 2
decreasing_by all_goals omega

theorem derives_of_element {ctx : MarkupContext} {cur next : Cursor} {found : Item}
    (h : Gives (element ctx cur) found next) {c : Char} {cs : List Char}
    (hrest : cur.rest = '<' :: c :: cs) (hc : c.isAlpha = true) :
    Derives (.item ctx found) cur next := by
  rw [element] at h
  obtain ⟨tag, after, htag, h⟩ := gives_bind.mp h
  have hlt := htag.lt
  dsimp only at h
  split at h
  · obtain ⟨rfl, rfl⟩ := gives_pure.mp h
    exact .complete hrest hc htag ‹_›
  · rename_i hcomplete
    replace hcomplete := Bool.eq_false_iff.mpr hcomplete
    split at h
    all_goals simp only [gives_bind, gives_pure] at h
    · obtain ⟨_, _, hcode, rfl, rfl⟩ := h
      exact .raw hrest hc htag hcomplete ‹_› hcode
    · rename_i hraw
      obtain ⟨_, _, hchildren, _, _, hclose, rfl, rfl⟩ := h
      exact .element hrest hc htag hcomplete (Bool.eq_false_iff.mpr hraw)
        (derives_of_fragment hchildren) hclose
termination_by cur.remaining * 8 + 1
decreasing_by all_goals omega

theorem derives_of_blockTag {ctx : MarkupContext} {cur next : Cursor} {found : Item}
    (h : Gives (blockTag ctx cur) found next) {cs : List Char} (hrest : cur.rest = '{' :: '%' :: cs) :
    Derives (.item ctx found) cur next := by
  rw [blockTag] at h
  obtain ⟨_, st, hopen, h⟩ := gives_bind.mp h
  obtain ⟨_, st₁, hname, h⟩ := gives_bind.mp h
  have hlt := Nat.lt_of_lt_of_le hname.lt (Nat.le_of_lt_succ hopen.lt)
  obtain ⟨keyword, rfl, hword⟩ := gives_name_iff.mp hname
  have hopens : OpensTag keyword cur st₁ := ⟨st, gives_openTag_iff.mp hopen, hword⟩
  dsimp only at h
  split at h
  case h_8 => exact absurd h not_gives_error
  all_goals simp only [gives_bind, gives_pure] at h
  · obtain ⟨test, after, htest, node, _, hnode, rfl, rfl⟩ := h
    have hlt' := htest.lt
    obtain ⟨st₂, htest, hend⟩ := gives_lastExpression_iff.mp htest
    obtain ⟨_, _, rfl, hbranches⟩ := derives_of_ifRest hnode
    exact .ifBlock hrest hopens htest hend hbranches
  · obtain ⟨_, st₂, hnames, _, st₃, hin, subject, st₄, hsubject, key, st₅, hkey, _, _, hend, _, _,
      hbody, _, _, hfallback, _, _, hclose, rfl, rfl⟩ := h
    have hlt₂ := hnames.lt
    have hlt₃ := hin.lt
    have hlt₄ := hsubject.lt
    have hlt₅ := hkey.lt
    have hlt₆ := hend.lt
    have hlt₇ := hbody.lt
    exact .forBlock hrest hopens (gives_loopNames_iff.mp hnames) (gives_expectWord_iff.mp hin).2
      (gives_expression_iff.mp hsubject) (gives_loopKey_iff.mp hkey)
      (gives_closeBlock_iff.mp hend) (derives_of_fragment hbody) (derives_of_elseBranch hfallback)
      (gives_wordTag_iff.mp hclose)
  · obtain ⟨e, after, he, _, _, hbody, _, _, hclose, rfl, rfl⟩ := h
    have hlt' := he.lt
    obtain ⟨st₂, he, hend⟩ := gives_lastExpression_iff.mp he
    exact .keyBlock hrest hopens he hend (derives_of_fragment hbody) (gives_wordTag_iff.mp hclose)
  · obtain ⟨_, st₂, hname', _, st₃, hparen, params, st₄, hparams, _, st₅, hparen', _, _, hend, _, _,
      hbody, _, _, hclose, rfl, rfl⟩ := h
    have hlt₂ := hname'.lt
    have hlt₃ := hparen.lt
    have hlt₄ := hparams.lt
    have hlt₅ := hparen'.lt
    have hlt₆ := hend.lt
    obtain ⟨name, rfl, hpasses⟩ := gives_name_iff.mp hname'
    exact .snippetBlock hrest hopens hpasses (gives_expectMark_iff.mp hparen).2
      (gives_params_iff.mp hparams) (gives_expectMark_iff.mp hparen').2
      (gives_closeBlock_iff.mp hend) (derives_of_fragment hbody) (gives_wordTag_iff.mp hclose)
  · obtain ⟨e, st₂, he, opening, after, hopening, node, _, hnode, rfl, rfl⟩ := h
    have hlt₂ := he.lt
    have hlt₃ := hopening.lt
    obtain ⟨_, _, _, _, _, rfl, houtcomes⟩ := derives_of_awaitRest hnode
    exact .awaitBlock hrest hopens (gives_expression_iff.mp he) (gives_awaitOpening_iff.mp hopening)
      houtcomes
  · obtain ⟨node, _, hnode, rfl, rfl⟩ := h
    obtain ⟨e, st₂, he, hassignment, hend, rfl⟩ := gives_variableTag_iff.mp hnode
    exact .variableTag hrest hopens he hassignment hend
  · obtain ⟨tag, _, htag, rfl, rfl⟩ := h
    exact .importTag hrest hopens htag
termination_by cur.remaining * 8 + 1
decreasing_by all_goals omega

theorem derives_of_elseBranch {ctx : MarkupContext} {close : String} {cur next : Cursor}
    {nodes : Option (List Node)} (h : Gives (elseBranch ctx close cur) nodes next) :
    Derives (.elseBranch ctx close nodes) cur next := by
  rw [elseBranch] at h
  split at h
  · simp only [gives_bind, gives_pure] at h
    obtain ⟨_, after, htag, _, _, hnodes, rfl, rfl⟩ := h
    have hlt := htag.lt
    exact .elseBranch ‹_› (gives_wordTag_iff.mp htag) (derives_of_fragment hnodes)
  · obtain ⟨rfl, rfl⟩ := gives_pure.mp h
    exact .noElse ‹_›
termination_by cur.remaining * 8
decreasing_by all_goals omega

theorem derives_of_ifRest {ctx : MarkupContext} {start : Nat} {isBranch : Bool} {test : Expr}
    {cur next : Cursor} {node : Node}
    (h : Gives (ifRest ctx start isBranch test cur) node next) :
    ∃ consequent alternate, node = .ifBlock ⟨start, next.offset⟩ isBranch test consequent alternate ∧
      Derives (.branches ctx consequent alternate) cur next := by
  rw [ifRest] at h
  obtain ⟨consequent, after, hconsequent, h⟩ := gives_bind.mp h
  have hlt := hconsequent.lt
  have hconsequent := derives_of_fragment hconsequent
  dsimp only at h
  split at h
  all_goals
    rename_i hkeyword
    simp only [gives_bind, gives_pure] at h
  · obtain ⟨_, st, hopen, _, st₁, hword, branchTest, inner, htest, branch, _, hbranch, rfl, rfl⟩ := h
    have hlt₂ := hopen.lt
    have hlt₃ := hword.lt
    have hlt₄ := htest.lt
    have hopens : OpensTag "elseif" after st₁ :=
      ⟨st, gives_openTag_iff.mp hopen, (gives_expectWord_iff.mp hword).2⟩
    obtain ⟨st₂, htest, hend⟩ := gives_lastExpression_iff.mp htest
    obtain ⟨_, _, rfl, hbranches⟩ := derives_of_ifRest hbranch
    exact ⟨_, _, rfl, .branches hconsequent (.elseif hkeyword hopens htest hend hbranches)⟩
  · obtain ⟨alternate, _, halternate, _, _, hend, rfl, rfl⟩ := h
    exact ⟨_, _, rfl, .branches hconsequent
      (.otherwise hkeyword (derives_of_elseBranch halternate) (gives_wordTag_iff.mp hend))⟩
termination_by cur.remaining * 8 + 4
decreasing_by all_goals omega

theorem derives_of_outcome {ctx : MarkupContext} {word : String} {ending : Ending}
    {cur next : Cursor} {found : Option Expr × Option (List Node)}
    (h : Gives (outcome ctx word ending cur) found next) :
    Derives (.outcome ctx word ending found.1 found.2) cur next := by
  rw [outcome] at h
  split at h
  · simp only [gives_bind, gives_pure] at h
    obtain ⟨_, after, htag, _, _, hnodes, rfl, rfl⟩ := h
    have hlt := htag.lt
    exact .outcome ‹_› (gives_bindingTag_iff.mp htag) (derives_of_fragment hnodes)
  · obtain ⟨rfl, rfl⟩ := gives_pure.mp h
    exact .noOutcome ‹_›
termination_by cur.remaining * 8
decreasing_by all_goals omega

theorem derives_of_awaitRest {ctx : MarkupContext} {start : Nat} {e : Expr}
    {opening : AwaitOpening} {cur next : Cursor} {node : Node}
    (h : Gives (awaitRest ctx start e opening cur) node next) :
    ∃ value error pending resolved rejected,
      node = .awaitBlock ⟨start, next.offset⟩ e value error pending resolved rejected ∧
        Derives (.outcomes ctx opening value error pending resolved rejected) cur next := by
  rw [awaitRest.eq_def] at h
  cases opening
  all_goals simp only [gives_bind, gives_wordTag_iff, gives_pure] at h
  case rejected error =>
    obtain ⟨_, _, hrejected, _, _, hclose, rfl, rfl⟩ := h
    exact ⟨_, _, _, _, _, rfl, .rejected (derives_of_fragment hrejected) hclose⟩
  case resolved value =>
    obtain ⟨_, _, hresolved, _, _, hrejected, _, _, hclose, rfl, rfl⟩ := h
    have hlt := hresolved.lt
    exact ⟨_, _, _, _, _, rfl, .resolved (derives_of_fragment hresolved)
      (derives_of_outcome hrejected) hclose⟩
  case pending =>
    obtain ⟨_, _, hpending, _, _, hresolved, _, _, hrejected, _, _, hclose, rfl, rfl⟩ := h
    have hlt := hpending.lt
    have hlt' := hresolved.lt
    exact ⟨_, _, _, _, _, rfl, .pending (derives_of_fragment hpending)
      (derives_of_outcome hresolved) (derives_of_outcome hrejected) hclose⟩
termination_by cur.remaining * 8 + 4
decreasing_by all_goals omega

end

end MarkupGrammar

end ComponentTemplate
