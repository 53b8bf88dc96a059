import ComponentTemplate.Proofs.SetApart

/-!
# Elements by their parts

An element is printed as one tag or between two tags, with its attributes in the first one. It is
read again if its attributes and its content are, whether or not it has raw text and however it was
written.
-/

namespace ComponentTemplate

open MarkupGrammar Attribute
open Text (Blank)

variable {ctx : MarkupContext} {p : Printing} {kind : ElementKind} {name : String} {span : Span}
  {attributes : List Attribute} {children : List Node}

/-! ## Elements that are read again -/

namespace Node

lemma face_element_eq (hbare : found.map bare = attributes.map bare)
    (hchildren : shownContent name children' = shownContent name children) :
    (Node.element span' kind name found children').face =
      (Node.element span kind name attributes children).face := by
  rw [face, face, hbare, hchildren]

/-- **The parts of a node are read again**: the attributes of an element, and its content unless
this is raw text, which only has to end at the closing tag. -/
def PartsReturn (ctx : MarkupContext) (p : Printing) : Node → Prop
  | .element span kind name attributes children =>
    (attributesDoc p.breaks span.start name attributes).Fills (Return attributes) ∧
      if name ∈ rawElements then
        (contentDoc p name children).Fills (¬ ("</" ++ name ++ ">").toList <:+: ·)
      else ContentReadsBack { ctx with inHead := kind = .specialHead } p children
  | n => n.ReadsBack ctx p

lemma ReadsBack.rereads {n : Node} (h : n.ReadsBack ctx p) : (n.doc p).Sets (n.Rereads ctx) := by
  refine Doc.Sets.mono h fun cs hcs before after => ?_
  obtain ⟨n', hitem, hreprints⟩ := hcs rfl
  exact ⟨_, hitem, n', rfl, face_eq_of_normal_eq hreprints.normal⟩

lemma sets_rereads {n : Node} (hwf : n.WellFormed ctx) (hparts : n.PartsReturn ctx p) :
    (n.doc p).Sets (n.Rereads ctx) := by
  cases n
  case element span kind name attributes children =>
    obtain ⟨hname, -, hvoid, -⟩ := hwf
    obtain ⟨hattributes, hcontent⟩ := hparts
    replace hattributes := hattributes.and (fills_attributesDoc p.breaks span.start name attributes)
    by_cases hraw : name ∈ rawElements
    · rw [if_pos hraw] at hcontent
      obtain rfl := hname.kind_eq_regular hraw
      refine (sets_element hname hattributes hcontent).mono fun cs hcs => ?_
      rw [closesItself, if_neg (by simp [isVoid_of_mem_rawElements hraw])] at hcs
      obtain ⟨inner, code, rfl, ⟨hinner, hhead⟩, hcode⟩ := hcs
      intro before after
      obtain ⟨_, hitem, element, rfl, rfl, hbare, -⟩ :=
        @returns_raw ctx name hraw attributes inner code hinner hhead hcode before after
      refine ⟨_, hitem, _, rfl, face_element_eq hbare ?_⟩
      rw [shownContent, shownContent, if_pos hraw, if_pos hraw]
    · rw [if_neg hraw, ContentReadsBack, ← contentDoc_eq hraw] at hcontent
      refine (sets_element hname hattributes hcontent).mono fun cs hcs => ?_
      split at hcs
      · rename_i hcloses
        obtain ⟨inner, blanks, rfl, ⟨hinner, hhead⟩, hblanks⟩ := hcs
        intro before after
        obtain ⟨_, found, hitem, hbare⟩ :=
          exists_derives_closed hname hinner hhead hblanks before after
        refine ⟨_, hitem, _, rfl, face_element_eq hbare ?_⟩
        rw [shownContent, shownContent, normals_eq_nil hvoid hcloses, normals]
      · rename_i hcloses
        obtain ⟨inner, code, rfl, ⟨hinner, hhead⟩, hcode⟩ := hcs
        have hopen : kind = .regular → isVoid name = false := by
          rintro rfl
          exact Bool.eq_false_iff.mpr hcloses
        intro before after
        obtain ⟨_, found, children', hitem, hbare, hreprints⟩ :=
          exists_derives_open hname hinner hhead hraw hopen hcode rfl
        refine ⟨_, hitem, _, rfl, face_element_eq hbare ?_⟩
        rw [shownContent, shownContent, hreprints.normals]
  all_goals exact ReadsBack.rereads hparts

end Node

end ComponentTemplate
