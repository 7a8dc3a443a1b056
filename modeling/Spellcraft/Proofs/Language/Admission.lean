import Spellcraft.Proofs.Language.Shape
import Spellcraft.Proofs.Language.Sites

namespace Spellcraft

structure Rules where
  /-- References that may come to nothing. -/
  missing : Ident → Prop
  /-- Names that are found from everywhere. -/
  known : String → Prop
  /-- Whether jumps may stand outside of loops. -/
  loose : Prop

namespace Rules

variable {k : Rules}

def Allows (k : Rules) (x : Site) : Prop := x.reference.name ∈ x.around ∨ k.missing x.reference

def Reads (k : Rules) (around : List String) (rs : List Ident) : Prop :=
  ∀ r ∈ rs, k.Allows ⟨r, around⟩

structure Admits (k : Rules) (around : List String) (inLoop : Bool) (s : Stmt) : Prop where
  sites : ∀ x ∈ s.sites around, k.Allows x
  jumps : k.loose ∨ s.jumpsInLoops inLoop = true

structure AdmitsBody (k : Rules) (around : List String) (inLoop : Bool) (body : List Stmt) :
    Prop where
  sites : ∀ x ∈ bodySites around body, k.Allows x
  jumps : k.loose ∨ bodyJumpsInLoops inLoop body = true

theorem Reads.subset (h : k.Reads around rs) (hs : rs' ⊆ rs) : k.Reads around rs' :=
  fun r hr => h r (hs hr)

theorem Reads.append (h : k.Reads around (rs ++ rs')) : k.Reads around rs ∧ k.Reads around rs' :=
  List.forall_mem_append.1 h

theorem Reads.argument (h : k.Reads around (argumentReferences es)) (he : e ∈ es) :
    k.Reads around e.references := by
  induction es with
  | nil => cases he
  | cons a es ih =>
    obtain ⟨ha, hes⟩ := h.append
    rcases List.mem_cons.1 he with rfl | he
    · exact ha
    · exact ih hes he

theorem reads_of_sitesAt (h : ∀ x ∈ sitesAt around rs, k.Allows x) : k.Reads around rs :=
  fun _ hr => h _ (List.mem_map_of_mem hr)

theorem AdmitsBody.mem (h : k.AdmitsBody around inLoop body) (hs : s ∈ body) :
    k.Admits around inLoop s := by
  obtain ⟨hsites, hjumps⟩ := h
  induction body with
  | nil => cases hs
  | cons t rest ih =>
    simp only [bodySites, List.forall_mem_append] at hsites
    simp only [bodyJumpsInLoops, Bool.and_eq_true, or_and_left] at hjumps
    rcases List.mem_cons.1 hs with rfl | hs
    · exact ⟨hsites.1, hjumps.1⟩
    · exact ih hs hsites.2 hjumps.2

namespace Admits

theorem declare (h : k.Admits around inLoop (.declare d)) : k.Reads around d.references :=
  reads_of_sitesAt h.sites

theorem function (h : k.Admits around inLoop (.function span name params bodySpan body)) :
    k.AdmitsBody (reserved params body around) false body :=
  ⟨h.sites, h.jumps⟩

theorem branch (h : k.Admits around inLoop (.branch span c yes no)) :
    k.Reads around c.references ∧ k.Admits around inLoop yes ∧
      ∀ s ∈ no, k.Admits around inLoop s := by
  obtain ⟨hs, hj⟩ := h
  simp only [Stmt.sites, List.forall_mem_append] at hs
  simp only [Stmt.jumpsInLoops, Bool.and_eq_true, or_and_left] at hj
  refine ⟨reads_of_sitesAt hs.1.1, ⟨hs.1.2, hj.1⟩, ?_⟩
  rintro s rfl
  exact ⟨hs.2, hj.2⟩

theorem while_ (h : k.Admits around inLoop (.while_ span c body)) :
    k.Reads around c.references ∧ k.Admits around true body := by
  obtain ⟨hs, hj⟩ := h
  simp only [Stmt.sites, List.forall_mem_append] at hs
  exact ⟨reads_of_sitesAt hs.1, hs.2, hj⟩

theorem doWhile (h : k.Admits around inLoop (.doWhile span body c)) :
    k.Reads around c.references ∧ k.Admits around true body := by
  obtain ⟨hs, hj⟩ := h
  simp only [Stmt.sites, List.forall_mem_append] at hs
  exact ⟨reads_of_sitesAt hs.2, hs.1, hj⟩

theorem for_ (h : k.Admits around inLoop (.for_ span init c update body)) :
    k.Reads around init.references ∧ k.Reads around (optionReferences c) ∧
      k.Reads around (optionReferences update) ∧ k.Admits around true body := by
  obtain ⟨hs, hj⟩ := h
  simp only [Stmt.sites, List.forall_mem_append] at hs
  have heads := reads_of_sitesAt hs.1
  exact ⟨heads.subset (by simp), heads.subset (by simp), heads.subset (by simp), hs.2, hj⟩

theorem block (h : k.Admits around inLoop (.block span body)) :
    k.AdmitsBody around inLoop body :=
  ⟨h.sites, h.jumps⟩

theorem return_ (h : k.Admits around inLoop (.return_ span value)) :
    k.Reads around (optionReferences value) :=
  reads_of_sitesAt h.sites

theorem expr (h : k.Admits around inLoop (.expr span e)) : k.Reads around e.references :=
  reads_of_sitesAt h.sites

end Admits

end Rules

end Spellcraft
