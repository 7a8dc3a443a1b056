import Spellcraft.Language.Names

namespace Spellcraft

structure Site where
  reference : Ident
  around : List String

def sitesAt (around : List String) (rs : List Ident) : List Site := rs.map (⟨·, around⟩)

/-- What a body reserves beside what is reserved around it. -/
def reserved (params : List Ident) (body : List Stmt) (around : List String) : List String :=
  bodyVars body ++ (params.map Ident.name ++ around)

mutual

def Stmt.sites (around : List String) : Stmt → List Site
  | .declare d => sitesAt around d.references
  | .function _ _ params _ body => bodySites (reserved params body around) body
  | .branch _ c yes no =>
    sitesAt around c.references ++ yes.sites around ++ elseSites around no
  | .while_ _ c body => sitesAt around c.references ++ body.sites around
  | .doWhile _ body c => body.sites around ++ sitesAt around c.references
  | .for_ _ init c update body =>
    sitesAt around (init.references ++ optionReferences c ++ optionReferences update)
      ++ body.sites around
  | .block _ body => bodySites around body
  | .return_ _ value => sitesAt around (optionReferences value)
  | .expr _ e => sitesAt around e.references
  | .break_ _ | .continue_ _ | .empty _ => []

def elseSites (around : List String) : Option Stmt → List Site
  | none => []
  | some s => s.sites around

def bodySites (around : List String) : List Stmt → List Site
  | [] => []
  | s :: rest => s.sites around ++ bodySites around rest

end

def Program.sites (p : Program) : List Site := bodySites (reserved [] p.body []) p.body

@[simp] theorem sitesAt_references (around : List String) (rs : List Ident) :
    (sitesAt around rs).map Site.reference = rs := by
  simp [sitesAt, Function.comp_def]

mutual

theorem Stmt.sites_references (around : List String) :
    (s : Stmt) → (s.sites around).map Site.reference = s.references
  | .declare _ | .return_ .. | .expr .. | .break_ _ | .continue_ _ | .empty _ => by
    simp [Stmt.sites, Stmt.references]
  | .function _ _ _ _ body => by
    rw [Stmt.sites, Stmt.references, bodySites_references _ body]
  | .branch _ _ yes no => by
    simp [Stmt.sites, Stmt.references, yes.sites_references, elseSites_references _ no]
  | .while_ _ _ body | .doWhile _ body _ | .for_ _ _ _ _ body => by
    simp [Stmt.sites, Stmt.references, body.sites_references]
  | .block _ body => by
    rw [Stmt.sites, Stmt.references, bodySites_references _ body]

theorem elseSites_references (around : List String) :
    (no : Option Stmt) → (elseSites around no).map Site.reference = elseReferences no
  | none => rfl
  | some s => s.sites_references around

theorem bodySites_references (around : List String) :
    (body : List Stmt) → (bodySites around body).map Site.reference = bodyReferences body
  | [] => rfl
  | s :: rest => by
    simp [bodySites, bodyReferences, s.sites_references, bodySites_references _ rest]

end

theorem Program.sites_references (p : Program) : p.sites.map Site.reference = p.references :=
  bodySites_references _ p.body

end Spellcraft
