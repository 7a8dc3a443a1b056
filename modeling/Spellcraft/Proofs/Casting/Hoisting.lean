import Spellcraft.Proofs.Casting.DisciplinedRuns

namespace Spellcraft

namespace Program

theorem checkNames_eq_ok_iff (p : Program) (g : Grant) :
    p.checkNames g = .ok () ↔
      ∀ r ∈ p.references, r.name ∈ p.declared ∨ g.knows r.name = true := by
  have unknown_none : p.checkNames g = .ok () ↔ p.unknown? g = none := by
    rw [checkNames]
    cases p.unknown? g <;> simp
  rw [unknown_none, unknown?, List.find?_eq_none]
  simp [or_iff_not_imp_left]

def scoping (p : Program) (g : Grant) : Rules where
  missing r := ∃ x ∈ p.sites, x.reference = r ∧ r.name ∉ x.around
  known name := g.knows name = true
  loose := True

theorem scoping_admits (p : Program) (g : Grant) :
    (p.scoping g).AdmitsBody (reserved [] p.body []) false p.body where
  sites x hx := or_iff_not_imp_left.2 fun h => ⟨x, hx, rfl, h⟩
  jumps := .inl trivial

/-- A name that the check lets pass and that comes to nothing is declared, but neither granted nor
reserved by any body around the reference. -/
theorem unknown_unreserved (p : Program) (maze : Maze) (start : Position) (g : Grant)
    (limits : Limits) {name : String} {span : Span} (checked : p.checkNames g = .ok ())
    (failed : p.perform maze start g limits = .error (.unknown name span)) :
    name ∈ p.declared ∧ g.knows name = false ∧
      ∃ x ∈ p.sites, x.reference = ⟨name, span⟩ ∧ name ∉ x.around := by
  have shown := (Rules.run_after maze start limits (p.scoping_admits g) fun _ h => h).shown
  rw [perform] at failed
  generalize Cast.run limits p.body (.start maze start g limits) = y at failed shown
  rcases y with ⟨e | _, c⟩
  · have he : e = .unknown name span := by
      cases e <;> cases failed
      rfl
    subst he
    obtain ⟨⟨x, hx, hxr, hx'⟩, unknown⟩ := shown
    have reference : (⟨name, span⟩ : Ident) ∈ p.references := by
      rw [← p.sites_references, ← hxr]
      exact List.mem_map_of_mem hx
    have known := Bool.eq_false_iff.2 unknown
    have declared := ((p.checkNames_eq_ok_iff g).1 checked _ reference).resolve_right unknown
    exact ⟨declared, known, x, hx, hxr, hx'⟩
  · cases failed

def outside : Program :=
  let s : Span := .point .origin
  let lamp : Stmt := .declare ⟨.var, [⟨⟨"lamp", s⟩, none⟩], s⟩
  let light : Stmt := .function s ⟨"light", s⟩ [] s [lamp, .expr s (.name s "lamp")]
  ⟨[light, .expr s (.call s (.name s "light") []), .expr s (.name ⟨⟨2, 1⟩, ⟨2, 4⟩⟩ "lamp")], s⟩

theorem unknown_unreserved_outside :
    let span : Span := ⟨⟨2, 1⟩, ⟨2, 4⟩⟩
    outside.checkNames .standard = .ok () ∧
      outside.perform .corridor ⟨0, 0⟩ .standard ⟨0, 20, 1, 0⟩ = .error (.unknown "lamp" span) ∧
      "lamp" ∈ outside.declared ∧ Grant.standard.knows "lamp" = false ∧
      ∃ x ∈ outside.sites, x.reference = ⟨"lamp", span⟩ ∧ "lamp" ∉ x.around := by
  intro span
  have checked : outside.checkNames .standard = .ok () := by decide +kernel
  have failed : outside.perform .corridor ⟨0, 0⟩ .standard ⟨0, 20, 1, 0⟩ =
      .error (.unknown "lamp" span) := by decide +kernel
  exact ⟨checked, failed, outside.unknown_unreserved .corridor ⟨0, 0⟩ .standard _ checked failed⟩

end Program

end Spellcraft
