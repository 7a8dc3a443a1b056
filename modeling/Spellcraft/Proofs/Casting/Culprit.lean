import Spellcraft.Proofs.Casting.Hoisting
import Spellcraft.Proofs.Language.Whereabouts

namespace Spellcraft

namespace Outline

mutual

def leaves : Outline → List Outline
  | ⟨span, []⟩ => [⟨span, []⟩]
  | ⟨_, o :: os⟩ => o.leaves ++ leavesOf os

def leavesOf : List Outline → List Outline
  | [] => []
  | o :: os => o.leaves ++ leavesOf os

end

theorem leavesOf_eq (os : List Outline) : leavesOf os = os.flatMap leaves := by
  induction os with
  | nil => rfl
  | cons o os ih => rw [leavesOf, ih, List.flatMap_cons]

theorem leaves_cons (span : Span) (o : Outline) (os : List Outline) :
    leaves ⟨span, o :: os⟩ = (o :: os).flatMap leaves := by
  rw [leaves, leavesOf_eq, List.flatMap_cons]

theorem sublist_leaves (span : Span) (os : List Outline) :
    (os.flatMap leaves).Sublist (leaves ⟨span, os⟩) := by
  cases os with
  | nil => exact List.nil_sublist _
  | cons o os => exact leaves_cons span o os ▸ .refl _

namespace Orderly

variable {G : Span → Prop} {o l : Outline}

theorem leaves (h : Orderly G o) :
    (∀ l ∈ o.leaves, l ∈ o.nodes) ∧ o.leaves.Pairwise Before := by
  induction h with
  | @mk o own parts covers apart ih =>
    rcases o with ⟨span, _ | ⟨c, cs⟩⟩
    · exact ⟨fun l hl => hl, List.pairwise_singleton _ _⟩
    · rw [leaves_cons]
      refine ⟨fun l hl => ?_, List.pairwise_flatMap.2 ⟨fun d hd => (ih d hd).2, ?_⟩⟩
      · obtain ⟨d, hd, hl⟩ := List.mem_flatMap.1 hl
        exact mem_nodes.2 (.inr ⟨d, hd, (ih d hd).1 l hl⟩)
      · refine apart.imp_of_mem fun {d e} hd he before l hl m hm => ?_
        have left := ((parts d hd).covers ((ih d hd).1 l hl)).2
        have right := ((parts e he).covers ((ih e he).1 m hm)).1
        exact Place.lt_of_le_of_lt left (Place.lt_of_lt_of_le before right)

end Orderly

end Outline

def Ordered (rs : List Ident) (os : List Outline) : Prop :=
  (rs.map Ident.outline).Sublist (os.flatMap Outline.leaves)

namespace Ordered

theorem nil {os : List Outline} : Ordered [] os := List.nil_sublist _

theorem append {rs qs : List Ident} {os ps : List Outline} (h : Ordered rs os)
    (k : Ordered qs ps) : Ordered (rs ++ qs) (os ++ ps) := by
  unfold Ordered
  rw [List.map_append, List.flatMap_append]
  exact List.Sublist.append h k

theorem cons {rs qs : List Ident} {o : Outline} {os : List Outline} (h : Ordered rs [o])
    (k : Ordered qs os) : Ordered (rs ++ qs) (o :: os) := h.append k

theorem skip {rs : List Ident} {o : Outline} {os : List Outline} (h : Ordered rs os) :
    Ordered rs (o :: os) := nil.cons h

theorem node {rs : List Ident} {os : List Outline} (h : Ordered rs os) (span : Span) :
    Ordered rs [⟨span, os⟩] := by
  unfold Ordered
  rw [List.flatMap_cons, List.flatMap_nil, List.append_nil]
  exact List.Sublist.trans h (Outline.sublist_leaves span os)

theorem one (r : Ident) : Ordered [r] [r.outline] := .refl _

theorem flatMap {f : α → List Ident} {g : α → List Outline} {as : List α}
    (h : ∀ a ∈ as, Ordered (f a) (g a)) : Ordered (as.flatMap f) (as.flatMap g) := by
  induction as with
  | nil => exact nil
  | cons a as ih =>
    obtain ⟨first, rest⟩ := List.forall_mem_cons.1 h
    exact first.append (ih rest)

end Ordered

mutual

theorem Expr.ordered : (e : Expr) → Ordered e.references [e.outline]
  | .number .. | .text .. | .bool .. | .null _ => .nil
  | .name s n => .one ⟨n, s⟩
  | .call s f args => (f.ordered.cons (argumentReferences_ordered args)).node s
  | .unary s _ e | .paren s e => e.ordered.node s
  | .binary s _ a b | .logical s _ a b => (a.ordered.cons b.ordered).node s
  | .conditional s c a b => ((c.ordered.append a.ordered).append b.ordered).node s
  | .assign s _ target e => ((Ordered.one target).cons e.ordered).node s
  | .update s _ _ target => (Ordered.one target).node s

theorem argumentReferences_ordered :
    (es : List Expr) → Ordered (argumentReferences es) (argumentOutlines es)
  | [] => .nil
  | e :: es => e.ordered.cons (argumentReferences_ordered es)

end

theorem optionReferences_ordered (o : Option Expr) :
    Ordered (optionReferences o) (o.toList.map Expr.outline) := by
  cases o with
  | none => exact .nil
  | some e => exact e.ordered

theorem Declaration.ordered (d : Declaration) : Ordered d.references [d.outline] :=
  (Ordered.flatMap fun v _ => (optionReferences_ordered v.init).skip).node d.span

theorem ForInit.ordered (init : ForInit) : Ordered init.references init.outlines := by
  cases init with
  | absent => exact .nil
  | declare d => exact d.ordered
  | expr e => exact e.ordered

mutual

theorem Stmt.ordered : (s : Stmt) → Ordered s.references [s.outline]
  | .declare d => d.ordered
  | .function s name params bodySpan body => by
    have inner := ((bodyReferences_ordered body).node bodySpan)
    have names : Ordered [] (name.outline :: params.map Ident.outline) := .nil
    exact (names.append inner).node s
  | .branch s c yes no =>
    ((c.ordered.append yes.ordered).append (elseReferences_ordered no)).node s
  | .while_ s c body => (c.ordered.append body.ordered).node s
  | .doWhile s body c => (body.ordered.append c.ordered).node s
  | .for_ s init c update body =>
    (((init.ordered.append (optionReferences_ordered c)).append
      (optionReferences_ordered update)).append body.ordered).node s
  | .block s body => (bodyReferences_ordered body).node s
  | .return_ s value => (optionReferences_ordered value).node s
  | .expr s e => e.ordered.node s
  | .break_ _ | .continue_ _ | .empty _ => .nil

theorem elseReferences_ordered :
    (o : Option Stmt) → Ordered (elseReferences o) (elseOutlines o)
  | none => .nil
  | some s => s.ordered

theorem bodyReferences_ordered :
    (body : List Stmt) → Ordered (bodyReferences body) (bodyOutlines body)
  | [] => .nil
  | s :: rest => s.ordered.cons (bodyReferences_ordered rest)

end

theorem Program.references_pairwise (p : Program) (h : p.outline.Orderly G) :
    (∀ r ∈ p.references, G r.span) ∧
      p.references.Pairwise fun r q => r.span.last < q.span.first := by
  have ordered := (bodyReferences_ordered p.body).node p.span
  unfold Ordered at ordered
  rw [List.flatMap_cons, List.flatMap_nil, List.append_nil] at ordered
  refine ⟨fun r hr => ?_, List.pairwise_map.1 (h.leaves.2.sublist ordered)⟩
  have leaf := ordered.subset (List.mem_map_of_mem hr)
  exact (h.of_mem (h.leaves.1 _ leaf)).sort

def Expr.reference? : Expr → Option Ident
  | .name span n => some ⟨n, span⟩
  | .assign _ _ target _ | .update _ _ _ target => some target
  | _ => none

def Stmt.binders : Stmt → List Ident
  | .function _ name params _ _ => name :: params
  | s => s.declarations.flatMap fun d => d.declarators.map Declarator.name

namespace Program

def referred (p : Program) : List Ident := p.expressions.filterMap Expr.reference?

def binders (p : Program) : List Ident := p.statements.flatMap Stmt.binders

end Program

theorem argumentReferences_eq (es : List Expr) :
    argumentReferences es = es.flatMap Expr.references := by
  induction es with
  | nil => rfl
  | cons e es ih => rw [argumentReferences, ih, List.flatMap_cons]

theorem bodyReferences_eq (body : List Stmt) :
    bodyReferences body = body.flatMap Stmt.references := by
  induction body with
  | nil => rfl
  | cons s rest ih => rw [bodyReferences, ih, List.flatMap_cons]

theorem bodyDeclared_eq (body : List Stmt) : bodyDeclared body = body.flatMap Stmt.declared := by
  induction body with
  | nil => rfl
  | cons s rest ih => rw [bodyDeclared, ih, List.flatMap_cons]

section

variable {r : Ident}

theorem Expr.mem_references (e : Expr) :
    r ∈ e.references ↔ ∃ x ∈ e.nodes, r ∈ x.reference? := by
  refine everywhere (W := fun e => r ∈ e.references) (N := fun e => r ∈ e.reference?)
    (fun e => ?_) e
  cases e with
  | call => simp [references, reference?, parts, argumentReferences_eq]
  | _ => simp [references, reference?, parts, eq_comm]

theorem mem_optionReferences {o : Option Expr} :
    r ∈ optionReferences o ↔ ∃ e ∈ o.toList, r ∈ e.references := by
  cases o <;> simp [optionReferences]

theorem Declaration.mem_references {d : Declaration} :
    r ∈ d.references ↔ ∃ e ∈ d.values, r ∈ e.references := by
  simp only [references, values, List.mem_flatMap, mem_optionReferences, List.mem_filterMap,
    Option.mem_toList]
  grind

theorem ForInit.mem_references {init : ForInit} :
    r ∈ init.references ↔ ∃ e ∈ init.values, r ∈ e.references := by
  cases init with
  | declare d => simp [references, values, d.mem_references]
  | _ => simp [references, values]

theorem Stmt.mem_references (s : Stmt) :
    r ∈ s.references ↔ ∃ t ∈ s.nodes, False ∨ ∃ e ∈ t.values, r ∈ e.references := by
  refine everywhere (W := fun s => r ∈ s.references)
    (N := fun t => False ∨ ∃ e ∈ t.values, r ∈ e.references) (fun s => ?_) s
  cases s with
  | declare d => simp [references, parts, values, d.mem_references]
  | function | block => simp [references, parts, values, bodyReferences_eq]
  | branch _ c yes no => cases no <;> simp [references, parts, values, elseReferences]
  | while_ => simp [references, parts, values]
  | doWhile => simp [references, parts, values, or_comm]
  | for_ _ init =>
    simp only [references, parts, values]
    grind [init.mem_references, mem_optionReferences]
  | return_ => simp [references, parts, values, mem_optionReferences]
  | break_ | continue_ | empty | expr => simp [references, parts, values]

theorem Program.mem_references (p : Program) :
    r ∈ p.references ↔ r ∈ p.referred := by
  rw [references, bodyReferences_eq, List.mem_flatMap,
    p.everywhere Stmt.mem_references Expr.mem_references, referred, List.mem_filterMap]
  simp

end

theorem Stmt.mem_declared {name : String} (s : Stmt) :
    name ∈ s.declared ↔ ∃ t ∈ s.nodes, ∃ i ∈ t.binders, i.name = name := by
  refine everywhere (W := fun s => name ∈ s.declared)
    (N := fun t => ∃ i ∈ t.binders, i.name = name) (fun s => ?_) s
  cases s with
  | declare d => simp [declared, parts, binders, declarations, Declaration.names]
  | function => simp [declared, parts, binders, bodyDeclared_eq, or_assoc, eq_comm]
  | block => simp [declared, parts, binders, declarations, bodyDeclared_eq]
  | branch _ _ yes no =>
    cases no <;> simp [declared, parts, binders, declarations, elseDeclared]
  | while_ | doWhile => simp [declared, parts, binders, declarations]
  | for_ _ init =>
    cases init <;>
      simp [declared, parts, binders, declarations, ForInit.declared, ForInit.declarations,
        Declaration.names]
  | return_ | break_ | continue_ | empty | expr => simp [declared, parts, binders, declarations]

theorem Program.mem_declared {name : String} (p : Program) :
    name ∈ p.declared ↔ ∃ i ∈ p.binders, i.name = name := by
  simp only [declared, binders, statements, bodyDeclared_eq, bodyNodes_eq, List.mem_flatMap,
    Stmt.mem_declared]
  grind

theorem Grant.knows_iff {g : Grant} {name : String} :
    g.knows name = true ↔ name = undefinedName ∨ ∃ c ∈ g.commands, c.name = name := by
  have command (c : Command) : Command.ofName? name = some c ↔ c.name = name := by
    refine ⟨fun h => ?_, fun h => h ▸ c.ofName?_name⟩
    simpa using List.find?_some h
  simp only [knows, lookup?, Bool.or_eq_true, decide_eq_true_eq, Option.isSome_iff_exists,
    Option.filter_eq_some_iff, command]
  grind

namespace Program

/-- A name that the spell declares somewhere, or that needs no declaration. -/
def Means (p : Program) (g : Grant) (name : String) : Prop :=
  (∃ i ∈ p.binders, i.name = name) ∨ name = Grant.undefinedName ∨ ∃ c ∈ g.commands, c.name = name

theorem means_iff {p : Program} {g : Grant} {name : String} :
    p.Means g name ↔ (p.declared.contains name || g.knows name) = true := by
  rw [Means, Bool.or_eq_true, List.contains_iff_mem, p.mem_declared, Grant.knows_iff]

end Program

/-- The check passes if every name that the spell refers to means something, and otherwise blames
the first reference in the text whose name does not. -/
theorem Spell.checkNames_earliest (h : Spell.parse source = .ok p) (g : Grant) :
    (p.checkNames g = .ok () ↔ ∀ r ∈ p.referred, p.Means g r.name) ∧
    ((∃ r ∈ p.referred, ¬ p.Means g r.name) → ∃ r ∈ p.referred, ¬ p.Means g r.name ∧
      p.checkNames g = .error (.unknown r.name r.span) ∧
      ∀ q ∈ p.referred, ¬ p.Means g q.name → q = r ∨ r.span.first < q.span.first) := by
  obtain ⟨inside, pairwise⟩ := p.references_pairwise (Spell.parse_drawn h)
  simp only [Program.checkNames_eq_ok_iff, ← Program.mem_references]
  refine ⟨by simp [Program.means_iff], ?_⟩
  rintro ⟨q, hq, stray⟩
  rcases found : p.unknown? g with _ | r
  · rw [Program.unknown?, List.find?_eq_none] at found
    exact absurd (Program.means_iff.2 (by simpa [or_iff_not_imp_left] using found q hq)) stray
  have checked : p.checkNames g = .error (.unknown r.name r.span) := by rw [Program.checkNames, found]
  rw [Program.unknown?, List.find?_eq_some_iff_append] at found
  obtain ⟨blamed, before, behind, split, passed⟩ := found
  rw [split] at inside pairwise ⊢
  have hr : r ∈ before ++ r :: behind := List.mem_append_right _ List.mem_cons_self
  refine ⟨r, hr, by simpa [Program.means_iff] using blamed, checked, fun t ht stray => ?_⟩
  rcases List.mem_append.1 ht with ht | ht
  · exact absurd (Program.means_iff.2 (by simpa using passed t ht)) stray
  rcases List.mem_cons.1 ht with rfl | ht
  · exact .inl rfl
  have later := (List.pairwise_cons.1 (List.pairwise_append.1 pairwise).2.1).1 t ht
  exact .inr (Place.lt_of_le_of_lt (inside r hr).forward later)

def Spell.lever : String := "function f(a) \x7b\n  (lever) = moveUp(a);\n\x7d\nf(lamp);"

theorem Spell.checkNames_earliest_lever :
    let q : Ident := ⟨"lever", ⟨⟨2, 4⟩, ⟨2, 8⟩⟩⟩
    ∃ p, Spell.parse lever = .ok p ∧ p.checkNames .standard = .error (.unknown q.name q.span) ∧
      ∀ r ∈ p.referred, ¬ p.Means .standard r.name → r = q ∨ q.span.first < r.span.first := by
  intro q
  have computed : (Spell.parse lever).toOption.map (·.checkNames .standard) =
      some (.error (.unknown q.name q.span)) := by decide +kernel
  rcases h : Spell.parse lever with e | p <;> rw [h] at computed
  · cases computed
  have checked : p.checkNames .standard = .error (.unknown q.name q.span) := Option.some.inj computed
  obtain ⟨passes, blames⟩ := checkNames_earliest h .standard
  have stray : ¬ ∀ r ∈ p.referred, p.Means .standard r.name := by
    rw [← passes, checked]
    simp
  obtain ⟨r, -, -, blamed, first⟩ := blames (by simpa using stray)
  rw [checked] at blamed
  obtain ⟨rfl⟩ : q = r := by
    cases r
    cases blamed
    rfl
  exact ⟨p, rfl, checked, first⟩

end Spellcraft
