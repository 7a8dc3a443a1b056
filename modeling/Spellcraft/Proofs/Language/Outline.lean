import Spellcraft.Proofs.Language.Nodes
import Spellcraft.Proofs.Language.Tiling

/-!
The outline of a tree: its spans alone, each with the outlines of its parts in reading order. An
outline is orderly when every part lies in the whole and parts follow each other without touching.
-/

namespace Spellcraft

namespace Place

theorem le_total (p q : Place) : p ≤ q ∨ q ≤ p := by
  simp only [le_def]
  omega

theorem lt_of_le_of_lt {p q r : Place} (h : p ≤ q) (h' : q < r) : p < r := by
  rw [le_def] at h
  rw [lt_def] at h' ⊢
  omega

theorem earlier_le_left (p q : Place) : p.earlier q ≤ p := by
  unfold earlier
  split
  · exact le_refl p
  · exact (le_total p q).resolve_left ‹_›

theorem le_later_left (p q : Place) : p ≤ p.later q := by
  unfold later
  split
  · assumption
  · exact le_refl p

theorem le_later_right (p q : Place) : q ≤ p.later q := by
  unfold later
  split
  · exact le_refl q
  · exact (le_total p q).resolve_left ‹_›

theorem earlier_cases (p q : Place) : p.earlier q = p ∨ p.earlier q = q := by
  unfold earlier
  split <;> simp

theorem later_cases (p q : Place) : p.later q = p ∨ p.later q = q := by
  unfold later
  split <;> simp

end Place

namespace Span

/-- The other span lies in this one. -/
def Covers (s t : Span) : Prop := s.first ≤ t.first ∧ t.last ≤ s.last

theorem Covers.refl (s : Span) : s.Covers s := ⟨Place.le_refl _, Place.le_refl _⟩

theorem Covers.trans {s t u : Span} (h : s.Covers t) (k : t.Covers u) : s.Covers u :=
  ⟨Place.le_trans h.1 k.1, Place.le_trans k.2 h.2⟩

structure Closed (G : Span → Prop) : Prop where
  origin : G (.point .origin)
  forward : G s → s.first ≤ s.last
  merge : G s → G t → G (s.merge t)

theorem forward_merge {s t : Span} (h : s.first ≤ s.last) : (s.merge t).first ≤ (s.merge t).last :=
  Place.le_trans (Place.earlier_le_left _ _) (Place.le_trans h (Place.le_later_left _ _))

end Span

structure Outline where
  span : Span
  children : List Outline

namespace Outline

mutual

def nodes : Outline → List Outline
  | ⟨span, children⟩ => ⟨span, children⟩ :: nodesOf children

def nodesOf : List Outline → List Outline
  | [] => []
  | o :: os => o.nodes ++ nodesOf os

end

def leaf (span : Span) : Outline := ⟨span, []⟩

def Before (o o' : Outline) : Prop := o.span.last < o'.span.first

/-- Whole spans are of the sort `G`, cover those of their parts, and the parts follow each other. -/
inductive Orderly (G : Span → Prop) : Outline → Prop
  | mk : G o.span → (∀ c ∈ o.children, Orderly G c) → (∀ c ∈ o.children, o.span.Covers c.span) →
    o.children.Pairwise Before → Orderly G o

theorem nodesOf_eq (os : List Outline) : nodesOf os = os.flatMap nodes := by
  induction os with
  | nil => rfl
  | cons o os ih => rw [nodesOf, ih, List.flatMap_cons]

theorem mem_nodes {o n : Outline} : n ∈ o.nodes ↔ n = o ∨ ∃ c ∈ o.children, n ∈ c.nodes := by
  cases o
  rw [nodes, nodesOf_eq, List.mem_cons, List.mem_flatMap]

namespace Orderly

variable {G : Span → Prop} {o n : Outline}

theorem leaf {s : Span} (h : G s) : Orderly G (.leaf s) :=
  .mk h (List.forall_mem_nil _) (List.forall_mem_nil _) .nil

theorem sort (h : Orderly G o) : G o.span := by
  cases h
  assumption

theorem apart (h : Orderly G o) : o.children.Pairwise Before := by
  cases h
  assumption

theorem part (h : Orderly G o) (hn : n ∈ o.children) : Orderly G n ∧ o.span.Covers n.span := by
  cases h with
  | mk _ parts covers _ => exact ⟨parts n hn, covers n hn⟩

theorem of_mem (h : Orderly G o) (hn : n ∈ o.nodes) : Orderly G n := by
  induction h with
  | mk own parts covers apart ih =>
    rcases mem_nodes.1 hn with rfl | ⟨c, hc, hn⟩
    · exact .mk own parts covers apart
    · exact ih c hc hn

theorem covers (h : Orderly G o) (hn : n ∈ o.nodes) : o.span.Covers n.span := by
  induction h with
  | mk own parts covers apart ih =>
    rcases mem_nodes.1 hn with rfl | ⟨c, hc, hn⟩
    · exact .refl _
    · exact (covers c hc).trans (ih c hc hn)

end Orderly

def All (G : Span → Prop) (o : Outline) : Prop := ∀ n ∈ o.nodes, G n.span

theorem all_node {G : Span → Prop} {span : Span} {os : List Outline} :
    All G ⟨span, os⟩ ↔ G span ∧ ∀ o ∈ os, o.All G := by
  simp only [All, nodes, nodesOf_eq, List.forall_mem_cons, List.mem_flatMap]
  exact and_congr_right fun _ => ⟨fun h o ho n hn => h n ⟨o, ho, hn⟩,
    fun h n ⟨o, ho, hn⟩ => h o ho n hn⟩

theorem all_leaf {G : Span → Prop} {span : Span} : All G (.leaf span) ↔ G span := by
  simp [leaf, all_node]

theorem Orderly.all {G : Span → Prop} {o : Outline} (h : Orderly G o) : o.All G :=
  fun _ hn => (h.of_mem hn).sort

end Outline

def Ident.outline (i : Ident) : Outline := .leaf i.span

mutual

def Expr.outline : Expr → Outline
  | .number s _ | .text s _ | .bool s _ | .null s | .name s _ => .leaf s
  | .call s callee args => ⟨s, callee.outline :: argumentOutlines args⟩
  | .unary s _ e | .paren s e => ⟨s, [e.outline]⟩
  | .binary s _ a b | .logical s _ a b => ⟨s, [a.outline, b.outline]⟩
  | .conditional s c a b => ⟨s, [c.outline, a.outline, b.outline]⟩
  | .assign s _ target e => ⟨s, [target.outline, e.outline]⟩
  | .update s _ _ target => ⟨s, [target.outline]⟩

def argumentOutlines : List Expr → List Outline
  | [] => []
  | e :: es => e.outline :: argumentOutlines es

end

/-- A declarator has no span of its own, only those of its name and its value. -/
def Declarator.outlines (v : Declarator) : List Outline :=
  v.name.outline :: v.init.toList.map Expr.outline

def Declaration.outline (d : Declaration) : Outline :=
  ⟨d.span, d.declarators.flatMap Declarator.outlines⟩

def ForInit.outlines : ForInit → List Outline
  | .absent => []
  | .declare d => [d.outline]
  | .expr e => [e.outline]

mutual

def Stmt.outline : Stmt → Outline
  | .declare d => d.outline
  | .function s name params bodySpan body =>
    ⟨s, name.outline :: params.map Ident.outline ++ [⟨bodySpan, bodyOutlines body⟩]⟩
  | .branch s c yes no => ⟨s, c.outline :: yes.outline :: elseOutlines no⟩
  | .while_ s c body => ⟨s, [c.outline, body.outline]⟩
  | .doWhile s body c => ⟨s, [body.outline, c.outline]⟩
  | .for_ s init c update body =>
    ⟨s, init.outlines ++ c.toList.map Expr.outline ++ update.toList.map Expr.outline ++
      [body.outline]⟩
  | .block s body => ⟨s, bodyOutlines body⟩
  | .return_ s value => ⟨s, value.toList.map Expr.outline⟩
  | .expr s e => ⟨s, [e.outline]⟩
  | .break_ s | .continue_ s | .empty s => .leaf s

def elseOutlines : Option Stmt → List Outline
  | none => []
  | some s => [s.outline]

def bodyOutlines : List Stmt → List Outline
  | [] => []
  | s :: rest => s.outline :: bodyOutlines rest

end

def Program.outline (p : Program) : Outline := ⟨p.span, bodyOutlines p.body⟩

theorem argumentOutlines_eq (es : List Expr) : argumentOutlines es = es.map Expr.outline := by
  induction es with
  | nil => rfl
  | cons e es ih => rw [argumentOutlines, ih, List.map_cons]

theorem elseOutlines_eq (o : Option Stmt) : elseOutlines o = o.toList.map Stmt.outline := by
  cases o <;> rfl

theorem bodyOutlines_eq (body : List Stmt) : bodyOutlines body = body.map Stmt.outline := by
  induction body with
  | nil => rfl
  | cons s rest ih => rw [bodyOutlines, ih, List.map_cons]

@[simp] theorem Expr.outline_span (e : Expr) : e.outline.span = e.span := by cases e <;> rfl

end Spellcraft
