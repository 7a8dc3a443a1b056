import Spellcraft.Proofs.Language.Nodes

namespace Spellcraft

def Expr.text? : Expr → Option String
  | .text _ s => some s
  | _ => none

section

variable (T : String → Prop)

def Expr.Quotes (e : Expr) : Prop := ∀ x ∈ e.nodes, ∀ s ∈ x.text?, T s

def Stmt.Quotes (s : Stmt) : Prop := ∀ t ∈ s.nodes, ∀ e ∈ t.values, e.Quotes T

end

variable {T : String → Prop}

namespace Expr.Quotes

theorem text {e : Expr} (h : e.Quotes T) (hs : s ∈ e.text?) : T s := h e List.mem_cons_self s hs

theorem part {e x : Expr} (h : e.Quotes T) (hx : x ∈ e.parts) : x.Quotes T :=
  fun y hy => h y (mem_nodes.2 (.inr ⟨x, hx, hy⟩))

end Expr.Quotes

namespace Stmt.Quotes

theorem value {s : Stmt} (h : s.Quotes T) (he : e ∈ s.values) : e.Quotes T :=
  h s List.mem_cons_self e he

theorem part {s t : Stmt} (h : s.Quotes T) (ht : t ∈ s.parts) : t.Quotes T :=
  fun u hu => h u (mem_nodes.2 (.inr ⟨t, ht, hu⟩))

theorem mono {U : String → Prop} {s : Stmt} (h : s.Quotes T) (sub : ∀ s, T s → U s) : s.Quotes U :=
  fun t ht e he x hx s hs => sub s (h t ht e he x hx s hs)

end Stmt.Quotes

namespace Program

def texts (p : Program) : List String := p.expressions.filterMap Expr.text?

/-- The length of the longest text in the spell, in bytes. -/
def longestText (p : Program) : Nat := (p.texts.map String.utf8ByteSize).max?.getD 0

theorem le_longestText {p : Program} (h : s ∈ p.texts) : s.utf8ByteSize ≤ p.longestText :=
  List.le_max?_getD_of_mem (List.mem_map_of_mem h)

theorem quotes_texts {p : Program} (hs : s ∈ p.body) : s.Quotes (· ∈ p.texts) := by
  intro t ht e he x hx text htext
  refine List.mem_filterMap.2 ⟨x, List.mem_flatMap.2 ⟨t, ?_, ?_⟩, htext⟩
  · rw [statements, bodyNodes_eq]
    exact List.mem_flatMap.2 ⟨s, hs, ht⟩
  · exact List.mem_flatMap.2 ⟨e, he, hx⟩

end Program

end Spellcraft
