import Spellcraft.Maze.Position

namespace Spellcraft

structure Torch where
  position : Position
  lit : Bool
  deriving DecidableEq, Inhabited

abbrev TorchBoard := List Torch

namespace TorchBoard

def holds (board : TorchBoard) (p : Position) : Bool := board.any fun t => t.position = p

/-- Lights the first torch at `p`. -/
def light (p : Position) : TorchBoard → TorchBoard
  | [] => []
  | t :: rest => if t.position = p then { t with lit := true } :: rest else t :: light p rest

def isLit (board : TorchBoard) (p : Position) : Bool := board.any fun t => t.position = p && t.lit

def allLit (board : TorchBoard) : Bool := board.all (·.lit)

def unlitCount (board : TorchBoard) : Nat := board.countP (!·.lit)

/-- The first torch at `p` is lit in the second board, and nothing else is changed; where no torch
is at `p` nothing is. -/
inductive Lights (p : Position) : TorchBoard → TorchBoard → Prop
  | first {before after : TorchBoard} {lit : Bool} : (∀ t ∈ before, t.position ≠ p) →
    Lights p (before ++ ⟨p, lit⟩ :: after) (before ++ ⟨p, true⟩ :: after)
  | absent {board : TorchBoard} : (∀ t ∈ board, t.position ≠ p) → Lights p board board

theorem Lights.cons {t : Torch} (ht : t.position ≠ p) (h : Lights p board board') :
    Lights p (t :: board) (t :: board') := by
  cases h with
  | first hn => exact first (List.forall_mem_cons.2 ⟨ht, hn⟩)
  | absent hn => exact absent (List.forall_mem_cons.2 ⟨ht, hn⟩)

theorem lights_light (p : Position) (board : TorchBoard) : Lights p board (light p board) := by
  induction board with
  | nil => exact .absent (List.forall_mem_nil _)
  | cons t rest ih =>
    rw [light]
    split
    · next h =>
      subst h
      exact @Lights.first _ [] rest t.lit (List.forall_mem_nil _)
    · next h => exact ih.cons h

theorem light_append (h : ∀ t ∈ before, t.position ≠ p) (after : TorchBoard) :
    light p (before ++ after) = before ++ light p after := by
  induction before with
  | nil => rfl
  | cons t rest ih =>
    obtain ⟨ht, hrest⟩ := List.forall_mem_cons.1 h
    rw [List.cons_append, light, if_neg ht, ih hrest, List.cons_append]

theorem lights_iff : Lights p board lit ↔ lit = light p board := by
  constructor
  · rintro (hn | hn)
    · rw [light_append hn, light, if_pos rfl]
    · simpa [light] using (light_append hn []).symm
  · rintro rfl
    exact lights_light p board

theorem light_eq_modify (p : Position) (board : TorchBoard) :
    light p board =
      board.modify (board.findIdx fun t => t.position = p) fun t => { t with lit := true } := by
  induction board with
  | nil => rfl
  | cons t rest ih =>
    rw [light, List.findIdx_cons]
    by_cases h : t.position = p
    · simp [h]
    · simp [h, ih]

@[simp] theorem holds_light (p q : Position) (board : TorchBoard) :
    (light p board).holds q = board.holds q := by
  induction board with
  | nil => rfl
  | cons t rest ih =>
    simp only [light]
    split
    · rfl
    · simp only [holds, List.any_cons] at ih ⊢
      rw [ih]

theorem allLit_iff (board : TorchBoard) : board.allLit = true ↔ ∀ t ∈ board, t.lit = true :=
  List.all_eq_true

theorem unlitCount_eq_length (board : TorchBoard) :
    board.unlitCount = (board.filter (!·.lit)).length := List.countP_eq_length_filter

theorem unlitCount_eq_zero_iff (board : TorchBoard) :
    board.unlitCount = 0 ↔ board.allLit = true := by
  simp [unlitCount, allLit, List.countP_eq_zero]

end TorchBoard

end Spellcraft
