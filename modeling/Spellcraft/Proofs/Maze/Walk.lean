import Spellcraft.Maze.Action
import Spellcraft.Maze.Grid

namespace Spellcraft.Maze

def after (m : Maze) (p : Position) : Action → Position
  | .move d => match m.step p d with
    | .free q => q
    | .blocked _ => p
  | .lightTorch _ => p

def walk (m : Maze) (start : Position) (actions : List Action) : Position :=
  actions.foldl m.after start

/-- Torches are only lit underfoot. -/
def Rehearsed (m : Maze) (start : Position) (actions : List Action) : Prop :=
  ∀ done p rest, actions = done ++ .lightTorch p :: rest →
    p = m.walk start done ∧ m.isTorch p = true

/-- After `done` the action `a` is a move that is blocked at `p`. -/
def Bumps (m : Maze) (start : Position) (done : List Action) (a : Action) (p : Position) : Prop :=
  ∃ d, a = .move d ∧ m.step (m.walk start done) d = .blocked p

/-- No move is blocked. -/
def Clear (m : Maze) (start : Position) (actions : List Action) : Prop :=
  ∀ done a rest p, actions = done ++ a :: rest → ¬m.Bumps start done a p

/-- The last move is the first one that is blocked. -/
def Collides (m : Maze) (start : Position) (actions : List Action) (p : Position) : Prop :=
  ∃ done a, actions = done ++ [a] ∧ m.Clear start done ∧ m.Bumps start done a p

@[simp] theorem walk_nil (m : Maze) (start : Position) : m.walk start [] = start := rfl

theorem walk_concat (m : Maze) (start : Position) (actions : List Action) (a : Action) :
    m.walk start (actions ++ [a]) = m.after (m.walk start actions) a := by
  simp [walk]

theorem Rehearsed.nil (m : Maze) (start : Position) : m.Rehearsed start [] := by
  intro done p rest h
  simp at h

theorem eq_of_concat_eq {actions done rest : List Action}
    (h : actions ++ [a] = done ++ b :: rest) :
    actions = done ∧ a = b ∨ ∃ rest', actions = done ++ b :: rest' := by
  rcases List.eq_nil_or_concat rest with rfl | ⟨rest', c, rfl⟩
  · obtain ⟨hd, ha⟩ := List.append_inj' h rfl
    exact .inl ⟨hd, by simpa using ha⟩
  · rw [List.concat_eq_append, ← List.cons_append, ← List.append_assoc] at h
    exact .inr ⟨rest', (List.append_inj' h rfl).1⟩

theorem Rehearsed.concat {m : Maze} (h : m.Rehearsed start actions)
    (ha : ∀ p, a = .lightTorch p → p = m.walk start actions ∧ m.isTorch p = true) :
    m.Rehearsed start (actions ++ [a]) := by
  intro done p rest heq
  rcases eq_of_concat_eq heq with ⟨rfl, hp⟩ | ⟨rest', heq⟩
  · exact ha p hp
  · exact h done p rest' heq

theorem Clear.nil (m : Maze) (start : Position) : m.Clear start [] := by
  intro done a rest p h
  simp at h

theorem Clear.concat {m : Maze} (h : m.Clear start actions)
    (ha : ∀ p, ¬m.Bumps start actions a p) : m.Clear start (actions ++ [a]) := by
  intro done b rest p heq
  rcases eq_of_concat_eq heq with ⟨rfl, rfl⟩ | ⟨rest', heq⟩
  · exact ha p
  · exact h done b rest' p heq

theorem Clear.of_append {m : Maze} (h : m.Clear start (done ++ rest)) : m.Clear start done := by
  intro before a after p heq
  exact h before a (after ++ rest) p (by simp [heq])

theorem Clear.not_collides {m : Maze} (h : m.Clear start actions) (p : Position) :
    ¬m.Collides start actions p := by
  rintro ⟨done, a, rfl, -, ha⟩
  exact h done a [] p rfl ha

theorem Collides.unique {m : Maze} (hp : m.Collides start actions p)
    (hq : m.Collides start actions q) : p = q := by
  obtain ⟨done, a, rfl, -, d, rfl, hp⟩ := hp
  obtain ⟨done', a', heq, -, d', rfl, hq⟩ := hq
  obtain ⟨rfl, hd⟩ := List.append_inj' heq rfl
  cases hd
  rw [hp] at hq
  exact Step.blocked.inj hq

theorem mem_positionsOf (m : Maze) (kind : Tile) (p : Position) :
    p ∈ m.positionsOf kind ↔ m.tile? p = some kind := by
  obtain ⟨px, py⟩ := p
  simp only [positionsOf, List.mem_flatMap, List.mem_filterMap, List.mem_zipIdx_iff_getElem?,
    Prod.exists]
  constructor
  · rintro ⟨row, y, hrow, t, x, hx, hp⟩
    split at hp
    · subst t
      cases hp
      simp [tile?, hrow, hx]
    · cases hp
  · intro h
    simp only [tile?] at h
    split at h
    · obtain ⟨row, hrow, hx⟩ := Option.bind_eq_some_iff.1 h
      refine ⟨row, py.toNat, hrow, kind, px.toNat, hx, ?_⟩
      simp only [↓reduceIte, Option.some.injEq, Position.mk.injEq]
      omega
    · cases h

theorem holds_freshTorches (m : Maze) (p : Position) :
    m.freshTorches.holds p = m.isTorch p := by
  rw [Bool.eq_iff_iff]
  simp [TorchBoard.holds, freshTorches, isTorch, mem_positionsOf]

def corridor : Maze := ⟨3, [[.start, .torch, .goal]], by decide, by decide, by decide⟩

def lamplighting : List Action := [.move .right, .lightTorch ⟨1, 0⟩, .move .right]

end Spellcraft.Maze
