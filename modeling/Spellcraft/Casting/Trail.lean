import Spellcraft.Casting.Trap
import Spellcraft.Maze.Action
import Spellcraft.Maze.Grid

/-!
The trail of a spell that is being cast: where the avatar would stand by now and the actions asked
for so far. A move into a wall is recorded like any other; it only leads nowhere.
-/

namespace Spellcraft

structure Trail where
  maze : Maze
  position : Position
  /-- The actions, the latest first. -/
  past : List Action
  /-- How many more there may be. -/
  room : Nat
  /-- How many there may be at all. -/
  ceiling : Nat

namespace Trail

def start (maze : Maze) (position : Position) (ceiling : Nat) : Trail :=
  ⟨maze, position, [], ceiling, ceiling⟩

def actions (t : Trail) : List Action := t.past.reverse

def record (t : Trail) (a : Action) : Except Trap Trail :=
  match t.room with
  | 0 => .error (.tooManyActions t.ceiling)
  | n + 1 => .ok { t with past := a :: t.past, room := n }

def move (t : Trail) (d : Direction) : Except Trap Trail := do
  let t ← t.record (.move d)
  return match t.maze.step t.position d with
    | .free p => { t with position := p }
    | .blocked _ => t

def canMove (t : Trail) (d : Direction) : Bool := (t.maze.step t.position d).isFree

/-- Only where a torch stands, whatever the ceiling. -/
def lightTorch (t : Trail) (span : Span) : Except Trap Trail :=
  if t.maze.isTorch t.position then t.record (.lightTorch t.position)
  else .error (.noTorch t.position span)

end Trail

end Spellcraft
