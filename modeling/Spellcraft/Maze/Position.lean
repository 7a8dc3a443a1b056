/-!
Places on a maze floor and the four steps out of one. `(0, 0)` is the top left corner and `y` grows
downward; a coordinate may be negative, so that a step off the floor still has somewhere to point.
-/

namespace Spellcraft

structure Position where
  x : Int
  y : Int
  deriving DecidableEq, Inhabited

namespace Position

def least : Int := -2147483648

def greatest : Int := 2147483647

/-- Coordinates are 32-bit: past an edge they stay on it. -/
def clamp (n : Int) : Int := max least (min greatest n)

def offset (p : Position) (dx dy : Int) : Position := ⟨clamp (p.x + dx), clamp (p.y + dy)⟩

def text (p : Position) : String := s!"({p.x}, {p.y})"

end Position

inductive Direction
  | up | down | left | right
  deriving DecidableEq, Inhabited

namespace Direction

def all : List Direction := [.up, .down, .left, .right]

def dx : Direction → Int
  | .up | .down => 0
  | .left => -1
  | .right => 1

def dy : Direction → Int
  | .up => -1
  | .down => 1
  | .left | .right => 0

def ofDelta? (dx dy : Int) : Option Direction := all.find? fun d => d.dx = dx ∧ d.dy = dy

def text : Direction → String
  | .up => "up"
  | .down => "down"
  | .left => "left"
  | .right => "right"

@[simp] theorem mem_all (d : Direction) : d ∈ all := by cases d <;> decide

@[simp] theorem ofDelta?_delta (d : Direction) : ofDelta? d.dx d.dy = some d := by
  cases d <;> decide

end Direction

def Position.neighbour (p : Position) (d : Direction) : Position := p.offset d.dx d.dy

end Spellcraft
