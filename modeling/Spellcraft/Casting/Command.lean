import Spellcraft.Maze.Position

namespace Spellcraft

inductive Command
  | move : Direction → Command
  | look : Direction → Command
  | lightTorch : Command
  deriving DecidableEq

namespace Command

def all : List Command :=
  [.move .up, .move .down, .move .left, .move .right,
   .look .up, .look .down, .look .left, .look .right, .lightTorch]

def name : Command → String
  | .move .up => "moveUp"
  | .move .down => "moveDown"
  | .move .left => "moveLeft"
  | .move .right => "moveRight"
  | .look .up => "canMoveUp"
  | .look .down => "canMoveDown"
  | .look .left => "canMoveLeft"
  | .look .right => "canMoveRight"
  | .lightTorch => "lightTorch"

def ofName? (s : String) : Option Command := all.find? fun c => c.name = s

def isQuery : Command → Bool
  | .look _ => true
  | _ => false

def direction? : Command → Option Direction
  | .move d | .look d => some d
  | .lightTorch => none

@[simp] theorem mem_all (c : Command) : c ∈ all := by
  rcases c with d | d | _ <;> (try cases d) <;> decide

@[simp] theorem ofName?_name (c : Command) : ofName? c.name = some c := by
  rcases c with d | d | _ <;> (try cases d) <;> decide

end Command

structure Grant where
  commands : List Command
  deriving DecidableEq

namespace Grant

/-- The one name beside the commands that needs no declaration. -/
def undefinedName : String := "undefined"

def standard : Grant := ⟨Command.all⟩

/-- Names that are no commands do not count. -/
def restricted (names : List String) : Grant := ⟨Command.all.filter fun c => c.name ∈ names⟩

def lookup? (g : Grant) (s : String) : Option Command :=
  (Command.ofName? s).filter fun c => c ∈ g.commands

def knows (g : Grant) (s : String) : Bool := s = undefinedName || (g.lookup? s).isSome

end Grant

end Spellcraft
