import Spellcraft.Maze.Torches

namespace Spellcraft

inductive Tile
  | empty | wall | start | goal | torch
  deriving DecidableEq, Inhabited

namespace Tile

def all : List Tile := [.empty, .wall, .start, .goal, .torch]

def code : Tile → Nat
  | .empty => 0
  | .wall => 1
  | .start => 2
  | .goal => 3
  | .torch => 4

def ofCode? (n : Nat) : Option Tile := all.find? fun t => t.code = n

@[simp] theorem ofCode?_code (t : Tile) : ofCode? t.code = some t := by cases t <;> decide

end Tile

structure Maze where
  width : Nat
  rows : List (List Tile)
  width_pos : 0 < width
  rows_ne_nil : rows ≠ []
  rectangular : ∀ row ∈ rows, row.length = width
  deriving DecidableEq

inductive MazeError
  | empty
  | ragged (row found expected : Nat)
  | unknownTile (code : Nat)
  deriving DecidableEq

def MazeError.text : MazeError → String
  | .empty => "maze has no rows"
  | .ragged row found expected => s!"maze row {row} has {found} tiles, expected {expected}"
  | .unknownTile code => s!"unknown tile code {code}"

inductive Step
  | free : Position → Step
  | blocked : Position → Step
  deriving DecidableEq

namespace Step

def isFree : Step → Bool
  | .free _ => true
  | .blocked _ => false

def target : Step → Position
  | .free p | .blocked p => p

end Step

namespace Maze

def firstRagged (width : Nat) : Nat → List (List Tile) → Option (Nat × Nat)
  | _, [] => none
  | row, r :: rest => if r.length = width then firstRagged width (row + 1) rest else some (row, r.length)

theorem length_of_firstRagged {width : Nat} {row : Nat} {rows : List (List Tile)}
    (h : firstRagged width row rows = none) : ∀ r ∈ rows, r.length = width := by
  induction rows generalizing row with
  | nil => simp
  | cons r rest ih =>
    simp only [firstRagged] at h
    split at h
    · intro s hs
      rcases List.mem_cons.1 hs with rfl | hs
      · assumption
      · exact ih h s hs
    · simp at h

def ofTiles : List (List Tile) → Except MazeError Maze
  | [] | [] :: _ => .error .empty
  | (t :: row) :: rest =>
    match h : firstRagged (t :: row).length 1 rest with
    | some (n, found) => .error (.ragged n found (t :: row).length)
    | none => .ok {
        width := (t :: row).length
        rows := (t :: row) :: rest
        width_pos := Nat.succ_pos _
        rows_ne_nil := List.cons_ne_nil _ _
        rectangular := fun r hr => by
          rcases List.mem_cons.1 hr with rfl | hr
          · rfl
          · exact length_of_firstRagged h r hr }

def tilesOfCodes (row : List Nat) : Except MazeError (List Tile) :=
  row.mapM fun n => match Tile.ofCode? n with
    | some t => .ok t
    | none => .error (.unknownTile n)

/-- Unknown tiles are reported before a bad shape. -/
def ofCodes (rows : List (List Nat)) : Except MazeError Maze := do
  ofTiles (← rows.mapM tilesOfCodes)

def codes (m : Maze) : List (List Nat) := m.rows.map (·.map Tile.code)

def height (m : Maze) : Nat := m.rows.length

def tile? (m : Maze) (p : Position) : Option Tile :=
  if 0 ≤ p.x ∧ 0 ≤ p.y then m.rows[p.y.toNat]?.bind (·[p.x.toNat]?) else none

def inBounds (m : Maze) (p : Position) : Bool := (m.tile? p).isSome

def passable (m : Maze) (p : Position) : Bool := (m.tile? p).any (· ≠ .wall)

def isGoal (m : Maze) (p : Position) : Bool := m.tile? p = some .goal

def isTorch (m : Maze) (p : Position) : Bool := m.tile? p = some .torch

def step (m : Maze) (p : Position) (d : Direction) : Step :=
  if m.passable (p.neighbour d) then .free (p.neighbour d) else .blocked (p.neighbour d)

def positionsOf (m : Maze) (kind : Tile) : List Position :=
  m.rows.zipIdx.flatMap fun (row, y) => row.zipIdx.filterMap fun (t, x) =>
    if t = kind then some ⟨x, y⟩ else none

def start? (m : Maze) : Option Position := (m.positionsOf .start).head?

def freshTorches (m : Maze) : TorchBoard := (m.positionsOf .torch).map fun p => ⟨p, false⟩

end Maze

end Spellcraft
