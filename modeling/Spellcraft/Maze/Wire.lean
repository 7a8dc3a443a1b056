import Spellcraft.Json.Record
import Spellcraft.Maze.Action
import Spellcraft.Maze.Grid

namespace Spellcraft

open Json (fields? required?)

namespace Position

def toJson (p : Position) : Json := .object [("x", .integer p.x), ("y", .integer p.y)]

def coordinate? : Json → Option Int := Json.toInt? least greatest

def ofJson? (j : Json) : Option Position := do
  match ← fields? ["x", "y"] j with
  | [x, y] => return ⟨← required? coordinate? x, ← required? coordinate? y⟩
  | _ => none

end Position

namespace Maze

def toJson (m : Maze) : Json := Json.ofList (Json.ofList Json.ofNat) m.codes

/-- Rows of bytes, which may still not make a maze. -/
def ofJson? (j : Json) : Option (Except MazeError Maze) :=
  (Json.toList? (Json.toList? (Json.toNat? 8)) j).map ofCodes

end Maze

namespace Torch

def toJson (t : Torch) : Json :=
  .object [("position", t.position.toJson), ("isLit", .bool t.lit)]

def ofJson? (j : Json) : Option Torch := do
  match ← fields? ["position", "isLit"] j with
  | [position, lit] =>
    return ⟨← required? Position.ofJson? position, ← required? Json.toBool? lit⟩
  | _ => none

end Torch

namespace TorchBoard

def toJson (board : TorchBoard) : Json := Json.ofList Torch.toJson board

def ofJson? : Json → Option TorchBoard := Json.toList? Torch.ofJson?

end TorchBoard

inductive ActionError
  | malformed
  | delta (dx dy : Int)
  deriving DecidableEq

def ActionError.message? : ActionError → Option String
  | .malformed => none
  | .delta dx dy => some s!"invalid move delta ({dx}, {dy})"

namespace Action

def toJson : Action → Json
  | .move d => .object [("type", .text "move"), ("dx", .integer d.dx), ("dy", .integer d.dy)]
  | .lightTorch p => .object [("type", .text "lightTorch"), ("at", p.toJson)]

def delta? (j : Json) : Option (Int × Int) := do
  match ← fields? ["dx", "dy"] j with
  | [dx, dy] =>
    return (← required? Position.coordinate? dx, ← required? Position.coordinate? dy)
  | _ => none

def spot? (j : Json) : Option Position := do
  match ← fields? ["at"] j with
  | [spot] => required? Position.ofJson? spot
  | _ => none

def ofJson (j : Json) : Except ActionError Action :=
  match Json.tagged? "type" j with
  | some ("move", rest) => match delta? rest with
    | some (dx, dy) => match Direction.ofDelta? dx dy with
      | some d => .ok (.move d)
      | none => .error (.delta dx dy)
    | none => .error .malformed
  | some ("lightTorch", rest) => match spot? rest with
    | some p => .ok (.lightTorch p)
    | none => .error .malformed
  | _ => .error .malformed

end Action

end Spellcraft
