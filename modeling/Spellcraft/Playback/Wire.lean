import Spellcraft.Maze.Wire
import Spellcraft.Playback.Playback

namespace Spellcraft

open Json (fields? required?)

namespace Shortfall

def toJson : Shortfall → Json
  | .wall p => .object [("kind", .text "wallCollision"), ("at", p.toJson)]
  | .torchesUnlit n => .object [("kind", .text "torchesUnlit"), ("unlit", Json.ofNat n)]
  | .goalMissed => .object [("kind", .text "goalNotReached")]

def unlit? (j : Json) : Option Nat := do
  match ← fields? ["unlit"] j with
  | [n] => required? (Json.toNat? 64) n
  | _ => none

def ofJson? (j : Json) : Option Shortfall :=
  match Json.tagged? "kind" j with
  | some ("wallCollision", rest) => (Action.spot? rest).map .wall
  | some ("torchesUnlit", rest) => (unlit? rest).map .torchesUnlit
  | some ("goalNotReached", rest) => if rest.isBare then some .goalMissed else none
  | _ => none

end Shortfall

namespace Outcome

def toJson : Outcome → Json
  | .success => .object [("result", .text "success")]
  | .fail r m => .object [("result", .text "fail"), ("reason", r.toJson), ("message", .text m)]
  | .error m => .object [("result", .text "error"), ("message", .text m)]

def fail? (j : Json) : Option Outcome := do
  match ← fields? ["reason", "message"] j with
  | [r, m] => return .fail (← required? Shortfall.ofJson? r) (← required? Json.toText? m)
  | _ => none

def error? (j : Json) : Option Outcome := do
  match ← fields? ["message"] j with
  | [m] => return .error (← required? Json.toText? m)
  | _ => none

def ofJson? (j : Json) : Option Outcome :=
  match Json.tagged? "result" j with
  | some ("success", rest) => if rest.isBare then some .success else none
  | some ("fail", rest) => fail? rest
  | some ("error", rest) => error? rest
  | _ => none

end Outcome

namespace Event

def toJson : Event → Json
  | .step p => .object [("event", .text "step"), ("position", p.toJson)]
  | .torches board => .object [("event", .text "torchUpdate"), ("torches", board.toJson)]
  | .ending o => .object [("event", .text "end"), ("outcome", o.toJson)]

end Event

end Spellcraft
