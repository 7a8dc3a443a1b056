import Spellcraft.Casting.Fault

namespace Spellcraft

inductive Shortfall
  | wall (spot : Position)
  | torchesUnlit (count : Nat)
  | goalMissed
  deriving DecidableEq

def Shortfall.text : Shortfall → String
  | .wall p => s!"You hit a wall at position {p.text}. Your spell needs adjusting!"
  | .torchesUnlit 1 =>
    "You reached the goal, but 1 torch is still unlit. Light every torch before finishing!"
  | .torchesUnlit n =>
    s!"You reached the goal, but {n} torches are still unlit. Light every torch before finishing!"
  | .goalMissed => "Your spell finished, but you didn't reach the goal. Try a different approach!"

inductive Outcome
  | success
  | fail (reason : Shortfall) (message : String)
  | error (message : String)
  deriving DecidableEq

namespace Outcome

def ofShortfall (r : Shortfall) : Outcome := .fail r r.text

def ofFault (f : Fault) : Outcome := .error f.learnerText

def isSuccess : Outcome → Bool
  | .success => true
  | _ => false

def reason? : Outcome → Option Shortfall
  | .fail r _ => some r
  | _ => none

def offending? (o : Outcome) : Option Position :=
  match o.reason? with
  | some (.wall p) => some p
  | _ => none

def message? : Outcome → Option String
  | .success => none
  | .fail _ m | .error m => some m

end Outcome

end Spellcraft
