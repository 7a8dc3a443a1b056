import Spellcraft.Maze.Position

namespace Spellcraft

inductive Action
  | move : Direction → Action
  | lightTorch : Position → Action
  deriving DecidableEq

def Action.text : Action → String
  | .move d => s!"Move({d.dx},{d.dy})"
  | .lightTorch p => "LightTorch" ++ p.text

end Spellcraft
