import Spellcraft.Casting.Fault
import Spellcraft.Language.ParseStmt

namespace Spellcraft

structure Options where
  limits : Limits
  /-- Nothing stands for all commands. -/
  allowed : Option (List String)
  deriving DecidableEq

namespace Options

def standard : Options := ⟨.standard, none⟩

def grant (o : Options) : Grant :=
  match o.allowed with
  | none => .standard
  | some names => .restricted names

end Options

namespace Spell

def parse (source : String) : Except Fault Program :=
  let (p, words, form) := parseText source
  let report := words.extend form
  if report.isClean then .ok p else .error (.malformed report)

def compile (source : String) (maze : Maze) (start : Position) (options : Options) :
    Except Fault (List Action) := do
  (← parse source).cast maze start options.grant options.limits

end Spell

end Spellcraft
