import Spellcraft.Casting.Eval

namespace Spellcraft

inductive Fault
  | malformed : Report Diagnostic → Fault
  | unknown (name : String) (span : Span) : Fault
  | trap : Trap → Fault
  deriving DecidableEq

namespace Fault

def spellingHint : String := "Check your spelling; only approved spell commands are available."

def category : Fault → Category
  | .malformed _ => .form
  | .unknown .. => .scope
  | .trap _ => .trap

def isTrap : Fault → Bool
  | .trap _ => true
  | _ => false

def text : Fault → String
  | .malformed r => match r.kept with
    | d :: _ => s!"Syntax error on line {d.span.first.line}: {d.message}. {spellingHint}"
    | [] => s!"Syntax error. {spellingHint}"
  | .unknown name _ => s!"`{name}` is not an approved spell command. {spellingHint}"
  | .trap t => t.text

def learnerText (f : Fault) : String :=
  if f.isTrap then "Spell casting error: " ++ f.text else f.text

/-- A trap without a span is reported at the start of the text. -/
def diagnostics : Fault → List Diagnostic
  | .malformed r => r.kept
  | .unknown name span =>
    [⟨.unknownCommand, s!"`{name}` is not an approved spell command", span, some spellingHint⟩]
  | .trap t => [⟨t.code, t.text, t.span?.getD (.point .origin), none⟩]

/-- A jump that no statement took back is a misuse. -/
def ofExit : Exit → Fault
  | .trap t => .trap t
  | .unknown name span => .unknown name span
  | .return_ _ => .trap (.typeFault (.strayJump "return") (.point .origin))
  | .break_ => .trap (.typeFault (.strayJump "break") (.point .origin))
  | .continue_ => .trap (.typeFault (.strayJump "continue") (.point .origin))

end Fault

def Exit.text : Exit → String
  | .trap t => t.text
  | .unknown name _ => s!"unknown name `{name}`"
  | .return_ _ => "return"
  | .break_ => "break"
  | .continue_ => "continue"

namespace Program

def unknown? (p : Program) (grant : Grant) : Option Ident :=
  p.references.find? fun r => !(p.declared.contains r.name || grant.knows r.name)

def checkNames (p : Program) (grant : Grant) : Except Fault Unit :=
  match p.unknown? grant with
  | some r => .error (.unknown r.name r.span)
  | none => .ok ()

/-- Runs the spell without looking at its names first. -/
def perform (p : Program) (maze : Maze) (start : Position) (grant : Grant) (limits : Limits) :
    Except Fault (List Action) :=
  match Cast.run limits p.body (.start maze start grant limits) with
  | (.ok _, c) => .ok c.trail.actions
  | (.error e, _) => .error (.ofExit e)

def cast (p : Program) (maze : Maze) (start : Position) (grant : Grant) (limits : Limits) :
    Except Fault (List Action) := do
  p.checkNames grant
  p.perform maze start grant limits

end Program

end Spellcraft
