import Spellcraft.Json.Read
import Spellcraft.Playback.Wire
import Spellcraft.Spell.Wire

namespace Spellcraft.Browser

def version : String := "0.1.0"

def inputError (message : String) : Json :=
  .object
    [("success", .bool false), ("actions", .null),
     ("error", .object
       [("category", .text "input"), ("message", .text message), ("diagnostics", .array [])]),
     ("sourceHash", .null)]

/-- A maze at the head of a text. What makes no maze is told before what stands behind it. -/
def readMaze (source : String) : Except String Maze :=
  match Json.readHead? source with
  | none => .error "Invalid maze"
  | some (j, rest) => match Maze.ofJson? j with
    | none => .error "Invalid maze"
    | some (.error e) => .error ("Invalid maze: " ++ e.text)
    | some (.ok m) => if Json.skipSpace rest = [] then .ok m else .error "Invalid maze"

def readActions? (source : String) : Option (List Action) := do
  Json.toList? (fun j => (Action.ofJson j).toOption) (← Json.read? source)

def compile (source maze : String) (start : Position) : Json :=
  match readMaze maze with
  | .error message => inputError message
  | .ok m => (Compilation.of source m start .standard).toJson

def compileChapter (source chapter : String) : Json :=
  match (Json.read? chapter).bind Chapter.ofJson? with
  | none => inputError "invalid chapter data"
  | some c => .object
    [("compile", (Compilation.of source c.maze c.start c.options).toJson),
     ("requirements", requirementsJson (Spell.missingConcepts source c.requiredCommands))]

structure SpellRun where
  playback : Playback
  unread : List Event

namespace SpellRun

/-- An interval of 0 stands for the standard one. -/
def start (actions : List Action) (maze : Maze) (position : Position) (interval : Nat) : SpellRun :=
  let pause := if interval = 0 then Playback.standardPause else interval
  { playback := (Playback.idle pause).start maze position maze.freshTorches actions fun _ => false
    unread := [] }

def ofTexts? (actions maze : String) (position : Position) (interval : Nat) : Option SpellRun := do
  return start (← readActions? actions) (← (readMaze maze).toOption) position interval

/-- Milliseconds as whole microseconds; what is no such number counts as the nearest. -/
def micros (elapsed : Float) : Nat := (elapsed * 1000.0).toUInt64.toNat

def pass (run : SpellRun) (elapsed : Nat) : SpellRun × List Event :=
  let (playback, events) := run.playback.tick elapsed
  (⟨playback, []⟩, run.unread ++ events)

def tick (run : SpellRun) (elapsed : Float) : SpellRun × List Event := run.pass (micros elapsed)

def stop (run : SpellRun) : SpellRun := { run with playback := (run.playback.stopRun 0).stop }

end SpellRun

end Spellcraft.Browser
