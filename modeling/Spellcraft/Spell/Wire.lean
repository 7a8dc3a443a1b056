import Spellcraft.Maze.Wire
import Spellcraft.Spell.Chapter
import Spellcraft.Spell.Fingerprint

namespace Spellcraft

open Json (fields? required? defaulted? optional? present)

namespace Diagnostic

def fileName : String := "spell.js"

def members (d : Diagnostic) (source : String) : List (String × Json) :=
  [("file", .text fileName),
   ("code", Json.ofNat d.code.number),
   ("category", .text d.code.category.text),
   ("message", .text d.message),
   ("line", Json.ofNat d.span.first.line),
   ("column", Json.ofNat d.span.first.col),
   ("end_line", Json.ofNat d.span.last.line),
   ("end_column", Json.ofNat d.span.last.col),
   ("source_line", .text (d.sourceLine source))]
    ++ present "suggestion" (d.suggestion.map Json.text)

def toJson (d : Diagnostic) (source : String) : Json := .object (d.members source)

end Diagnostic

structure Complaint where
  category : Category
  message : String
  diagnostics : List Diagnostic

def Fault.complaint (f : Fault) : Complaint := ⟨f.category, f.learnerText, f.diagnostics⟩

structure Compilation where
  source : String
  result : Except Fault (List Action)

namespace Compilation

def of (source : String) (maze : Maze) (start : Position) (options : Options) : Compilation :=
  ⟨source, Spell.compile source maze start options⟩

def toJson (c : Compilation) : Json :=
  let hash := Json.text (Fingerprint.ofText c.source)
  match c.result with
  | .ok actions => .object
    [("success", .bool true), ("actions", Json.ofList Action.toJson actions), ("error", .null),
     ("sourceHash", hash)]
  | .error f =>
    let shown := f.complaint
    .object
      [("success", .bool false), ("actions", .null),
       ("error", .object
         [("category", .text shown.category.text),
          ("message", .text shown.message),
          ("diagnostics", Json.ofList (·.toJson c.source) shown.diagnostics)]),
       ("sourceHash", hash)]

end Compilation

def requirementsJson (missing : List String) : Json :=
  .object [("allMet", .bool missing.isEmpty), ("missing", Json.ofList .text missing)]

namespace Options

def toJson (o : Options) : Json :=
  .object
    [("actionCeiling", Json.ofNat o.limits.actions),
     ("gasLimit", Json.ofNat o.limits.gas),
     ("maxCallDepth", Json.ofNat o.limits.calls),
     ("maxStringLength", Json.ofNat o.limits.text),
     ("allowedCommands", Json.ofOption (Json.ofList .text) o.allowed)]

def ofJson? (j : Json) : Option Options := do
  let names := ["actionCeiling", "gasLimit", "maxCallDepth", "maxStringLength", "allowedCommands"]
  let count := Json.toNat? 64
  let standard := Limits.standard
  match ← fields? names j with
  | [actions, gas, calls, text, allowed] =>
    let limits : Limits :=
      ⟨← defaulted? count standard.actions actions, ← defaulted? count standard.gas gas,
       ← defaulted? count standard.calls calls, ← defaulted? count standard.text text⟩
    return ⟨limits, (← optional? (Json.toList? Json.toText?) allowed).map sortNames⟩
  | _ => none

end Options

namespace Chapter

def fieldNames : List String :=
  ["id", "title", "description", "maze", "startPosition", "hints", "requiredCommands",
   "allowedCommands", "nextChapterId", "introductoryText", "sampleSolution", "successMessage"]

def toJson (c : Chapter) : Json :=
  let texts := Json.ofList Json.text
  .object <|
    [("id", .text c.id), ("title", .text c.title), ("description", .text c.description),
     ("maze", c.maze.toJson)]
      ++ present "startPosition" (c.startPosition.map Position.toJson)
      ++ [("hints", texts c.hints), ("requiredCommands", texts c.requiredCommands),
          ("allowedCommands", texts c.allowedCommands)]
      ++ present "nextChapterId" (c.nextChapterId.map Json.text)
      ++ [("introductoryText", .text c.introductoryText)]
      ++ present "sampleSolution" (c.sampleSolution.map Json.text)
      ++ [("successMessage", .text c.successMessage)]

def maze? (j : Json) : Option Maze :=
  match Maze.ofJson? j with
  | some (.ok m) => some m
  | _ => none

def ofJson? (j : Json) : Option Chapter := do
  let text := Json.toText?
  let texts := Json.toList? Json.toText?
  match ← fields? fieldNames j with
  | [id, title, description, maze, startPosition, hints, requiredCommands, allowedCommands,
      nextChapterId, introductoryText, sampleSolution, successMessage] =>
    return {
      id := ← required? text id
      title := ← required? text title
      description := ← defaulted? text "" description
      maze := ← required? maze? maze
      startPosition := ← optional? Position.ofJson? startPosition
      hints := ← defaulted? texts [] hints
      requiredCommands := ← defaulted? texts [] requiredCommands
      allowedCommands := ← defaulted? texts [] allowedCommands
      nextChapterId := ← optional? text nextChapterId
      introductoryText := ← defaulted? text "" introductoryText
      sampleSolution := ← optional? text sampleSolution
      successMessage := ← defaulted? text "" successMessage }
  | _ => none

end Chapter

namespace Book

def toJson (b : Book) : Json := Json.ofList Chapter.toJson b.chapters

def ofJson? (j : Json) : Option (Except String Book) :=
  (Json.toList? Chapter.ofJson? j).map ofChapters

end Book

end Spellcraft
