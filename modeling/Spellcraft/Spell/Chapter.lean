import Spellcraft.Spell.Compile
import Spellcraft.Spell.Requirements

namespace Spellcraft

structure Chapter where
  id : String
  title : String
  description : String
  maze : Maze
  startPosition : Option Position
  hints : List String
  requiredCommands : List String
  /-- No command at all stands for all commands. -/
  allowedCommands : List String
  nextChapterId : Option String
  introductoryText : String
  sampleSolution : Option String
  successMessage : String
  deriving DecidableEq

def insertName (s : String) : List String → List String
  | [] => [s]
  | t :: rest => if s < t then s :: t :: rest else if s = t then t :: rest else t :: insertName s rest

def sortNames (names : List String) : List String := names.foldr insertName []

structure Attempt where
  actions : Except Fault (List Action)
  missing : List String

def Attempt.isReady (a : Attempt) : Bool := a.actions.isOk && a.missing.isEmpty

namespace Chapter

def start (c : Chapter) : Position :=
  (c.startPosition <|> c.maze.start?).getD ⟨0, 0⟩

def options (c : Chapter) : Options :=
  { Options.standard with
    allowed := if c.allowedCommands.isEmpty then none else some (sortNames c.allowedCommands) }

def torchCount (c : Chapter) : Nat := (c.maze.positionsOf .torch).length

def attempt (c : Chapter) (source : String) : Attempt :=
  { actions := Spell.compile source c.maze c.start c.options
    missing := Spell.missingConcepts source c.requiredCommands }

end Chapter

/-- The first of `ids` that stands before itself, or in `seen`. -/
def firstRepeated (seen : List String) : List String → Option String
  | [] => none
  | id :: rest => if id ∈ seen then some id else firstRepeated (id :: seen) rest

theorem nodup_of_firstRepeated {seen ids : List String} (h : firstRepeated seen ids = none) :
    ids.Nodup ∧ ∀ id ∈ ids, id ∉ seen := by
  induction ids generalizing seen with
  | nil => simp
  | cons id rest ih =>
    simp only [firstRepeated] at h
    split at h
    · simp at h
    · have ⟨hn, hs⟩ := ih h
      refine ⟨List.nodup_cons.2 ⟨fun hm => hs id hm List.mem_cons_self, hn⟩, ?_⟩
      intro a ha
      rcases List.mem_cons.1 ha with rfl | ha
      · assumption
      · exact fun hm => hs a ha (List.mem_cons_of_mem _ hm)

structure Book where
  chapters : List Chapter
  distinct : (chapters.map Chapter.id).Nodup

namespace Book

def ofChapters (chapters : List Chapter) : Except String Book :=
  match h : firstRepeated [] (chapters.map Chapter.id) with
  | some id => .error id
  | none => .ok ⟨chapters, (nodup_of_firstRepeated h).1⟩

def repeatedText (id : String) : String := s!"duplicate chapter id `{id}`"

def get? (b : Book) (id : String) : Option Chapter := b.chapters.find? fun c => c.id = id

def first? (b : Book) : Option Chapter := b.chapters.head?

/-- The chapter that a chapter names as its next, or else the one behind it. -/
def next? (b : Book) (id : String) : Option Chapter := do
  let i ← b.chapters.findIdx? fun c => c.id = id
  match (← b.chapters[i]?).nextChapterId with
  | some next => b.get? next
  | none => b.chapters[i + 1]?

end Book

end Spellcraft
