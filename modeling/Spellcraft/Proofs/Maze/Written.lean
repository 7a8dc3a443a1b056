import Spellcraft.Browser
import Spellcraft.Proofs.Json.Rendering
import Spellcraft.Proofs.Spell.RoundTrip

namespace Spellcraft

namespace Json

theorem Plain.ofList {encode : α → Json} {as : List α} (h : ∀ a ∈ as, (encode a).Plain) :
    (ofList encode as).Plain := by
  refine .array fun x hx => ?_
  obtain ⟨a, ha, rfl⟩ := List.mem_map.1 hx
  exact h a ha

end Json

theorem Position.plain (p : Position) : p.toJson.Plain :=
  .object (by simp [Json.Plain.integer])

theorem Maze.plain (m : Maze) : m.toJson.Plain :=
  .ofList fun _ _ => .ofList fun n _ => .integer n

theorem Action.plain (a : Action) : a.toJson.Plain := by
  cases a with
  | move d => exact .object (by simp [Json.Plain.integer, Json.Plain.text])
  | lightTorch p => exact .object (by simp [Json.Plain.text, p.plain])

theorem TorchBoard.plain (board : TorchBoard) : board.toJson.Plain :=
  .ofList fun t _ => .object (by simp [Json.Plain.bool, t.position.plain])

theorem Shortfall.plain (s : Shortfall) : s.toJson.Plain := by
  cases s with
  | wall p => exact .object (by simp [Json.Plain.text, p.plain])
  | torchesUnlit n => exact .object (by simp [Json.Plain.text, Json.ofNat, Json.Plain.integer])
  | goalMissed => exact .object (by simp [Json.Plain.text])

theorem Outcome.plain (o : Outcome) : o.toJson.Plain := by
  cases o with
  | fail s m => exact .object (by simp [Json.Plain.text, s.plain])
  | _ => exact .object (by simp [Json.Plain.text])

theorem Event.plain (e : Event) : e.toJson.Plain := by
  cases e with
  | step p => exact .object (by simp [Json.Plain.text, p.plain])
  | torches board => exact .object (by simp [Json.Plain.text, board.plain])
  | ending o => exact .object (by simp [Json.Plain.text, o.plain])

namespace Direction

theorem exists_delta {dx dy : Int} :
    (∃ d : Direction, d.dx = dx ∧ d.dy = dy) ↔ dx.natAbs + dy.natAbs = 1 := by
  constructor
  · rintro ⟨d, rfl, rfl⟩
    cases d <;> rfl
  · intro unit
    have : dx = 0 ∧ dy = -1 ∨ dx = 0 ∧ dy = 1 ∨ dx = -1 ∧ dy = 0 ∨ dx = 1 ∧ dy = 0 := by omega
    rcases this with ⟨rfl, rfl⟩ | ⟨rfl, rfl⟩ | ⟨rfl, rfl⟩ | ⟨rfl, rfl⟩
    exacts [⟨.up, rfl, rfl⟩, ⟨.down, rfl, rfl⟩, ⟨.left, rfl, rfl⟩, ⟨.right, rfl, rfl⟩]

theorem ofDelta?_eq_none {dx dy : Int} : ofDelta? dx dy = none ↔ dx.natAbs + dy.natAbs ≠ 1 := by
  rw [ofDelta?, List.find?_eq_none, ne_eq, ← exists_delta]
  simp

end Direction

namespace Action

def Fits : Action → Prop
  | .move _ => True
  | .lightTorch p => p.Fits

instance : (a : Action) → Decidable a.Fits
  | .move _ => inferInstanceAs (Decidable True)
  | .lightTorch p => inferInstanceAs (Decidable p.Fits)

theorem ofJson_toJson {a : Action} (h : a.Fits) : ofJson a.toJson = .ok a := by
  cases a with
  | move d =>
    have delta : delta? (.object [("dx", .integer d.dx), ("dy", .integer d.dy)]) =
        some (d.dx, d.dy) := by cases d <;> rfl
    simp [ofJson, toJson, Json.tagged?, Json.single?, Json.toText?, delta]
  | lightTorch p =>
    have found : Position.ofJson? p.toJson = some p := Position.ofJson?_eq_some.2 ⟨.refl _, h⟩
    simp [ofJson, toJson, Json.tagged?, Json.single?, Json.toText?, spot?, Json.fields?,
      Json.required?, found]

def Askew (j : Json) (dx dy : Int) : Prop :=
  ∃ rest, Json.tagged? "type" j = some ("move", rest) ∧
    Json.fields? ["dx", "dy"] rest = some [some (.integer dx), some (.integer dy)] ∧
    dx.natAbs + dy.natAbs ≠ 1

theorem Askew.refused {j : Json} (h : Askew j dx dy) : ofJson j =
    .error (if (Position.mk dx dy).Fits then .delta dx dy else .malformed) := by
  obtain ⟨rest, kind, fields, long⟩ := h
  have range (n : Int) : Position.coordinate? (.integer n) =
      if Position.least ≤ n ∧ n ≤ Position.greatest then some n else none := rfl
  have delta : delta? rest = if (Position.mk dx dy).Fits then some (dx, dy) else none := by
    have both : delta? rest = do
        return (← Position.coordinate? (.integer dx), ← Position.coordinate? (.integer dy)) := by
      rw [delta?, fields]
      rfl
    rw [both, range, range]
    by_cases hx : Position.least ≤ dx ∧ dx ≤ Position.greatest
    · by_cases hy : Position.least ≤ dy ∧ dy ≤ Position.greatest <;> simp [Position.Fits, hx, hy]
    · simp [Position.Fits, hx]
  split_ifs with hf
  · simp [ofJson, kind, delta, hf, Direction.ofDelta?_eq_none.2 long]
  · simp [ofJson, kind, delta, hf]

end Action

namespace Browser

theorem readActions?_render {actions : List Action} (h : ∀ a ∈ actions, a.Fits) :
    readActions? (Json.ofList Action.toJson actions).render = some actions := by
  have plain : (Json.ofList Action.toJson actions).Plain := .ofList fun a _ => a.plain
  rw [readActions?, Json.read?_render plain]
  refine Json.toList?_eq_some.2 ⟨_, rfl, ?_⟩
  rw [List.forall₂_map_left_iff, List.forall₂_same]
  intro a ha
  simp [Action.ofJson_toJson (h a ha), Except.toOption]

theorem readActions?_askew {source : String} {js : List Json} {j : Json} (hj : j ∈ js)
    (askew : Action.Askew j dx dy) (h : Json.read? source = some (.array js)) :
    readActions? source = none := by
  rw [readActions?, h, Option.bind_eq_bind, Option.bind_some]
  by_contra read
  obtain ⟨actions, read⟩ := Option.ne_none_iff_exists'.1 read
  obtain ⟨xs, hxs, all⟩ := Json.toList?_eq_some.1 read
  obtain rfl := Json.array.inj hxs
  obtain ⟨i, hi, rfl⟩ := List.getElem_of_mem hj
  have accepted := all.get hi (all.length_eq ▸ hi)
  rw [List.get_eq_getElem, askew.refused] at accepted
  cases accepted

theorem readMaze_render (m : Maze) : readMaze m.toJson.render = .ok m := by
  have found : Maze.ofJson? m.toJson = some (.ok m) := by
    have read := (Maze.reads_maze m.toJson m).2 ⟨rfl, trivial⟩
    rw [Chapter.maze?] at read
    split at read
    · next m' hm =>
      cases read
      exact hm
    · cases read
  simp [readMaze, Json.readHead?_render m.plain, found, Json.skipSpace]

end Browser

end Spellcraft
