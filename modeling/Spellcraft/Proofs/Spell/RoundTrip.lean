import Spellcraft.Proofs.Json.Restating
import Spellcraft.Proofs.Maze.Codes
import Spellcraft.Spell.Wire

namespace Spellcraft

open Json (fields? required? defaulted? optional? inOrder Reads)

namespace Position

def Restated : Json → Json → Prop := Json.Restated ["x", "y"] fun _ _ _ => False

def value? (p : Position) : String → Option Json
  | "x" => some (.integer p.x)
  | "y" => some (.integer p.y)
  | _ => none

theorem toJson_eq (p : Position) : p.toJson = .object (inOrder ["x", "y"] p.value?) := rfl

theorem reads_coordinate : Reads .integer (fun n => least ≤ n ∧ n ≤ greatest) coordinate? := by
  intro j n
  cases j with
  | integer i =>
    simp only [coordinate?, Json.toInt?, Option.ite_none_right_eq_some, Option.some.injEq,
      Json.integer.injEq]
    constructor
    · rintro ⟨h, rfl⟩
      exact ⟨rfl, h⟩
    · rintro ⟨rfl, h⟩
      exact ⟨h, rfl⟩
  | _ => simp [coordinate?, Json.toInt?]

theorem ofJson?_congr {j k : Json} (h : Restated j k) : ofJson? j = ofJson? k := by
  refine Json.Restated.decode_eq (by decide) (fun _ => rfl) ?_ h
  intro f g h
  rw [List.map_congr_left fun name hn => (h name hn).resolve_right id]

theorem ofJson?_eq_some {j : Json} {p : Position} :
    ofJson? j = some p ↔ Restated j p.toJson ∧ p.Fits := by
  refine Json.Restated.decode_eq_some (by decide) value? (fun _ => rfl) toJson_eq ?_ ?_ ?_ p
  · intro f g h
    rw [List.map_congr_left fun name hn => (h name hn).resolve_right id]
  · rintro p ⟨hx, hy⟩
    have x := (reads_coordinate _ _).2 ⟨rfl, hx⟩
    have y := (reads_coordinate _ _).2 ⟨rfl, hy⟩
    simp [value?, required?, x, y]
  · intro f p hp
    simp only [List.map_cons, List.map_nil, Option.bind_eq_bind, Option.bind_eq_some_iff,
      reads_coordinate.required, Option.pure_def, Option.some.injEq] at hp
    obtain ⟨x, ⟨hfx, hx⟩, y, ⟨hfy, hy⟩, rfl⟩ := hp
    simp [value?, hfx, hfy, Fits, hx, hy]

end Position

namespace Maze

theorem reads_maze : Reads toJson (fun _ => True) Chapter.maze? := by
  intro j m
  have codes : Json.toList? (Json.toList? (Json.toNat? 8)) j = some m.codes ↔ j = m.toJson := by
    rw [(Json.reads_nat 8).list.list, toJson, and_iff_left_iff_imp]
    intro _ row hrow c hc
    exact Nat.lt_of_le_of_lt (m.known_codes row hrow c hc) (by decide)
  rw [Chapter.maze?, ofJson?, and_true, ← codes]
  cases hr : Json.toList? (Json.toList? (Json.toNat? 8)) j with
  | none => simp
  | some rows =>
    rw [Option.map_some, Option.some.injEq, @eq_comm _ rows, ← ofCodes_eq_ok]
    cases ofCodes rows <;> simp

end Maze

namespace Chapter

def requiredNames : List String := ["id", "title", "maze"]

def textNames : List String := ["description", "introductoryText", "successMessage"]

def listNames : List String := ["hints", "requiredCommands", "allowedCommands"]

def optionNames : List String := ["nextChapterId", "sampleSolution"]

/-- Ways to give a field, or to leave it out: the second is the one that is written. -/
inductive Alike : String → Option Json → Option Json → Prop
  | text : name ∈ textNames → Alike name none (some (.text ""))
  | list : name ∈ listNames → Alike name none (some (.array []))
  | null : name ∈ "startPosition" :: optionNames → Alike name (some .null) none
  | position : Position.Restated j k → Alike "startPosition" (some j) (some k)

def Restated : Json → Json → Prop := Json.Restated fieldNames Alike

def Fits (c : Chapter) : Prop := ∀ p ∈ c.startPosition, p.Fits

def value? (c : Chapter) : String → Option Json
  | "id" => some (.text c.id)
  | "title" => some (.text c.title)
  | "description" => some (.text c.description)
  | "maze" => some c.maze.toJson
  | "startPosition" => c.startPosition.map Position.toJson
  | "hints" => some (Json.ofList .text c.hints)
  | "requiredCommands" => some (Json.ofList .text c.requiredCommands)
  | "allowedCommands" => some (Json.ofList .text c.allowedCommands)
  | "nextChapterId" => c.nextChapterId.map .text
  | "introductoryText" => some (.text c.introductoryText)
  | "sampleSolution" => c.sampleSolution.map .text
  | "successMessage" => some (.text c.successMessage)
  | _ => none

theorem toJson_eq (c : Chapter) : c.toJson = .object (inOrder fieldNames c.value?) := by
  simp [toJson, inOrder, fieldNames, value?, Json.present]

namespace Alike

theorem required_eq (h : a = b ∨ Alike name a b) (hn : name ∈ requiredNames) : a = b := by
  rcases h with rfl | h
  · rfl
  · cases h with
    | text h => exact absurd hn ((by decide : ∀ n ∈ textNames, n ∉ requiredNames) _ h)
    | list h => exact absurd hn ((by decide : ∀ n ∈ listNames, n ∉ requiredNames) _ h)
    | null h => exact absurd hn ((by decide : ∀ n ∈ _ :: optionNames, n ∉ requiredNames) _ h)
    | position => exact absurd hn (by decide)

theorem text_eq (h : a = b ∨ Alike name a b) (hn : name ∈ textNames) :
    defaulted? Json.toText? "" a = defaulted? Json.toText? "" b := by
  rcases h with rfl | h
  · rfl
  · cases h with
    | text => rfl
    | list h => exact absurd hn ((by decide : ∀ n ∈ listNames, n ∉ textNames) _ h)
    | null h => exact absurd hn ((by decide : ∀ n ∈ _ :: optionNames, n ∉ textNames) _ h)
    | position => exact absurd hn (by decide)

theorem list_eq (h : a = b ∨ Alike name a b) (hn : name ∈ listNames) :
    defaulted? (Json.toList? Json.toText?) [] a = defaulted? (Json.toList? Json.toText?) [] b := by
  rcases h with rfl | h
  · rfl
  · cases h with
    | text h => exact absurd hn ((by decide : ∀ n ∈ textNames, n ∉ listNames) _ h)
    | list => rfl
    | null h => exact absurd hn ((by decide : ∀ n ∈ _ :: optionNames, n ∉ listNames) _ h)
    | position => exact absurd hn (by decide)

theorem option_eq (h : a = b ∨ Alike name a b) (hn : name ∈ optionNames) :
    optional? Json.toText? a = optional? Json.toText? b := by
  rcases h with rfl | h
  · rfl
  · cases h with
    | text h => exact absurd hn ((by decide : ∀ n ∈ textNames, n ∉ optionNames) _ h)
    | list h => exact absurd hn ((by decide : ∀ n ∈ listNames, n ∉ optionNames) _ h)
    | null => rfl
    | position => exact absurd hn (by decide)

theorem position_eq (h : a = b ∨ Alike "startPosition" a b) :
    optional? Position.ofJson? a = optional? Position.ofJson? b := by
  rcases h with rfl | h
  · rfl
  · cases h with
    | text h => exact absurd h (by decide)
    | list h => exact absurd h (by decide)
    | null => rfl
    | position h => exact h.toOption?_eq (Position.ofJson?_congr h)

theorem of_text (h : name ∈ textNames) (hv : defaulted? Json.toText? "" v = some s) :
    v = some (.text s) ∨ Alike name v (some (.text s)) := by
  obtain ⟨rfl, -⟩ | ⟨rfl, rfl⟩ := Json.reads_text.defaulted.1 hv
  · exact .inl rfl
  · exact .inr (.text h)

theorem of_list (h : name ∈ listNames)
    (hv : defaulted? (Json.toList? Json.toText?) [] v = some ss) :
    v = some (Json.ofList .text ss) ∨ Alike name v (some (Json.ofList .text ss)) := by
  obtain ⟨rfl, -⟩ | ⟨rfl, rfl⟩ := Json.reads_text.list.defaulted.1 hv
  · exact .inl rfl
  · exact .inr (.list h)

theorem of_none (h : name ∈ "startPosition" :: optionNames) (hv : v = none ∨ v = some .null) :
    v = none ∨ Alike name v none := by
  rcases hv with rfl | rfl
  · exact .inl rfl
  · exact .inr (.null h)

theorem of_option (h : name ∈ optionNames) (hv : optional? Json.toText? v = some o) :
    v = o.map .text ∨ Alike name v (o.map .text) := by
  cases o with
  | none => exact of_none (List.mem_cons_of_mem _ h) (Json.optional?_eq_some_none.1 hv)
  | some s =>
    obtain ⟨j, rfl, hj⟩ := (Json.optional?_eq_some_some rfl).1 hv
    obtain ⟨rfl, -⟩ := (Json.reads_text j s).1 hj
    exact .inl rfl

theorem of_position (hv : optional? Position.ofJson? v = some o) : (∀ p ∈ o, p.Fits) ∧
    (v = o.map Position.toJson ∨ Alike "startPosition" v (o.map Position.toJson)) := by
  cases o with
  | none =>
    exact ⟨nofun, of_none List.mem_cons_self (Json.optional?_eq_some_none.1 hv)⟩
  | some p =>
    obtain ⟨j, rfl, hj⟩ := (Json.optional?_eq_some_some rfl).1 hv
    obtain ⟨restated, fits⟩ := Position.ofJson?_eq_some.1 hj
    exact ⟨fun _ hp => Option.some.inj hp ▸ fits, .inr (.position restated)⟩

end Alike

theorem ofJson?_eq_some {j : Json} {c : Chapter} :
    ofJson? j = some c ↔ Restated j c.toJson ∧ c.Fits := by
  refine Json.Restated.decode_eq_some (by decide) value? (fun _ => rfl) toJson_eq ?blind ?written
    ?read c
  case blind =>
    intro f g h
    have required {name : String} (hn : name ∈ requiredNames) (known : name ∈ fieldNames) :=
      Alike.required_eq (h name known) hn
    have text {name : String} (hn : name ∈ textNames) (known : name ∈ fieldNames) :=
      Alike.text_eq (h name known) hn
    have list {name : String} (hn : name ∈ listNames) (known : name ∈ fieldNames) :=
      Alike.list_eq (h name known) hn
    have option {name : String} (hn : name ∈ optionNames) (known : name ∈ fieldNames) :=
      Alike.option_eq (h name known) hn
    have start := Alike.position_eq (h "startPosition" (by decide))
    simp (disch := decide) only [fieldNames, List.map_cons, List.map_nil, required, text, list,
      option, start]
  case written =>
    intro c hc
    have texts (ss : List String) : Json.toList? Json.toText? (Json.ofList .text ss) = some ss :=
      (Json.reads_text.list _ ss).2 ⟨rfl, fun _ _ => trivial⟩
    have maze := (Maze.reads_maze _ c.maze).2 ⟨rfl, trivial⟩
    have start : optional? Position.ofJson? (c.startPosition.map Position.toJson) =
        some c.startPosition := by
      cases hp : c.startPosition with
      | none => rfl
      | some p =>
        exact (Json.optional?_eq_some_some rfl).2
          ⟨_, rfl, Position.ofJson?_eq_some.2 ⟨.refl _, hc p hp⟩⟩
    have option (o : Option String) : optional? Json.toText? (o.map .text) = some o := by
      cases o <;> rfl
    simp [fieldNames, value?, required?, defaulted?, Json.toText?, texts, maze, start, option]
  case read =>
    intro f c hc
    simp only [fieldNames, List.map_cons, List.map_nil, Option.bind_eq_bind,
      Option.bind_eq_some_iff, Option.pure_def, Option.some.injEq] at hc
    obtain ⟨id, hid, title, htitle, description, hdescription, maze, hmaze, start, hstart, hints,
      hhints, required, hrequired, allowed, hallowed, next, hnext, introduction, hintroduction,
      sample, hsample, success, hsuccess, rfl⟩ := hc
    obtain ⟨fits, start⟩ := Alike.of_position hstart
    refine ⟨fits, ?_⟩
    simp only [fieldNames, List.forall_mem_cons, value?]
    exact ⟨.inl (Json.reads_text.required.1 hid).1, .inl (Json.reads_text.required.1 htitle).1,
      Alike.of_text (by decide) hdescription, .inl (Maze.reads_maze.required.1 hmaze).1, start,
      Alike.of_list (by decide) hhints, Alike.of_list (by decide) hrequired,
      Alike.of_list (by decide) hallowed, Alike.of_option (by decide) hnext,
      Alike.of_text (by decide) hintroduction, Alike.of_option (by decide) hsample,
      Alike.of_text (by decide) hsuccess, List.forall_mem_nil _⟩

end Chapter

theorem firstRepeated_eq_none {seen ids : List String} (hn : ids.Nodup)
    (h : ∀ id ∈ ids, id ∉ seen) : firstRepeated seen ids = none := by
  induction ids generalizing seen with
  | nil => rfl
  | cons id rest ih =>
    obtain ⟨hid, hn⟩ := List.nodup_cons.1 hn
    obtain ⟨new, h⟩ := List.forall_mem_cons.1 h
    rw [firstRepeated, if_neg new]
    exact ih hn fun other ho =>
      List.not_mem_cons_of_ne_of_not_mem (ne_of_mem_of_not_mem ho hid) (h other ho)

namespace Book

theorem ofChapters_eq_ok {chapters : List Chapter} {b : Book} :
    ofChapters chapters = .ok b ↔ b.chapters = chapters := by
  constructor
  · intro h
    rw [ofChapters] at h
    split at h
    · cases h
    · cases h
      rfl
  · rintro rfl
    have unique := @firstRepeated_eq_none [] _ b.distinct fun _ _ => List.not_mem_nil
    rw [ofChapters]
    split
    · next h => rw [unique] at h; cases h
    · rfl

theorem ofJson?_eq_ok {j : Json} {b : Book} :
    ofJson? j = some (.ok b) ↔ Json.toList? Chapter.ofJson? j = some b.chapters := by
  simp only [ofJson?, Option.map_eq_some_iff, ofChapters_eq_ok]
  constructor
  · rintro ⟨_, h, rfl⟩
    exact h
  · exact fun h => ⟨_, h, rfl⟩

theorem toList?_eq_some {j : Json} {chapters : List Chapter} :
    Json.toList? Chapter.ofJson? j = some chapters ↔
      (∃ js, j = .array js ∧ List.Forall₂ (fun j c => Chapter.Restated j c.toJson) js chapters) ∧
        ∀ c ∈ chapters, c.Fits := by
  simp only [Json.toList?_eq_some, Chapter.ofJson?_eq_some, Json.forall₂_and_right]
  exact ⟨fun ⟨js, hj, restated, fits⟩ => ⟨⟨js, hj, restated⟩, fits⟩,
    fun ⟨⟨js, hj, restated⟩, fits⟩ => ⟨js, hj, restated, fits⟩⟩

theorem toList?_ofList {chapters : List Chapter} (h : ∀ c ∈ chapters, c.Fits) :
    Json.toList? Chapter.ofJson? (Json.ofList Chapter.toJson chapters) = some chapters := by
  refine toList?_eq_some.2 ⟨⟨_, rfl, ?_⟩, h⟩
  rw [List.forall₂_map_left_iff, List.forall₂_same]
  exact fun _ _ => .refl _

end Book

/-- What a chapter is written as decodes as the chapter. All that decodes as a chapter is a
restatement of its JSON, and no restatement makes a difference, so that what has been decoded can be
written and decoded again. The same holds for a book, chapter by chapter and in their order. -/
theorem chapters_round_trip :
    (∀ c : Chapter, c.Fits → Chapter.ofJson? c.toJson = some c) ∧
    (∀ j c, Chapter.ofJson? j = some c → Chapter.ofJson? c.toJson = some c) ∧
    (∀ j c, Chapter.ofJson? j = some c ↔ Chapter.Restated j c.toJson ∧ c.Fits) ∧
    (∀ j k, Chapter.Restated j k → Chapter.ofJson? j = Chapter.ofJson? k) ∧
    (∀ chapters b, Book.ofChapters chapters = .ok b → (∀ c ∈ chapters, c.Fits) →
      b.chapters = chapters ∧ Json.toList? Chapter.ofJson? b.toJson = some chapters ∧
        Book.ofJson? b.toJson = some (.ok b)) ∧
    (∀ j b, Book.ofJson? j = some (.ok b) → Book.ofJson? b.toJson = some (.ok b)) ∧
    ∀ j b, Book.ofJson? j = some (.ok b) ↔
      (∃ js, j = .array js ∧ List.Forall₂ (fun j c => Chapter.Restated j c.toJson) js b.chapters) ∧
        ∀ c ∈ b.chapters, c.Fits := by
  have written : ∀ c : Chapter, c.Fits → Chapter.ofJson? c.toJson = some c :=
    fun c hc => Chapter.ofJson?_eq_some.2 ⟨.refl _, hc⟩
  have book : ∀ b : Book, (∀ c ∈ b.chapters, c.Fits) → Book.ofJson? b.toJson = some (.ok b) :=
    fun b hb => Book.ofJson?_eq_ok.2 (Book.toList?_ofList hb)
  refine ⟨written, fun j c h => written c (Chapter.ofJson?_eq_some.1 h).2,
    fun j c => Chapter.ofJson?_eq_some, fun j k h => ?_, fun chapters b h fits => ?_,
    fun j b h => book b (Book.toList?_eq_some.1 (Book.ofJson?_eq_ok.1 h)).2,
    fun j b => Book.ofJson?_eq_ok.trans Book.toList?_eq_some⟩
  · apply Option.ext
    intro c
    rw [Chapter.ofJson?_eq_some, Chapter.ofJson?_eq_some]
    exact ⟨fun ⟨hj, hc⟩ => ⟨h.symm.trans hj, hc⟩, fun ⟨hk, hc⟩ => ⟨h.trans hk, hc⟩⟩
  · obtain rfl := Book.ofChapters_eq_ok.1 h
    exact ⟨rfl, Book.toList?_ofList fits, book b fits⟩

def hall : Chapter where
  id := "hall"
  title := "The hall"
  description := ""
  maze := ⟨5, [[.start, .empty, .torch, .empty, .goal], [.wall, .wall, .empty, .wall, .wall]],
    by decide, by decide, by decide⟩
  startPosition := some ⟨2, 1⟩
  hints := []
  requiredCommands := ["while"]
  allowedCommands := []
  nextChapterId := none
  introductoryText := ""
  sampleSolution := none
  successMessage := "Done"

def hallMembers : Json :=
  .object
    [("successMessage", .text "Done"), ("maze", hall.maze.toJson), ("id", .text "hall"),
     ("startPosition", .array [.integer 2, .integer 1]), ("author", .null),
     ("requiredCommands", .array [.text "while"]), ("title", .text "The hall"),
     ("sampleSolution", .null)]

theorem chapters_round_trip_hall :
    hall.Fits ∧ Chapter.ofJson? hall.toJson = some hall ∧
      Chapter.ofJson? hallMembers = some hall ∧ Chapter.Restated hallMembers hall.toJson ∧
      ∃ b, Book.ofChapters [hall] = .ok b ∧ b.chapters = [hall] ∧
        Book.ofJson? (.array [hallMembers]) = some (.ok b) ∧
        Book.ofJson? b.toJson = some (.ok b) := by
  obtain ⟨written, -, decoded, -, books, again, -⟩ := chapters_round_trip
  have fits : hall.Fits := by
    rintro p ⟨⟩
    decide
  have members : Chapter.ofJson? hallMembers = some hall := by rfl
  have book : Book.ofChapters [hall] = .ok ⟨[hall], by decide⟩ := by rfl
  have array : Book.ofJson? (.array [hallMembers]) = some (.ok ⟨[hall], by decide⟩) := by rfl
  have chapters := (books [hall] _ book (List.forall_mem_singleton.2 fits)).1
  exact ⟨fits, written hall fits, members, ((decoded _ _).1 members).1, _, book, chapters, array,
    again _ _ array⟩

end Spellcraft
