import Spellcraft.Proofs.Spell.RoundTrip

namespace Spellcraft

theorem firstRepeated_eq_some {seen ids : List String} {id : String} :
    firstRepeated seen ids = some id ↔ ∃ before rest, ids = before ++ id :: rest ∧
      (id ∈ seen ∨ id ∈ before) ∧ before.Nodup ∧ ∀ other ∈ before, other ∉ seen := by
  induction ids generalizing seen with
  | nil => simp [firstRepeated]
  | cons first ids ih =>
    rw [firstRepeated]
    split
    · next known =>
      constructor
      · rintro ⟨⟩
        exact ⟨[], ids, rfl, .inl known, .nil, List.forall_mem_nil _⟩
      · rintro ⟨_ | ⟨other, before⟩, rest, heq, -, -, apart⟩
        · rw [(List.cons.inj heq).1]
        · obtain rfl := (List.cons.inj heq).1
          exact absurd known (apart _ List.mem_cons_self)
    · next new =>
      rw [ih]
      constructor
      · rintro ⟨before, rest, rfl, repeated, hn, apart⟩
        refine ⟨first :: before, rest, rfl, ?_, ?_, ?_⟩
        · simpa [or_assoc, or_left_comm] using repeated
        · exact List.nodup_cons.2 ⟨fun h => apart _ h List.mem_cons_self, hn⟩
        · exact List.forall_mem_cons.2 ⟨new, fun other h hs => apart other h (.tail _ hs)⟩
      · rintro ⟨_ | ⟨other, before⟩, rest, heq, repeated, hn, apart⟩
        · obtain rfl := (List.cons.inj heq).1
          exact absurd (repeated.resolve_right List.not_mem_nil) new
        · obtain ⟨rfl, rfl⟩ := List.cons.inj heq
          obtain ⟨hother, hn⟩ := List.nodup_cons.1 hn
          obtain ⟨-, apart⟩ := List.forall_mem_cons.1 apart
          refine ⟨before, rest, rfl, ?_, hn, fun other h => ?_⟩
          · simpa [or_assoc, or_left_comm] using repeated
          · exact List.not_mem_cons_of_ne_of_not_mem (ne_of_mem_of_not_mem h hother) (apart other h)

namespace Book

def FirstRepeat (chapters : List Chapter) (c : Chapter) : Prop :=
  ∃ before rest, chapters = before ++ c :: rest ∧ (∃ d ∈ before, d.id = c.id) ∧
    (before.map Chapter.id).Nodup

theorem ofChapters_eq_error {chapters : List Chapter} {id : String} :
    ofChapters chapters = .error id ↔ ∃ c, FirstRepeat chapters c ∧ c.id = id := by
  have first : ofChapters chapters = .error id ↔
      firstRepeated [] (chapters.map Chapter.id) = some id := by
    rw [ofChapters]
    split <;> simp_all
  rw [first, firstRepeated_eq_some]
  constructor
  · rintro ⟨before, rest, hids, repeated, hn, -⟩
    obtain ⟨cs, ds, rfl, rfl, hds⟩ := List.map_eq_append_iff.1 hids
    obtain ⟨c, ds, rfl, rfl, -⟩ := List.map_eq_cons_iff.1 hds
    have earlier := repeated.resolve_left List.not_mem_nil
    exact ⟨c, ⟨cs, ds, rfl, List.mem_map.1 earlier, hn⟩, rfl⟩
  · rintro ⟨c, ⟨before, rest, rfl, earlier, hn⟩, rfl⟩
    refine ⟨before.map Chapter.id, rest.map Chapter.id, ?_, ?_, hn, ?_⟩
    · rw [List.map_append, List.map_cons]
    · exact .inr (List.mem_map.2 earlier)
    · exact fun _ _ => List.not_mem_nil

variable {b : Book} {before rest : List Chapter} {c : Chapter}

theorem other_id (h : b.chapters = before ++ c :: rest) : ∀ d ∈ before, d.id ≠ c.id := by
  intro d hd same
  have distinct := b.distinct
  rw [h, List.map_append, List.map_cons] at distinct
  exact List.disjoint_of_nodup_append distinct (List.mem_map_of_mem hd) (same ▸ List.mem_cons_self)

theorem get?_eq (h : b.chapters = before ++ c :: rest) : b.get? c.id = some c := by
  have passed : before.find? (fun d => d.id = c.id) = none := by
    rw [List.find?_eq_none]
    exact fun d hd => by simpa using other_id h d hd
  rw [get?, h, List.find?_append, passed, Option.none_or, List.find?_cons_of_pos (by simp)]

theorem mem_of_get? {id : String} (h : b.get? id = some c) : c ∈ b.chapters := List.mem_of_find?_eq_some h

theorem get?_eq_none {id : String} : b.get? id = none ↔ id ∉ b.chapters.map Chapter.id := by
  simp [get?]

theorem next?_eq (h : b.chapters = before ++ c :: rest) :
    b.next? c.id = match c.nextChapterId with
      | some id => b.get? id
      | none => rest.head? := by
  have passed : before.findIdx? (fun d => d.id = c.id) = none := by
    rw [List.findIdx?_eq_none_iff]
    exact fun d hd => by simpa using other_id h d hd
  have place : b.chapters.findIdx? (fun d => d.id = c.id) = some before.length := by
    rw [h, List.findIdx?_append, passed, List.findIdx?_cons]
    simp
  have here : b.chapters[before.length]? = some c := by
    rw [h, List.getElem?_append_right (Nat.le_refl _), Nat.sub_self]
    rfl
  have behind : b.chapters[before.length + 1]? = rest.head? := by
    rw [h, List.getElem?_append_right (Nat.le_add_right _ _), Nat.add_sub_cancel_left]
    cases rest <;> rfl
  cases hn : c.nextChapterId <;> simp [next?, place, here, behind, hn]

theorem next?_eq_none {id : String} (h : id ∉ b.chapters.map Chapter.id) : b.next? id = none := by
  have missing : b.chapters.findIdx? (fun d => d.id = id) = none := by
    simpa [List.findIdx?_eq_none_iff] using h
  rw [next?, missing]
  rfl

theorem mem_of_next? {id : String} (h : b.next? id = some c) : c ∈ b.chapters := by
  simp only [next?, Option.bind_eq_bind, Option.bind_eq_some_iff] at h
  obtain ⟨i, -, d, -, h⟩ := h
  split at h
  · exact mem_of_get? h
  · exact List.mem_of_getElem? h

/-- To begin with a chapter, if there is one, and to go on as long as there is a next one visits
these chapters and comes to an end. -/
inductive Tour (b : Book) : Option Chapter → List Chapter → Prop
  | ended : Tour b none []
  | visit {c : Chapter} : Tour b (b.next? c.id) cs → Tour b (some c) (c :: cs)

theorem Tour.unique {o : Option Chapter} {cs ds : List Chapter} (h : b.Tour o cs)
    (k : b.Tour o ds) : cs = ds := by
  induction h generalizing ds with
  | ended => cases k; rfl
  | visit _ ih =>
    cases k with
    | visit k => rw [ih k]

theorem tour_rest (plain : ∀ c ∈ b.chapters, c.nextChapterId = none)
    (h : b.chapters = before ++ rest) : b.Tour rest.head? rest := by
  induction rest generalizing before with
  | nil => exact .ended
  | cons c rest ih =>
    have next : b.next? c.id = rest.head? := by
      rw [next?_eq h, plain c (h ▸ List.mem_append_right _ List.mem_cons_self)]
    refine .visit ?_
    rw [next]
    have split : b.chapters = (before ++ [c]) ++ rest := by rw [h, List.append_assoc]; rfl
    exact ih split

/-- Chapters make a book exactly if their ids tell them apart; otherwise the first is named whose id
an earlier one has. In a book each chapter is found by its id, and nothing else is found; the next of
a chapter is the one that it names, if there is such a one, or else the one behind it. So where none
names its next, they are visited all, once and in order, and then it is over. -/
theorem navigation (chapters : List Chapter) :
    ((∃ b, ofChapters chapters = .ok b) ↔ (chapters.map Chapter.id).Nodup) ∧
    (∀ id, ofChapters chapters = .error id ↔ ∃ c, FirstRepeat chapters c ∧ c.id = id) ∧
    ∀ b, ofChapters chapters = .ok b → b.chapters = chapters ∧
      (∀ c ∈ chapters, b.get? c.id = some c) ∧
      (∀ id, b.get? id = none ↔ id ∉ chapters.map Chapter.id) ∧
      (∀ id c, b.next? id = some c → c ∈ chapters) ∧
      (∀ id, id ∉ chapters.map Chapter.id → b.next? id = none) ∧
      (∀ before c rest, chapters = before ++ c :: rest → b.next? c.id =
        match c.nextChapterId with
        | some id => b.get? id
        | none => rest.head?) ∧
      ((∀ c ∈ chapters, c.nextChapterId = none) →
        chapters.Nodup ∧ ∀ visited, b.Tour b.first? visited ↔ visited = chapters) := by
  refine ⟨?_, fun id => ofChapters_eq_error, fun b hb => ?_⟩
  · constructor
    · rintro ⟨b, hb⟩
      exact ofChapters_eq_ok.1 hb ▸ b.distinct
    · exact fun distinct => ⟨⟨chapters, distinct⟩, ofChapters_eq_ok.2 rfl⟩
  · obtain rfl := ofChapters_eq_ok.1 hb
    refine ⟨rfl, fun c hc => ?_, fun id => get?_eq_none, fun id c => mem_of_next?,
      fun id => next?_eq_none, fun before c rest => next?_eq, fun plain => ?_⟩
    · obtain ⟨before, rest, split⟩ := List.append_of_mem hc
      exact get?_eq split
    · have whole : b.Tour b.first? b.chapters := tour_rest plain (List.nil_append _).symm
      refine ⟨b.distinct.of_map, fun visited => ⟨fun h => h.unique whole, ?_⟩⟩
      rintro rfl
      exact whole

def rooms : List Chapter := [hall, { hall with id := "tower" }, { hall with id := "cellar" }]

theorem navigation_rooms :
    (∃ b, ofChapters rooms = .ok b ∧ b.get? "tower" = some { hall with id := "tower" } ∧
      b.next? "attic" = none ∧ b.Tour b.first? rooms) ∧
    ofChapters (rooms ++ [{ hall with id := "tower" }]) = .error "tower" := by
  obtain ⟨accepts, -, found⟩ := navigation rooms
  obtain ⟨-, refuses, -⟩ := navigation (rooms ++ [{ hall with id := "tower" }])
  constructor
  · obtain ⟨b, hb⟩ := accepts.2 (by decide)
    obtain ⟨-, gets, -, -, misses, -, tours⟩ := found b hb
    have plain : ∀ c ∈ rooms, c.nextChapterId = none := by decide
    exact ⟨b, hb, gets { hall with id := "tower" } (by decide), misses "attic" (by decide),
      ((tours plain).2 rooms).2 rfl⟩
  · exact (refuses "tower").2 ⟨_, ⟨rooms, [], rfl, by decide, by decide⟩, rfl⟩

end Book

end Spellcraft
