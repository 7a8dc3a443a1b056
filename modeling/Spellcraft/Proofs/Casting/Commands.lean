import Spellcraft.Proofs.Casting.Rehearsal
import Spellcraft.Proofs.Casting.Steps

namespace Spellcraft

namespace Maze

theorem passable_of_step_free {m : Maze} {p q : Position} {d : Direction}
    (h : m.step p d = .free q) : m.passable q = true := by
  unfold step at h
  split at h
  · next open_ =>
    cases h
    exact open_
  · cases h

theorem passable_after {m : Maze} {p : Position} (h : m.passable p = true) (a : Action) :
    m.passable (m.after p a) = true := by
  cases a with
  | lightTorch q => exact h
  | move d =>
    rw [after]
    split
    · next hs => exact passable_of_step_free hs
    · exact h

end Maze

namespace Trail

def extended (t : Trail) (a : Action) : Trail :=
  { t with position := t.maze.after t.position a, past := a :: t.past, room := t.room - 1 }

theorem Balanced.full_iff {t : Trail} (h : t.Balanced) :
    t.actions.length = t.ceiling ↔ t.room = 0 := by
  unfold Balanced at h
  rw [actions, List.length_reverse]
  omega

theorem move_eq_ite (t : Trail) (d : Direction) :
    t.move d = if t.room = 0 then .error (.tooManyActions t.ceiling)
      else .ok (t.extended (.move d)) := by
  cases h : t.room with
  | zero => rw [move_eq, record_of_full h]; rfl
  | succ n => simp [move_eq, record_of_room h, extended, h, Except.map]

theorem lightTorch_eq_ite (t : Trail) (span : Span) :
    t.lightTorch span = if t.maze.isTorch t.position = false then .error (.noTorch t.position span)
      else if t.room = 0 then .error (.tooManyActions t.ceiling)
      else .ok (t.extended (.lightTorch t.position)) := by
  unfold lightTorch
  cases t.maze.isTorch t.position with
  | false => rfl
  | true =>
    cases h : t.room with
    | zero => simp [record_of_full h]
    | succ n => simp [record_of_room h, extended, h, Maze.after]

end Trail

namespace Cast

variable {c : Casting}

theorem command_look (d : Direction) (span : Span) (c : Casting) :
    command (.look d) span c = (.ok (.bool (c.trail.canMove d)), c) := rfl

theorem command_move (h : c.trail.Balanced) (d : Direction) (span : Span) :
    command (.move d) span c =
      if c.trail.actions.length = c.trail.ceiling then
        (.error (.trap (.tooManyActions c.trail.ceiling)), c)
      else (.ok .undefined, { c with trail := c.trail.extended (.move d) }) := by
  simp only [command, bind_apply, follow_apply, Trail.move_eq_ite, h.full_iff]
  by_cases full : c.trail.room = 0
  · rw [if_pos full, if_pos full]
    rfl
  · rw [if_neg full, if_neg full]
    rfl

theorem command_lightTorch (h : c.trail.Balanced) (span : Span) :
    command .lightTorch span c =
      if c.trail.maze.isTorch c.trail.position = false then
        (.error (.trap (.noTorch c.trail.position span)), c)
      else if c.trail.actions.length = c.trail.ceiling then
        (.error (.trap (.tooManyActions c.trail.ceiling)), c)
      else (.ok .undefined, { c with trail := c.trail.extended (.lightTorch c.trail.position) }) := by
  simp only [command, bind_apply, follow_apply, Trail.lightTorch_eq_ite, h.full_iff]
  by_cases dark : c.trail.maze.isTorch c.trail.position = false
  · rw [if_pos dark, if_pos dark]
    rfl
  · rw [if_neg dark, if_neg dark]
    by_cases full : c.trail.room = 0
    · rw [if_pos full, if_pos full]
      rfl
    · rw [if_neg full, if_neg full]
      rfl

end Cast

structure Order where
  command : Command
  span : Span

namespace Casting

def obey (c : Casting) (o : Order) : Casting := (Cast.command o.command o.span c).2

def obeyAll (c : Casting) (orders : List Order) : Casting := orders.foldl obey c

variable {c : Casting} {maze : Maze} {start : Position} {ceiling : Nat}

theorem obeyAll_append (c : Casting) (done rest : List Order) :
    c.obeyAll (done ++ rest) = (c.obeyAll done).obeyAll rest := List.foldl_append

theorem eq_of_trapped (h : c.trail.Balanced) (o : Order) {e : Exit} {d : Casting}
    (trapped : Cast.command o.command o.span c = (.error e, d)) : d = c := by
  obtain ⟨k, span⟩ := o
  cases k with
  | look dir => cases trapped
  | move dir =>
    rw [Cast.command_move h] at trapped
    split at trapped <;> cases trapped
    rfl
  | lightTorch =>
    rw [Cast.command_lightTorch h] at trapped
    split at trapped
    · cases trapped
      rfl
    · split at trapped <;> cases trapped
      rfl

theorem obey_cases (h : c.trail.Balanced) (o : Order) :
    c.obey o = c ∨ c.trail.actions.length ≠ c.trail.ceiling ∧
      ∃ a, (∀ p, a = .lightTorch p → p = c.trail.position ∧ c.trail.maze.isTorch p = true) ∧
        c.obey o = { c with trail := c.trail.extended a } := by
  obtain ⟨k, span⟩ := o
  cases k with
  | look dir => exact .inl rfl
  | move dir =>
    rw [obey, Cast.command_move h]
    split
    · exact .inl rfl
    · next room => exact .inr ⟨room, .move dir, nofun, rfl⟩
  | lightTorch =>
    rw [obey, Cast.command_lightTorch h]
    split
    · exact .inl rfl
    · next lit =>
      split
      · exact .inl rfl
      · next room =>
        refine .inr ⟨room, .lightTorch c.trail.position, ?_, rfl⟩
        rintro p ⟨⟩
        exact ⟨rfl, by simpa using lit⟩

theorem rehearsed_obey (h : c.trail.Rehearsed maze start ceiling) (o : Order) :
    (c.obey o).trail.Rehearsed maze start ceiling := by
  obtain same | ⟨room, a, ha, extended⟩ := obey_cases h.balanced o
  · rwa [same]
  · obtain ⟨n, hn⟩ := Nat.exists_eq_succ_of_ne_zero (mt h.balanced.full_iff.2 room)
    obtain rfl := h.maze_eq
    rw [extended, Trail.extended, hn]
    exact h.concat hn rfl ha

theorem rehearsed_obeyAll (h : c.trail.Rehearsed maze start ceiling) (orders : List Order) :
    (c.obeyAll orders).trail.Rehearsed maze start ceiling := by
  induction orders generalizing c with
  | nil => exact h
  | cons o orders ih => exact ih (rehearsed_obey h o)

theorem passable_obey (h : c.trail.Rehearsed maze start ceiling) (o : Order)
    (inside : maze.passable c.trail.position = true) :
    maze.passable (c.obey o).trail.position = true := by
  obtain same | ⟨-, a, -, extended⟩ := obey_cases h.balanced o
  · rwa [same]
  · rw [extended]
    exact h.maze_eq ▸ Maze.passable_after (h.maze_eq ▸ inside) a

theorem passable_obeyAll (h : c.trail.Rehearsed maze start ceiling) (orders : List Order)
    (inside : maze.passable c.trail.position = true) :
    maze.passable (c.obeyAll orders).trail.position = true := by
  induction orders generalizing c with
  | nil => exact inside
  | cons o orders ih => exact ih (rehearsed_obey h o) (passable_obey h o inside)

/-- Commands given one after the other, from wherever the avatar starts, with as many actions as
there may be. After them a command that traps leaves the state as it is, and so does a look around;
the position is where the recorded actions lead, and it stays on the floor once it is there; no more
is recorded than there may be. A torch is missed where none stands underfoot, whatever is recorded,
and only elsewhere may there be too many actions. -/
theorem obeyAll_tracked (c : Casting) (maze : Maze) (start : Position) (ceiling : Nat)
    (orders : List Order) :
    let begun := { c with trail := .start maze start ceiling }
    let d := begun.obeyAll orders
    let t := d.trail
    (∀ (o : Order) e d', Cast.command o.command o.span d = (.error e, d') → d' = d) ∧
    (∀ dir span, Cast.command (.look dir) span d =
      (.ok (.bool (maze.step t.position dir).isFree), d)) ∧
    t.position = maze.walk start t.actions ∧
    (∀ done rest, orders = done ++ rest →
      maze.passable (begun.obeyAll done).trail.position = true → maze.passable t.position = true) ∧
    t.actions.length ≤ ceiling ∧
    (∀ span, Cast.command .lightTorch span d =
      if maze.isTorch t.position = false then (.error (.trap (.noTorch t.position span)), d)
      else if t.actions.length = ceiling then (.error (.trap (.tooManyActions ceiling)), d)
      else (.ok .undefined, { d with trail := t.extended (.lightTorch t.position) })) ∧
    ∀ dir span, Cast.command (.move dir) span d =
      if t.actions.length = ceiling then (.error (.trap (.tooManyActions ceiling)), d)
      else (.ok .undefined, { d with trail := t.extended (.move dir) }) := by
  intro begun d t
  have outset : begun.trail.Rehearsed maze start ceiling := .start maze start ceiling
  have tracked : t.Rehearsed maze start ceiling := rehearsed_obeyAll outset orders
  have balanced : d.trail.Balanced := tracked.balanced
  have maze_eq : d.trail.maze = maze := tracked.maze_eq
  have ceiling_eq : d.trail.ceiling = ceiling := tracked.ceiling_eq
  refine ⟨fun o e d' => eq_of_trapped balanced o, fun dir span => ?_, tracked.position_eq, ?_, ?_,
    fun span => ?_, fun dir span => ?_⟩
  · rw [Cast.command_look, Trail.canMove, maze_eq]
  · rintro done rest rfl inside
    have halfway : (begun.obeyAll done).trail.Rehearsed maze start ceiling :=
      rehearsed_obeyAll outset done
    have later := passable_obeyAll halfway rest inside
    rwa [← obeyAll_append] at later
  · have count : t.past.length + t.room = ceiling := ceiling_eq ▸ balanced
    rw [Trail.actions, List.length_reverse]
    omega
  · rw [Cast.command_lightTorch balanced, maze_eq, ceiling_eq]
  · rw [Cast.command_move balanced, ceiling_eq]

def fumbling : List Order :=
  [Command.lightTorch, .move .left, .move .right, .move .right].map fun k => ⟨k, .point .origin⟩

theorem obeyAll_tracked_fumbling :
    let c := Casting.start .corridor ⟨0, 0⟩ .standard .standard
    let d := { c with trail := .start .corridor ⟨0, 0⟩ 2 }.obeyAll fumbling
    d.trail.actions = [.move .left, .move .right] ∧ d.trail.position = ⟨1, 0⟩ ∧
      Maze.corridor.passable d.trail.position = true ∧
      Cast.command .lightTorch (.point .origin) d = (.error (.trap (.tooManyActions 2)), d) := by
  intro c d
  obtain ⟨-, -, -, stays, -, light, -⟩ := obeyAll_tracked c .corridor ⟨0, 0⟩ 2 fumbling
  have actions : d.trail.actions = [.move .left, .move .right] := by decide +kernel
  have position : d.trail.position = ⟨1, 0⟩ := by decide +kernel
  refine ⟨actions, position, stays [] fumbling rfl (by decide), ?_⟩
  have lit : ¬Maze.corridor.isTorch d.trail.position = false := by rw [position]; decide
  have full : d.trail.actions.length = 2 := by rw [actions]; rfl
  exact (light _).trans ((if_neg lit).trans (if_pos full))

end Casting

end Spellcraft
