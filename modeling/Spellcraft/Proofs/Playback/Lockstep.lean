import Mathlib.Control.Monad.Basic
import Spellcraft.Proofs.Casting.Rehearsal
import Spellcraft.Proofs.Playback.Replay

namespace Spellcraft

namespace Replay

structure Reached (m : Maze) (start : Position) (actions done : List Action) (r : Replay) :
    Prop where
  split : actions = done ++ r.pending
  position : r.position = m.walk start done
  torches (p : Position) : r.torches.holds p = m.isTorch p
  course : m.Clear start done ∧ (∀ p, r.outcome ≠ some (.ofShortfall (.wall p))) ∨
    ∃ p, m.Collides start done p ∧ r.outcome = some (.ofShortfall (.wall p))

variable {m : Maze} {origin : Position} {actions done : List Action} {r : Replay}

theorem Reached.fresh (m : Maze) (origin : Position) (actions : List Action) :
    Reached m origin actions [] (fresh m origin actions) :=
  ⟨rfl, rfl, m.holds_freshTorches, .inl ⟨.nil m origin, by simp [Replay.fresh]⟩⟩

theorem Reached.split_concat (h : Reached m origin actions done r) (hp : r.pending = a :: rest) :
    actions = done ++ [a] ++ rest := by
  rw [h.split, hp, List.append_assoc]
  rfl

theorem Reached.collides_iff (h : Reached m origin actions done r) (p : Position) :
    r.outcome = some (.ofShortfall (.wall p)) ↔ m.Collides origin done p := by
  rcases h.course with ⟨hc, hn⟩ | ⟨q, hq, ho⟩
  · exact iff_of_false (hn p) (hc.not_collides p)
  · constructor
    · intro hp
      rw [ho] at hp
      cases hp
      exact hq
    · intro hp
      rw [ho, hq.unique hp]

theorem Reached.clear (h : Reached m origin actions done r) (ho : r.outcome = none) :
    m.Clear origin done := by
  rcases h.course with ⟨hc, -⟩ | ⟨p, -, hp⟩
  · exact hc
  · simp [ho] at hp

theorem Reached.underfoot (h : Reached m origin actions done r) (hm : m.Rehearsed origin actions)
    (hp : r.pending = .lightTorch p :: rest) :
    p = r.position ∧ m.isTorch p = true ∧ r.torches.holds p = true := by
  obtain ⟨hw, ht⟩ := hm done p rest (by rw [h.split, hp])
  exact ⟨hw.trans h.position.symm, ht, (h.torches p).trans ht⟩

theorem Reached.move (h : Reached m origin actions done r) (ho : r.outcome = none)
    (hp : r.pending = .move d :: rest) :
    Reached m origin actions (done ++ [.move d]) (r.move m d rest).1 := by
  have hsplit := h.split_concat hp
  have hwalk : m.walk origin (done ++ [.move d]) = m.after r.position (.move d) := by
    rw [m.walk_concat, h.position]
  simp only [Replay.move]
  simp only [Maze.after] at hwalk
  cases hs : m.step r.position d with
  | blocked p =>
    rw [hs] at hwalk
    have hb : m.Bumps origin done (.move d) p := ⟨d, rfl, by rw [← h.position, hs]⟩
    exact ⟨hsplit, hwalk.symm, h.torches, .inr ⟨p, ⟨done, _, rfl, h.clear ho, hb⟩, rfl⟩⟩
  | free p =>
    rw [hs] at hwalk
    have hc : m.Clear origin (done ++ [.move d]) := by
      apply (h.clear ho).concat
      rintro q ⟨d', hd, hq⟩
      cases hd
      rw [← h.position, hs] at hq
      cases hq
    simp only
    split
    · exact ⟨hsplit, hwalk.symm, h.torches, .inl ⟨hc, by simp [close, Outcome.ofShortfall]⟩⟩
    · exact ⟨hsplit, hwalk.symm, h.torches, .inl ⟨hc, by simp [ho]⟩⟩

theorem Reached.lightTorch (h : Reached m origin actions done r) (ho : r.outcome = none)
    (hp : r.pending = .lightTorch p :: rest) :
    Reached m origin actions (done ++ [.lightTorch p]) (r.lightTorch p rest).1 := by
  refine ⟨h.split_concat hp, ?_, fun q => ?_,
    .inl ⟨(h.clear ho).concat ?_, by simp [Replay.lightTorch, ho]⟩⟩
  · rw [m.walk_concat]
    exact h.position
  · simp only [Replay.lightTorch, ← TorchBoard.light_eq_modify, TorchBoard.holds_light, h.torches]
  · rintro q ⟨d, hd, -⟩
    cases hd

theorem Reached.next (h : Reached m origin actions done r) :
    ∃ later, Reached m origin actions later (r.next m).1 ∧
      ((r.next m).1.outcome = none → later.length = done.length + 1) := by
  cases ho : r.outcome with
  | some o =>
    refine ⟨done, ?_⟩
    simpa [Replay.next, ho] using h
  | none =>
    cases hp : r.pending with
    | nil =>
      refine ⟨done, ?_⟩
      simp only [Replay.next, ho, hp]
      refine ⟨⟨h.split, h.position, h.torches, .inl ⟨h.clear ho, fun p => ?_⟩⟩, by simp [close]⟩
      simp only [close, verdict]
      split
      · split <;> simp [Outcome.ofShortfall]
      · simp [Outcome.ofShortfall]
    | cons a rest =>
      refine ⟨done ++ [a], ?_, fun _ => List.length_append⟩
      cases a with
      | move d => simpa [Replay.next, ho, hp] using h.move ho hp
      | lightTorch p => simpa [Replay.next, ho, hp] using h.lightTorch ho hp

theorem run_of_outcome (h : r.outcome = some o) (n : Nat) : (r.run m n).1 = r := by
  induction n with
  | zero => rfl
  | succ n ih => simpa [Replay.run, Replay.next, h] using ih

theorem Reached.run (h : Reached m origin actions done r) (n : Nat) :
    ∃ later, Reached m origin actions later (r.run m n).1 ∧
      ((r.run m n).1.outcome = none → later.length = done.length + n) := by
  induction n generalizing done r with
  | zero => exact ⟨done, h, fun _ => rfl⟩
  | succ n ih =>
    obtain ⟨next, hn, hone⟩ := h.next
    obtain ⟨later, hl, hmore⟩ := ih hn
    refine ⟨later, hl, fun ho => ?_⟩
    cases hx : (r.next m).1.outcome with
    | none => rw [hmore ho, hone hx, Nat.add_right_comm, Nat.add_assoc]
    | some o =>
      rw [Replay.run, run_of_outcome hx, hx] at ho
      cases ho

end Replay

theorem Playback.shows_fresh (pb : Playback) (m : Maze) (start : Position) (actions : List Action)
    {listener : Listener} (quiet : ∀ heard, listener heard = false) (ticks : List Nat) :
    let begun := pb.start m start m.freshTorches actions listener
    Shows m (begun.play ticks).1
      ((Replay.fresh m start actions).run m (begun.dueTicks ticks)).1 :=
  ((pb.shows_start m start m.freshTorches actions quiet).play ticks).1

/-- However fast a compiled spell is played back, it has done some of its actions, one for every
tick that was due, and is where these lead. It lights torches underfoot, and it hits a wall exactly
when it has done the first move that was blocked in the rehearsal. -/
theorem Spell.play_lockstep (h : compile source maze start options = .ok actions) :
    (actions.length ≤ options.limits.actions ∧
      ∀ done p rest, actions = done ++ .lightTorch p :: rest →
        p = maze.walk start done ∧ maze.isTorch p = true) ∧
    ∀ (pb : Playback) (listener : Listener) (ticks : List Nat),
      (∀ heard, listener heard = false) →
      let begun := pb.start maze start maze.freshTorches actions listener
      let q := (begun.play ticks).1
      ∃ done, actions = done ++ q.pending ∧ q.position = maze.walk start done ∧
        (q.phase.isTerminal = false → done.length = begun.dueTicks ticks) ∧
        (∀ p rest, q.pending = .lightTorch p :: rest →
          p = q.position ∧ q.torches.holds p = true) ∧
        (∀ p, q.phase = .ended (.ofShortfall (.wall p)) ↔ maze.Collides start done p) ∧
        (maze.Clear start actions → ∀ p, q.phase ≠ .ended (.ofShortfall (.wall p))) := by
  obtain ⟨hlen, hm⟩ := rehearsed_of_compile h
  refine ⟨⟨hlen, hm⟩, ?_⟩
  intro pb listener ticks quiet begun q
  have hs : q.Shows maze _ := pb.shows_fresh maze start actions quiet ticks
  obtain ⟨done, hr, hcount⟩ := (Replay.Reached.fresh maze start actions).run (begun.dueTicks ticks)
  obtain ⟨hposition, htorches, hpending⟩ := hs.view
  have wall (p : Position) := (hs.ended_iff _).trans (hr.collides_iff p)
  refine ⟨done, hpending ▸ hr.split, hposition.trans hr.position, ?_, ?_, wall, ?_⟩
  · intro hgo
    rw [hs.isTerminal, Option.isSome_eq_false_iff, Option.isNone_iff_eq_none] at hgo
    simpa using hcount hgo
  · intro p rest hp
    obtain ⟨hunder, -, hholds⟩ := hr.underfoot hm (hpending ▸ hp)
    exact ⟨hunder.trans hposition.symm, htorches ▸ hholds⟩
  · intro hclear p hp
    rw [hr.split] at hclear
    exact hclear.of_append.not_collides p ((wall p).1 hp)

def Playback.inCorridor (actions : List Action) (ticks : List Nat) : Playback :=
  let begun := (⟨3, .idle, ⟨0, 0⟩, [], [], []⟩ : Playback).start .corridor ⟨0, 0⟩
    Maze.corridor.freshTorches actions fun _ => false
  (begun.play ticks).1

def Action.stray : List Action := [.move .right, .lightTorch ⟨1, 0⟩, .move .up]

theorem Spell.play_lockstep_corridor :
    compile "moveRight(); lightTorch(); moveUp();" .corridor ⟨0, 0⟩ ⟨⟨3, 30, 1, 0⟩, none⟩ =
        .ok Action.stray ∧
      ∃ done, Action.stray = done ++ (Playback.inCorridor Action.stray [4, 1, 2, 5]).pending ∧
        (Playback.inCorridor Action.stray [4, 1, 2, 5]).position =
          Maze.corridor.walk ⟨0, 0⟩ done ∧
        Maze.corridor.Collides ⟨0, 0⟩ done ⟨1, -1⟩ := by
  have hc : compile "moveRight(); lightTorch(); moveUp();" .corridor ⟨0, 0⟩
      ⟨⟨3, 30, 1, 0⟩, none⟩ = .ok Action.stray := by decide +kernel
  obtain ⟨-, plays⟩ := play_lockstep hc
  obtain ⟨done, hsplit, hposition, -, -, wall, -⟩ :=
    plays ⟨3, .idle, ⟨0, 0⟩, [], [], []⟩ (fun _ => false) [4, 1, 2, 5] fun _ => rfl
  exact ⟨hc, done, hsplit, hposition, (wall ⟨1, -1⟩).1 rfl⟩

end Spellcraft
