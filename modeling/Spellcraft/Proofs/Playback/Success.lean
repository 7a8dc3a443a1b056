import Mathlib.Control.Monad.Basic
import Spellcraft.Proofs.Playback.Lockstep

/-!
Success. It is looked for after a step and when no actions are left, and not after a torch is lit;
but rehearsed actions light torches only where a torch stands, which is not on the goal. So a replay
that goes on is never where it would have succeeded.
-/

namespace Spellcraft

theorem Maze.isGoal_of_isTorch {m : Maze} (h : m.isTorch p = true) : m.isGoal p = false := by
  simp only [isTorch, isGoal, decide_eq_true_eq] at h ⊢
  simp [h]

namespace Replay

def Decided (m : Maze) (r : Replay) : Prop :=
  r.outcome = some .success ↔ m.isGoal r.position = true ∧ r.torches.allLit = true

variable {m : Maze} {origin : Position} {actions done : List Action} {r : Replay}

theorem verdict_eq (m : Maze) (r : Replay) :
    r.verdict m =
      if m.isGoal r.position then
        if r.torches.allLit then .success else .ofShortfall (.torchesUnlit r.torches.unlitCount)
      else .ofShortfall .goalMissed := by
  simp only [verdict, TorchBoard.allLit_iff, TorchBoard.unlitCount_eq_length]

theorem verdict_eq_success_iff (m : Maze) (r : Replay) :
    r.verdict m = .success ↔ m.isGoal r.position = true ∧ r.torches.allLit = true := by
  rw [verdict_eq]
  cases m.isGoal r.position <;> cases r.torches.allLit <;> simp [Outcome.ofShortfall]

theorem verdict_eq_torchesUnlit_iff (m : Maze) (r : Replay) (n : Nat) :
    r.verdict m = .ofShortfall (.torchesUnlit n) ↔
      m.isGoal r.position = true ∧ 0 < n ∧ r.torches.unlitCount = n := by
  have hcount := r.torches.unlitCount_eq_zero_iff
  rw [verdict_eq]
  cases m.isGoal r.position with
  | false => simp [Outcome.ofShortfall]
  | true =>
    cases hlit : r.torches.allLit with
    | true =>
      have hzero : r.torches.unlitCount = 0 := hcount.2 hlit
      refine iff_of_false (by simp [Outcome.ofShortfall]) ?_
      omega
    | false =>
      have hne : r.torches.unlitCount ≠ 0 := by simp [hcount, hlit]
      simp only [↓reduceIte, Bool.false_eq_true, Outcome.ofShortfall, Outcome.fail.injEq,
        Shortfall.torchesUnlit.injEq, true_and]
      constructor
      · rintro ⟨rfl, -⟩
        exact ⟨by omega, rfl⟩
      · rintro ⟨-, rfl⟩
        exact ⟨rfl, rfl⟩

theorem verdict_eq_goalMissed_iff (m : Maze) (r : Replay) :
    r.verdict m = .ofShortfall .goalMissed ↔ m.isGoal r.position = false := by
  rw [verdict_eq]
  cases m.isGoal r.position <;> cases r.torches.allLit <;> simp [Outcome.ofShortfall]

theorem Decided.fresh (h : m.isGoal origin = false) (actions : List Action) :
    Decided m (fresh m origin actions) := by
  simp [Decided, Replay.fresh, h]

theorem Decided.next (h : Decided m r) (hr : Reached m origin actions done r)
    (hm : m.Rehearsed origin actions) : Decided m (r.next m).1 := by
  cases ho : r.outcome with
  | some o => simpa [Replay.next, ho] using h
  | none =>
    have hn : ¬(m.isGoal r.position = true ∧ r.torches.allLit = true) := by
      intro hg
      simpa [ho] using h.2 hg
    cases hp : r.pending with
    | nil =>
      simp only [Replay.next, ho, hp, Decided, close, Option.some.injEq]
      exact r.verdict_eq_success_iff m
    | cons a rest =>
      cases a with
      | move d =>
        simp only [Replay.next, ho, hp, Replay.move, ← TorchBoard.allLit_iff]
        cases m.step r.position d with
        | blocked p => exact iff_of_false (by simp [close, Outcome.ofShortfall]) hn
        | free p =>
          simp only
          split
          · next hg => exact iff_of_true rfl hg
          · next hg => exact iff_of_false (by simp) hg
      | lightTorch p =>
        -- lighting a torch ends no run, so it must not complete one: it is not done on the goal
        obtain ⟨rfl, ht, -⟩ := hr.underfoot hm hp
        simp only [Replay.next, ho, hp]
        refine iff_of_false (by simp [Replay.lightTorch, ho]) fun hg => ?_
        simp [Replay.lightTorch, Maze.isGoal_of_isTorch ht] at hg

theorem Decided.run (h : Decided m r) (hr : Reached m origin actions done r)
    (hm : m.Rehearsed origin actions) (n : Nat) : Decided m (r.run m n).1 := by
  induction n generalizing done r with
  | zero => exact h
  | succ n ih =>
    obtain ⟨later, hl, -⟩ := hr.next
    exact ih (h.next hr hm) hl

end Replay

theorem Replay.close_of_due {m : Maze} {pb : Playback} {r : Replay} (hs : pb.Shows m r)
    (hgo : pb.phase.isTerminal = false) (hp : pb.pending = [])
    (ht : (pb.tick t).1.phase.isTerminal = true) :
    Playback.Shows m (pb.tick t).1 (r.close (r.verdict m)).1 := by
  have ho : r.outcome = none := by simpa [hs.isTerminal] using hgo
  obtain ⟨-, -, hpending⟩ := hs.view
  have hnext : r.next m = r.close (r.verdict m) := by simp [next, ho, ← hpending, hp]
  obtain ⟨hs', -⟩ := hs.tick t
  cases hd : pb.isDue t with
  | false =>
    rw [hd] at hs'
    simp [hs'.isTerminal, run, ho] at ht
  | true =>
    rw [hd] at hs'
    simpa [run, hnext] using hs'

/-- From a start that is not the goal, a compiled spell succeeds if and only if it is on the goal
and all torches are lit; where its actions are exhausted, what is missing makes it fail. -/
theorem Spell.play_succeeds_iff (h : compile source maze start options = .ok actions)
    (hg : maze.isGoal start = false) (pb : Playback) {listener : Listener}
    (quiet : ∀ heard, listener heard = false) (ticks : List Nat) :
    let q := ((pb.start maze start maze.freshTorches actions listener).play ticks).1
    (q.phase = .ended .success ↔ maze.isGoal q.position = true ∧ q.torches.allLit = true) ∧
      ∀ t, q.phase.isTerminal = false → q.pending = [] → (q.tick t).1.phase.isTerminal = true →
        let f := (q.tick t).1
        (∀ n, f.phase = .ended (.ofShortfall (.torchesUnlit n)) ↔
          maze.isGoal f.position = true ∧ 0 < n ∧ f.torches.unlitCount = n) ∧
        (f.phase = .ended (.ofShortfall .goalMissed) ↔ maze.isGoal f.position = false) := by
  intro q
  obtain ⟨-, hm⟩ := rehearsed_of_compile h
  have hs : q.Shows maze _ := pb.shows_fresh maze start actions quiet ticks
  have hd := (Replay.Decided.fresh hg actions).run (.fresh maze start actions) hm
    ((pb.start maze start maze.freshTorches actions listener).dueTicks ticks)
  obtain ⟨hposition, htorches, -⟩ := hs.view
  constructor
  · rw [hs.ended_iff, hposition, htorches]
    exact hd
  · intro t hgo hp ht f
    have hf : f.Shows maze _ := Replay.close_of_due hs hgo hp ht
    obtain ⟨hposition', htorches', -⟩ := hf.view
    have ends (o : Outcome) := (hf.ended_iff o).trans Option.some_inj
    rw [hposition', htorches', ends]
    refine ⟨fun count => ?_, Replay.verdict_eq_goalMissed_iff maze _⟩
    rw [ends]
    exact Replay.verdict_eq_torchesUnlit_iff maze _ count

def Action.hasty : List Action := [.move .right, .move .right]

theorem Spell.play_succeeds_iff_corridor :
    (compile "moveRight(); moveRight();" .corridor ⟨0, 0⟩ ⟨⟨3, 30, 1, 0⟩, none⟩ =
        .ok Action.hasty ∧
      compile "moveRight(); lightTorch(); moveRight();" .corridor ⟨0, 0⟩ ⟨⟨3, 30, 1, 0⟩, none⟩ =
        .ok Maze.lamplighting ∧
      Maze.corridor.isGoal ⟨0, 0⟩ = false) ∧
    (Playback.inCorridor Maze.lamplighting [4, 3, 2]).phase = .ended .success ∧
    (Playback.inCorridor Action.hasty [4, 3]).phase ≠ .ended .success ∧
    ((Playback.inCorridor Action.hasty [4, 3]).tick 2).1.phase =
      .ended (.ofShortfall (.torchesUnlit 1)) := by
  have hc : compile "moveRight(); moveRight();" .corridor ⟨0, 0⟩ ⟨⟨3, 30, 1, 0⟩, none⟩ =
      .ok Action.hasty := by decide +kernel
  have hl : compile "moveRight(); lightTorch(); moveRight();" .corridor ⟨0, 0⟩
      ⟨⟨3, 30, 1, 0⟩, none⟩ = .ok Maze.lamplighting := by decide +kernel
  have lit := (play_succeeds_iff hl (by decide) ⟨3, .idle, ⟨0, 0⟩, [], [], []⟩
    (fun _ => rfl) [4, 3, 2]).1.2 ⟨by decide, by decide⟩
  obtain ⟨success, ends⟩ := play_succeeds_iff hc (by decide) ⟨3, .idle, ⟨0, 0⟩, [], [], []⟩
    (fun _ => rfl) [4, 3]
  obtain ⟨torches, -⟩ := ends 2 rfl rfl rfl
  refine ⟨⟨hc, hl, by decide⟩, lit, fun h => ?_, (torches 1).2 ⟨rfl, by decide, rfl⟩⟩
  exact absurd (success.1 h).2 (by decide)

end Spellcraft
