import Spellcraft.Proofs.Maze.Walk
import Spellcraft.Proofs.Playback.Replay

namespace Spellcraft

structure View where
  state : String
  position : Position
  torches : TorchBoard
  remaining : Nat
  outcome : Option Outcome
  deriving DecidableEq

def Playback.view (pb : Playback) : View :=
  ⟨pb.phase.text, pb.position, pb.torches, pb.pending.length, pb.phase.outcome?⟩

namespace Replay

def state (r : Replay) : String :=
  match r.outcome with
  | none => "running"
  | some o => if o.isSuccess then "succeeded" else "failed"

def view (r : Replay) : View := ⟨r.state, r.position, r.torches, r.pending.length, r.outcome⟩

variable {m : Maze} {r : Replay}

theorem outcome_of_next (h : (r.next m).1.outcome = none) : r.outcome = none := by
  cases ho : r.outcome with
  | none => rfl
  | some o => simp [next, ho] at h

theorem outcome_of_run {n : Nat} (h : (r.run m n).1.outcome = none) : r.outcome = none := by
  induction n generalizing r with
  | zero => exact h
  | succ n ih => exact outcome_of_next (ih h)

theorem length_of_next (h : (r.next m).1.outcome = none) :
    r.pending.length = (r.next m).1.pending.length + 1 := by
  have ho := outcome_of_next h
  cases hp : r.pending with
  | nil => simp [next, ho, hp, close] at h
  | cons a rest =>
    cases a with
    | lightTorch p => simp [next, ho, hp, lightTorch]
    | move d =>
      simp only [next, ho, hp, move] at h ⊢
      cases hs : m.step r.position d with
      | blocked p => simp [hs, close] at h
      | free p =>
        simp only [hs] at h ⊢
        split at h
        · simp [close] at h
        · rename_i hg
          simp [hg]

theorem length_of_run {n : Nat} (h : (r.run m n).1.outcome = none) :
    r.pending.length = (r.run m n).1.pending.length + n := by
  induction n generalizing r with
  | zero => rfl
  | succ n ih =>
    calc
      r.pending.length = (r.next m).1.pending.length + 1 := length_of_next (outcome_of_run h)
      _ = ((r.next m).1.run m n).1.pending.length + n + 1 := by rw [ih h]

end Replay

namespace Playback

theorem Shows.view_eq {m : Maze} {pb : Playback} {r : Replay} (h : Shows m pb r) :
    pb.view = r.view := by
  cases h with
  | going hp => simp [Playback.view, Replay.view, Replay.state, hp, Phase.text, Phase.outcome?]
  | ended hp => simp [Playback.view, Replay.view, Replay.state, hp, Phase.text, Phase.outcome?]

/-- A run that nobody stops is the replay of as many steps as there were ticks that reached the
interval, however long the ticks and the interval were; and one such tick more than there are
actions ends it. A torch that is next is lit by such a tick, and the run goes on where it is. -/
theorem play_eq_replay (pb : Playback) (m : Maze) (position : Position) (torches : TorchBoard)
    (actions : List Action) {listener : Listener} (quiet : ∀ heard, listener heard = false)
    (ticks : List Nat) :
    let begun := pb.start m position torches actions listener
    let n := begun.dueTicks ticks
    let replayed := (⟨position, torches, actions, none⟩ : Replay).run m n
    let now := (begun.play ticks).1
    (now.view = replayed.1.view ∧ (begun.play ticks).2 = replayed.2) ∧
      (∀ (other : Playback) {listener' : Listener} (ticks' : List Nat),
        (∀ heard, listener' heard = false) →
        let begun' := other.start m position torches actions listener'
        begun'.dueTicks ticks' = n →
          (begun'.play ticks').1.view = now.view ∧
            (begun'.play ticks').2 = (begun.play ticks).2) ∧
      (actions.length < n → now.phase.isTerminal = true) ∧
      ∀ t p rest, now.pending = .lightTorch p :: rest → now.isDue t = true →
        let later := (now.tick t).1
        TorchBoard.Lights p now.torches later.torches ∧ (now.tick t).2 = [.torches later.torches] ∧
          later.position = now.position ∧ later.pending = rest ∧
          later.phase.isTerminal = false := by
  intro begun n replayed now
  obtain ⟨hs, he⟩ := (pb.shows_start m position torches actions quiet).play ticks
  refine ⟨⟨hs.view_eq, he⟩, ?_, fun hn => ?_, fun t p rest hp due => ?_⟩
  · intro other listener' ticks' quiet' begun' hn
    obtain ⟨hs', he'⟩ := (other.shows_start m position torches actions quiet').play ticks'
    rw [hn] at hs' he'
    exact ⟨hs'.view_eq.trans hs.view_eq.symm, he'.trans he.symm⟩
  · rw [hs.isTerminal, Option.isSome_iff_ne_none]
    intro ho
    have hlen : actions.length = replayed.1.pending.length + n := Replay.length_of_run ho
    omega
  · intro later
    have hl : later.Shows m _ := (hs.lightTorch hp due).1
    obtain ⟨hposition, htorches, -⟩ := hs.view
    obtain ⟨hposition', htorches', hpending'⟩ := hl.view
    have lit : later.torches = .light p now.torches := by
      rw [htorches', htorches, TorchBoard.light_eq_modify]
      rfl
    refine ⟨TorchBoard.lights_iff.2 lit, ?_, hposition'.trans hposition.symm, hpending', ?_⟩
    · rw [(hs.lightTorch hp due).2, htorches']
      rfl
    · exact hl.isTerminal.trans (hs.isTerminal.symm.trans (isTerminal_of_isDue due))

def atPace (interval : Nat) (actions : List Action) : Playback :=
  (⟨interval, .idle, ⟨0, 0⟩, [], [], []⟩ : Playback).start .corridor ⟨0, 0⟩
    Maze.corridor.freshTorches actions fun _ => false

theorem play_eq_replay_corridor :
    ((atPace 3 Maze.lamplighting).dueTicks [4, 1, 2, 5] = 3 ∧
        (atPace 5 Maze.lamplighting).dueTicks [5, 5, 5] = 3 ∧
        (atPace 3 [.move .right]).dueTicks [4, 3] = 2) ∧
      ((atPace 3 Maze.lamplighting).play [4, 1, 2, 5]).2 =
        [.step ⟨1, 0⟩, .torches [⟨⟨1, 0⟩, true⟩], .step ⟨2, 0⟩, .ending .success] ∧
      ((atPace 5 Maze.lamplighting).play [5, 5, 5]).1.view =
        ((atPace 3 Maze.lamplighting).play [4, 1, 2, 5]).1.view ∧
      ((atPace 3 [.move .right]).play [4, 3]).1.phase.isTerminal = true ∧
      TorchBoard.Lights ⟨1, 0⟩ [⟨⟨1, 0⟩, false⟩]
        (((atPace 3 Maze.lamplighting).play [4, 1]).1.tick 2).1.torches := by
  have three : (atPace 3 Maze.lamplighting).dueTicks [4, 1, 2, 5] = 3 := by decide
  have five : (atPace 5 Maze.lamplighting).dueTicks [5, 5, 5] = 3 := by decide
  have two : (atPace 3 [.move .right]).dueTicks [4, 3] = 2 := by decide
  let playback (interval : Nat) : Playback := ⟨interval, .idle, ⟨0, 0⟩, [], [], []⟩
  have whole := play_eq_replay (playback 3) .corridor ⟨0, 0⟩ Maze.corridor.freshTorches
    Maze.lamplighting (fun _ => rfl)
  have short := play_eq_replay (playback 3) .corridor ⟨0, 0⟩ Maze.corridor.freshTorches
    [.move .right] (fun _ => rfl) [4, 3]
  obtain ⟨⟨-, events⟩, same, -⟩ := whole [4, 1, 2, 5]
  obtain ⟨-, -, ends, -⟩ := short
  obtain ⟨-, -, -, lights⟩ := whole [4, 1]
  refine ⟨⟨three, five, two⟩, events.trans rfl, ?_, ends ?_, (lights 2 ⟨1, 0⟩ _ rfl rfl).1⟩
  · exact (same (playback 5) [5, 5, 5] (fun _ => rfl) (five.trans three.symm)).1
  · exact Nat.lt_of_lt_of_eq (by decide) two.symm

end Playback

end Spellcraft
