import Spellcraft.Playback.Playback

/-!
Replay: what a run does apart from its pace. A run that nobody stops shows, after any ticks, a
replay of as many steps as there were ticks that reached the interval. Ticks are any numbers here; a
clock only tells those that a duration holds together with an interval (`gather?_of_play`).
-/

namespace Spellcraft

structure Replay where
  position : Position
  torches : TorchBoard
  pending : List Action
  outcome : Option Outcome

namespace Replay

def fresh (m : Maze) (start : Position) (actions : List Action) : Replay :=
  ⟨start, m.freshTorches, actions, none⟩

def close (r : Replay) (o : Outcome) : Replay × List Event :=
  ({ r with outcome := some o }, [.ending o])

/-- How a replay ends that has no actions left. -/
def verdict (m : Maze) (r : Replay) : Outcome :=
  if m.isGoal r.position then
    if ∀ t ∈ r.torches, t.lit = true then .success
    else .ofShortfall (.torchesUnlit (r.torches.filter (!·.lit)).length)
  else .ofShortfall .goalMissed

def move (m : Maze) (r : Replay) (d : Direction) (rest : List Action) : Replay × List Event :=
  match m.step r.position d with
  | .blocked p => { r with pending := rest }.close (.ofShortfall (.wall p))
  | .free p =>
    let s : Replay := { r with position := p, pending := rest }
    if m.isGoal p ∧ ∀ t ∈ r.torches, t.lit = true then
      ((s.close .success).1, .step p :: (s.close .success).2)
    else (s, [.step p])

/-- The entry at the index of the first torch at `p` is lit; there is none past the end. -/
def lightTorch (r : Replay) (p : Position) (rest : List Action) : Replay × List Event :=
  let board : TorchBoard :=
    r.torches.modify (r.torches.findIdx fun t => t.position = p) fun t => { t with lit := true }
  ({ r with torches := board, pending := rest }, [.torches board])

def next (m : Maze) (r : Replay) : Replay × List Event :=
  match r.outcome, r.pending with
  | some _, _ => (r, [])
  | none, [] => r.close (r.verdict m)
  | none, .move d :: rest => r.move m d rest
  | none, .lightTorch p :: rest => r.lightTorch p rest

def run (m : Maze) (r : Replay) : Nat → Replay × List Event
  | 0 => (r, [])
  | n + 1 => (((r.next m).1.run m n).1, (r.next m).2 ++ ((r.next m).1.run m n).2)

theorem run_add (r : Replay) (m : Maze) (i j : Nat) :
    r.run m (i + j) =
      (((r.run m i).1.run m j).1, (r.run m i).2 ++ ((r.run m i).1.run m j).2) := by
  induction i generalizing r with
  | zero => simp [Replay.run]
  | succ i ih => simp [Replay.run, Nat.succ_add, ih, List.append_assoc]

end Replay

namespace Playback

def play (pb : Playback) : List Nat → Playback × List Event
  | [] => (pb, [])
  | t :: ts => (((pb.tick t).1.play ts).1, (pb.tick t).2 ++ ((pb.tick t).1.play ts).2)

def isDue (pb : Playback) (elapsed : Nat) : Bool :=
  match pb.phase with
  | .running r => pb.interval ≤ r.gathered + elapsed
  | _ => false

theorem isTerminal_of_isDue {pb : Playback} (h : pb.isDue t = true) :
    pb.phase.isTerminal = false := by
  cases hp : pb.phase with
  | idle | running => rfl
  | ended | stopped => simp [isDue, hp] at h

def dueTicks (pb : Playback) : List Nat → Nat
  | [] => 0
  | t :: ts => (pb.tick t).1.dueTicks ts + (pb.isDue t).toNat

inductive Shows (m : Maze) (pb : Playback) : Replay → Prop
  | going {r : Run} : pb.phase = .running r → r.maze = m → (∀ heard, r.listener heard = false) →
    pb.flags.getD r.number false = false →
    Shows m pb ⟨pb.position, pb.torches, pb.pending, none⟩
  | ended {o} : pb.phase = .ended o → Shows m pb ⟨pb.position, pb.torches, pb.pending, some o⟩

variable {m : Maze} {pb : Playback} {r : Replay}

theorem shows_start (pb : Playback) (m : Maze) (position : Position) (torches : TorchBoard)
    (actions : List Action) {listener : Listener} (h : ∀ heard, listener heard = false) :
    Shows m (pb.start m position torches actions listener) ⟨position, torches, actions, none⟩ := by
  refine .going (r := ⟨_, m, listener, [], 0⟩) rfl rfl h ?_
  simp [start]

theorem tell_eq (pb : Playback) {r : Run} (quiet : ∀ heard, r.listener heard = false) (e : Event) :
    pb.tell r e =
      ({ pb with phase := .running { r with heard := e :: r.heard } },
        some { r with heard := e :: r.heard }) := by
  simp [tell, quiet]

theorem exhausted_eq (pb : Playback) (m : Maze) :
    pb.exhausted m = Replay.verdict m ⟨pb.position, pb.torches, pb.pending, none⟩ := by
  simp only [exhausted, Replay.verdict, TorchBoard.allLit_iff, TorchBoard.unlitCount_eq_length]
  cases m.isGoal pb.position <;> rfl

theorem shows_commit {r : Run} (hm : r.maze = m) (quiet : ∀ heard, r.listener heard = false)
    (unset : pb.flags.getD r.number false = false) :
    Shows m (pb.commit r).1 (Replay.next m ⟨pb.position, pb.torches, pb.pending, none⟩).1 ∧
      (pb.commit r).2 = (Replay.next m ⟨pb.position, pb.torches, pb.pending, none⟩).2 := by
  subst hm
  obtain ⟨interval, phase, position, torches, pending, flags⟩ := pb
  cases pending with
  | nil =>
    simp only [commit, Replay.next, exhausted_eq]
    exact ⟨.ended rfl, rfl⟩
  | cons a rest =>
    cases a with
    | move d =>
      simp only [commit, Replay.next, Replay.move, tell_eq _ quiet, Bool.and_eq_true,
        TorchBoard.allLit_iff]
      cases r.maze.step position d with
      | blocked p => exact ⟨.ended rfl, rfl⟩
      | free p =>
        simp only
        split
        · exact ⟨.ended rfl, rfl⟩
        · exact ⟨.going rfl rfl quiet unset, rfl⟩
    | lightTorch p =>
      simp only [commit, Replay.next, Replay.lightTorch, tell_eq _ quiet,
        TorchBoard.light_eq_modify]
      exact ⟨.going rfl rfl quiet unset, trivial⟩

theorem Shows.view (h : Shows m pb r) :
    pb.position = r.position ∧ pb.torches = r.torches ∧ pb.pending = r.pending := by
  cases h <;> exact ⟨rfl, rfl, rfl⟩

theorem Shows.ended_iff (h : Shows m pb r) (o : Outcome) :
    pb.phase = .ended o ↔ r.outcome = some o := by
  cases h with
  | going hp => simp [hp]
  | ended hp => simp [hp]

theorem Shows.isTerminal (h : Shows m pb r) : pb.phase.isTerminal = r.outcome.isSome := by
  cases h with
  | going hp => simp [hp, Phase.isTerminal]
  | ended hp => simp [hp, Phase.isTerminal]

theorem Shows.tick (h : Shows m pb r) (t : Nat) :
    Shows m (pb.tick t).1 (r.run m (pb.isDue t).toNat).1 ∧
      (pb.tick t).2 = (r.run m (pb.isDue t).toNat).2 := by
  cases h with
  | ended hp =>
    simp only [Playback.tick, isDue, hp]
    exact ⟨.ended hp, rfl⟩
  | @going r hp hm quiet unset =>
    simp only [Playback.tick, isDue, hp, unset, Bool.false_eq_true, ↓reduceIte]
    by_cases ht : r.gathered + t < pb.interval
    · rw [if_pos ht, decide_eq_false (Nat.not_le_of_lt ht)]
      exact ⟨.going rfl hm quiet unset, rfl⟩
    · rw [if_neg ht, decide_eq_true (Nat.le_of_not_lt ht)]
      let later : Run := { r with gathered := min (r.gathered + t - pb.interval) pb.interval }
      simpa [Replay.run] using shows_commit (r := later) hm quiet unset

theorem Shows.lightTorch (h : Shows m pb r) (hp : pb.pending = .lightTorch p :: rest)
    (due : pb.isDue t = true) :
    Shows m (pb.tick t).1 (r.lightTorch p rest).1 ∧ (pb.tick t).2 = (r.lightTorch p rest).2 := by
  have next : r.next m = r.lightTorch p rest := by
    cases h with
    | going => simp [Replay.next, hp]
    | ended he => simp [isDue, he] at due
  simpa [due, Replay.run, next] using h.tick t

theorem Shows.play (h : Shows m pb r) (ts : List Nat) :
    Shows m (pb.play ts).1 (r.run m (pb.dueTicks ts)).1 ∧
      (pb.play ts).2 = (r.run m (pb.dueTicks ts)).2 := by
  induction ts generalizing pb r with
  | nil => exact ⟨h, rfl⟩
  | cons t ts ih =>
    obtain ⟨h₁, e₁⟩ := h.tick t
    obtain ⟨h₂, e₂⟩ := ih h₁
    simp only [Playback.play, dueTicks, Nat.add_comm, Replay.run_add]
    exact ⟨h₂, by rw [e₁, e₂]⟩

end Playback

end Spellcraft
