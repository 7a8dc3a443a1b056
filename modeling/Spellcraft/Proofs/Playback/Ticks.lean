import Spellcraft.Playback.Playback

namespace Spellcraft

def Event.isEnding : Event → Bool
  | .ending _ => true
  | .step _ | .torches _ => false

theorem Phase.ended_of_outcome {p : Phase} (h : p.outcome? = some o) : p = .ended o := by
  cases p with
  | ended => cases h; rfl
  | _ => cases h

namespace Playback

theorem flagged_set {flags : List Bool} {k : Nat} (i : Nat) (h : flags[k]? = some true) :
    (flags.set i true)[k]? = some true := by
  rw [List.getElem?_set]
  split
  · rename_i hi
    subst hi
    simp [(List.getElem?_eq_some_iff.1 h).1]
  · exact h

inductive Committed (pb : Playback) (r : Run) (x : List Bool → Playback × List Event) : Prop
  | ended (q : Playback) (o : Outcome) : q.interval = pb.interval →
    (∀ flags, x flags = ({ q with flags := flags, phase := .ended o }, [.ending o])) →
    Committed pb r x
  | arrived (q : Playback) (e : Event) (o : Outcome) : q.interval = pb.interval →
    e.isEnding = false → r.listener (e :: r.heard) = false →
    (∀ flags, x flags = ({ q with flags := flags, phase := .ended o }, [e, .ending o])) →
    Committed pb r x
  | told (q : Playback) (e : Event) : q.interval = pb.interval →
    e.isEnding = false → r.listener (e :: r.heard) = false →
    (∀ flags, x flags =
      ({ q with flags := flags, phase := .running { r with heard := e :: r.heard } }, [e])) →
    Committed pb r x
  | stopped (q : Playback) (e : Event) : q.interval = pb.interval →
    e.isEnding = false → r.listener (e :: r.heard) = true →
    (∀ flags, x flags = ({ q with flags := flags.set r.number true, phase := .stopped }, [e])) →
    Committed pb r x

theorem committed (pb : Playback) (r : Run) :
    pb.Committed r fun flags => { pb with flags := flags }.commit r := by
  obtain ⟨interval, phase, position, torches, pending, before⟩ := pb
  cases pending with
  | nil =>
    let q : Playback := ⟨interval, phase, position, torches, [], before⟩
    exact .ended q (q.exhausted r.maze) rfl fun _ => rfl
  | cons a rest =>
    cases a with
    | move d =>
      simp only [commit, tell]
      cases r.maze.step position d with
      | blocked p =>
        exact .ended ⟨interval, phase, position, torches, rest, before⟩ _ rfl fun _ => rfl
      | free p =>
        let q : Playback := ⟨interval, phase, p, torches, rest, before⟩
        simp only
        cases hl : r.listener (.step p :: r.heard) with
        | true => exact .stopped q _ rfl rfl hl fun _ => rfl
        | false =>
          cases hg : r.maze.isGoal p && TorchBoard.allLit torches with
          | true =>
            simp only [Bool.false_eq_true, ↓reduceIte, hg]
            exact .arrived q _ _ rfl rfl hl fun _ => rfl
          | false =>
            simp only [Bool.false_eq_true, ↓reduceIte, hg]
            exact .told q _ rfl rfl hl fun _ => rfl
    | lightTorch p =>
      let q : Playback := ⟨interval, phase, position, .light p torches, rest, before⟩
      simp only [commit, tell]
      cases hl : r.listener (.torches (TorchBoard.light p torches) :: r.heard) with
      | true => exact .stopped q _ rfl rfl hl fun _ => rfl
      | false => exact .told q _ rfl rfl hl fun _ => rfl

/-- What a tick may come to for a run that is going on. -/
inductive Ticked (pb : Playback) (r : Run) : Playback × List Event → Prop
  | halted {q} : pb.flags.getD r.number false = true → q.phase = .stopped → q.flags = pb.flags →
    Ticked pb r (q, [])
  | waited {q g} : pb.flags.getD r.number false = false →
    q.phase = .running { r with gathered := g } → q.flags = pb.flags → Ticked pb r (q, [])
  | told {q g e} : pb.flags.getD r.number false = false → e.isEnding = false →
    r.listener (e :: r.heard) = false →
    q.phase = .running { r with gathered := g, heard := e :: r.heard } → q.flags = pb.flags →
    Ticked pb r (q, [e])
  | stopped {q e} : pb.flags.getD r.number false = false → e.isEnding = false →
    r.listener (e :: r.heard) = true → q.phase = .stopped →
    q.flags = pb.flags.set r.number true → Ticked pb r (q, [e])
  | ended {q o} : pb.flags.getD r.number false = false → q.phase = .ended o → q.flags = pb.flags →
    Ticked pb r (q, [.ending o])
  | arrived {q e o} : pb.flags.getD r.number false = false → e.isEnding = false →
    r.listener (e :: r.heard) = false → q.phase = .ended o → q.flags = pb.flags →
    Ticked pb r (q, [e, .ending o])

variable {pb : Playback} {r : Run}

theorem ticked_commit (unset : pb.flags.getD r.number false = false) (g : Nat) :
    pb.Ticked r (pb.commit { r with gathered := g }) := by
  cases pb.committed { r with gathered := g } with
  | ended q o _ h => exact h pb.flags ▸ .ended unset rfl rfl
  | arrived q e o _ he hl h => exact h pb.flags ▸ .arrived unset he hl rfl rfl
  | told q e _ he hl h => exact h pb.flags ▸ .told unset he hl rfl rfl
  | stopped q e _ he hl h => exact h pb.flags ▸ .stopped unset he hl rfl rfl

theorem ticked (h : pb.phase = .running r) (t : Nat) : pb.Ticked r (pb.tick t) := by
  simp only [tick, h]
  cases unset : pb.flags.getD r.number false with
  | true => exact .halted unset rfl rfl
  | false =>
    simp only [Bool.false_eq_true, ↓reduceIte]
    split
    · exact .waited unset rfl rfl
    · exact ticked_commit unset _

theorem start_eq (pb : Playback) (m : Maze) (p : Position) (t : TorchBoard) (as : List Action)
    (l : Listener) :
    ∃ flags : List Bool, flags.length = pb.flags.length ∧
      (∀ k : Nat, pb.flags[k]? = some true → flags[k]? = some true) ∧
      pb.start m p t as l =
        ⟨pb.interval, .running ⟨pb.flags.length, m, l, [], 0⟩, p, t, as, flags ++ [false]⟩ := by
  cases hp : pb.phase with
  | running r =>
    refine ⟨pb.flagLatest, by simp [flagLatest], fun k hk => flagged_set _ hk, ?_⟩
    simp [start, hp, flagLatest]
  | _ =>
    refine ⟨pb.flags, rfl, fun _ hk => hk, ?_⟩
    simp [start, hp]

theorem flags_of_ticked {x : Playback × List Event} (h : pb.Ticked r x) :
    pb.flags.length ≤ x.1.flags.length ∧
      ∀ k : Nat, pb.flags[k]? = some true → x.1.flags[k]? = some true := by
  cases h with
  | stopped _ _ _ _ hf => exact ⟨by simp [hf], fun k hk => by rw [hf]; exact flagged_set _ hk⟩
  | halted _ _ hf | waited _ _ hf | told _ _ _ _ hf | ended _ _ hf | arrived _ _ _ _ hf =>
    rw [hf]
    exact ⟨Nat.le_refl _, fun _ hk => hk⟩

theorem nothing_of_flagged {x : Playback × List Event} (h : pb.Ticked r x)
    (hf : pb.flags[r.number]? = some true) : x.2 = [] := by
  have hget : pb.flags.getD r.number false = true := by simp [List.getD_eq_getElem?_getD, hf]
  cases h with
  | halted => rfl
  | waited unset | told unset | stopped unset | ended unset | arrived unset =>
    exact absurd (hget.symm.trans unset) (by decide)

theorem ended_of_ticked {x : Playback × List Event} (h : pb.Ticked r x) (ho : .ending o ∈ x.2) :
    x.1.phase = .ended o ∧ x.1.flags.length = pb.flags.length := by
  cases h with
  | halted | waited => cases ho
  | told _ he | stopped _ he =>
    cases List.mem_singleton.1 ho
    cases he
  | ended _ hp hf =>
    cases List.mem_singleton.1 ho
    exact ⟨hp, by rw [hf]⟩
  | arrived _ he _ hp hf =>
    rcases List.mem_cons.1 ho with rfl | ho
    · cases he
    · cases List.mem_singleton.1 ho
      exact ⟨hp, by rw [hf]⟩

theorem tick_of_not_running (h : ∀ r, pb.phase ≠ .running r) (t : Nat) : pb.tick t = (pb, []) := by
  rw [tick]
  cases hp : pb.phase with
  | running r => exact absurd hp (h r)
  | _ => rfl

end Playback

end Spellcraft
