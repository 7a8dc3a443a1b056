import Spellcraft.Proofs.Playback.Pace
import Spellcraft.Proofs.Playback.Session

namespace Spellcraft

namespace Playback

/-- Two playbacks that differ at most in the flags of runs that are over. -/
structure Alike (pb qb : Playback) : Prop where
  same : qb = { pb with flags := qb.flags }
  length : qb.flags.length = pb.flags.length
  flag : ∀ r, pb.phase = .running r → qb.flags[r.number]? = pb.flags[r.number]?

variable {pb qb : Playback}

theorem Alike.phase_eq (h : pb.Alike qb) : qb.phase = pb.phase := by rw [h.same]

theorem Alike.view_eq (h : pb.Alike qb) : qb.view = pb.view := by rw [h.same]; rfl

theorem Alike.of_halted {flags : List Bool} (h : ∀ r, pb.phase ≠ .running r)
    (hlen : flags.length = pb.flags.length) : pb.Alike { pb with flags := flags } :=
  ⟨rfl, hlen, fun r hr => absurd hr (h r)⟩

theorem getElem?_set_congr {flags flags' : List Bool} (hlen : flags'.length = flags.length)
    {i : Nat} (h : flags'[i]? = flags[i]?) (k : Nat) :
    (flags'.set k true)[i]? = (flags.set k true)[i]? := by
  simp only [List.getElem?_set, hlen, h]

theorem alike_commit (pb : Playback) {flags : List Bool} (hlen : flags.length = pb.flags.length)
    (r : Run) (flag : flags[r.number]? = pb.flags[r.number]?) :
    (pb.commit r).1.Alike ({ pb with flags := flags }.commit r).1 ∧
      ({ pb with flags := flags }.commit r).2 = (pb.commit r).2 := by
  cases pb.committed r with
  | ended _ _ _ hx | arrived _ _ _ _ _ _ hx =>
    rw [hx flags, hx pb.flags]
    exact ⟨.of_halted (by simp) hlen, rfl⟩
  | told _ _ _ _ _ hx =>
    rw [hx flags, hx pb.flags]
    refine ⟨⟨rfl, hlen, ?_⟩, rfl⟩
    rintro r' ⟨⟩
    exact flag
  | stopped _ _ _ _ _ hx =>
    rw [hx flags, hx pb.flags]
    exact ⟨.of_halted (by simp) (by simpa using hlen), rfl⟩

theorem Alike.tick (h : pb.Alike qb) (t : Nat) :
    (pb.tick t).1.Alike (qb.tick t).1 ∧ (qb.tick t).2 = (pb.tick t).2 := by
  obtain ⟨same, hlen, flag⟩ := h
  generalize qb.flags = flags at same hlen flag
  subst same
  simp only [Playback.tick]
  split
  · rename_i r hr
    have hflag := flag r hr
    simp only [List.getD_eq_getElem?_getD, hflag]
    split
    · exact ⟨.of_halted (by simp) hlen, rfl⟩
    · split
      · refine ⟨⟨rfl, hlen, ?_⟩, rfl⟩
        rintro r' ⟨⟩
        exact hflag
      · exact pb.alike_commit hlen _ hflag
  · exact ⟨⟨rfl, hlen, flag⟩, rfl⟩

theorem Alike.start (h : pb.Alike qb) (m : Maze) (p : Position) (t : TorchBoard) (as : List Action)
    (l : Listener) : (pb.start m p t as l).Alike (qb.start m p t as l) := by
  obtain ⟨same, hlen, -⟩ := h
  obtain ⟨flags, hlen₁, -, heq₁⟩ := pb.start_eq m p t as l
  obtain ⟨flags', hlen₂, -, heq₂⟩ := qb.start_eq m p t as l
  have hi : qb.interval = pb.interval := by rw [same]
  rw [heq₁, heq₂, hi, hlen]
  refine ⟨rfl, by simp [hlen, hlen₁, hlen₂], ?_⟩
  rintro r ⟨⟩
  simp [← hlen₁, hlen₁ ▸ hlen ▸ hlen₂]

theorem Alike.stopRun (h : pb.Alike qb) (k : Nat) : (pb.stopRun k).Alike (qb.stopRun k) := by
  obtain ⟨same, hlen, flag⟩ := h
  refine ⟨by rw [same]; rfl, by simp [Playback.stopRun, hlen], fun r hr => ?_⟩
  exact getElem?_set_congr hlen (flag r hr) k

theorem Alike.stop (h : pb.Alike qb) : pb.stop.Alike qb.stop := by
  obtain ⟨same, hlen, -⟩ := h
  refine ⟨by rw [same]; rfl, by simp [Playback.stop, flagLatest, hlen], fun r hr => ?_⟩
  simp only [Playback.stop] at hr
  split at hr
  · cases hr
  · rename_i hn
    exact absurd hr (hn r)

end Playback

namespace Session

structure Alike (s s' : Session) : Prop where
  playback : s.playback.Alike s'.playback
  listeners : s'.listeners = s.listeners
  heard : s'.heard = s.heard

/-- A stop that comes too late: its run has ended, or was followed by another, or there is none. -/
def Late (s : Session) : Request → Prop
  | .stopRun k => k + 1 < s.playback.flags.length ∨ ∀ r, s.playback.phase ≠ .running r
  | .stop => ∀ r, s.playback.phase ≠ .running r
  | .start .. | .tick _ => False

variable {s s' : Session}

theorem Alike.tick (h : s.Alike s') (t : Nat) : (s.tick t).Alike (s'.tick t) := by
  obtain ⟨hpb, hlisteners, hheard⟩ := h
  obtain ⟨halike, hevents⟩ := hpb.tick t
  simp only [Session.tick, hpb.phase_eq]
  split
  · exact ⟨halike, hlisteners, by simp only [hear, hheard, hevents]⟩
  · exact ⟨halike, hlisteners, hheard⟩

theorem Alike.perform (h : s.Alike s') : (q : Request) → (s.perform q).Alike (s'.perform q)
  | .start m p t as l =>
    ⟨h.playback.start m p t as l, by simp [Session.perform, h.listeners], h.heard⟩
  | .tick t => h.tick t
  | .stop => ⟨h.playback.stop, h.listeners, h.heard⟩
  | .stopRun k => ⟨h.playback.stopRun k, h.listeners, h.heard⟩

theorem Alike.run (h : s.Alike s') (qs : List Request) : (s.run qs).Alike (s'.run qs) := by
  induction qs generalizing s s' with
  | nil => exact h
  | cons q qs ih => exact ih (h.perform q)

theorem Late.alike (hs : s.Sound) {q : Request} (h : s.Late q) : s.Alike (s.perform q) := by
  cases q with
  | start => exact h.elim
  | tick => exact h.elim
  | stop =>
    refine ⟨?_, rfl, rfl⟩
    have hp : s.playback.stop = { s.playback with flags := s.playback.flagLatest } := by
      simp only [Playback.stop]
      split
      · rename_i r hr
        exact absurd hr (h r)
      · rfl
    rw [perform, hp]
    exact .of_halted h (by simp [Playback.flagLatest])
  | stopRun k =>
    refine ⟨⟨rfl, by simp [perform, Playback.stopRun], fun r hr => ?_⟩, rfl, rfl⟩
    -- The run that is going on is the latest, so it is not run k.
    have hne : k ≠ r.number := by
      rintro rfl
      rcases h with hlt | hn
      · have := (hs.running r hr).1
        omega
      · exact hn r hr
    exact List.getElem?_set_ne hne

/-- A stop that comes too late makes no difference to anything that follows, and a run that is
started begins as it was asked for, with nothing gathered or heard and nothing to stop it. -/
theorem isolated (pause : Nat) (done : List Request) :
    let s := (idle pause).run done
    (∀ q, s.Late q → ∀ rest,
      ((idle pause).run (done ++ q :: rest)).playback.view =
          ((idle pause).run (done ++ rest)).playback.view ∧
        ((idle pause).run (done ++ q :: rest)).heard = ((idle pause).run (done ++ rest)).heard) ∧
      ∀ m position torches actions listener,
        let k := s.playback.flags.length
        let begun := (idle pause).run (done ++ [.start m position torches actions listener])
        begun.playback.phase = .running ⟨k, m, listener, [], 0⟩ ∧
          begun.playback.position = position ∧ begun.playback.torches = torches ∧
          begun.playback.pending = actions ∧ begun.playback.phase.outcome? = none ∧
          begun.playback.flags[k]? = some false ∧ begun.heard k = [] := by
  intro s
  have hs : s.Sound := (Sound.idle pause).run done
  refine ⟨fun q hq rest => ?_, fun m position torches actions listener => ?_⟩
  · rw [run_append, run_append]
    have h : (s.run rest).Alike (s.run (q :: rest)) := (hq.alike hs).run rest
    exact ⟨h.playback.view_eq, h.heard⟩
  · intro k begun
    obtain ⟨flags, hlen, -, heq⟩ := s.playback.start_eq m position torches actions listener
    have hb : begun = s.perform (.start m position torches actions listener) := run_concat ..
    have hk : flags.length = k := hlen
    rw [hb, perform, heq]
    exact ⟨rfl, rfl, rfl, rfl, rfl, by simp [← hk], hs.silent k (Nat.le_refl k)⟩

def strollRequest : Request :=
  .start .corridor ⟨0, 0⟩ Maze.corridor.freshTorches [.move .right, .move .right] fun _ => false

theorem isolated_corridor :
    let done := [strollRequest, .tick 900, strollRequest]
    ((idle 1).run done).Late (.stopRun 0) ∧
      ((idle 1).run (done ++ [.stopRun 0, .tick 999])).playback.view =
        ⟨"running", ⟨0, 0⟩, Maze.corridor.freshTorches, 2, none⟩ ∧
      ((idle 1).run (done ++ [.stopRun 0, .tick 999, .tick 1])).heard 1 = [.step ⟨1, 0⟩] := by
  intro done
  have late : ((idle 1).run done).Late (.stopRun 0) := .inl (by decide)
  obtain ⟨unchanged, -⟩ := isolated 1 done
  refine ⟨late, ?_, ?_⟩
  · exact (unchanged (.stopRun 0) late [.tick 999]).1.trans (by decide)
  · rw [(unchanged (.stopRun 0) late [.tick 999, .tick 1]).2]
    decide

end Session

end Spellcraft
