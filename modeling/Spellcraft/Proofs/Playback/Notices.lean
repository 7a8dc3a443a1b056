import Mathlib.Data.List.Induction
import Spellcraft.Proofs.Maze.Walk
import Spellcraft.Proofs.Playback.Session

namespace Spellcraft.Session

variable {s : Session} {k : Nat}

/-- Run `k` has been started, and has ended, was told to stop or was followed by another. -/
def Closed (s : Session) (k : Nat) : Prop :=
  k < s.playback.flags.length ∧
    ((∃ o, .ending o ∈ s.heard k) ∨ s.playback.flags[k]? = some true ∨
      k + 1 < s.playback.flags.length)

/-- The listener of run `k` hears nothing more, whatever is asked for. -/
def Hushed (s : Session) (k : Nat) : Prop := ∀ more, (s.run more).heard k = s.heard k

/-- Run `k` is the latest, and it has ended so. -/
def Ended (s : Session) (k : Nat) (o : Outcome) : Prop :=
  k + 1 = s.playback.flags.length ∧ s.playback.phase = .ended o

theorem flags_perform (s : Session) (q : Request) :
    s.playback.flags.length ≤ (s.perform q).playback.flags.length ∧
      ∀ k : Nat, s.playback.flags[k]? = some true →
        (s.perform q).playback.flags[k]? = some true := by
  cases q with
  | start m p t as l =>
    obtain ⟨flags, hlen, hset, heq⟩ := s.playback.start_eq m p t as l
    simp only [perform, heq]
    refine ⟨by simp [hlen], fun k hk => ?_⟩
    have hk' := hset k hk
    rwa [List.getElem?_append_left (List.getElem?_eq_some_iff.1 hk').1]
  | tick t =>
    simp only [perform, Session.tick]
    split
    · rename_i r hr
      exact Playback.flags_of_ticked (s.playback.ticked hr t)
    · rename_i hr
      rw [Playback.tick_of_not_running fun r hp => hr r hp]
      exact ⟨Nat.le_refl _, fun _ hk => hk⟩
  | stop => exact ⟨by simp [perform, Playback.stop, Playback.flagLatest], fun k hk =>
      Playback.flagged_set _ hk⟩
  | stopRun j => exact ⟨by simp [perform, Playback.stopRun], fun k hk => Playback.flagged_set _ hk⟩

theorem heard_suffix_perform (s : Session) (q : Request) (k : Nat) :
    s.heard k <:+ (s.perform q).heard k := by
  cases q with
  | tick t =>
    simp only [perform, Session.tick]
    split
    · rename_i r hr
      by_cases hk : k = r.number
      · subst hk
        rw [heard_hear_self]
        exact List.suffix_append _ _
      · exact heard_hear_of_ne _ _ _ hk ▸ List.suffix_rfl
    · exact List.suffix_rfl
  | _ => exact List.suffix_rfl

theorem heard_suffix_run (s : Session) (qs : List Request) (k : Nat) :
    s.heard k <:+ (s.run qs).heard k := by
  induction qs generalizing s with
  | nil => exact List.suffix_rfl
  | cons q qs ih => exact (s.heard_suffix_perform q k).trans (ih (s.perform q))

theorem Closed.heard_perform (hs : s.Sound) (h : s.Closed k) (q : Request) :
    (s.perform q).heard k = s.heard k := by
  cases q with
  | tick t =>
    simp only [perform, Session.tick]
    split
    · rename_i r hr
      obtain ⟨hn, -, hheard, hopen⟩ := hs.running r hr
      by_cases hk : k = r.number
      · subst hk
        rw [heard_hear_self]
        obtain ⟨-, ⟨o, ho⟩ | hf | hlt⟩ := h
        · rw [hheard] at ho
          exact absurd ho (hopen.ending_not_mem o)
        · rw [Playback.nothing_of_flagged (s.playback.ticked hr t) hf]
          rfl
        · omega
      · exact heard_hear_of_ne _ _ _ hk
    · rfl
  | _ => rfl

theorem Closed.perform (hs : s.Sound) (h : s.Closed k) (q : Request) : (s.perform q).Closed k := by
  obtain ⟨hlen, hset⟩ := s.flags_perform q
  have hheard := h.heard_perform hs q
  obtain ⟨hk, ho | hf | hlt⟩ := h
  · exact ⟨Nat.lt_of_lt_of_le hk hlen, .inl (hheard ▸ ho)⟩
  · exact ⟨Nat.lt_of_lt_of_le hk hlen, .inr (.inl (hset k hf))⟩
  · exact ⟨Nat.lt_of_lt_of_le hk hlen, .inr (.inr (Nat.lt_of_lt_of_le hlt hlen))⟩

theorem Closed.hushed (hs : s.Sound) (h : s.Closed k) : s.Hushed k := by
  intro more
  induction more generalizing s with
  | nil => rfl
  | cons q more ih =>
    calc
      ((s.perform q).run more).heard k = (s.perform q).heard k := ih (hs.perform q) (h.perform hs q)
      _ = s.heard k := h.heard_perform hs q

theorem ending_of_perform (hs : s.Sound) (q : Request) (h : .ending o ∈ (s.perform q).heard k) :
    .ending o ∈ s.heard k ∨ (s.perform q).Ended k o := by
  cases q with
  | tick t =>
    simp only [perform, Session.tick] at h ⊢
    split at h
    · rename_i r hr
      by_cases hk : k = r.number
      · subst hk
        rw [heard_hear_self, List.mem_append, List.mem_reverse] at h
        rcases h with h | h
        · right
          obtain ⟨hp, hlen⟩ := Playback.ended_of_ticked (s.playback.ticked hr t) h
          exact ⟨(hs.running r hr).1.trans hlen.symm, hp⟩
        · exact .inl h
      · rw [heard_hear_of_ne _ _ _ hk] at h
        exact .inl h
    · exact .inl h
  | _ => exact .inl h

theorem ended_of_ending {pause : Nat} {qs : List Request}
    (h : .ending o ∈ ((idle pause).run qs).heard k) :
    ∃ done rest, qs = done ++ rest ∧ ((idle pause).run done).Ended k o := by
  induction qs using List.reverseRecOn with
  | nil => simp [run, idle] at h
  | append_singleton qs q ih =>
    have hs : ((idle pause).run qs).Sound := (Sound.idle pause).run qs
    rw [run_concat] at h
    rcases ending_of_perform hs q h with h | h
    · obtain ⟨done, rest, rfl, hd⟩ := ih h
      exact ⟨done, rest ++ [q], List.append_assoc .., hd⟩
    · exact ⟨qs ++ [q], [], (List.append_nil _).symm, by rwa [run_concat]⟩

theorem Ended.ending_mem (hs : s.Sound) (h : s.Ended k o) : .ending o ∈ s.heard k := by
  obtain ⟨hk, ho⟩ := h
  obtain ⟨j, before, hj, hheard⟩ := hs.ended o ho
  obtain rfl : j = k := by omega
  rw [hheard]
  exact List.mem_cons_self

theorem Sound.shape (hs : s.Sound) (k : Nat) :
    ∃ es, (∀ e ∈ es, e.isEnding = false) ∧
      (s.heard k = es ∨ ∃ o, s.heard k = .ending o :: es) := by
  cases hl : s.listeners[k]? with
  | none =>
    have hk : s.playback.flags.length ≤ k := hs.listeners ▸ List.getElem?_eq_none_iff.1 hl
    exact ⟨[], by simp, .inl (hs.silent k hk)⟩
  | some l =>
    have hc := hs.course k l hl
    cases hh : s.heard k with
    | nil => exact ⟨[], by simp, .inl rfl⟩
    | cons e before =>
      rw [hh] at hc
      cases e with
      | ending o => exact ⟨before, hc.not_ending, .inr ⟨o, rfl⟩⟩
      | step | torches =>
        refine ⟨_, ?_, .inl rfl⟩
        simpa [Event.isEnding] using hc.not_ending

theorem listeners_perform (q : Request) (h : s.listeners[k]? = some l) :
    (s.perform q).listeners[k]? = some l := by
  cases q with
  | start m p t as l' =>
    simp only [perform]
    rwa [List.getElem?_append_left (List.getElem?_eq_some_iff.1 h).1]
  | tick t =>
    simp only [perform, Session.tick]
    split <;> exact h
  | stop | stopRun => exact h

theorem listeners_run (qs : List Request) (h : s.listeners[k]? = some l) :
    (s.run qs).listeners[k]? = some l := by
  induction qs generalizing s with
  | nil => exact h
  | cons q qs ih => exact ih (listeners_perform q h)

theorem Sound.hushed_of_listener (hs : s.Sound) (hl : s.listeners[k]? = some l)
    (hne : s.heard k ≠ []) (hstop : l (s.heard k) = true) : s.Hushed k := by
  intro more
  obtain ⟨new, hnew⟩ := s.heard_suffix_run more k
  cases new with
  | nil => exact hnew.symm
  | cons e new =>
    have hc := (hs.run more).course k l (listeners_run more hl)
    rw [← hnew] at hc
    have hopen : Open l (s.heard k) := hc.of_append
    cases hh : s.heard k with
    | nil => exact absurd hh hne
    | cons e' before =>
      rw [hh] at hopen hstop
      exact absurd (hstop.symm.trans hopen.2.1) (by decide)

theorem phase_perform (hq : q.isStart = false) (ht : s.playback.phase.isTerminal = true) :
    (s.perform q).playback.phase = s.playback.phase := by
  have hn : ∀ r, s.playback.phase ≠ .running r := by
    intro r hr
    simp [hr, Phase.isTerminal] at ht
  cases q with
  | start => cases hq
  | tick t => simp only [perform, Session.tick, Playback.tick_of_not_running hn]
  | stop => simp only [perform, Playback.stop]
  | stopRun j => rfl

theorem Closed.stop (h : k + 1 = s.playback.flags.length) : (s.perform .stop).Closed k := by
  have hk : k = s.playback.flags.length - 1 := by omega
  refine ⟨by simp [Session.perform, Playback.stop, Playback.flagLatest]; omega, .inr (.inl ?_)⟩
  simp only [Session.perform, Playback.stop, Playback.flagLatest, ← hk]
  exact List.getElem?_set_self (by omega)

theorem Closed.stopRun (h : k < s.playback.flags.length) : (s.perform (.stopRun k)).Closed k :=
  ⟨by simpa [Session.perform, Playback.stopRun] using h, .inr (.inl (List.getElem?_set_self h))⟩

theorem Closed.start (h : k < s.playback.flags.length) (m : Maze) (p : Position) (t : TorchBoard)
    (as : List Action) (l : Listener) : (s.perform (.start m p t as l)).Closed k := by
  obtain ⟨flags, hlen, -, heq⟩ := s.playback.start_eq m p t as l
  have hlen' : (s.perform (.start m p t as l)).playback.flags.length =
      s.playback.flags.length + 1 := by simp [Session.perform, heq, hlen]
  exact ⟨by omega, .inr (.inr (by omega))⟩

/-- Whatever is asked of a playback: each listener hears steps and torches and then at most one
end, which it hears exactly if its run came to an end; after this end, after a stop of its run by
anyone, itself included, and after the next start it hears nothing. The outcome is what the end
said, and only a start leads out of a terminal phase. -/
theorem notifications (pause : Nat) (requests : List Request) :
    let s := (idle pause).run requests
    (∀ k, ∃ es, (∀ e ∈ es, e.isEnding = false) ∧
        (s.heard k = es ∨ ∃ o, s.heard k = .ending o :: es)) ∧
      (∀ k o, .ending o ∈ s.heard k ↔
        ∃ done rest, requests = done ++ rest ∧ ((idle pause).run done).Ended k o) ∧
      (∀ k o, .ending o ∈ s.heard k → s.Hushed k) ∧
      (∀ k, k + 1 = s.playback.flags.length → (s.perform .stop).Hushed k) ∧
      (∀ k < s.playback.flags.length, (s.perform (.stopRun k)).Hushed k ∧
        ∀ m p t as l, (s.perform (.start m p t as l)).Hushed k) ∧
      (∀ k l, s.listeners[k]? = some l → s.heard k ≠ [] → l (s.heard k) = true → s.Hushed k) ∧
      (s.playback.phase.outcome?.isSome = true ↔
        s.playback.phase.text = "succeeded" ∨ s.playback.phase.text = "failed") ∧
      (∀ o, s.playback.phase.outcome? = some o →
        ∃ k before, k + 1 = s.playback.flags.length ∧ s.heard k = .ending o :: before) ∧
      ∀ q, s.playback.phase.isTerminal = true → q.isStart = false →
        (s.perform q).playback.phase = s.playback.phase := by
  intro s
  have hs : s.Sound := (Sound.idle pause).run requests
  refine ⟨hs.shape, ?_, ?_, ?_, ?_, ?_, ?_, ?_, ?_⟩
  · intro k o
    refine ⟨ended_of_ending, ?_⟩
    rintro ⟨done, rest, rfl, hd⟩
    have hgrow := heard_suffix_run ((idle pause).run done) rest k
    rw [← run_append] at hgrow
    exact hgrow.subset (hd.ending_mem ((Sound.idle pause).run done))
  · intro k o ho
    have hk : k < s.playback.flags.length := by
      by_contra hk
      simp [hs.silent k (Nat.le_of_not_lt hk)] at ho
    exact Closed.hushed hs ⟨hk, .inl ⟨o, ho⟩⟩
  · intro k hk
    exact (Closed.stop hk).hushed hs.stop
  · intro k hk
    exact ⟨(Closed.stopRun hk).hushed (hs.stopRun k), fun m p t as l =>
      (Closed.start hk m p t as l).hushed (hs.start m p t as l)⟩
  · intro k l hl hne hstop
    exact hs.hushed_of_listener hl hne hstop
  · cases s.playback.phase with
    | ended o => cases ho : o.isSuccess <;> simp [Phase.outcome?, Phase.text, ho]
    | _ => simp [Phase.outcome?, Phase.text]
  · intro o ho
    exact hs.ended o (s.playback.phase.ended_of_outcome ho)
  · intro q ht hq
    exact phase_perform hq ht

def interrupted : List Request :=
  [.start .corridor ⟨0, 0⟩ [] [.move .right, .move .right] fun _ => false, .tick 0,
   .start .corridor ⟨0, 0⟩ [] [.move .right, .move .right] fun heard => heard.length = 2,
   .tick 0, .tick 0]

theorem notifications_interrupted :
    let s := (idle 0).run interrupted
    (s.heard 0 = [.step ⟨1, 0⟩] ∧ s.heard 1 = [.step ⟨2, 0⟩, .step ⟨1, 0⟩]) ∧
      (s.perform (.stopRun 0)).Hushed 0 ∧ s.Hushed 1 ∧
      (s.perform .stop).playback.phase = .stopped := by
  intro s
  obtain ⟨-, -, -, -, handle, own, -, -, terminal⟩ := notifications 0 interrupted
  have hushed : s.Hushed 1 := own 1 _ rfl (List.cons_ne_nil _ _) rfl
  exact ⟨⟨rfl, rfl⟩, (handle 0 (by decide)).1, hushed, terminal .stop rfl rfl⟩

end Spellcraft.Session
