import Spellcraft.Proofs.Playback.Ticks

namespace Spellcraft

inductive Request
  | start (maze : Maze) (position : Position) (torches : TorchBoard) (actions : List Action)
      (listener : Listener) : Request
  | tick (elapsed : Nat) : Request
  | stop : Request
  | stopRun (k : Nat) : Request

def Request.isStart : Request → Bool
  | .start .. => true
  | .tick _ | .stop | .stopRun _ => false

/-- The listeners of all runs started, and what each run's listener has heard, the latest first. -/
structure Session where
  playback : Playback
  listeners : List Listener
  heard : Nat → List Event

namespace Session

def idle (pause : Nat) : Session := ⟨.idle pause, [], fun _ => []⟩

def hear (s : Session) (playback : Playback) (k : Nat) (events : List Event) : Session :=
  { s with
    playback
    heard := fun j => if j = k then events.reverse ++ s.heard j else s.heard j }

@[simp] theorem hear_playback (s : Session) (pb : Playback) (k : Nat) (es : List Event) :
    (s.hear pb k es).playback = pb := rfl

@[simp] theorem hear_listeners (s : Session) (pb : Playback) (k : Nat) (es : List Event) :
    (s.hear pb k es).listeners = s.listeners := rfl

theorem heard_hear_self (s : Session) (pb : Playback) (k : Nat) (es : List Event) :
    (s.hear pb k es).heard k = es.reverse ++ s.heard k := if_pos rfl

theorem heard_hear_of_ne (s : Session) (pb : Playback) (es : List Event) (h : j ≠ k) :
    (s.hear pb k es).heard j = s.heard j := if_neg h

def tick (s : Session) (elapsed : Nat) : Session :=
  match s.playback.phase with
  | .running r => s.hear (s.playback.tick elapsed).1 r.number (s.playback.tick elapsed).2
  | _ => { s with playback := (s.playback.tick elapsed).1 }

def perform (s : Session) : Request → Session
  | .start maze position torches actions listener =>
    { s with
      playback := s.playback.start maze position torches actions listener
      listeners := s.listeners ++ [listener] }
  | .tick elapsed => s.tick elapsed
  | .stop => { s with playback := s.playback.stop }
  | .stopRun k => { s with playback := s.playback.stopRun k }

def run (s : Session) (requests : List Request) : Session := requests.foldl perform s

theorem run_append (s : Session) (done rest : List Request) :
    s.run (done ++ rest) = (s.run done).run rest := List.foldl_append ..

theorem run_concat (s : Session) (qs : List Request) (q : Request) :
    s.run (qs ++ [q]) = (s.run qs).perform q := List.foldl_append ..

/-- A run may go on after these events: its end is not among them, and its listener let it go on. -/
def Open (l : Listener) : List Event → Prop
  | [] => True
  | e :: before => e.isEnding = false ∧ l (e :: before) = false ∧ Open l before

/-- How the phase, the runs and what their listeners heard belong together. -/
structure Sound (s : Session) : Prop where
  listeners : s.listeners.length = s.playback.flags.length
  silent : ∀ k, s.playback.flags.length ≤ k → s.heard k = []
  course : ∀ k l, s.listeners[k]? = some l → Open l (s.heard k).tail
  running : ∀ r, s.playback.phase = .running r → r.number + 1 = s.playback.flags.length ∧
    s.listeners[r.number]? = some r.listener ∧ s.heard r.number = r.heard ∧
    Open r.listener r.heard
  ended : ∀ o, s.playback.phase = .ended o →
    ∃ k before, k + 1 = s.playback.flags.length ∧ s.heard k = .ending o :: before

variable {s : Session} {k : Nat}

theorem Open.tail {l : Listener} {es : List Event} (h : Open l es) : Open l es.tail := by
  cases es with
  | nil => trivial
  | cons e before => exact h.2.2

theorem Open.of_append {l : Listener} {new es : List Event} (h : Open l (new ++ es)) :
    Open l es := by
  induction new with
  | nil => exact h
  | cons e new ih => exact ih h.2.2

theorem Open.not_ending {l : Listener} {es : List Event} (h : Open l es) :
    ∀ e ∈ es, e.isEnding = false := by
  induction es with
  | nil => simp
  | cons e before ih =>
    obtain ⟨he, -, hb⟩ := h
    simpa using ⟨he, ih hb⟩

theorem Open.ending_not_mem {l : Listener} {es : List Event} (h : Open l es) (o : Outcome) :
    .ending o ∉ es := by
  intro ho
  cases h.not_ending _ ho

theorem Sound.idle (pause : Nat) : (idle pause).Sound := by
  constructor <;> simp [Session.idle, Playback.idle]

theorem Sound.start (h : s.Sound) (m : Maze) (p : Position) (t : TorchBoard) (as : List Action)
    (l : Listener) : (s.perform (.start m p t as l)).Sound := by
  obtain ⟨flags, hlen, -, heq⟩ := s.playback.start_eq m p t as l
  simp only [perform, heq]
  constructor
  · simp [h.listeners, hlen]
  · intro k hk
    exact h.silent k (by simp [hlen] at hk; omega)
  · intro k l' hl
    simp only [List.getElem?_append] at hl
    split at hl
    · exact h.course k l' hl
    · rename_i hk
      have hsilent : s.heard k = [] := h.silent k (by rw [← h.listeners]; omega)
      simp [hsilent, Open]
  · rintro r ⟨⟩
    refine ⟨by simp [hlen], ?_, h.silent _ (Nat.le_refl _), trivial⟩
    simp [← h.listeners]
  · rintro o ⟨⟩

theorem Sound.stop (h : s.Sound) : (s.perform .stop).Sound := by
  have hlen : s.playback.flagLatest.length = s.playback.flags.length := by
    simp [Playback.flagLatest]
  constructor
  · simp only [perform, Playback.stop, hlen, h.listeners]
  · intro k hk
    exact h.silent k (by simpa only [perform, Playback.stop, hlen] using hk)
  · exact h.course
  · intro r hr
    simp only [perform, Playback.stop] at hr
    split at hr
    · cases hr
    · rename_i hn
      exact absurd hr (hn r)
  · intro o ho
    simp only [perform, Playback.stop, hlen] at ho ⊢
    split at ho
    · cases ho
    · exact h.ended o ho

theorem Sound.stopRun (h : s.Sound) (k : Nat) : (s.perform (.stopRun k)).Sound := by
  constructor
  · simp [perform, Playback.stopRun, h.listeners]
  · intro j hj
    exact h.silent j (by simpa [perform, Playback.stopRun] using hj)
  · exact h.course
  · intro r hr
    simpa [perform, Playback.stopRun] using h.running r hr
  · intro o ho
    simpa [perform, Playback.stopRun] using h.ended o ho

theorem open_of_ticked {pb : Playback} {r : Run} {x : Playback × List Event}
    (h : pb.Ticked r x) (hopen : Open r.listener r.heard) :
    x.1.flags.length = pb.flags.length ∧ Open r.listener (x.2.reverse ++ r.heard).tail ∧
      (∀ r', x.1.phase = .running r' → r'.number = r.number ∧ r'.listener = r.listener ∧
        x.2.reverse ++ r.heard = r'.heard ∧ Open r'.listener r'.heard) ∧
      ∀ o, x.1.phase = .ended o → ∃ before, x.2.reverse ++ r.heard = .ending o :: before := by
  cases h with
  | halted _ hp hf => exact ⟨by rw [hf], hopen.tail, by simp [hp], by simp [hp]⟩
  | waited _ hp hf =>
    refine ⟨by rw [hf], hopen.tail, ?_, by simp [hp]⟩
    rintro r' hr
    cases hp.symm.trans hr
    exact ⟨rfl, rfl, rfl, hopen⟩
  | told _ he hl hp hf =>
    refine ⟨by rw [hf], hopen, ?_, by simp [hp]⟩
    rintro r' hr
    cases hp.symm.trans hr
    exact ⟨rfl, rfl, rfl, he, hl, hopen⟩
  | stopped _ _ _ hp hf => exact ⟨by simp [hf], hopen, by simp [hp], by simp [hp]⟩
  | ended _ hp hf => exact ⟨by rw [hf], hopen, by simp [hp], by simp [hp]⟩
  | arrived _ he hl hp hf => exact ⟨by rw [hf], ⟨he, hl, hopen⟩, by simp [hp], by simp [hp]⟩

theorem Sound.tick (h : s.Sound) (t : Nat) : (s.perform (.tick t)).Sound := by
  simp only [perform, Session.tick]
  split
  · rename_i r hr
    obtain ⟨hn, hl, hheard, hopen⟩ := h.running r hr
    obtain ⟨hlen, course, running, ended⟩ := open_of_ticked (s.playback.ticked hr t) hopen
    rw [← hheard] at course running ended
    constructor
    · rw [hear_listeners, hear_playback, hlen, h.listeners]
    · intro k hk
      rw [hear_playback, hlen] at hk
      rw [heard_hear_of_ne _ _ _ (by omega), h.silent k hk]
    · intro k l hk
      by_cases hkn : k = r.number
      · subst hkn
        cases hl.symm.trans hk
        rwa [heard_hear_self]
      · rw [heard_hear_of_ne _ _ _ hkn]
        exact h.course k l hk
    · intro r' hr'
      obtain ⟨hnumber, hlistener, hheard', hopen'⟩ := running r' hr'
      rw [hnumber, hlistener, heard_hear_self]
      exact ⟨hn.trans hlen.symm, hl, hheard', hlistener ▸ hopen'⟩
    · intro o ho
      obtain ⟨before, hb⟩ := ended o ho
      exact ⟨r.number, before, hn.trans hlen.symm, (heard_hear_self ..).trans hb⟩
  · rename_i hr
    rw [Playback.tick_of_not_running fun r hp => hr r hp]
    exact h

theorem Sound.perform (h : s.Sound) : (q : Request) → (s.perform q).Sound
  | .start m p t as l => h.start m p t as l
  | .tick t => h.tick t
  | .stop => h.stop
  | .stopRun k => h.stopRun k

theorem Sound.run (h : s.Sound) (qs : List Request) : (s.run qs).Sound := by
  induction qs generalizing s with
  | nil => exact h
  | cons q qs ih => exact ih (h.perform q)

end Session

end Spellcraft
