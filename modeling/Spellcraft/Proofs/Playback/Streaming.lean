import Spellcraft.Proofs.Maze.Written
import Spellcraft.Proofs.Playback.Notices

namespace Spellcraft

theorem Json.ofNat_inj {m n : Nat} : ofNat m = ofNat n ↔ m = n :=
  ⟨fun h => Int.ofNat.inj (integer.inj h), congrArg ofNat⟩

theorem Position.toJson_injective : Function.Injective toJson := by
  rintro ⟨x, y⟩ ⟨x', y'⟩ h
  simpa [toJson] using h

theorem TorchBoard.toJson_injective : Function.Injective toJson := by
  have torch : Function.Injective Torch.toJson := by
    rintro ⟨p, lit⟩ ⟨p', lit'⟩ h
    simpa [Torch.toJson, Position.toJson_injective.eq_iff] using h
  exact fun _ _ h => torch.list_map (Json.array.inj h)

theorem Shortfall.toJson_injective : Function.Injective toJson := by
  intro s s' h
  cases s <;> cases s' <;> simp_all [toJson, Json.ofNat_inj, Position.toJson_injective.eq_iff]

theorem Outcome.toJson_injective : Function.Injective toJson := by
  intro o o' h
  cases o <;> cases o' <;> simp_all [toJson, Shortfall.toJson_injective.eq_iff]

namespace Event

theorem toJson_injective : Function.Injective toJson := by
  intro e e' h
  cases e <;> cases e' <;> simp_all [toJson, Position.toJson_injective.eq_iff,
    TorchBoard.toJson_injective.eq_iff, Outcome.toJson_injective.eq_iff]

theorem render_injective {events others : List Event}
    (h : (Json.ofList toJson events).render = (Json.ofList toJson others).render) :
    events = others := by
  have read (events : List Event) : Json.read? (Json.ofList toJson events).render =
      some (.array (events.map toJson)) := Json.read?_render (.ofList fun e _ => e.plain)
  have same := (read events).symm.trans ((congrArg Json.read? h).trans (read others))
  exact toJson_injective.list_map (Json.array.inj (Option.some.inj same))

end Event

namespace Browser

inductive Call
  | tick (elapsed : Float) : Call
  | stop : Call

/-- The same asked of a playback, if `convert` makes whole microseconds of the time. -/
def Call.request (convert : Float → Nat) : Call → Request
  | .tick elapsed => .tick (convert elapsed)
  | .stop => .stop

/-- A host, its run and the arrays that it got, one for each tick. -/
structure Host where
  run : SpellRun
  arrays : List (List Event)

namespace Host

def call (convert : Float → Nat) (host : Host) : Call → Host
  | .tick elapsed =>
    let (run, events) := host.run.pass (convert elapsed)
    ⟨run, host.arrays ++ [events]⟩
  | .stop => { host with run := host.run.stop }

def serve (convert : Float → Nat) (host : Host) (calls : List Call) : Host :=
  calls.foldl (call convert) host

/-- The host has all that the listener of the only run has heard, and nothing else. -/
structure Mirrors (host : Host) (s : Session) : Prop where
  sound : s.Sound
  playback : host.run.playback = s.playback
  unread : host.run.unread = []
  single : s.playback.flags.length = 1
  heard : host.arrays.flatten = (s.heard 0).reverse

variable {host : Host} {s : Session}

theorem Mirrors.start (actions : List Action) (maze : Maze) (position : Position)
    (interval : Nat) : Mirrors ⟨.start actions maze position interval, []⟩
      ((Session.idle (if interval = 0 then Playback.standardPause else interval)).perform
        (.start maze position maze.freshTorches actions fun _ => false)) where
  sound := (Session.Sound.idle _).start ..
  playback := rfl
  unread := rfl
  single := rfl
  heard := rfl

theorem Mirrors.heard_tick (h : host.Mirrors s) (elapsed : Nat) :
    (s.perform (.tick elapsed)).heard 0 = (host.run.pass elapsed).2.reverse ++ s.heard 0 := by
  have events : (host.run.pass elapsed).2 = (s.playback.tick elapsed).2 := by
    rw [SpellRun.pass, h.unread, h.playback]
    rfl
  rw [events, Session.perform, Session.tick]
  split
  · next r hr =>
    have only : r.number = 0 := by
      have latest := (h.sound.running r hr).1
      have single := h.single
      omega
    rw [only, Session.heard_hear_self]
  · next hr => rw [Playback.tick_of_not_running fun r hp => hr r hp]; rfl

theorem Mirrors.call (h : host.Mirrors s) (convert : Float → Nat) (c : Call) :
    (host.call convert c).Mirrors (s.perform (c.request convert)) := by
  cases c with
  | tick elapsed =>
    have same : (s.perform (.tick (convert elapsed))).playback =
        (s.playback.tick (convert elapsed)).1 := by
      rw [Session.perform, Session.tick]
      split <;> rfl
    refine ⟨h.sound.perform _, ?_, rfl, ?_, ?_⟩
    · rw [Call.request, same, ← h.playback]
      rfl
    · rw [Call.request, same]
      cases hp : s.playback.phase with
      | running r =>
        obtain ⟨-, -, -, going⟩ := h.sound.running r hp
        exact (Session.open_of_ticked (s.playback.ticked hp _) going).1.trans h.single
      | _ =>
        rw [Playback.tick_of_not_running (by simp [hp])]
        exact h.single
    · rw [Call.request, h.heard_tick, List.reverse_append, List.reverse_reverse, ← h.heard]
      simp [Host.call]
  | stop =>
    have twice : (s.playback.stopRun 0).stop = s.playback.stop := by
      simp [Playback.stopRun, Playback.stop, Playback.flagLatest, h.single]
    exact ⟨h.sound.stop, (congrArg (fun pb => (pb.stopRun 0).stop) h.playback).trans twice, h.unread,
      by simp [Session.perform, Call.request, Playback.stop, Playback.flagLatest, h.single], h.heard⟩

theorem Mirrors.serve (h : host.Mirrors s) (convert : Float → Nat) (calls : List Call) :
    (host.serve convert calls).Mirrors (s.run (calls.map (Call.request convert))) := by
  induction calls generalizing host s with
  | nil => exact h
  | cons c calls ih => exact ih (h.call convert c)

theorem Mirrors.silent (h : host.Mirrors s) (convert : Float → Nat) {calls : List Call}
    (stopped : .stop ∈ calls) (elapsed : Nat) :
    ((host.serve convert calls).run.pass elapsed).2 = [] := by
  obtain ⟨before, after, rfl⟩ := List.append_of_mem stopped
  have first := h.serve convert before
  have last := (first.call convert .stop).serve convert after
  have hushed := (Session.Closed.stop (k := 0) first.single.symm).hushed first.sound.stop
  have grown := last.heard_tick elapsed
  rw [← Session.run_concat, Call.request, hushed, hushed] at grown
  have none := List.append_left_eq_self.1 grown.symm
  rw [Host.serve, List.foldl_append]
  exact List.reverse_eq_nil_iff.1 none

theorem call_tick (host : Host) (elapsed : Float) :
    host.call SpellRun.micros (.tick elapsed) =
      ⟨(host.run.tick elapsed).1, host.arrays ++ [(host.run.tick elapsed).2]⟩ := rfl

end Host

/-- A run made of the texts of actions and a maze has these very actions and this maze, and no run is
made of a move that is no unit step. Whatever is asked of a run, and whatever the conversion of the
time: the arrays put one behind the other are what a listener of this run hears that never stops it.
Each tick brings just what is heard of this tick, and none brings anything after a stop; with the
program's own conversion it is a tick of the run. The text of an array tells which events it has. -/
theorem events_streamed (convert : Float → Nat) {actions : List Action}
    (fits : ∀ a ∈ actions, a.Fits) (maze : Maze) (position : Position) (interval : Nat) :
    readActions? (Json.ofList Action.toJson actions).render = some actions ∧
    SpellRun.ofTexts? (Json.ofList Action.toJson actions).render maze.toJson.render position
      interval = some (.start actions maze position interval) ∧
    (∀ j dx dy, Action.Askew j dx dy →
      Action.ofJson j = .error (if (Position.mk dx dy).Fits then .delta dx dy else .malformed) ∧
      ∀ source js, j ∈ js → Json.read? source = some (.array js) →
        ∀ maze position interval, SpellRun.ofTexts? source maze position interval = none) ∧
    ∀ calls : List Call,
      let host := Host.serve convert ⟨.start actions maze position interval, []⟩ calls
      let pause := if interval = 0 then Playback.standardPause else interval
      let session := (Session.idle pause).run
        (.start maze position maze.freshTorches actions (fun _ => false) ::
          calls.map (Call.request convert))
      host.arrays.flatten = (session.heard 0).reverse ∧
        host.run.playback = session.playback ∧
        (∀ elapsed, ∃ events,
          (host.call convert (.tick elapsed)).arrays = host.arrays ++ [events] ∧
          (session.perform (.tick (convert elapsed))).heard 0 =
            events.reverse ++ session.heard 0 ∧
          (.stop ∈ calls → events = [])) ∧
        (convert = SpellRun.micros → ∀ elapsed,
          host.call convert (.tick elapsed) =
            ⟨(host.run.tick elapsed).1, host.arrays ++ [(host.run.tick elapsed).2]⟩) ∧
        ∀ events ∈ host.arrays, ∀ others,
          (Json.ofList Event.toJson others).render = (Json.ofList Event.toJson events).render →
            others = events := by
  have read := readActions?_render fits
  refine ⟨read, ?_, fun j dx dy askew => ⟨askew.refused, ?_⟩, ?_⟩
  · simp [SpellRun.ofTexts?, read, readMaze_render, Except.toOption]
  · intro source js hj found maze position interval
    simp [SpellRun.ofTexts?, readActions?_askew hj askew found]
  · intro calls host pause session
    have begun := Host.Mirrors.start actions maze position interval
    have served : host.Mirrors session := begun.serve convert calls
    refine ⟨served.heard, served.playback, fun elapsed => ?_, ?_, fun events _ others same =>
      Event.render_injective same⟩
    · exact ⟨_, rfl, served.heard_tick _, fun stopped => begun.silent convert stopped _⟩
    · rintro rfl elapsed
      exact host.call_tick elapsed

theorem events_streamed_lamplighting :
    let source := (Json.ofList Action.toJson Maze.lamplighting).render
    let leap : Json := .object [("type", .text "move"), ("dx", .integer 2), ("dy", .integer 0)]
    let calls := [Call.tick 0.0, .tick 0.0, .stop]
    let run := SpellRun.start Maze.lamplighting .corridor ⟨0, 0⟩ 0
    let host := Host.serve (fun _ => 200000) ⟨run, []⟩ calls
    SpellRun.ofTexts? source Maze.corridor.toJson.render ⟨0, 0⟩ 0 = some run ∧
      SpellRun.ofTexts? (Json.array [leap]).render Maze.corridor.toJson.render ⟨0, 0⟩ 0 = none ∧
      host.arrays = [[.step ⟨1, 0⟩], [.torches [⟨⟨1, 0⟩, true⟩]]] ∧
      (host.call (fun _ => 200000) (.tick 0.0)).arrays = host.arrays ++ [[]] ∧
      (Host.call SpellRun.micros ⟨run, []⟩ (.tick 0.0)).arrays = [(run.tick 0.0).2] := by
  intro source leap calls run host
  obtain ⟨-, made, refused, streams⟩ :=
    @events_streamed (fun _ => 200000) Maze.lamplighting (by decide) .corridor ⟨0, 0⟩ 0
  obtain ⟨-, -, -, own⟩ :=
    @events_streamed SpellRun.micros Maze.lamplighting (by decide) .corridor ⟨0, 0⟩ 0
  obtain ⟨-, -, ticks, -⟩ := streams calls
  obtain ⟨events, added, -, silent⟩ := ticks 0.0
  have askew : Action.Askew leap 2 0 := ⟨_, rfl, rfl, by decide⟩
  have plain : (Json.array [leap]).Plain := .array (by
    simp [leap, Json.Plain.object, Json.Plain.text, Json.Plain.integer])
  refine ⟨made, (refused leap 2 0 askew).2 _ _ List.mem_cons_self (Json.read?_render plain) _ _ _,
    by decide, ?_, congrArg Host.arrays ((own []).2.2.2.1 rfl 0.0)⟩
  rw [added, silent (by simp [calls])]

end Browser

end Spellcraft
