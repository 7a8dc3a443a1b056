import Spellcraft.Maze.Action
import Spellcraft.Maze.Grid
import Spellcraft.Playback.Outcome

/-!
Playing actions back at a pace. The host ticks with the time that has passed, in microseconds; a
tick commits one action at most, once an interval has gathered. Each run has a listener, which hears
of every step and every lit torch and of the end; and a flag, which anyone may set to stop the run,
the listener too while it is being told something.
-/

namespace Spellcraft

inductive Event
  | step : Position → Event
  | torches : TorchBoard → Event
  | ending : Outcome → Event
  deriving DecidableEq

/-- Whether a listener that has heard these events, the latest first, stops its own run now. -/
abbrev Listener := List Event → Bool

structure Run where
  number : Nat
  maze : Maze
  listener : Listener
  heard : List Event
  gathered : Nat

inductive Phase
  | idle : Phase
  | running : Run → Phase
  | ended : Outcome → Phase
  | stopped : Phase

namespace Phase

def text : Phase → String
  | .idle => "idle"
  | .running _ => "running"
  | .ended o => if o.isSuccess then "succeeded" else "failed"
  | .stopped => "stopped"

def isTerminal : Phase → Bool
  | .ended _ | .stopped => true
  | .idle | .running _ => false

def outcome? : Phase → Option Outcome
  | .ended o => some o
  | _ => none

end Phase

structure Playback where
  interval : Nat
  phase : Phase
  position : Position
  torches : TorchBoard
  pending : List Action
  /-- For every run ever started, whether it was told to stop. -/
  flags : List Bool

namespace Playback

def standardPause : Nat := 200

def idle (pause : Nat) : Playback := ⟨1000 * pause, .idle, ⟨0, 0⟩, [], [], []⟩

def flagLatest (pb : Playback) : List Bool := pb.flags.set (pb.flags.length - 1) true

/-- Starts a run. One that is still going on is stopped, and its listener hears nothing of it. -/
def start (pb : Playback) (maze : Maze) (position : Position) (torches : TorchBoard)
    (actions : List Action) (listener : Listener) : Playback :=
  let flags := match pb.phase with
    | .running _ => pb.flagLatest
    | _ => pb.flags
  { pb with
    phase := .running ⟨flags.length, maze, listener, [], 0⟩
    position
    torches
    pending := actions
    flags := flags ++ [false] }

def stopRun (pb : Playback) (k : Nat) : Playback := { pb with flags := pb.flags.set k true }

def stop (pb : Playback) : Playback :=
  { pb with
    flags := pb.flagLatest
    phase := match pb.phase with
      | .running _ => .stopped
      | p => p }

def finish (pb : Playback) (o : Outcome) : Playback × List Event :=
  ({ pb with phase := .ended o }, [.ending o])

def exhausted (pb : Playback) (maze : Maze) : Outcome :=
  if !maze.isGoal pb.position then .ofShortfall .goalMissed
  else if pb.torches.allLit then .success
  else .ofShortfall (.torchesUnlit pb.torches.unlitCount)

def tell (pb : Playback) (r : Run) (e : Event) : Playback × Option Run :=
  let r := { r with heard := e :: r.heard }
  if r.listener r.heard then
    ({ pb with phase := .stopped, flags := pb.flags.set r.number true }, none)
  else ({ pb with phase := .running r }, some r)

def commit (pb : Playback) (r : Run) : Playback × List Event :=
  match pb.pending with
  | [] => pb.finish (pb.exhausted r.maze)
  | .move d :: rest =>
    let pb := { pb with pending := rest }
    match r.maze.step pb.position d with
    | .blocked p => pb.finish (.ofShortfall (.wall p))
    | .free p =>
      match { pb with position := p }.tell r (.step p) with
      | (pb, none) => (pb, [.step p])
      | (pb, some _) =>
        if r.maze.isGoal p && pb.torches.allLit then
          let (pb, events) := pb.finish .success
          (pb, .step p :: events)
        else (pb, [.step p])
  | .lightTorch p :: rest =>
    let board := TorchBoard.light p pb.torches
    let pb := { pb with pending := rest, torches := board }
    ((pb.tell r (.torches board)).1, [.torches board])

/-- Lets time pass; the events are those that the run's listener hears. After a long pause no more
than one interval is kept. Time is added up without bound: a tick so long that it and the interval
are no duration any more is not one that a clock can tell. -/
def tick (pb : Playback) (elapsed : Nat) : Playback × List Event :=
  match pb.phase with
  | .running r =>
    if pb.flags.getD r.number false then ({ pb with phase := .stopped }, [])
    else
      let gathered := r.gathered + elapsed
      if gathered < pb.interval then
        ({ pb with phase := .running { r with gathered } }, [])
      else pb.commit { r with gathered := min (gathered - pb.interval) pb.interval }
  | _ => (pb, [])

end Playback

end Spellcraft
