import Mathlib.Data.List.Induction
import Spellcraft.Proofs.Maze.Walk
import Spellcraft.Proofs.Playback.Replay
import Spellcraft.Proofs.Playback.Ticks

namespace Spellcraft.Playback

/-- Seconds are counted in 64 bits; this many microseconds are no duration any more. -/
def spanLimit : Nat := UInt64.size * 1000000

def sum? (a b : Nat) : Option Nat := if a + b < spanLimit then some (a + b) else none

def difference? (a b : Nat) : Option Nat := if b ≤ a then some (a - b) else none

def passed : List Nat → Nat
  | [] => 0
  | t :: ts => t + passed ts

theorem passed_concat (ts : List Nat) (t : Nat) : passed (ts ++ [t]) = passed ts + t := by
  induction ts with
  | nil => exact Nat.add_comm ..
  | cons s ts ih => rw [List.cons_append, passed, passed, ih, Nat.add_assoc]

/-- What a tick makes of the time gathered before it, by sums and differences that may fail. -/
def gather? (interval gathered elapsed : Nat) : Option Nat :=
  (sum? gathered elapsed).bind fun sum =>
    if sum < interval then some sum
    else (difference? sum interval).map fun left => min left interval

def gather (interval gathered elapsed : Nat) : Nat :=
  if gathered + elapsed < interval then gathered + elapsed
  else min (gathered + elapsed - interval) interval

theorem gather?_eq {interval gathered elapsed : Nat} (h : gathered + elapsed < spanLimit) :
    gather? interval gathered elapsed = some (gather interval gathered elapsed) := by
  rw [gather?, sum?, if_pos h, Option.bind_some, gather]
  by_cases hs : gathered + elapsed < interval
  · rw [if_pos hs, if_pos hs]
  · rw [if_neg hs, if_neg hs, difference?, if_pos (Nat.le_of_not_lt hs), Option.map_some]

theorem sum_lt_spanLimit {pause : UInt64} {g : Nat} (h : g ≤ 1000 * pause.toNat) (t : UInt64) :
    g + t.toNat < spanLimit := by
  have hp := pause.toNat_lt_size
  have ht := t.toNat_lt_size
  simp only [spanLimit, UInt64.size] at *
  omega

/-- No more than an interval is gathered, and no time is counted that has not passed. -/
structure Capped (interval total due gathered : Nat) : Prop where
  capped : gathered ≤ interval
  covered : due * interval + gathered ≤ total

/-- All the time that has passed is in the intervals and in what is gathered. -/
structure Exact (interval total due gathered : Nat) : Prop where
  short : gathered < interval
  covered : due * interval + gathered = total

section

variable {interval total due gathered : Nat}

theorem Capped.gather (h : Capped interval total due gathered) (t : Nat) :
    Capped interval (total + t) (due + (decide (interval ≤ gathered + t)).toNat)
      (gather interval gathered t) := by
  obtain ⟨hg, hc⟩ := h
  by_cases hs : gathered + t < interval
  · rw [Playback.gather, if_pos hs, decide_eq_false (Nat.not_le_of_lt hs)]
    exact ⟨Nat.le_of_lt hs, by simpa using by omega⟩
  · rw [Playback.gather, if_neg hs, decide_eq_true (Nat.le_of_not_lt hs)]
    refine ⟨Nat.min_le_right _ _, ?_⟩
    rw [Bool.toNat_true, Nat.succ_mul]
    have hmin := Nat.min_le_left (gathered + t - interval) interval
    omega

theorem Exact.gather (h : Exact interval total due gathered) {t : Nat} (ht : t ≤ interval) :
    Exact interval (total + t) (due + (decide (interval ≤ gathered + t)).toNat)
      (gather interval gathered t) := by
  obtain ⟨hg, hc⟩ := h
  by_cases hs : gathered + t < interval
  · rw [Playback.gather, if_pos hs, decide_eq_false (Nat.not_le_of_lt hs)]
    exact ⟨hs, by simpa using by omega⟩
  · rw [Playback.gather, if_neg hs, decide_eq_true (Nat.le_of_not_lt hs)]
    -- The cap takes nothing away: less than an interval was gathered before.
    have hmin : min (gathered + t - interval) interval = gathered + t - interval :=
      Nat.min_eq_left (by omega)
    rw [hmin]
    refine ⟨by omega, ?_⟩
    rw [Bool.toNat_true, Nat.succ_mul]
    omega

theorem Exact.due_eq (h : Exact interval total due gathered) : due = total / interval := by
  rw [← h.covered, Nat.mul_comm, Nat.mul_add_div (Nat.zero_lt_of_lt h.short),
    Nat.div_eq_of_lt h.short, Nat.add_zero]

end

variable {pb : Playback} {r r' : Run}

theorem going_of_commit (h : (pb.commit r).1.phase = .running r') :
    r'.gathered = r.gathered ∧ r'.number = r.number ∧ (pb.commit r).1.flags = pb.flags := by
  cases pb.committed r with
  | told _ _ _ _ _ hx =>
    rw [hx pb.flags] at h ⊢
    cases h
    exact ⟨rfl, rfl, rfl⟩
  | ended _ _ _ hx | arrived _ _ _ _ _ _ hx | stopped _ _ _ _ _ hx =>
    rw [hx pb.flags] at h
    cases h

theorem interval_commit (pb : Playback) (r : Run) : (pb.commit r).1.interval = pb.interval := by
  cases pb.committed r with
  | ended _ _ hi hx | arrived _ _ _ hi _ _ hx | told _ _ hi _ _ hx | stopped _ _ hi _ _ hx =>
    rwa [hx pb.flags]

theorem interval_tick (pb : Playback) (t : Nat) : (pb.tick t).1.interval = pb.interval := by
  simp only [tick]
  cases pb.phase with
  | running r =>
    simp only
    split
    · rfl
    · split
      · rfl
      · exact pb.interval_commit _
  | _ => rfl

theorem play_concat (pb : Playback) (ts : List Nat) (t : Nat) :
    (pb.play (ts ++ [t])).1 = ((pb.play ts).1.tick t).1 := by
  induction ts generalizing pb with
  | nil => rfl
  | cons s ts ih => exact ih (pb.tick s).1

theorem dueTicks_concat (pb : Playback) (ts : List Nat) (t : Nat) :
    pb.dueTicks (ts ++ [t]) = pb.dueTicks ts + ((pb.play ts).1.isDue t).toNat := by
  induction ts generalizing pb with
  | nil => simp [dueTicks, play]
  | cons s ts ih => simp only [List.cons_append, dueTicks, play, ih, Nat.add_right_comm]

theorem interval_play (pb : Playback) (ts : List Nat) : (pb.play ts).1.interval = pb.interval := by
  induction ts generalizing pb with
  | nil => rfl
  | cons t ts ih => exact (ih (pb.tick t).1).trans (pb.interval_tick t)

theorem isDue_of_running (h : pb.phase = .running r) (t : Nat) :
    pb.isDue t = decide (pb.interval ≤ r.gathered + t) := by
  rw [isDue, h]

theorem tick_of_running (h : pb.phase = .running r) (unset : pb.flags.getD r.number false = false)
    (t : Nat) :
    pb.tick t =
      if pb.isDue t then pb.commit { r with gathered := gather pb.interval r.gathered t }
      else ({ pb with phase := .running { r with gathered := gather pb.interval r.gathered t } }, [])
    := by
  simp only [tick, isDue_of_running h, h, unset, gather, Bool.false_eq_true, ↓reduceIte]
  by_cases hs : r.gathered + t < pb.interval
  · simp only [if_pos hs, decide_eq_false (Nat.not_le_of_lt hs), Bool.false_eq_true, ↓reduceIte]
  · simp only [if_neg hs, decide_eq_true (Nat.le_of_not_lt hs), ↓reduceIte]

theorem going_of_tick (h : pb.phase = .running r) (unset : pb.flags.getD r.number false = false)
    {t : Nat} (h' : (pb.tick t).1.phase = .running r') :
    r'.gathered = gather pb.interval r.gathered t ∧
      (pb.tick t).1.flags.getD r'.number false = false := by
  rw [tick_of_running h unset] at h' ⊢
  split at h'
  · rename_i hd
    obtain ⟨hg, hn, hf⟩ := going_of_commit h'
    rw [if_pos hd, hf, hn]
    exact ⟨hg, unset⟩
  · rename_i hd
    rw [if_neg hd]
    cases h'
    exact ⟨rfl, unset⟩

theorem going_of_play (hb : pb.phase = .running r) (fresh : r.gathered = 0)
    (unset : pb.flags.getD r.number false = false) {P : List Nat → Nat → Nat → Prop} (nil : P [] 0 0)
    (concat : ∀ ts t due gathered, P ts due gathered →
      P (ts ++ [t]) (due + (decide (pb.interval ≤ gathered + t)).toNat)
        (gather pb.interval gathered t))
    (ts : List Nat) (h : (pb.play ts).1.phase = .running r') :
    P ts (pb.dueTicks ts) r'.gathered ∧ (pb.play ts).1.flags.getD r'.number false = false := by
  induction ts using List.reverseRecOn generalizing r' with
  | nil =>
    cases hb.symm.trans h
    exact ⟨fresh ▸ nil, unset⟩
  | append_singleton ts t ih =>
    rw [play_concat] at h ⊢
    cases hp : (pb.play ts).1.phase with
    | running q =>
      obtain ⟨hP, hq⟩ := ih hp
      obtain ⟨hg, hf⟩ := going_of_tick hp hq h
      refine ⟨?_, hf⟩
      rw [dueTicks_concat, isDue_of_running hp, hg, interval_play]
      exact concat ts t _ _ hP
    | _ =>
      rw [tick_of_not_running (by simp [hp]), hp] at h
      cases h

theorem start_going (pb : Playback) (m : Maze) (p : Position) (t : TorchBoard) (as : List Action)
    (l : Listener) :
    ∃ r, (pb.start m p t as l).phase = .running r ∧ r.gathered = 0 ∧
      (pb.start m p t as l).flags.getD r.number false = false :=
  ⟨_, rfl, rfl, by simp [start]⟩

theorem capped_of_play (pb : Playback) (m : Maze) (position : Position) (torches : TorchBoard)
    (actions : List Action) (listener : Listener) (ticks : List Nat) :
    let begun := pb.start m position torches actions listener
    ∀ r, (begun.play ticks).1.phase = .running r →
      Capped pb.interval (passed ticks) (begun.dueTicks ticks) r.gathered ∧
        (begun.play ticks).1.flags.getD r.number false = false := by
  intro begun r hr
  obtain ⟨r₀, h₀, fresh, unset₀⟩ := pb.start_going m position torches actions listener
  exact going_of_play h₀ fresh unset₀
    (P := fun ts due gathered => Capped pb.interval (passed ts) due gathered)
    ⟨Nat.zero_le _, by simp⟩ (fun ts t _ _ h => passed_concat ts t ▸ h.gather t) ticks hr

/-- Of any ticks, each that is a duration together with an interval is added up to a duration. What
is said of longer ticks says nothing of a clock, whose sum would fail. -/
theorem gather?_of_play (pb : Playback) (m : Maze) (position : Position) (torches : TorchBoard)
    (actions : List Action) (listener : Listener) (ticks : List Nat) :
    let begun := pb.start m position torches actions listener
    ∀ r, (begun.play ticks).1.phase = .running r → ∀ t, pb.interval + t < spanLimit →
      gather? pb.interval r.gathered t = some (gather pb.interval r.gathered t) := by
  intro begun r hr t fits
  obtain ⟨⟨capped, -⟩, -⟩ := pb.capped_of_play m position torches actions listener ticks r hr
  exact gather?_eq (Nat.lt_of_le_of_lt (Nat.add_le_add_right capped t) fits)

/-- Whatever the pause and however the time is cut: the next tick of a run that is going on computes
within what durations can hold, gathers an interval at most and counts no interval that has not
passed. As long as no tick was longer than the interval, one tick was due for every interval. -/
theorem play_keeps_pace (pb : Playback) (pause : UInt64) (hp : pb.interval = 1000 * pause.toNat)
    (m : Maze) (position : Position) (torches : TorchBoard) (actions : List Action)
    (listener : Listener) (ticks : List UInt64) :
    let begun := pb.start m position torches actions listener
    let elapsed := ticks.map UInt64.toNat
    let now := (begun.play elapsed).1
    ∀ r, now.phase = .running r → ∀ t : UInt64,
      let due := begun.dueTicks (elapsed ++ [t.toNat])
      let total := passed (elapsed ++ [t.toNat])
      ∃ g, gather? pb.interval r.gathered t.toNat = some g ∧
        now.tick t.toNat =
          (if now.isDue t.toNat then now.commit { r with gathered := g }
            else ({ now with phase := .running { r with gathered := g } }, [])) ∧
        (∀ r', (now.tick t.toNat).1.phase = .running r' → r'.gathered = g) ∧
        g ≤ pb.interval ∧ due * pb.interval + g ≤ total ∧
        (0 < pb.interval → (∀ s ∈ elapsed ++ [t.toNat], s ≤ pb.interval) →
          due = total / pb.interval) := by
  intro begun elapsed now r hr t due total
  obtain ⟨r₀, h₀, fresh, unset₀⟩ := pb.start_going m position torches actions listener
  have hi : now.interval = pb.interval := begun.interval_play elapsed
  obtain ⟨capped, unset⟩ := pb.capped_of_play m position torches actions listener elapsed r hr
  have hdue : due = begun.dueTicks elapsed + (decide (pb.interval ≤ r.gathered + t.toNat)).toNat := by
    rw [← hi, ← isDue_of_running hr, ← dueTicks_concat]
  have hcap : Capped pb.interval total due (gather pb.interval r.gathered t.toNat) := by
    rw [hdue, show total = _ from passed_concat elapsed t.toNat]
    exact capped.gather t.toNat
  have fits : r.gathered + t.toNat < spanLimit := sum_lt_spanLimit (hp ▸ capped.capped) t
  refine ⟨_, gather?_eq fits, hi ▸ tick_of_running hr unset t.toNat, fun r' hr' => ?_,
    hcap.capped, hcap.covered, fun hpos short => ?_⟩
  · rw [(going_of_tick hr unset hr').1, hi]
  · obtain ⟨exact', -⟩ := going_of_play h₀ fresh unset₀
      (P := fun ts due gathered => (∀ s ∈ ts, s ≤ pb.interval) →
        Exact pb.interval (passed ts) due gathered) (fun _ => ⟨hpos, by simp [passed]⟩)
      (fun ts t _ _ h hs => passed_concat ts t ▸
        (h fun s hm => hs s (by simp [hm])).gather (hs t (by simp))) elapsed hr
    have hlast := (exact' fun s hm => short s (by simp [hm])).gather (short t.toNat (by simp))
    rw [← hdue, ← passed_concat] at hlast
    exact hlast.due_eq

def twoFrames : Playback :=
  (((idle 3).start .corridor ⟨0, 0⟩ Maze.corridor.freshTorches [.move .right, .move .right]
    fun _ => false).play [2500, 800]).1

theorem play_keeps_pace_corridor :
    twoFrames.position = ⟨1, 0⟩ ∧ (idle 3).interval = 1000 * (3 : UInt64).toNat ∧
      gather? 3000 300 2900 = some 200 ∧
      (∃ r, (twoFrames.tick 2900).1.phase = .running r ∧ r.gathered = 200) ∧
      ((idle 3).start .corridor ⟨0, 0⟩ Maze.corridor.freshTorches [.move .right, .move .right]
        fun _ => false).dueTicks [2500, 800, 2900] = (2500 + 800 + 2900) / 3000 := by
  obtain ⟨g, hg, -, hrun, -, -, hdue⟩ := play_keeps_pace (idle 3) 3 (by decide) .corridor ⟨0, 0⟩
    Maze.corridor.freshTorches [.move .right, .move .right] (fun _ => false) [2500, 800]
    ⟨0, .corridor, fun _ => false, [.step ⟨1, 0⟩], 300⟩ rfl 2900
  obtain rfl : g = 200 := Option.some.inj (hg.symm.trans (by decide))
  refine ⟨by decide, by decide, hg, ?_, hdue (by decide) (by decide)⟩
  exact ⟨_, rfl, hrun _ rfl⟩

end Spellcraft.Playback
