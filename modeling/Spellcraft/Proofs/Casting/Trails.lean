import Spellcraft.Proofs.Casting.PairedRuns
import Spellcraft.Proofs.Casting.Scoped
import Spellcraft.Proofs.Maze.Walk

namespace Spellcraft

namespace Trail

def Balanced (t : Trail) : Prop := t.past.length + t.room = t.ceiling

theorem Balanced.start (maze : Maze) (position : Position) (ceiling : Nat) :
    (start maze position ceiling).Balanced := Nat.zero_add ceiling

theorem record_of_full {t : Trail} (h : t.room = 0) (a : Action) :
    t.record a = .error (.tooManyActions t.ceiling) := by
  simp [record, h]

theorem record_of_room {t : Trail} (h : t.room = n + 1) (a : Action) :
    t.record a = .ok { t with past := a :: t.past, room := n } := by
  simp [record, h]

theorem room_of_record {t : Trail} (h : t.record a = .ok u) :
    ∃ n, t.room = n + 1 ∧ u = { t with past := a :: t.past, room := n } := by
  cases hr : t.room with
  | zero => simp [record_of_full hr] at h
  | succ n =>
    rw [record_of_room hr] at h
    cases h
    exact ⟨n, rfl, rfl⟩

theorem move_eq (t : Trail) (d : Direction) :
    t.move d = (t.record (.move d)).map fun u =>
      { u with position := t.maze.after t.position (.move d) } := by
  cases h : t.room with
  | zero => simp [move, record_of_full h, Except.map, bind, Except.bind]
  | succ n =>
    simp only [move, record_of_room h, Except.map, bind, Except.bind, Maze.after]
    cases t.maze.step t.position d <;> rfl

theorem room_of_move {t : Trail} (h : t.move d = .ok u) :
    ∃ n, t.room = n + 1 ∧
      u = { t with
        position := t.maze.after t.position (.move d)
        past := .move d :: t.past
        room := n } := by
  rw [move_eq] at h
  cases hr : t.record (.move d) with
  | error e => simp [hr, Except.map] at h
  | ok v =>
    obtain ⟨n, hn, rfl⟩ := room_of_record hr
    rw [hr] at h
    cases h
    exact ⟨n, hn, rfl⟩

theorem room_of_lightTorch {t : Trail} (h : t.lightTorch span = .ok u) :
    t.maze.isTorch t.position = true ∧ ∃ n, t.room = n + 1 ∧
      u = { t with past := .lightTorch t.position :: t.past, room := n } := by
  unfold lightTorch at h
  split at h
  · exact ⟨‹_›, room_of_record h⟩
  · cases h

theorem past_of_move {t : Trail} (h : t.move d = .ok u) : u.past = .move d :: t.past := by
  obtain ⟨n, -, rfl⟩ := room_of_move h
  rfl

theorem past_of_lightTorch {t : Trail} (h : t.lightTorch span = .ok u) :
    u.past = .lightTorch t.position :: t.past := by
  obtain ⟨-, n, -, rfl⟩ := room_of_lightTorch h
  rfl

end Trail

structure TrailPairing where
  left : Limits
  right : Limits
  trails : Trail → Trail → Prop
  cuts : Exit → Trail → Prop

namespace TrailPairing

inductive Agree (l : TrailPairing) : Except Trap Trail → Except Trap Trail → Prop
  | step {t u} : l.trails t u → l.Agree (.ok t) (.ok u)
  | fail {e} : l.Agree (.error e) (.error e)
  | cut {e u} : l.cuts (.trap e) u → l.Agree (.error e) (.ok u)

theorem Agree.map {l : TrailPairing} {x y : Except Trap Trail} {f g : Trail → Trail}
    (h : l.Agree x y) (hf : ∀ t u, l.trails t u → l.trails (f t) (g u))
    (hg : ∀ {e u}, l.cuts e u → l.cuts e (g u)) : l.Agree (x.map f) (y.map g) := by
  cases h with
  | step h => exact .step (hf _ _ h)
  | fail => exact .fail
  | cut h => exact .cut (hg h)

/-- Of two limits the left one is the same or, where it can end the left run alone, lower. -/
def Bound (l : TrailPairing) (left right : Nat) (trap : Nat → Trap) (u : Trail) : Prop :=
  left = right ∨ left ≤ right ∧ l.cuts (.trap (trap left)) u

structure Lawful (l : TrailPairing) : Prop where
  gas : l.trails t u → l.Bound l.left.gas l.right.gas .outOfGas u
  calls (span : Span) :
    l.trails t u → l.Bound l.left.calls l.right.calls (.tooManyCalls · span) u
  text (span : Span) :
    l.trails t u → l.Bound l.left.text l.right.text (.textTooLong · span) u
  canMove (d : Direction) : l.trails t u → t.canMove d = u.canMove d
  move (d : Direction) : l.trails t u → l.Agree (t.move d) (u.move d)
  lightTorch (span : Span) : l.trails t u → l.Agree (t.lightTorch span) (u.lightTorch span)
  stays_move (d : Direction) : l.cuts e t → t.move d = .ok u → l.cuts e u
  stays_lightTorch (span : Span) : l.cuts e t → t.lightTorch span = .ok u → l.cuts e u

def pairing (l : TrailPairing) : Pairing where
  left := l.left
  right := l.right
  states c d := ∃ u, l.trails c.trail u ∧ d = { c with trail := u }
  values := Pairing.any
  cuts e d := l.cuts e d.trail

open Pairing (any)

variable {l : TrailPairing}

theorem shows_any (r : Except Exit α) : l.pairing.shows any r := by
  rcases r with e | a
  · cases e <;> trivial
  · trivial

theorem related_scoped {p : Cast α} (h : Cast.Scoped p) : l.pairing.Related any p p := by
  constructor
  · rintro c d ⟨u, hu, rfl⟩
    have hu' : l.trails (p c).2.trail u := by rwa [h.trail_eq]
    exact h.apart_trail c u ▸ .same (shows_any _) ⟨u, hu', rfl⟩
  · intro e d hc
    refine ⟨shows_any _, ?_⟩
    simpa only [pairing, h.trail_eq] using hc

theorem related_tick (hl : l.Lawful) :
    l.pairing.Related any (Cast.tick l.left) (Cast.tick l.right) := by
  constructor
  · rintro c d ⟨u, hu, rfl⟩
    simp only [Cast.tick_apply]
    rcases hl.gas hu with h | ⟨h, hc⟩
    · rw [← h]
      exact .same (shows_any _) ⟨u, hu, rfl⟩
    · by_cases hg : l.left.gas < c.gas + 1
      · rw [if_pos hg]
        exact .cut rfl (shows_any _) hc
      · rw [if_neg hg, if_neg (by omega)]
        exact .same trivial ⟨u, hu, rfl⟩
  · intro e d hc
    rw [Cast.tick_apply]
    exact ⟨shows_any _, hc⟩

theorem related_overrun (hl : l.Lawful) :
    l.pairing.Related P (Cast.overrun l.left) (Cast.overrun l.right) := by
  apply Pairing.Related.bind (related_tick hl)
  intro _ _
  constructor
  · rintro c d ⟨u, hu, rfl⟩
    rcases hl.gas hu with h | ⟨h, hc⟩
    · rw [← h]
      exact .same trivial ⟨u, hu, rfl⟩
    · exact .cut rfl trivial hc
  · intro e d hc
    exact ⟨trivial, hc⟩

theorem related_checkDepth (hl : l.Lawful) (span : Span) :
    l.pairing.Related any (Cast.checkDepth l.left span) (Cast.checkDepth l.right span) := by
  constructor
  · rintro c d ⟨u, hu, rfl⟩
    simp only [Cast.checkDepth, Cast.get_bind_apply]
    rcases hl.calls span hu with h | ⟨h, hc⟩
    · rw [← h]
      split <;> exact .same trivial ⟨u, hu, rfl⟩
    · by_cases hg : l.left.calls ≤ c.calls
      · rw [if_pos hg]
        split <;> exact .cut rfl trivial hc
      · rw [if_neg hg, if_neg (by omega)]
        exact .same trivial ⟨u, hu, rfl⟩
  · intro e d hc
    simp only [Cast.checkDepth, Cast.get_bind_apply]
    split <;> exact ⟨trivial, hc⟩

theorem related_binary (hl : l.Lawful) (op : BinaryOp) (v w : Value) (span : Span) :
    l.pairing.Related any (Cast.binary l.left op v w span) (Cast.binary l.right op v w span) := by
  unfold Cast.binary
  split
  next s _ =>
    constructor
    · rintro c d ⟨u, hu, rfl⟩
      rcases hl.text span hu with h | ⟨h, hc⟩
      · rw [← h]
        split <;> exact .same trivial ⟨u, hu, rfl⟩
      · by_cases hg : l.left.text < s.utf8ByteSize
        · rw [if_pos hg]
          split <;> exact .cut rfl trivial hc
        · rw [if_neg hg, if_neg (by omega)]
          exact .same trivial ⟨u, hu, rfl⟩
    · intro e d hc
      split <;> exact ⟨trivial, hc⟩
  next => exact .pure trivial

theorem related_follow {step : Trail → Except Trap Trail}
    (agree : ∀ {t u}, l.trails t u → l.Agree (step t) (step u))
    (stays : ∀ {e t u}, l.cuts e t → step t = .ok u → l.cuts e u) :
    l.pairing.Related any (Cast.follow step) (Cast.follow step) := by
  constructor
  · rintro c d ⟨u, hu, rfl⟩
    have ha := agree hu
    simp only [Cast.follow, Cast.get_bind_apply]
    generalize step c.trail = x, step u = y at ha ⊢
    cases ha with
    | @step t u hu => exact .same trivial ⟨u, hu, rfl⟩
    | fail => exact .same trivial ⟨u, hu, rfl⟩
    | cut hc => exact .cut rfl trivial hc
  · intro e d hc
    simp only [Cast.follow, Cast.get_bind_apply]
    cases h : step d.trail with
    | ok u => exact ⟨trivial, stays hc h⟩
    | error x => exact ⟨trivial, hc⟩

theorem related_command (hl : l.Lawful) (k : Command) (span : Span) :
    l.pairing.Related any (Cast.command k span) (Cast.command k span) := by
  cases k with
  | look d =>
    constructor
    · rintro c _ ⟨u, hu, rfl⟩
      simp only [Cast.command, Cast.get_bind_apply, hl.canMove d hu]
      exact .same trivial ⟨u, hu, rfl⟩
    · intro e c hc
      exact ⟨trivial, hc⟩
  | move d =>
    exact .bind (related_follow (hl.move d) (hl.stays_move d)) fun _ _ => .pure trivial
  | lightTorch =>
    exact .bind (related_follow (hl.lightTorch span) (hl.stays_lightTorch span)) fun _ _ =>
      .pure trivial

theorem roams : l.pairing.Roams where
  current := by rintro c _ ⟨u, -, rfl⟩; rfl
  calls := by rintro c _ ⟨u, -, rfl⟩; rfl
  block := by rintro c _ ⟨u, hu, rfl⟩; exact ⟨u, hu, rfl⟩
  frame _ h := by obtain ⟨u, hu, rfl⟩ := h; exact ⟨u, hu, rfl⟩
  leave := by rintro c _ c' _ ⟨u, -, rfl⟩ ⟨u', hu', rfl⟩; exact ⟨u', hu', rfl⟩
  deeper _ h := by obtain ⟨u, hu, rfl⟩ := h; exact ⟨u, hu, rfl⟩
  cuts hc ht := by
    change l.cuts _ _
    rwa [ht]

theorem Lawful.pairing (hl : l.Lawful) : l.pairing.Lawful where
  plain _ _ := trivial
  tick := related_tick hl
  overrun := related_overrun hl
  lookup name span := related_scoped (.lookup name span)
  assign target _ := related_scoped (.assign target _)
  declareVar name _ := related_scoped (.declareVar name _)
  declareLocal name constant _ := related_scoped (.declareLocal name _ constant)
  declareFunction name params body _ := related_scoped (.declareFunction name params body)
  binary op span _ _ := related_binary hl op _ _ span
  command span _ := related_command hl _ span
  depth span := related_checkDepth hl span
  block h := roams.inBlock h
  frame _ h := roams.inFrame _ h
  body _ _ _ := Pairing.quotes_any

theorem runBody_agree (hl : l.Lawful) (n : Nat) (body : List Stmt) (h : l.trails c.trail u) :
    l.pairing.Agree any (Cast.runBody (Cast.exec l.left n) body c)
      (Cast.runBody (Cast.exec l.right n) body { c with trail := u }) :=
  (Pairing.related_runBody hl.pairing n fun _ _ => Pairing.quotes_any).agree ⟨u, h, rfl⟩

end TrailPairing

end Spellcraft
