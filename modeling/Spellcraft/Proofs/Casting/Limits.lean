import Mathlib.Control.Monad.Basic
import Spellcraft.Casting.Fault
import Spellcraft.Proofs.Casting.Trails
import Spellcraft.Proofs.Casting.Watchdog

namespace Spellcraft

namespace Limits

structure Le (a b : Limits) : Prop where
  actions : a.actions ≤ b.actions
  gas : a.gas ≤ b.gas
  calls : a.calls ≤ b.calls
  text : a.text ≤ b.text

instance : LE Limits := ⟨Le⟩

/-- The trap is that of a limit in which the two differ. -/
def Differ (a b : Limits) : Trap → Prop
  | .tooManyActions _ => a.actions ≠ b.actions
  | .outOfGas _ => a.gas ≠ b.gas
  | .tooManyCalls .. => a.calls ≠ b.calls
  | .textTooLong .. => a.text ≠ b.text
  | .noTorch .. | .typeFault .. => False

/-- There are more actions than the ceiling `n`. -/
structure Exceeded (limits : Limits) (n : Nat) (past : List Action) : Prop where
  ceiling : n = limits.actions
  past : limits.actions < past.length

def pairing (left right : Limits) : TrailPairing where
  left := left
  right := right
  trails t u := t.Balanced ∧ t.ceiling = left.actions ∧
    ∃ room, u = { t with room, ceiling := right.actions } ∧ u.Balanced
  cuts e u := ∃ t, e = .trap t ∧ left.Differ right t ∧
    ∀ n, t = .tooManyActions n → left.Exceeded n u.past

variable {left right : Limits}

theorem agree_record (h : (left.pairing right).trails t u) (hle : left.actions ≤ right.actions)
    (a : Action) : (left.pairing right).Agree (t.record a) (u.record a) := by
  obtain ⟨ht, hc, room, rfl, hu⟩ := h
  simp only [Trail.Balanced] at ht hu
  cases hr : t.room with
  | zero =>
    rw [Trail.record_of_full hr, hc]
    cases room with
    | zero =>
      have : left.actions = right.actions := by omega
      rw [this]
      exact .fail
    | succ n =>
      refine .cut ⟨_, rfl, ?_, ?_⟩
      · simp only [Differ]
        omega
      · intro m hm
        cases hm
        exact ⟨rfl, by simp only [List.length_cons]; omega⟩
  | succ n =>
    cases room with
    | zero => omega
    | succ room =>
      rw [Trail.record_of_room hr]
      refine .step ⟨?_, hc, room, rfl, ?_⟩
      all_goals simp only [Trail.Balanced, List.length_cons]; omega

theorem agree_move (h : (left.pairing right).trails t u) (hle : left.actions ≤ right.actions)
    (d : Direction) : (left.pairing right).Agree (t.move d) (u.move d) := by
  have ha := agree_record h hle (.move d)
  obtain ⟨-, -, room, rfl, -⟩ := h
  rw [Trail.move_eq, Trail.move_eq]
  refine ha.map ?_ fun hc => hc
  rintro t _ ⟨ht, hc, room, rfl, hu⟩
  exact ⟨ht, hc, room, rfl, hu⟩

theorem agree_lightTorch (h : (left.pairing right).trails t u)
    (hle : left.actions ≤ right.actions) (span : Span) :
    (left.pairing right).Agree (t.lightTorch span) (u.lightTorch span) := by
  have ha := agree_record h hle (.lightTorch t.position)
  obtain ⟨-, -, room, rfl, -⟩ := h
  simp only [Trail.lightTorch]
  split
  · exact ha
  · exact .fail

theorem cuts_of_past {t u : Trail} (h : (left.pairing right).cuts e t) (hp : u.past = a :: t.past) :
    (left.pairing right).cuts e u := by
  obtain ⟨x, rfl, hd, hx⟩ := h
  refine ⟨x, rfl, hd, fun n hn => ⟨(hx n hn).ceiling, ?_⟩⟩
  have := (hx n hn).past
  rw [hp, List.length_cons]
  omega

theorem lawful (h : left ≤ right) : (left.pairing right).Lawful where
  gas {t u} _ := by
    by_cases hg : left.gas = right.gas
    · exact .inl hg
    · exact .inr ⟨h.gas, _, rfl, hg, by simp⟩
  calls span _ := by
    by_cases hg : left.calls = right.calls
    · exact .inl hg
    · exact .inr ⟨h.calls, _, rfl, hg, by simp⟩
  text span _ := by
    by_cases hg : left.text = right.text
    · exact .inl hg
    · exact .inr ⟨h.text, _, rfl, hg, by simp⟩
  canMove d := by
    rintro ⟨-, -, room, rfl, -⟩
    rfl
  move d ht := agree_move ht h.actions d
  lightTorch span ht := agree_lightTorch ht h.actions span
  stays_move d hc hm := cuts_of_past hc (Trail.past_of_move hm)
  stays_lightTorch span hc hm := cuts_of_past hc (Trail.past_of_lightTorch hm)

theorem run_agree (h : left ≤ right) (body : List Stmt) (maze : Maze) (start : Position)
    (grant : Grant) :
    (left.pairing right).pairing.Agree Pairing.any
      (Cast.run left body (.start maze start grant left))
      (Cast.run right body (.start maze start grant right)) := by
  have hs : (left.pairing right).trails (.start maze start left.actions)
      (.start maze start right.actions) :=
    ⟨.start .., rfl, right.actions, rfl, .start ..⟩
  -- the high bound is enough for the low run too, and runs on one bound can be compared
  rw [← Cast.runBody_exec left h.gas body rfl, Cast.run]
  exact TrailPairing.runBody_agree (lawful h) right.gas body hs

inductive Cuts (low high : Limits) :
    Except Fault (List Action) → Except Fault (List Action) → Prop
  | same {x} : (∀ actions, x = .ok actions → actions.length ≤ low.actions) → Cuts low high x x
  | cut {t y} : low.Differ high t →
    (∀ n, t = .tooManyActions n → n = low.actions ∧
      ∀ actions, y = .ok actions → low.actions < actions.length) →
    Cuts low high (.error (.trap t)) y

theorem cuts_perform (h : left ≤ right) (p : Program) (maze : Maze) (start : Position)
    (grant : Grant) :
    Cuts left right (p.perform maze start grant left) (p.perform maze start grant right) := by
  have ha := run_agree h p.body maze start grant
  simp only [Program.perform]
  generalize Cast.run left p.body (.start maze start grant left) = x,
    Cast.run right p.body (.start maze start grant right) = y at ha ⊢
  cases ha with
  | @same r c d _ hs =>
    obtain ⟨_, ⟨ht, hc, room, rfl, -⟩, rfl⟩ := hs
    cases r with
    | error e => exact .same (by simp)
    | ok a =>
      refine .same fun actions hx => ?_
      cases hx
      simp only [Trail.Balanced] at ht
      simp only [Trail.actions, List.length_reverse]
      omega
  | @cut e r c d _ _ hc =>
    obtain ⟨t, rfl, hd, hx⟩ := hc
    refine .cut hd fun n hn => ⟨(hx n hn).ceiling, fun actions hy => ?_⟩
    cases r with
    | error e => cases hy
    | ok a =>
      cases hy
      simpa [Trail.actions] using (hx n hn).past

end Limits

namespace Program

theorem cast_eq (p : Program) (maze : Maze) (start : Position) (grant : Grant) (limits : Limits) :
    p.cast maze start grant limits =
      match p.checkNames grant with
      | .ok _ => p.perform maze start grant limits
      | .error e => .error e := by
  rw [cast]
  cases p.checkNames grant <;> rfl

theorem cast_of_le (p : Program) (h : low ≤ high) (hr : p.cast maze start grant low = r)
    (hd : ∀ t, r = .error (.trap t) → ¬low.Differ high t) :
    p.cast maze start grant high = r := by
  rw [cast_eq] at hr ⊢
  cases hn : p.checkNames grant with
  | error e => simpa [hn] using hr
  | ok _ =>
    simp only [hn] at hr ⊢
    have hc := Limits.cuts_perform h p maze start grant
    rw [hr] at hc
    cases hc with
    | same => rfl
    | cut ht => exact absurd ht (hd _ rfl)

theorem cast_of_ceiling (p : Program) (hr : p.cast maze start grant limits = .ok actions)
    (c : Nat) :
    p.cast maze start grant { limits with actions := c } =
      if actions.length ≤ c then .ok actions else .error (.trap (.tooManyActions c)) := by
  rw [cast_eq] at hr ⊢
  cases hn : p.checkNames grant with
  | error e => simp [hn] at hr
  | ok _ =>
    simp only [hn] at hr ⊢
    -- the ceiling of the run that is known is the low one or the high one
    rcases Nat.le_total limits.actions c with hc | hc
    · have hle : limits ≤ { limits with actions := c } :=
        ⟨hc, Nat.le_refl _, Nat.le_refl _, Nat.le_refl _⟩
      have hx := Limits.cuts_perform hle p maze start grant
      rw [hr] at hx
      generalize p.perform maze start grant { limits with actions := c } = y at hx ⊢
      cases hx with
      | same hl => rw [if_pos (Nat.le_trans (hl actions rfl) hc)]
    · have hle : { limits with actions := c } ≤ limits :=
        ⟨hc, Nat.le_refl _, Nat.le_refl _, Nat.le_refl _⟩
      have hx := Limits.cuts_perform hle p maze start grant
      rw [hr] at hx
      generalize p.perform maze start grant { limits with actions := c } = x at hx ⊢
      cases hx with
      | same hl => rw [if_pos (hl actions rfl)]
      | @cut t _ hd ht =>
        cases t with
        | tooManyActions n =>
          obtain ⟨rfl, hlt⟩ := ht n rfl
          rw [if_neg (Nat.not_le_of_lt (hlt actions rfl))]
        | outOfGas | tooManyCalls | textTooLong => exact absurd rfl hd
        | noTorch | typeFault => cases hd

/-- A limit that does not end the run has no other effect. -/
theorem cast_limits (p : Program) (maze : Maze) (start : Position) (grant : Grant) :
    (∀ {low high : Limits} {r : Except Fault (List Action)}, low ≤ high →
      p.cast maze start grant low = r →
      (∀ t, r = .error (.trap t) → ¬low.Differ high t) →
      p.cast maze start grant high = r) ∧
    ∀ {limits : Limits} {actions : List Action},
      p.cast maze start grant limits = .ok actions → ∀ c,
      p.cast maze start grant { limits with actions := c } =
        if actions.length ≤ c then .ok actions else .error (.trap (.tooManyActions c)) :=
  ⟨p.cast_of_le, p.cast_of_ceiling⟩

def stroll : Program :=
  let s : Span := .point .origin
  let step : Stmt := .expr s (.call s (.name s "moveRight") [])
  ⟨[step, step], s⟩

theorem cast_stroll_limits :
    let actions : List Action := [.move .right, .move .right]
    let low : Limits := ⟨2, 10, 1, 0⟩
    let high : Limits := ⟨3, 20, 1, 0⟩
    (low ≤ high ∧ stroll.cast .corridor ⟨0, 0⟩ .standard low = .ok actions) ∧
      stroll.cast .corridor ⟨0, 0⟩ .standard high = .ok actions ∧
      stroll.cast .corridor ⟨0, 0⟩ .standard { low with actions := 1 } =
        .error (.trap (.tooManyActions 1)) := by
  intro actions low high
  have hle : low ≤ high := ⟨by decide, by decide, by decide, by decide⟩
  have hr : stroll.cast .corridor ⟨0, 0⟩ .standard low = .ok actions := by decide +kernel
  have ⟨raise, ceiling⟩ := stroll.cast_limits .corridor ⟨0, 0⟩ .standard
  exact ⟨⟨hle, hr⟩, raise hle hr (by simp), ceiling hr 1⟩

end Program

end Spellcraft
