import Spellcraft.Proofs.Casting.Steps

/-!
Two runs side by side. A pairing says how their states go together as long as both take the same
course, and what is still known of the right run once the left one has been cut short. Computations
that keep both are related; so are the sequences, loops and returns made of related ones.
-/

namespace Spellcraft

def Exit.isJump : Exit → Bool
  | .return_ _ | .break_ | .continue_ => true
  | .trap _ | .unknown .. => false

structure Pairing where
  left : Limits
  right : Limits
  states : Casting → Casting → Prop
  values : Value → Prop
  /-- What holds of the right run after the left one alone has ended. -/
  cuts : Exit → Casting → Prop

namespace Pairing

def exits (l : Pairing) : Exit → Prop
  | .return_ v => l.values v
  | _ => True

def shows (l : Pairing) (P : α → Prop) : Except Exit α → Prop
  | .ok a => P a
  | .error e => l.exits e

inductive Agree (l : Pairing) (P : α → Prop) :
    Except Exit α × Casting → Except Exit α × Casting → Prop
  | same {r c d} : l.shows P r → l.states c d → l.Agree P (r, c) (r, d)
  | cut {e r c d} : e.isJump = false → l.shows P r → l.cuts e d → l.Agree P (.error e, c) (r, d)

structure Related (l : Pairing) (P : α → Prop) (p q : Cast α) : Prop where
  agree : ∀ {c d}, l.states c d → l.Agree P (p c) (q d)
  stays : ∀ {e d}, l.cuts e d → l.shows P (q d).1 ∧ l.cuts e (q d).2

def any : α → Prop := fun _ => True

variable {l : Pairing} {P : α → Prop} {Q : β → Prop}

theorem Agree.next {f g : α → Cast β} (h : l.Agree P x y)
    (k : ∀ a, P a → l.Related Q (f a) (g a)) : l.Agree Q (Cast.next f x) (Cast.next g y) := by
  cases h with
  | @same r c d hr hs =>
    cases r with
    | ok a => exact (k a hr).agree hs
    | error e => exact .same hr hs
  | @cut e r c d he hr hc =>
    cases r with
    | ok a =>
      obtain ⟨hr, hc⟩ := (k a hr).stays hc
      exact .cut he hr hc
    | error x => exact .cut he hr hc

namespace Related

protected theorem pure (h : P a) : l.Related P (pure a) (pure a) where
  agree hs := .same h hs
  stays hc := ⟨h, hc⟩

protected theorem throw (h : l.exits e) : l.Related P (throw e) (throw e) where
  agree hs := .same h hs
  stays hc := ⟨h, hc⟩

protected theorem bind {p q : Cast α} {f g : α → Cast β} (h : l.Related P p q)
    (k : ∀ a, P a → l.Related Q (f a) (g a)) : l.Related Q (p >>= f) (q >>= g) := by
  constructor
  · intro c d hs
    rw [Cast.bind_apply, Cast.bind_apply]
    exact (h.agree hs).next k
  · intro e d hc
    rw [Cast.bind_apply]
    obtain ⟨hr, hc⟩ := h.stays hc
    rcases hq : q d with ⟨x | a, d'⟩ <;> rw [hq] at hr hc
    · exact ⟨hr, hc⟩
    · exact (k a hr).stays hc

theorem settle {p q : Cast α} {h : Except Exit α → Except Exit β} (hpq : l.Related P p q)
    (shown : ∀ r, l.shows P r → l.shows Q (h r))
    (kept : ∀ e, e.isJump = false → h (.error e) = .error e) :
    l.Related Q (Cast.settle h p) (Cast.settle h q) := by
  constructor
  · intro c d hs
    have ha := hpq.agree hs
    simp only [Cast.settle]
    generalize p c = x, q d = y at ha ⊢
    cases ha with
    | same hr hs => exact .same (shown _ hr) hs
    | cut he hr hc =>
      rw [kept _ he]
      exact .cut he (shown _ hr) hc
  · intro e d hc
    obtain ⟨hr, hc⟩ := hpq.stays hc
    exact ⟨shown _ hr, hc⟩

theorem returned (hu : l.values .undefined) (h : l.Related any p q) :
    l.Related l.values (Cast.returned p) (Cast.returned q) := by
  rw [Cast.returned_eq, Cast.returned_eq]
  refine h.settle ?_ ?_
  · rintro (e | a) hr
    · cases e <;> exact hr
    · exact hu
  · intro e he
    cases e <;> first | rfl | cases he

theorem loopBody (h : l.Related any p q) :
    l.Related any (Cast.loopBody p) (Cast.loopBody q) := by
  rw [Cast.loopBody_eq, Cast.loopBody_eq]
  refine h.settle ?_ ?_
  · rintro (e | a) hr
    · cases e <;> exact hr
    · trivial
  · intro e he
    cases e <;> first | rfl | cases he

theorem discard (h : l.Related P p q) : l.Related any (discard p) (discard q) := by
  rw [Cast.discard_eq, Cast.discard_eq]
  exact h.bind fun _ _ => .pure trivial

theorem forM {f g : α → Cast Unit} (xs : List α) (h : ∀ x ∈ xs, l.Related any (f x) (g x)) :
    l.Related any (xs.forM f) (xs.forM g) := by
  induction xs with
  | nil => exact .pure trivial
  | cons x xs ih =>
    apply Related.bind (h x List.mem_cons_self)
    intro _ _
    exact ih fun y hy => h y (List.mem_cons_of_mem x hy)

theorem mapM {f g : α → Cast β} (xs : List α) (h : ∀ x ∈ xs, l.Related Q (f x) (g x)) :
    l.Related (fun ys => ∀ y ∈ ys, Q y) (xs.mapM f) (xs.mapM g) := by
  induction xs with
  | nil => exact .pure (by simp)
  | cons x xs ih =>
    rw [List.mapM_cons, List.mapM_cons]
    apply Related.bind (h x List.mem_cons_self)
    intro y hy
    refine .bind (ih fun z hz => h z (List.mem_cons_of_mem x hz)) fun ys hys => ?_
    exact .pure (by simpa using ⟨hy, hys⟩)

end Related

structure Roams (l : Pairing) : Prop where
  current : l.states c d → d.current = c.current
  calls : l.states c d → d.calls = c.calls
  block : l.states c d →
    l.states (c.enter ⟨[], some c.current, false⟩) (d.enter ⟨[], some c.current, false⟩)
  frame (scope : Nat) : l.states c d →
    l.states (c.enter ⟨[], some scope, true⟩) (d.enter ⟨[], some scope, true⟩)
  leave : l.states c d → l.states c' d' →
    l.states { c' with current := c.current } { d' with current := c.current }
  deeper (n : Nat) : l.states c d → l.states { c with calls := n } { d with calls := n }
  cuts : l.cuts e d → d'.trail = d.trail → l.cuts e d'

namespace Roams

variable {p q : Cast α} {s : Scope} {c d : Casting}

theorem agree_within (hr : l.Roams) (h : l.Related P p q) (hs : l.states c d)
    (entered : l.states (c.enter s) (d.enter s)) :
    l.Agree P (Cast.within s p c) (Cast.within s q d) := by
  have ha := h.agree entered
  simp only [Cast.within, hr.current hs]
  generalize p (c.enter s) = x, q (d.enter s) = y at ha ⊢
  cases ha with
  | same hx hs' => exact .same hx (hr.leave hs hs')
  | cut he hx hc => exact .cut he hx (hr.cuts hc rfl)

theorem stays_within (hr : l.Roams) (h : l.Related P p q) (hc : l.cuts e d) :
    l.shows P (Cast.within s q d).1 ∧ l.cuts e (Cast.within s q d).2 := by
  have entered : l.cuts e (d.enter s) := hr.cuts hc rfl
  exact ⟨(h.stays entered).1, hr.cuts (h.stays entered).2 rfl⟩

theorem inBlock (hr : l.Roams) (h : l.Related P p q) :
    l.Related P (Cast.inBlock p) (Cast.inBlock q) where
  agree {c d} hs := by
    have ha := hr.agree_within h hs (hr.block hs)
    simpa only [Cast.inBlock, Cast.get_bind_apply, hr.current hs] using ha
  stays hc := hr.stays_within h hc

theorem inFrame (hr : l.Roams) (scope : Nat) (h : l.Related P p q) :
    l.Related P (Cast.inFrame scope p) (Cast.inFrame scope q) where
  agree {c d} hs := by
    have deeper := hr.deeper (c.calls + 1) hs
    have ha := hr.agree_within h deeper (hr.frame scope deeper)
    simp only [Cast.inFrame, hr.calls hs]
    generalize Cast.within ⟨[], some scope, true⟩ p { c with calls := c.calls + 1 } = x,
      Cast.within ⟨[], some scope, true⟩ q { d with calls := c.calls + 1 } = y at ha ⊢
    cases ha with
    | same hx hs' => exact .same hx (hr.deeper _ hs')
    | cut he hx hc => exact .cut he hx (hr.cuts hc rfl)
  stays {e d} hc := by
    have deeper : l.cuts e { d with calls := d.calls + 1 } := hr.cuts hc rfl
    obtain ⟨hx, hc⟩ := hr.stays_within (s := ⟨[], some scope, true⟩) h deeper
    exact ⟨hx, hr.cuts hc rfl⟩

end Roams

end Pairing

end Spellcraft
