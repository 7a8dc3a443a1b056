import Spellcraft.Casting.Fault
import Spellcraft.Proofs.Casting.Bindings
import Spellcraft.Proofs.Casting.Trails

namespace Spellcraft

def Action.command : Action → Command
  | .move d => .move d
  | .lightTorch _ => .lightTorch

namespace Value

def IsGranted (g : Grant) : Value → Prop
  | .command k => k ∈ g.commands
  | _ => True

theorem IsGranted.of_isPlain {v : Value} (h : v.isPlain) : v.IsGranted g := by
  cases v <;> trivial

end Value

structure Casting.Confined (g : Grant) (c : Casting) : Prop where
  bound : c.store.All (·.IsGranted g)
  done : ∀ a ∈ c.trail.past, a.command ∈ g.commands

namespace Grant

def confinement (g : Grant) (limits : Limits) : Invariant where
  limits := limits
  states c := c.Confined g
  values v := v.IsGranted g

variable {g : Grant} {limits : Limits}

open Pairing (any)

theorem bound : (g.confinement limits).Bound fun t => ∀ a ∈ t.past, a.command ∈ g.commands where
  intro := Casting.Confined.mk
  store := Casting.Confined.bound
  trail := Casting.Confined.done
  undefined := trivial

theorem related_follow {step : Trail → Except Trap Trail} (h : k ∈ g.commands)
    (past : ∀ {t u}, step t = .ok u → ∃ a : Action, a.command = k ∧ u.past = a :: t.past) :
    (g.confinement limits).pairing.Related any (Cast.follow step) (Cast.follow step) := by
  refine Invariant.related fun {c} hc => ?_
  rw [Cast.follow_apply]
  cases hs : step c.trail with
  | error e => exact ⟨trivial, hc⟩
  | ok u =>
    obtain ⟨a, rfl, hu⟩ := past hs
    refine ⟨trivial, hc.bound, ?_⟩
    simp only [hu]
    exact List.forall_mem_cons.2 ⟨h, hc.done⟩

theorem related_command (k : Command) (h : k ∈ g.commands) (span : Span) :
    (g.confinement limits).pairing.Related (·.IsGranted g) (Cast.command k span)
      (Cast.command k span) := by
  cases k with
  | look d => exact Invariant.related fun hc => ⟨trivial, hc⟩
  | move d =>
    refine .bind (related_follow h fun hm => ?_) fun _ _ => .pure trivial
    exact ⟨_, rfl, Trail.past_of_move hm⟩
  | lightTorch =>
    refine .bind (related_follow h fun hm => ?_) fun _ _ => .pure trivial
    exact ⟨_, rfl, Trail.past_of_lightTorch hm⟩

theorem lawful : (g.confinement limits).pairing.Lawful :=
  bound.lawful (fun _ h _ => .of_isPlain h)
    (fun _ => ⟨fun _ _ _ => Pairing.quotes_any, fun _ => trivial⟩)
    (fun _ h _ => .of_isPlain h) fun k span h => related_command k h span

end Grant

theorem Casting.Confined.start (maze : Maze) (position : Position) (g : Grant) (limits : Limits) :
    (Casting.start maze position g limits).Confined g where
  bound := .initial trivial fun _ hk => hk
  done := List.forall_mem_nil _

theorem Watch.confined (limits : Limits) (body : List Stmt) (h : c.Confined g) :
    ∀ m ∈ (Watch.run limits body).seen c, m.state.Confined g ∧ ∀ v ∈ m.held, v.IsGranted g :=
  Keeps.run (k := g.confinement limits) Grant.lawful Grant.bound.roams
    (fun _ _ => Pairing.quotes_any) c h

/-- Whatever becomes of the commands on the way, in every state only granted ones are in hand or
bound in any scope, those that functions were made in among them. So only granted ones are done. -/
theorem Program.perform_confined (p : Program) (maze : Maze) (start : Position) (g : Grant)
    (limits : Limits) :
    (∀ m ∈ (Watch.run limits p.body).seen (.start maze start g limits),
      (∀ s ∈ m.state.store, ∀ b ∈ s.bindings, b.2.value.IsGranted g) ∧
        ∀ v ∈ m.held, v.IsGranted g) ∧
    ∀ actions, p.perform maze start g limits = .ok actions →
      (∀ d, .move d ∈ actions → .move d ∈ g.commands) ∧
        ∀ q, .lightTorch q ∈ actions → .lightTorch ∈ g.commands := by
  have seen := Watch.confined limits p.body (.start maze start g limits)
  refine ⟨fun m hm => ⟨(seen m hm).1.bound, (seen m hm).2⟩, fun actions h => ?_⟩
  -- what was done stands on the trail of the last state
  have last := (seen _ (Watch.finish_mem_around _ _ _)).1.done
  rw [perform] at h
  generalize Cast.run limits p.body (.start maze start g limits) = x at h last
  rcases x with ⟨e | _, c⟩
  · cases h
  · cases h
    have done (a : Action) (ha : a ∈ c.trail.actions) : a.command ∈ g.commands :=
      last a (List.mem_reverse.1 ha)
    exact ⟨fun d => done (.move d), fun q => done (.lightTorch q)⟩

def Program.borrowed : Program :=
  let s : Span := .point .origin
  let pick : Stmt := .function s ⟨"pick", s⟩ [⟨"x", s⟩] s [.return_ s (some (.name s "x"))]
  let picked : Expr := .call s (.name s "pick") [.name s "moveRight"]
  ⟨[pick, .expr s (.call s picked [])], s⟩

theorem Program.perform_confined_borrowed :
    let g : Grant := .restricted ["moveRight"]
    let limits : Limits := ⟨1, 20, 1, 0⟩
    borrowed.perform .corridor ⟨0, 0⟩ g limits = .ok [.move .right] ∧
      .move .right ∈ g.commands ∧
      ∃ m ∈ (Watch.run limits borrowed.body).seen (.start .corridor ⟨0, 0⟩ g limits),
        ∃ v ∈ m.held, v.strictEq (.command (.move .right)) = true ∧ v.IsGranted g := by
  intro g limits
  have hp : borrowed.perform .corridor ⟨0, 0⟩ g limits = .ok [.move .right] := by decide +kernel
  obtain ⟨seen, done⟩ := borrowed.perform_confined .corridor ⟨0, 0⟩ g limits
  have held : ((Watch.run limits borrowed.body).seen (.start .corridor ⟨0, 0⟩ g limits)).any
      (fun m => m.held.any (·.strictEq (.command (.move .right)))) = true := by decide +kernel
  obtain ⟨m, hm, hv⟩ := List.any_eq_true.1 held
  obtain ⟨v, hv, heq⟩ := List.any_eq_true.1 hv
  have right : Command.move .right ∈ g.commands :=
    (done _ hp).1 .right (List.mem_singleton_self _)
  exact ⟨hp, right, m, hm, v, hv, heq, (seen m hm).2 v hv⟩

end Spellcraft
