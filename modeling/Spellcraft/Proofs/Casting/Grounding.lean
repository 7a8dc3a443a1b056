import Spellcraft.Language.ParseStmt
import Spellcraft.Proofs.Casting.Balance
import Spellcraft.Proofs.Casting.HeldRuns
import Spellcraft.Proofs.Casting.Outward
import Spellcraft.Proofs.Casting.Steering

namespace Spellcraft

def Value.StandsIn (P : Nat → Prop) : Value → Prop
  | .function f => P f.scope
  | _ => True

theorem Value.StandsIn.of_isPlain {P : Nat → Prop} {v : Value} (h : v.isPlain) : v.StandsIn P := by
  cases v with
  | function => cases h
  | _ => trivial

theorem Value.StandsIn.imp {P Q : Nat → Prop} {v : Value} (h : v.StandsIn P)
    (hpq : ∀ i, P i → Q i) : v.StandsIn Q := by
  cases v with
  | function f => exact hpq f.scope h
  | _ => trivial

instance (P : Nat → Prop) [DecidablePred P] : DecidablePred (Value.StandsIn P)
  | .function f => inferInstanceAs (Decidable (P f.scope))
  | .number _ | .text _ | .bool _ | .null | .undefined | .command _ => .isTrue trivial

/-- It holds of the current scope, and of those of the functions that are bound anywhere or in
hand. -/
structure Moment.StandsIn (P : Nat → Prop) (m : Moment) : Prop where
  current : P m.state.current
  stored : m.state.store.All (·.StandsIn P)
  held : ∀ v ∈ m.held, v.StandsIn P

theorem Moment.StandsIn.imp {P Q : Nat → Prop} {m : Moment} (h : m.StandsIn P)
    (hpq : ∀ i, P i → Q i) : m.StandsIn Q where
  current := hpq _ h.current
  stored s hs b hb := (h.stored s hs b hb).imp hpq
  held v hv := (h.held v hv).imp hpq

namespace Moment

structure Anchored (g : Grant) (m : Moment) : Prop where
  nested : m.state.store.Nested g
  stands : m.StandsIn m.state.store.Owns

namespace Anchored

variable {g : Grant} {m : Moment} {c d : Casting} {l : List Value}

theorem start (maze : Maze) (position : Position) (limits : Limits) :
    Anchored g ⟨.start maze position g limits, []⟩ where
  nested := .initial g
  stands := {
    current := ⟨Nat.one_pos, Nat.one_lt_two⟩
    stored := .initial trivial fun _ _ => trivial
    held := List.forall_mem_nil _ }

theorem grounded (h : m.Anchored g) : m.StandsIn (m.state.store.Grounded g) :=
  h.stands.imp fun _ hi => h.nested.grounded hi

theorem receives (h : Anchored g ⟨c, l⟩) (hi : c.Receives name i) : 0 < i := by
  cases hi with
  | here => exact h.stands.current.1
  | host => exact h.nested.rooted.host_pos h.stands.current.1
  | found hf hb changes => exact h.nested.rooted.find?_pos hf hb changes

theorem bind (h : Anchored g ⟨c, l⟩) (hi : 0 < i) (name : String) (constant : Bool) (hv : v ∈ l) :
    Anchored g ⟨{ c with store := c.store.bind i name ⟨v, constant⟩ }, l⟩ := by
  have grown := Store.Grows.bind c.store i name ⟨v, constant⟩
  obtain ⟨current, stored, held⟩ := h.stands.imp fun _ hj => hj.mono grown.size
  exact ⟨h.nested.bind hi name _, ⟨current, stored.bind (held v hv) i name, held⟩⟩

theorem enter (h : Anchored g ⟨c, l⟩) (hp : c.store.Owns p) (hosts : Bool) :
    Anchored g ⟨c.enter ⟨[], some p, hosts⟩, l⟩ := by
  have grown := Store.Grows.push c.store ⟨[], some p, hosts⟩
  obtain ⟨-, stored, held⟩ := h.stands.imp fun _ hj => hj.mono grown.size
  have inside : c.store.size < (c.enter ⟨[], some p, hosts⟩).store.size := by simp [Casting.enter]
  exact ⟨h.nested.push hp hosts, ⟨⟨Nat.zero_lt_of_lt hp.2, inside⟩, stored.push _ _, held⟩⟩

theorem take (h : Anchored g ⟨c, l⟩) (hv : v.StandsIn c.store.Owns) : Anchored g ⟨c, v :: l⟩ :=
  ⟨h.nested, ⟨h.stands.current, h.stands.stored, List.forall_mem_cons.2 ⟨hv, h.stands.held⟩⟩⟩

theorem stable (g : Grant) : Stable (Anchored g) where
  forget hs h :=
    ⟨h.nested, ⟨h.stands.current, h.stands.stored, fun v hv => h.stands.held v (hs hv)⟩⟩
  plain hv h := h.take (.of_isPlain hv)
  still {_ c d} h store current := by
    obtain ⟨nested, ⟨here, stored, held⟩⟩ := h
    cases d
    cases store
    cases current
    exact ⟨nested, ⟨here, stored, held⟩⟩
  read hb h := h.take (h.stands.stored.get? hb)
  write constant hi hv h := h.bind (h.receives hi) _ constant hv
  make _ _ _ _ h := h.take h.stands.current
  block h := h.enter h.stands.current false
  frame hf h := h.enter (h.stands.held _ hf) true
  leave hc grown hd :=
    ⟨hd.nested, ⟨hc.stands.current.mono grown.size, hd.stands.stored, hd.stands.held⟩⟩

end Anchored

end Moment

inductive Stmt.Inner (limits : Limits) (n : Nat) : Stmt → Cast Unit → Prop
  | block (span : Span) (body : List Stmt) :
    Inner limits n (.block span body) (Cast.execList (Cast.exec limits n) body)
  | for_ (span : Span) (init : ForInit) (c update : Option Expr) (body : Stmt) :
    Inner limits n (.for_ span init c update body) do
      Cast.startFor (Cast.eval limits n) init
      Cast.repeatWhile limits
        (Cast.forRound (Cast.eval limits n) (Cast.exec limits n) c update body) n

namespace Stmt.Inner

variable {limits : Limits} {s : Stmt} {q : Cast Unit}

theorem exec_eq (h : s.Inner limits n q) :
    Cast.exec limits (n + 1) s = Cast.tick limits >>= fun _ => Cast.popped q := by
  cases h with
  | block span body => exact (Cast.balanced limits n).block span body
  | for_ span init c update body => exact (Cast.balanced limits n).loop span init c update body

theorem sustains (h : s.Inner limits n q) : ∃ w : Watch q, w.Sustains [] Watch.nothing := by
  obtain ⟨he, hx⟩ := Watch.Sustains.below limits n
  cases h with
  | block span body => exact ⟨_, .execList hx body⟩
  | for_ span init c update body =>
    exact ⟨_, .bind (.startFor he init) fun _ => .repeatWhile (.forRound he hx c update body) n⟩

theorem leaves (h : s.Inner limits n q) {m : Moment} (hm : m.Anchored g) :
    let d := (q (m.state.enter ⟨[], some m.state.current, false⟩)).2
    d.current ≠ Store.global ∧ d.leave.current = m.state.current ∧
      d.leave.store.Grounded g d.leave.current := by
  intro d
  obtain ⟨w, hw⟩ := h.sustains
  have entered := hm.enter hm.stands.current false
  obtain ⟨-, ended, kept⟩ := hw _ (Moment.Anchored.stable g) _ _ (List.nil_subset _) entered
  have grown : m.state.store.Grows d.store := .trans (.push _ _) kept.grown
  have back : d.leave = { d with current := m.state.current } := Casting.leave_of_kept kept
  rw [back, kept.current]
  refine ⟨Nat.ne_of_gt hm.nested.owns_global.2, rfl, ?_⟩
  exact ended.nested.grounded (hm.stands.current.mono grown.size)

end Stmt.Inner

/-- Wherever a run gets, from the current scope, from those of the functions that are bound or in
hand and from those that it stood in before the way outward ends: past the global scope in what was
granted. So every search for a name or for a host comes to an end, the latter in a scope of the
spell's own; and to leave the scope of a block or of a loop leads back to where the statement began,
so never past the global scope. -/
theorem Program.run_grounded (p : Program) (maze : Maze) (start : Position) (grant : Grant)
    (limits : Limits) :
    let seen := (Watch.run limits p.body).seen (.start maze start grant limits)
    (∀ m ∈ seen, m.StandsIn (m.state.store.Grounded grant)) ∧
    (seen.Pairwise fun m n => n.state.store.Grounded grant m.state.current) ∧
    ∀ n s q, Stmt.Inner limits n s q →
      Cast.exec limits (n + 1) s = (Cast.tick limits >>= fun _ => Cast.popped q) ∧
      ∀ m ∈ seen, let d := (q (m.state.enter ⟨[], some m.state.current, false⟩)).2
        d.current ≠ Store.global ∧ d.leave.current = m.state.current ∧
          d.leave.store.Grounded grant d.leave.current := by
  intro seen
  have anchored : ∀ m ∈ seen, m.Anchored grant :=
    Watch.forall_seen_of_stable (Moment.Anchored.stable grant) (.start maze start limits) limits
      p.body
  have course : Course grant _ seen _ :=
    (Watch.passes_run (.start maze start grant limits) (.start maze start grant limits)
      (.start maze start grant limits) p.body).course
  refine ⟨fun m hm => (anchored m hm).grounded, ?_, fun n s q inner => ⟨inner.exec_eq, ?_⟩⟩
  · refine course.pairwise.imp_of_mem fun {m n} hm hn steady => ?_
    exact (anchored n hn).nested.grounded ((anchored m hm).stands.current.mono steady.size)
  · exact fun m hm => inner.leaves (anchored m hm)

def Program.lingering : Program := (parseText <|
  "function outer(f) { { function inner() { { moveRight(); } } f = inner; } f(); } outer();").1

theorem Program.run_grounded_lingering :
    let limits : Limits := ⟨1, 40, 2, 0⟩
    let seen := (Watch.run limits lingering.body).seen (.start .corridor ⟨0, 0⟩ .standard limits)
    lingering.perform .corridor ⟨0, 0⟩ .standard limits = .ok [.move .right] ∧
      (∃ m ∈ seen, ∃ v ∈ m.held, ¬ v.StandsIn (· ≤ m.state.current) ∧
        v.StandsIn (m.state.store.Grounded .standard)) ∧
      ∃ m ∈ seen.take 30, ∃ n ∈ seen.drop 30, Store.global < m.state.current ∧
        m.state.current < n.state.current ∧ n.state.store.Grounded .standard m.state.current ∧
        (Cast.execList (Cast.exec limits 9) lingering.body
          (m.state.enter ⟨[], some m.state.current, false⟩)).2.leave.current = m.state.current := by
  intro limits seen
  obtain ⟨grounded, later, left⟩ := lingering.run_grounded .corridor ⟨0, 0⟩ .standard limits
  refine ⟨by decide +kernel, ?_, ?_⟩
  · have late : ∃ m ∈ seen, ∃ v ∈ m.held, ¬ v.StandsIn (· ≤ m.state.current) := by decide +kernel
    obtain ⟨m, hm, v, hv, late⟩ := late
    exact ⟨m, hm, v, hv, late, (grounded m hm).held v hv⟩
  · have deep : ∃ m ∈ seen.take 30, ∃ n ∈ seen.drop 30, Store.global < m.state.current ∧
        m.state.current < n.state.current := by decide +kernel
    obtain ⟨m, hm, n, hn, global, deep⟩ := deep
    change seen.Pairwise _ at later
    rw [← List.take_append_drop 30 seen, List.pairwise_append] at later
    obtain ⟨-, left⟩ := left 9 _ _ (.block ⟨⟨1, 1⟩, ⟨1, 1⟩⟩ lingering.body)
    refine ⟨m, hm, n, hn, global, deep, later.2.2 m hm n hn, ?_⟩
    exact (left m (List.mem_of_mem_take hm)).2.1

end Spellcraft
