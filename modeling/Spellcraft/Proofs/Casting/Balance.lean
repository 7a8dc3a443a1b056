import Mathlib.Control.Monad.Basic
import Spellcraft.Language.ParseStmt
import Spellcraft.Proofs.Casting.Frames

/-!
Balance. The evaluator keeps the scope and the depth of calls in hand while it runs a block or a
function, and puts them back. It would come to the same if it only went back by one step: from the
scope that a block ends in to the one around it, and from the depth that a call ends in to one less.
-/

namespace Spellcraft

def Casting.leave (c : Casting) : Casting :=
  { c with current := (c.store[c.current]?.bind (·.parent)).getD c.current }

theorem Casting.leave_of_kept {c d : Casting} {hosts : Bool}
    (h : (c.enter ⟨[], some c.current, hosts⟩).Kept d) :
    d.leave = { d with current := c.current } := by
  obtain ⟨s, hs, parent, -⟩ := h.grown.scopes Array.getElem?_push_size
  rw [leave, h.current, enter, hs, Option.bind_some, parent, Option.getD_some]

namespace Cast

def popped (p : Cast α) : Cast α := fun c =>
  let (r, d) := p (c.enter ⟨[], some c.current, false⟩)
  (r, d.leave)

def counted (scope : Nat) (p : Cast α) : Cast α := fun c =>
  let (r, d) := within ⟨[], some scope, true⟩ p { c with calls := c.calls + 1 }
  (r, { d with calls := d.calls - 1 })

/-- However it ends, the scope and the depth of calls are those from before. -/
def Returns (p : Cast α) : Prop :=
  ∀ c, (p c).2.current = c.current ∧ (p c).2.calls = c.calls

theorem inBlock_eq_popped {p : Cast α} (h : ∀ c : Casting, c.Kept (p c).2) :
    inBlock p = popped p := by
  funext c
  exact congrArg (Prod.mk _) (Casting.leave_of_kept (h _)).symm

theorem inFrame_eq_counted {p : Cast α} (h : ∀ c : Casting, c.Kept (p c).2) (scope : Nat) :
    inFrame scope p = counted scope p := by
  funext c
  let entered := Casting.enter { c with calls := c.calls + 1 } ⟨[], some scope, true⟩
  have less : c.calls = (p entered).2.calls - 1 := by
    rw [(h entered).calls]
    exact (Nat.add_sub_cancel ..).symm
  exact congrArg
    (fun calls => ((p entered).1, { (p entered).2 with current := c.current, calls })) less

structure Balanced (limits : Limits) (n : Nat) : Prop where
  stmt (s : Stmt) : (exec limits n s).Returns
  expr (e : Expr) : (eval limits n e).Returns
  block (span : Span) (body : List Stmt) : exec limits (n + 1) (.block span body) =
    tick limits >>= fun _ => popped (execList (exec limits n) body)
  loop (span : Span) (init : ForInit) (c update : Option Expr) (body : Stmt) :
    exec limits (n + 1) (.for_ span init c update body) = tick limits >>= fun _ => popped do
      startFor (eval limits n) init
      repeatWhile limits (forRound (eval limits n) (exec limits n) c update body) n
  call (f : Closure) (args : List Value) (span : Span) :
    callClosure limits (exec limits n) f args span = (do
      checkDepth limits span
      returned <| counted f.scope do
        bindParams f.params args
        hoistVars f.body
        execList (exec limits n) f.body)

theorem balanced (limits : Limits) (n : Nat) : Balanced limits n := by
  have law := Visits.Level.lawful limits
  have below := law.below n
  have list (body : List Stmt) :=
    law.listed (n := n) below.stmt (List.Subset.refl (bodyVars body))
  have returns {α : Type} {p : Cast α} (h : ∀ c : Casting, c.Kept (p c).2) : p.Returns :=
    fun c => ⟨(h c).current, (h c).calls⟩
  constructor
  case stmt => exact fun s => returns fun c => (below.stmt _ s (List.Subset.refl _) c).kept
  case expr => exact fun e => returns fun c => (below.expr e c).kept
  case block =>
    intro span body
    rw [← inBlock_eq_popped fun c => (list body c).kept]
    rfl
  case loop =>
    intro span init c update body
    rw [← inBlock_eq_popped fun d => (law.forLoop below (List.Subset.refl _) c update d).kept]
    rfl
  case call =>
    intro f args span
    have called := law.bind (law.bindParams f.params args) fun _ =>
      law.hoistVars f.body (list f.body)
    rw [← inFrame_eq_counted fun c => (called c).kept]
    rfl

theorem returns_evaluated (limits : Limits) (es : List Expr) (c : Casting) :
    let d := es.foldl (fun d e => (evaluate limits e d).2) c
    d.current = c.current ∧ d.calls = c.calls := by
  induction es generalizing c with
  | nil => exact ⟨rfl, rfl⟩
  | cons e es ih =>
    have back := (balanced limits (limits.gas - c.gas)).expr e c
    exact ⟨(ih _).1.trans back.1, (ih _).2.trans back.2⟩

end Cast

theorem Program.perform_eq_tooManyCalls (p : Program) (maze : Maze) (start : Position)
    (grant : Grant) (limits : Limits) (limit : Nat) (span : Span) :
    p.perform maze start grant limits = .error (.trap (.tooManyCalls limit span)) ↔
      (Cast.run limits p.body (.start maze start grant limits)).1 =
        .error (.trap (.tooManyCalls limit span)) := by
  rw [perform]
  rcases Cast.run limits p.body _ with ⟨e | _, c⟩
  · cases e <;> simp [Fault.ofExit]
  · simp

/-- Whatever a statement or an expression ends in, it ends in the scope and at the depth of calls
that it began in; to go back one step from where a block or a call ended comes to the same. So the
depth is the number of functions that are being executed and stays within its bound, and a run ends
in the trap about calls where one would be called beyond the bound, and only there. After
expressions that failed the next one begins in the global scope. -/
theorem Program.run_balanced (p : Program) (maze : Maze) (start : Position) (grant : Grant)
    (limits : Limits) :
    let first := Casting.start maze start grant limits
    let visits := (Visits.run limits p.body).list first
    (∀ n, Cast.Balanced limits n) ∧
    (∀ v ∈ visits, v.state.calls = v.frames ∧ v.frames ≤ limits.calls) ∧
    (∀ limit span, p.perform maze start grant limits = .error (.trap (.tooManyCalls limit span)) ↔
      limit = limits.calls ∧ ∃ v ∈ visits, v.frames = limits.calls ∧ v.Calls span) ∧
    ∀ es : List Expr, let later := es.foldl (fun c e => (Cast.evaluate limits e c).2) first
      later.current = Store.global ∧ later.calls = 0 := by
  intro first visits
  have level : Levelled limits first visits (Cast.run limits p.body first) :=
    (Visits.Level.lawful limits).run p.body first
  have depth (v : Visit) (hv : v ∈ visits) : v.state.calls = v.frames := by
    rw [level.depth v hv]
    exact Nat.zero_add _
  have bounded (v : Visit) (hv : v ∈ visits) : v.frames ≤ limits.calls := by
    rw [← depth v hv]
    exact level.bounded (Nat.zero_le _) v hv
  refine ⟨Cast.balanced limits, fun v hv => ⟨depth v hv, bounded v hv⟩, fun limit span => ?_, ?_⟩
  · rw [perform_eq_tooManyCalls, level.refused limit span]
    refine and_congr_right fun _ => exists_congr fun v => and_congr_right fun hv => ?_
    rw [depth v hv]
    exact and_congr_left fun _ => ⟨Nat.le_antisymm (bounded v hv), Nat.le_of_eq ∘ Eq.symm⟩
  · exact fun es => Cast.returns_evaluated limits es first

def Program.sinking : Program :=
  (parseText "function sink(to) { moveRight(); { sink(to); } } sink(moveLeft);").1

theorem Program.run_balanced_sinking :
    let limits : Limits := ⟨9, 90, 2, 0⟩
    let first := Casting.start .corridor ⟨0, 0⟩ .standard limits
    let visits := (Visits.run limits sinking.body).list first
    let span : Span := ⟨⟨1, 36⟩, ⟨1, 43⟩⟩
    sinking.perform .corridor ⟨0, 0⟩ .standard limits = .error (.trap (.tooManyCalls 2 span)) ∧
      (∃ v ∈ visits, v.state.calls = 2 ∧ v.Calls span) ∧ ∀ v ∈ visits, v.state.calls ≤ 2 := by
  intro limits first visits span
  have fails : sinking.perform .corridor ⟨0, 0⟩ .standard limits =
      .error (.trap (.tooManyCalls 2 span)) := by decide +kernel
  obtain ⟨-, depth, refused, -⟩ := sinking.run_balanced .corridor ⟨0, 0⟩ .standard limits
  obtain ⟨-, v, hv, frames, calls⟩ := (refused 2 span).1 fails
  refine ⟨fails, ⟨v, hv, (depth v hv).1.trans frames, calls⟩, fun w hw => ?_⟩
  rw [(depth w hw).1]
  exact (depth w hw).2

end Spellcraft
