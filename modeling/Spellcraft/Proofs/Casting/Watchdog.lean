import Spellcraft.Casting.Fault
import Spellcraft.Proofs.Casting.Gas
import Spellcraft.Proofs.Maze.Walk

/-!
The watchdog. Evaluation by the clock follows evaluation by the gas that is left, through every
statement and expression and every round of a loop, as long as the clock is set higher; so every run
ends. The clock's evaluation knows nothing of the gas, so the outcome does not depend on the bound.
-/

namespace Spellcraft

namespace Clocked.Follows

variable {limits : Limits} {count : Nat → Nat} {m n : Nat}

structure Below (count : Nat → Nat) (limits : Limits) (n m : Nat) : Prop where
  exec (s : Stmt) : Follows limits n 1 (Clocked.exec count limits m s) (Cast.exec limits n s)
  eval (e : Expr) : Follows limits n 1 (Clocked.eval count limits m e) (Cast.eval limits n e)

theorem declareAll (ih : Below count limits n m) (d : Declaration) :
    Follows limits n 0 (Clocked.declareAll (Clocked.eval count limits m) d)
      (Cast.declareAll (Cast.eval limits n) d) := by
  apply Follows.forM _
  intro v
  cases v.init with
  | none => exact .idle (.declare _ _ _)
  | some e => exact .bind (ih.eval e).weaken fun _ => .idle (.declare _ _ _)

theorem execList (ih : Below count limits n m) (body : List Stmt) :
    Follows limits n 0 (Clocked.execList (Clocked.exec count limits m) body)
      (Cast.execList (Cast.exec limits n) body) :=
  .bind (.idle (.hoistFunctions body)) fun _ => .forM body fun s => (ih.exec s).weaken

theorem startFor (ih : Below count limits n m) (init : ForInit) :
    Follows limits n 0 (Clocked.startFor (Clocked.eval count limits m) init)
      (Cast.startFor (Cast.eval limits n) init) := by
  cases init with
  | absent => exact .pure ()
  | declare d => exact declareAll ih d
  | expr e => exact (ih.eval e).weaken.discard

theorem stepFor (ih : Below count limits n m) (e : Option Expr) :
    Follows limits n 0 (Clocked.stepFor (Clocked.eval count limits m) e)
      (Cast.stepFor (Cast.eval limits n) e) := by
  cases e with
  | none => exact .pure _
  | some e =>
    rw [Cast.stepFor, Cast.discard_eq, bind_assoc]
    exact .bind (ih.eval e).weaken fun _ => .pure _

theorem whileRound (ih : Below count limits n m) (c : Expr) (body : Stmt) :
    Follows limits n 1
      (do if (← Clocked.eval count limits m c).isTruthy then
            Clocked.loopBody (Clocked.exec count limits m body)
          else return false)
      (Cast.whileRound (Cast.eval limits n) (Cast.exec limits n) c body) := by
  apply Follows.bind (ih.eval c)
  intro v
  cases v.isTruthy with
  | true => exact (ih.exec body).loopBody.weaken
  | false => exact .pure _

theorem doRound (ih : Below count limits n m) (body : Stmt) (c : Expr) :
    Follows limits n 1
      (do if ← Clocked.loopBody (Clocked.exec count limits m body) then
            return (← Clocked.eval count limits m c).isTruthy
          else return false)
      (Cast.doRound (Cast.eval limits n) (Cast.exec limits n) c body) := by
  apply Follows.bind (ih.exec body).loopBody
  intro go
  cases go with
  | true => exact .bind (ih.eval c).weaken fun _ => .pure _
  | false => exact .pure _

theorem forRound (ih : Below count limits n m) (c update : Option Expr) (body : Stmt) :
    Follows limits n 1
      (do if ← Clocked.testFor (Clocked.eval count limits m) c then
            if ← Clocked.loopBody (Clocked.exec count limits m body) then
              Clocked.stepFor (Clocked.eval count limits m) update
            else return false
          else return false)
      (Cast.forRound (Cast.eval limits n) (Cast.exec limits n) c update body) := by
  have rest : Follows limits n 1
      (do if ← Clocked.loopBody (Clocked.exec count limits m body) then
            Clocked.stepFor (Clocked.eval count limits m) update
          else return false)
      (do if ← Cast.loopBody (Cast.exec limits n body) then
            Cast.stepFor (Cast.eval limits n) update
          else return false) := by
    apply Follows.bind (ih.exec body).loopBody
    intro go
    cases go with
    | true => exact stepFor ih update
    | false => exact .pure _
  -- without a condition it is the body that uses gas
  cases c with
  | none =>
    simp only [Clocked.testFor, Cast.forRound, Cast.testFor, pure_bind]
    exact rest
  | some c =>
    simp only [Clocked.testFor, Cast.forRound, Cast.testFor, bind_assoc, pure_bind]
    apply Follows.bind (ih.eval c)
    intro v
    cases v.isTruthy with
    | true => exact rest.weaken
    | false => exact .pure _

theorem loop {q : Clocked Bool} (h : Follows limits n 1 q p) (hi : i ≤ n) (hij : i < j) :
    Follows limits i 0 (Clocked.loop q j) (Cast.repeatWhile limits p i) := by
  -- every round uses gas, so where none is left the round that follows does not end
  induction i generalizing j with
  | zero =>
    cases j with
    | zero => cases hij
    | succ j => exact (exhaust (h.lower hi) _ _).weaken
  | succ i ih =>
    cases j with
    | zero => cases hij
    | succ j =>
      refine (spend (h.lower hi) fun go => ?_).weaken
      cases go with
      | true => exact ih (by omega) (by omega)
      | false => exact .pure _

theorem callClosure (ih : Below count limits n m) (f : Closure) (args : List Value) (span : Span) :
    Follows limits n 0 (Clocked.callClosure (Clocked.exec count limits m) limits f args span)
      (Cast.callClosure limits (Cast.exec limits n) f args span) := by
  refine .bind (.idle (.checkDepth limits span)) fun _ => .returned (.inFrame ?_ f.scope)
  apply Follows.bind (.idle (.bindParams f.params args))
  intro _
  exact .bind (.idle (.hoistVars f.body)) fun _ => execList ih f.body

theorem assigned (ih : Below count limits n m) (op : AssignOp) (target : Ident) (e : Expr) :
    Follows limits n 0 (Clocked.assigned (Clocked.eval count limits m) limits op target e)
      (Cast.assigned limits (Cast.eval limits n) op target e) := by
  rw [Clocked.assigned, Cast.assigned]
  cases op.binary? with
  | none => exact (ih.eval e).weaken
  | some op =>
    refine .bind (.idle (.lookup _ _)) fun x => .bind (ih.eval e).weaken fun y => ?_
    exact .idle (.binary limits op x y _)

theorem stmt (hcount : ∀ g ≤ limits.gas, count g = g + 1) (ih : Below count limits n m)
    (hm : n < m) (s : Stmt) :
    Follows limits (n + 1) 1 (Clocked.exec count limits (m + 1) s)
      (Cast.exec limits (n + 1) s) := by
  rw [Clocked.exec.eq_def, Cast.exec.eq_def]
  refine (tick hcount).spend fun _ => ?_
  cases s with
  | declare d => exact declareAll ih d
  | branch _ c yes no =>
    apply Follows.bind (ih.eval c).weaken
    intro v
    cases v.isTruthy with
    | true => exact (ih.exec yes).weaken
    | false =>
      cases no with
      | none => exact .pure ()
      | some no => exact (ih.exec no).weaken
  | while_ _ c body => exact loop (whileRound ih c body) (Nat.le_refl n) hm
  | doWhile _ body c => exact loop (doRound ih body c) (Nat.le_refl n) hm
  | for_ _ init c update body =>
    refine .inBlock (.bind (startFor ih init) fun _ => ?_)
    exact loop (forRound ih c update body) (Nat.le_refl n) hm
  | block _ body => exact .inBlock (execList ih body)
  | return_ _ value =>
    cases value with
    | none => exact .throw rfl
    | some e => exact .bind (ih.eval e).weaken fun _ => .throw rfl
  | break_ | continue_ => exact .throw rfl
  | expr _ e => exact (ih.eval e).weaken.discard
  | function | empty => exact .pure ()

theorem expr (hcount : ∀ g ≤ limits.gas, count g = g + 1) (ih : Below count limits n m) (e : Expr) :
    Follows limits (n + 1) 1 (Clocked.eval count limits (m + 1) e)
      (Cast.eval limits (n + 1) e) := by
  rw [Clocked.eval.eq_def, Cast.eval.eq_def]
  refine (tick hcount).spend fun _ => ?_
  cases e with
  | number | text | bool | null => exact .pure _
  | name span name => exact .idle (.lookup name span)
  | call span callee args =>
    apply Follows.bind (ih.eval callee).weaken
    intro f
    refine .bind (.mapM args fun a => (ih.eval a).weaken) fun vs => ?_
    cases f with
    | command k => exact .idle (.command k span)
    | function g => exact callClosure ih g vs span
    | _ => exact .throw rfl
  | unary _ op e =>
    apply Follows.bind (ih.eval e).weaken
    intro v
    cases op <;> exact .pure _
  | binary span op a b =>
    refine .bind (ih.eval a).weaken fun x => .bind (ih.eval b).weaken fun y => ?_
    exact .idle (.binary limits op x y span)
  | logical _ op a b =>
    apply Follows.bind (ih.eval a).weaken
    intro x
    cases op <;> cases x.isTruthy <;> first | exact .pure x | exact (ih.eval b).weaken
  | conditional _ c a b =>
    apply Follows.bind (ih.eval c).weaken
    intro v
    cases v.isTruthy with
    | true => exact (ih.eval a).weaken
    | false => exact (ih.eval b).weaken
  | assign _ op target e =>
    apply Follows.bind (assigned ih op target e)
    intro v
    exact .bind (.idle (.assign target v)) fun _ => .pure v
  | update _ op before target => exact .idle (.update op before target)
  | paren _ e => exact (ih.eval e).weaken

theorem below (hcount : ∀ g ≤ limits.gas, count g = g + 1) (h : n < m) :
    Below count limits n m := by
  induction n generalizing m with
  | zero =>
    cases m with
    | zero => cases h
    | succ m =>
      constructor
      · intro s
        rw [Clocked.exec.eq_def, Cast.exec]
        exact exhaust (tick hcount) _ _
      · intro e
        rw [Clocked.eval.eq_def, Cast.eval]
        exact exhaust (tick hcount) _ _
  | succ n ih =>
    cases m with
    | zero => cases h
    | succ m =>
      have hm : n < m := by omega
      exact ⟨stmt hcount (ih hm) hm, expr hcount (ih hm)⟩

theorem run (hcount : ∀ g ≤ limits.gas, count g = g + 1) (h : n < m) (body : List Stmt) :
    Follows limits n 0 (Clocked.run count limits body m)
      (Cast.runBody (Cast.exec limits n) body) := by
  rw [Clocked.run, Cast.runBody_eq]
  apply Follows.bind (.idle (.hoistVars body))
  intro _
  exact (execList (below hcount h) body).settle Cast.isOver_takeEnd fun _ => rfl

end Clocked.Follows

/-- The bound that evaluation recurses on has no say, as long as it is not below the gas. -/
theorem Cast.runBody_exec (limits : Limits) (h : limits.gas ≤ n) (body : List Stmt)
    (hc : c.gas = 0) : runBody (exec limits n) body c = run limits body c := by
  have follows (k : Nat) (hk : limits.gas ≤ k) (hn : k ≤ n) :
      Clocked.run (· + 1) limits body (n + 1) c = some (runBody (exec limits k) body c) :=
    (Clocked.Follows.run (fun _ _ => rfl) (Nat.lt_succ_of_le hn) body c (by omega) (by omega)).1
  apply Option.some.inj
  rw [← follows n h (Nat.le_refl n), follows limits.gas (Nat.le_refl _) h, run]

theorem Fault.ofExit_ne_of_isWatchdog (h : e.isWatchdog = false) (m : Nat) :
    ofExit e ≠ .trap (.outOfGas m) := by
  cases e with
  | trap t => cases t <;> simp_all [ofExit, Exit.isWatchdog]
  | _ => simp [ofExit]

theorem Program.perform_of_spent (p : Program)
    (hrun : Cast.run limits p.body (.start maze start grant limits) = (r, d))
    (h : Clocked.Spent limits 0 (r, d)) :
    p.perform maze start grant limits = .error (.trap (.outOfGas limits.gas)) ∧
        d.gas = limits.gas + 1 ∨
      (∀ m, p.perform maze start grant limits ≠ .error (.trap (.outOfGas m))) ∧
        d.gas ≤ limits.gas := by
  simp only [perform, hrun]
  cases h with
  | gone hd => exact .inl ⟨rfl, hd⟩
  | left hr _ hd =>
    refine .inr ⟨fun m => ?_, hd⟩
    cases r with
    | ok a => simp
    | error e => simpa using Fault.ofExit_ne_of_isWatchdog hr m

/-- Counts in a word of 64 bits. -/
def wordSucc (g : Nat) : Nat := (g + 1) % UInt64.size

/-- Every run ends. It uses no more gas than there is, or one unit more if and only if the watchdog
ends it, so that a word of 64 bits counts right. -/
theorem Program.run_ends_within_gas (p : Program) (maze : Maze) (start : Position) (grant : Grant)
    (limits : Limits) (h : limits.gas < UInt64.size - 1) :
    ∃ r d,
      (∀ n, limits.gas < n →
        Clocked.run (· + 1) limits p.body n (.start maze start grant limits) = some (r, d) ∧
          Clocked.run wordSucc limits p.body n (.start maze start grant limits) = some (r, d)) ∧
      Cast.run limits p.body (.start maze start grant limits) = (r, d) ∧
      d.gas ≤ limits.gas + 1 ∧
      (p.perform maze start grant limits = .error (.trap (.outOfGas limits.gas)) ↔
        d.gas = limits.gas + 1) ∧
      ((∀ m, p.perform maze start grant limits ≠ .error (.trap (.outOfGas m))) ↔
        d.gas ≤ limits.gas) := by
  have hc : (Casting.start maze start grant limits).gas = 0 := rfl
  have hplain : ∀ g ≤ limits.gas, g + 1 = g + 1 := fun _ _ => rfl
  have hword : ∀ g ≤ limits.gas, wordSucc g = g + 1 := by
    intro g hg
    exact Nat.mod_eq_of_lt (by omega)
  rcases hrun : Cast.run limits p.body (.start maze start grant limits) with ⟨r, d⟩
  have ends {count : Nat → Nat} (hcount : ∀ g ≤ limits.gas, count g = g + 1) {n : Nat}
      (hn : limits.gas < n) :
      Clocked.run count limits p.body n (.start maze start grant limits) = some (r, d) ∧
        Clocked.Spent limits 0 (r, d) := by
    rw [← hrun]
    exact Clocked.Follows.run hcount hn p.body _ (by omega) (by omega)
  refine ⟨r, d, fun n hn => ⟨(ends hplain hn).1, (ends hword hn).1⟩, rfl, ?_⟩
  rcases p.perform_of_spent hrun (ends hplain (Nat.lt_succ_self _)).2 with ⟨hp, hd⟩ | ⟨hp, hd⟩
  · refine ⟨Nat.le_of_eq hd, iff_of_true hp hd, iff_of_false (fun hn => hn _ hp) ?_⟩
    omega
  · refine ⟨by omega, iff_of_false (hp _) ?_, iff_of_true hp hd⟩
    omega

def Program.spin : Program :=
  ⟨[.while_ (.point .origin) (.bool (.point .origin) true) (.empty (.point .origin))],
    .point .origin⟩

theorem Program.spin_ends_within_gas :
    (7 < UInt64.size - 1 ∧ spin.perform .corridor ⟨0, 0⟩ .standard ⟨0, 7, 0, 0⟩ =
        .error (.trap (.outOfGas 7))) ∧
      ∃ r d, Clocked.run wordSucc ⟨0, 7, 0, 0⟩ spin.body 8
          (.start .corridor ⟨0, 0⟩ .standard ⟨0, 7, 0, 0⟩) = some (r, d) ∧
        d.gas = 8 := by
  have hp : spin.perform .corridor ⟨0, 0⟩ .standard ⟨0, 7, 0, 0⟩ = .error (.trap (.outOfGas 7)) :=
    rfl
  obtain ⟨r, d, hends, -, -, hgas, -⟩ :=
    spin.run_ends_within_gas .corridor ⟨0, 0⟩ .standard ⟨0, 7, 0, 0⟩ (by decide)
  exact ⟨⟨by decide, hp⟩, r, d, (hends 8 (by decide)).2, hgas.1 hp⟩

end Spellcraft
