import Spellcraft.Proofs.Casting.Steps

namespace Spellcraft

def Stmt.isLoop : Stmt → Bool
  | .while_ .. | .doWhile .. | .for_ .. => true
  | _ => false

def Exit.isLoopJump : Exit → Bool
  | .break_ | .continue_ => true
  | .trap _ | .unknown .. | .return_ _ => false

namespace Cast

inductive Rounds (round : Cast Bool) : Nat → Casting → Casting → Prop
  | start : Rounds round 0 c c
  | again : round c = (.ok true, c') → Rounds round i c' d → Rounds round (i + 1) c d

def ComesTo (exec : Stmt → Cast Unit) (body : List Stmt) (c : Casting) (t : Stmt) (d : Casting) :
    Prop :=
  ∃ before after, body = before ++ t :: after ∧
    (hoistFunctions body >>= fun _ => before.forM exec) c = (.ok (), d)

/-- A statement, begun in `c` with gas for `n + 1` levels, comes to the statement `t` in it in `d`,
with gas for `n`. -/
inductive Part (limits : Limits) (n : Nat) (c : Casting) : Stmt → Stmt → Casting → Prop
  | yes : tick limits c = (.ok (), c₀) → eval limits n e c₀ = (.ok v, d) → v.isTruthy = true →
    Part limits n c (.branch span e t no) t d
  | no : tick limits c = (.ok (), c₀) → eval limits n e c₀ = (.ok v, d) → v.isTruthy = false →
    Part limits n c (.branch span e yes (some t)) t d
  | block : tick limits c = (.ok (), c₀) →
    ComesTo (exec limits n) body (c₀.enter ⟨[], some c₀.current, false⟩) t d →
    Part limits n c (.block span body) t d
  | while_ : tick limits c = (.ok (), c₀) →
    Rounds (whileRound (eval limits n) (exec limits n) e t) i c₀ c₁ → i ≤ n →
    eval limits n e c₁ = (.ok v, d) → v.isTruthy = true →
    Part limits n c (.while_ span e t) t d
  | doWhile : tick limits c = (.ok (), c₀) →
    Rounds (doRound (eval limits n) (exec limits n) e t) i c₀ d → i ≤ n →
    Part limits n c (.doWhile span t e) t d
  | for_ : tick limits c = (.ok (), c₀) →
    startFor (eval limits n) init (c₀.enter ⟨[], some c₀.current, false⟩) = (.ok (), c₁) →
    Rounds (forRound (eval limits n) (exec limits n) e step t) i c₁ c₂ → i ≤ n →
    testFor (eval limits n) e c₂ = (.ok true, d) →
    Part limits n c (.for_ span init e step t) t d

theorem forM_append_error {exec : Stmt → Cast Unit} (hd : before.forM exec c = (.ok (), d))
    (he : exec t d = (.error e, d')) (after : List Stmt) :
    (before ++ t :: after).forM exec c = (.error e, d') := by
  induction before generalizing c with
  | nil =>
    cases hd
    rw [List.nil_append, List.forM, bind_apply, he]
    rfl
  | cons s before ih =>
    rw [List.forM, bind_apply] at hd
    rw [List.cons_append, List.forM, bind_apply]
    rcases hs : exec s c with ⟨e' | _, c'⟩ <;> rw [hs] at hd
    · cases hd
    · exact ih hd

theorem ComesTo.error {exec : Stmt → Cast Unit} (h : ComesTo exec body c t d)
    (he : exec t d = (.error e, d')) : execList exec body c = (.error e, d') := by
  obtain ⟨before, after, rfl, hd⟩ := h
  rw [bind_apply] at hd
  rw [execList, bind_apply]
  rcases hf : hoistFunctions (before ++ t :: after) c with ⟨e' | _, c'⟩ <;> rw [hf] at hd
  · cases hd
  · exact forM_append_error hd he after

theorem Rounds.repeatWhile {round : Cast Bool} (h : Rounds round i c d) (hi : i ≤ n)
    (hd : (round d).1 ≠ .ok true) :
    repeatWhile limits round n c = next (fun _ => pure ()) (round d) := by
  induction h generalizing n with
  | start =>
    cases n <;> rw [Cast.repeatWhile, bind_apply] <;>
    · rcases hr : round _ with ⟨e | _ | _, d'⟩
      · rfl
      · rfl
      · rw [hr] at hd
        exact absurd rfl hd
  | @again c c' i d hc _ ih =>
    obtain ⟨n, rfl⟩ : ∃ m, n = m + 1 := ⟨n - 1, by omega⟩
    rw [Cast.repeatWhile, bind_apply, hc]
    exact ih (by omega) hd

def pastLoop : Exit → Except Exit Unit
  | .break_ => .ok ()
  | e => .error e

theorem takeJump_ne_true (hc : e ≠ .continue_) : takeJump (.error e) ≠ .ok true := by
  cases e with
  | continue_ => exact absurd rfl hc
  | _ => nofun

theorem Rounds.leave {round : Cast Bool} (h : Rounds round i c d) (hi : i ≤ n)
    (hc : e ≠ .continue_) (hd : round d = (takeJump (.error e), d')) :
    (Cast.repeatWhile limits round n c).1 = pastLoop e := by
  rw [h.repeatWhile hi (by rw [hd]; exact takeJump_ne_true hc), hd]
  cases e <;> first | rfl | exact absurd rfl hc

theorem loopBody_error {p : Cast Unit} (h : p c = (.error e, d)) :
    loopBody p c = (takeJump (.error e), d) := by
  rw [loopBody_eq, settle, h]

theorem loopBody_bind {p : Cast Unit} (h : p c = (.error e, d)) (hc : e ≠ .continue_)
    (more : Cast Bool) :
    (loopBody p >>= fun go => if go then more else return false) c = (takeJump (.error e), d) := by
  rw [bind_apply, loopBody_error h]
  cases e <;> first | rfl | exact absurd rfl hc

theorem inBlock_fst (p : Cast α) (c : Casting) :
    (inBlock p c).1 = (p (c.enter ⟨[], some c.current, false⟩)).1 := rfl

namespace Part

variable {s t : Stmt}

theorem error (h : Part limits n c s t d) (hs : s.isLoop = false)
    (he : exec limits n t d = (.error e, d')) : (exec limits (n + 1) s c).1 = .error e := by
  rw [exec.eq_def]
  cases h with
  | yes ht hv htrue => simp only [bind_apply, ht, hv, htrue, next, if_true, he]
  | no ht hv hfalse => simp [bind_apply, ht, hv, hfalse, next, he]
  | block ht hd =>
    simp only [bind_apply, ht, next, inBlock_fst]
    rw [hd.error he]
  | while_ | doWhile | for_ => cases hs

theorem loop (h : Part limits n c s t d) (hs : s.isLoop = true)
    (he : exec limits n t d = (.error e, d')) (hc : e ≠ .continue_) :
    (exec limits (n + 1) s c).1 = pastLoop e := by
  rw [exec.eq_def]
  cases h with
  | while_ ht hr hi hv htrue =>
    simp only [bind_apply, ht, next]
    refine hr.leave hi hc (?_ : _ = (_, d'))
    simp only [whileRound, bind_apply, hv, htrue, next, if_true]
    exact loopBody_error he
  | doWhile ht hr hi =>
    simp only [bind_apply, ht, next]
    refine hr.leave hi hc (?_ : _ = (_, d'))
    exact loopBody_bind he hc _
  | for_ ht hstart hr hi hv =>
    simp only [bind_apply, ht, next, inBlock_fst, hstart]
    refine hr.leave hi hc (?_ : _ = (_, d'))
    rw [forRound, bind_apply, hv]
    exact loopBody_bind he hc _
  | yes | no | block => cases hs

end Part

def CallsTo (limits : Limits) (n : Nat) (f : Closure) (args : List Value) (span : Span)
    (c : Casting) (t : Stmt) (d : Casting) : Prop :=
  ∃ c₀, checkDepth limits span c = (.ok (), c) ∧
    (bindParams f.params args >>= fun _ => hoistVars f.body)
      (Casting.enter { c with calls := c.calls + 1 } ⟨[], some f.scope, true⟩) = (.ok (), c₀) ∧
    ComesTo (exec limits n) f.body c₀ t d

theorem CallsTo.error (h : CallsTo limits n f args span c t d)
    (he : exec limits n t d = (.error e, d')) :
    (callClosure limits (exec limits n) f args span c).1 = takeReturn (.error e) := by
  obtain ⟨c₀, hdepth, hc, hd⟩ := h
  have body : (bindParams f.params args >>= fun _ => hoistVars f.body >>= fun _ =>
      execList (exec limits n) f.body)
        (Casting.enter { c with calls := c.calls + 1 } ⟨[], some f.scope, true⟩) =
      (.error e, d') := by
    rw [← bind_assoc, bind_apply, hc]
    exact hd.error he
  rw [callClosure, bind_apply, hdepth, returned_eq]
  simp only [next, settle, inFrame, within]
  rw [body]

/-- A run, begun in `c`, comes to the statement `t` of the spell in `d`. -/
def RunsTo (limits : Limits) (body : List Stmt) (c : Casting) (t : Stmt) (d : Casting) : Prop :=
  ∃ c₀, hoistVars body c = (.ok (), c₀) ∧ ComesTo (exec limits limits.gas) body c₀ t d

theorem RunsTo.error (h : RunsTo limits body c t d)
    (he : exec limits limits.gas t d = (.error e, d')) :
    run limits body c = (takeEnd (.error e), d') := by
  obtain ⟨c₀, hc, hd⟩ := h
  rw [run, runBody_eq, bind_apply, hc]
  simp only [next, settle]
  rw [hd.error he]

end Cast

end Spellcraft
