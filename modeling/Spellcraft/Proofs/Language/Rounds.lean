import Spellcraft.Proofs.Language.Ahead
import Spellcraft.Proofs.Language.ReadsStmt

/-!
Enough rounds. The repetitions of the grammar are bounded by the tokens left, and the bound is not
felt: what is read without a complaint is read just so with any other number of rounds that is as
large as the number of tokens.
-/

namespace Spellcraft

namespace Parse

def Spends (d : Nat) (p : Parse α) : Prop :=
  ∀ s a t, p s = (some a, t) → t.report.total = s.report.total → t.rest.length + d ≤ s.rest.length

theorem Spends.look (g : Stream → α) : Spends 0 (fun s => (some (g s), s)) := by
  intro s a t he _
  cases he
  exact Nat.le_refl _

theorem Spends.eat (m : Symbol) : Spends 0 (eat m) := by
  intro s b t he _
  rw [eat_apply] at he
  split at he <;> cases he
  · unfold Stream.advance
    split
    · exact Nat.le_refl _
    · next hs => simp [hs]
  · exact Nat.le_refl _

theorem Honest.eat (m : Symbol) : Honest (eat m) := by
  refine (Honest.look fun s => s.kind.isSymbol m).bind fun b => ?_
  cases b with
  | true => exact Honest.advance.bind fun _ => .pure _
  | false => exact .pure _

theorem Reads.spends {p : Parse α} (h : Reads p w G) (hw : ∀ a, w a ≠ []) : Spends 1 p :=
  fun _ _ _ he clean => (h.takes he clean).1.lt (hw _)

theorem Spends.attempt {p : Parse α} (h : Spends 1 p) (honest : Honest p) : Spends 1 (attempt p) := by
  intro s o t he clean
  have spoken := honest.speaks s
  simp only [Parse.attempt] at he
  rcases hp : p s with ⟨_ | a, u⟩ <;> rw [hp] at he spoken <;> cases he
  · rw [Stream.report_recover] at clean
    exact absurd clean (Nat.ne_of_gt (spoken rfl))
  · exact h s a t hp clean

/-- What the first reads without a complaint from no more than `n` tokens, the other reads too. -/
structure Covered (n : Nat) (p q : Parse α) : Prop extends Honest p where
  gives : s.rest.length ≤ n → p s = (some a, t) → t.report.total = s.report.total → q s = (some a, t)

namespace Covered

variable {p q : Parse α} {f g : α → Parse β} {n d : Nat}

theorem refl (h : Honest p) : Covered n p p := ⟨h, fun _ he _ => he⟩

theorem behind (hp : Honest p) (spends : Spends d p) (hf : ∀ a, Covered n (f a) (g a)) :
    Covered (n + d) (p >>= f) (p >>= g) where
  toHonest := hp.bind fun a => (hf a).toHonest
  gives {s b u} room he clean := by
    rw [bind_apply] at he ⊢
    have first := (hp.grows s).total
    rcases ht : p s with ⟨_ | a, t⟩ <;> rw [ht] at he first
    · cases he
    have second := ((hf a).grows t).total
    dsimp only at he first ⊢
    rw [he] at second
    have between : t.report.total = s.report.total := Nat.le_antisymm (clean ▸ second) first
    have fewer := spends s a t ht between
    exact (hf a).gives (by omega) he (clean.trans between.symm)

theorem beside (hp : Honest p) (spends : Spends 0 p) (hf : ∀ a, Covered n (f a) (g a)) :
    Covered n (p >>= f) (p >>= g) := behind hp spends hf

theorem look (l : Stream → α) (hf : ∀ a, Covered n (f a) (g a)) :
    Covered n ((fun s => (some (l s), s)) >>= f) ((fun s => (some (l s), s)) >>= g) :=
  beside (.look l) (.look l) hf

theorem before (h : Covered n p q) (hf : ∀ a, Honest (f a)) : Covered n (p >>= f) (q >>= f) where
  toHonest := h.toHonest.bind hf
  gives {s b u} room he clean := by
    rw [bind_apply] at he
    have first := (h.grows s).total
    rcases ht : p s with ⟨_ | a, t⟩ <;> rw [ht] at he first
    · cases he
    have second := ((hf a).grows t).total
    dsimp only at he first
    rw [he] at second
    have between : t.report.total = s.report.total := Nat.le_antisymm (clean ▸ second) first
    rw [bind_given (h.gives room ht between), he]

theorem told {f : Unit → Parse β} {q : Parse β} (hf : ∀ a, Honest (f a)) :
    Covered n (do complain problem here; f ()) q where
  toHonest := (Honest.complain problem here).bind hf
  gives {s b u} _ he clean := by
    have : (s.complain problem here).report.total ≤ u.report.total := by
      have grows := ((hf ()).grows (s.complain problem here)).total
      have he : f () (s.complain problem here) = (some b, u) := he
      rwa [he] at grows
    exact absurd clean (Nat.ne_of_gt this)

end Covered

theorem Spends.ends {p : Parse α} {f : α → Parse β} (h : Spends 1 p) (honest : Honest p)
    (hf : ∀ a, Honest (f a)) (hs : s.rest = []) (he : (p >>= f) s = (some b, u)) :
    u.report.total ≠ s.report.total := by
  intro clean
  rw [bind_apply] at he
  have first := (honest.grows s).total
  rcases ht : p s with ⟨_ | a, t⟩ <;> rw [ht] at he first
  · cases he
  have second := ((hf a).grows t).total
  dsimp only at he first
  rw [he] at second
  have fewer := h s a t ht (Nat.le_antisymm (clean ▸ second) first)
  rw [hs] at fewer
  cases fewer

structure Ample (rounds : Nat → Parse α) : Prop where
  covered {b n m : Nat} : b ≤ n → b ≤ m → Covered b (rounds n) (rounds m)

theorem Ample.of_step {rounds : Nat → Parse α} (honest : ∀ n, Honest (rounds n))
    (ended : ∀ n m {s a t}, s.rest = [] → rounds n s = (some a, t) →
      t.report.total = s.report.total → rounds m s = (some a, t))
    (step : ∀ {b n m}, Covered b (rounds n) (rounds m) →
      Covered (b + 1) (rounds (n + 1)) (rounds (m + 1))) : Ample rounds := by
  -- By induction on the tokens: without a token there is no difference, and each round takes
  -- one.
  refine ⟨fun {b} => ?_⟩
  induction b with
  | zero =>
    intro n m _ _
    exact ⟨honest n, fun none => ended n m (List.eq_nil_of_length_eq_zero (Nat.le_zero.1 none))⟩
  | succ b ih =>
    intro n m hn hm
    obtain ⟨n, rfl⟩ := Nat.exists_eq_add_of_le' (Nat.le_trans (Nat.le_add_left 1 b) hn)
    obtain ⟨m, rfl⟩ := Nat.exists_eq_add_of_le' (Nat.le_trans (Nat.le_add_left 1 b) hm)
    exact step (ih (Nat.le_of_succ_le_succ hn) (Nat.le_of_succ_le_succ hm))

theorem Covered.listed {rest rest' : Parse (List α)} (h : Covered n rest rest') (a : α) :
    Covered n (do if ← eat .comma then return a :: (← rest) else return [a])
      (do if ← eat .comma then return a :: (← rest') else return [a]) := by
  refine .beside (.eat .comma) (.eat .comma) fun b => ?_
  cases b with
  | true => exact h.before fun _ => .pure _
  | false => exact .refl (.pure _)

theorem commaRounds_ample {p : Parse α} (h : Reads p w G) (hw : ∀ a, w a ≠ []) :
    Ample (commaRounds p) := by
  refine .of_step (fun n => (h.commaRounds n).toHonest) (fun n m s as t hs he clean => ?_) fun ih => ?_
  · cases n with
    | zero => exact absurd clean ((h.spends hw).ends h.toHonest (fun _ => .pure _) hs he)
    | succ n =>
      have honest a := (Covered.listed (n := 0) (.refl (h.commaRounds n).toHonest) a).toHonest
      exact absurd clean ((h.spends hw).ends h.toHonest honest hs he)
  · exact .behind h.toHonest (h.spends hw) ih.listed

theorem argumentRounds_ample {p : Parse Expr} {w : Expr → List Kind} {G : Expr → Prop}
    (h : Reads p w G) (hw : ∀ a, w a ≠ []) : Ample fun n => argumentRounds p (n + 1) := by
  refine .of_step (fun n => (h.argumentRounds _).toHonest) (fun n m s as t hs he clean => ?_)
    fun ih => ?_
  · have honest a := (Covered.listed (n := 0) (.refl (h.argumentRounds n).toHonest) a).toHonest
    have kind : s.kind = .eof := by rw [Stream.kind, hs]; rfl
    rw [argumentRounds, sees_bind, kind] at he
    exact absurd clean ((h.spends hw).ends h.toHonest honest hs he)
  · refine .look (fun s => s.kind.isSymbol .closeParen) fun closes => ?_
    split
    · exact .refl (.pure _)
    · exact .behind h.toHonest (h.spends hw) ih.listed

section

variable {p : Parse Stmt} {w : Stmt → List Kind} {G : Stmt → Prop}

theorem blockRounds_ended (hs : s.rest = []) (n : Nat) : blockRounds p n s = (some [], s) := by
  cases n with
  | zero => rfl
  | succ n =>
    have atEnd : s.atEnd = true := by rw [Stream.atEnd, hs]; rfl
    rw [blockRounds, get_bind, atEnd, Bool.or_true, Bool.true_or]
    rfl

theorem blockRounds_ample (h : Reads p w G) (hw : ∀ a, w a ≠ []) : Ample (blockRounds p) := by
  refine .of_step (fun n => (h.blockRounds n).toHonest) (fun n m s as t hs he _ => ?_) fun ih => ?_
  · rwa [blockRounds_ended hs] at he ⊢
  refine .look id fun s => ?_
  split
  · exact .refl (.pure _)
  refine .behind h.toHonest.attempt ((h.spends hw).attempt h.toHonest) fun o => ?_
  cases o with
  | none => exact ih
  | some a => exact ih.before fun _ => .pure _

end

theorem programRounds_ended (hs : s.rest = []) (n : Nat) : programRounds n s = (some [], s) := by
  cases n with
  | zero => rfl
  | succ n =>
    have atEnd : s.atEnd = true := by rw [Stream.atEnd, hs]; rfl
    rw [programRounds, get_bind, atEnd, Bool.true_or]
    rfl

theorem programRounds_ample : Ample programRounds := by
  refine .of_step programRounds_honest (fun n m s as t hs he _ => ?_) fun {b n m} ih => ?_
  · rwa [programRounds_ended hs] at he ⊢
  have h := statement_reads nestingLimit false
  refine .look id fun s => ?_
  split
  · exact .refl (.pure _)
  split
  · exact .told fun _ => Honest.advance.bind fun _ => programRounds_honest n
  refine .behind h.toHonest.attempt
    ((h.spends fun a => a.writing_ne_nil).attempt h.toHonest) fun o => ?_
  cases o with
  | none => exact ih
  | some a => exact ih.before fun _ => .pure _

end Parse

end Spellcraft
