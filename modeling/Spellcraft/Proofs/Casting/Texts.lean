import Spellcraft.Proofs.Casting.Bindings
import Spellcraft.Proofs.Casting.Fatal
import Spellcraft.Proofs.Maze.Walk

namespace Spellcraft

namespace Value

def Within (n : Nat) (v : Value) : Prop := ∀ s, v = .text s → s.utf8ByteSize ≤ n

structure Bounded (n : Nat) (v : Value) : Prop where
  within : v.Within n
  body : ∀ f, v = .function f → ∀ s ∈ f.body, s.Quotes (·.utf8ByteSize ≤ n)

namespace Bounded

theorem of_isPlain {v : Value} (h : v.isPlain) (hv : v.Within n) : v.Bounded n where
  within := hv
  body := by
    rintro f rfl
    cases h

theorem function_iff {f : Closure} :
    (function f).Bounded n ↔ ∀ s ∈ f.body, s.Quotes (·.utf8ByteSize ≤ n) :=
  ⟨fun h => h.body f rfl, fun h => ⟨nofun, fun _ hf => function.inj hf ▸ h⟩⟩

theorem command (k : Command) : (command k).Bounded n := ⟨nofun, nofun⟩

end Bounded

end Value

def Limits.bounding (limits : Limits) (n : Nat) : Invariant where
  limits := limits
  states c := c.store.All (·.Bounded n)
  values v := v.Bounded n

namespace Value.Bounded

variable {limits : Limits} {n : Nat}

open Pairing (any)

theorem bound : (limits.bounding n).Bound fun _ => True where
  intro hc _ := hc
  store := id
  trail _ := trivial
  undefined := .of_isPlain rfl nofun

theorem related_follow (step : Trail → Except Trap Trail) :
    (limits.bounding n).pairing.Related any (Cast.follow step) (Cast.follow step) := by
  refine Invariant.related fun {c} hc => ?_
  rw [Cast.follow_apply]
  cases step c.trail <;> exact ⟨trivial, hc⟩

theorem related_command (k : Command) (span : Span) :
    (limits.bounding n).pairing.Related (·.Bounded n) (Cast.command k span)
      (Cast.command k span) := by
  cases k with
  | look d => exact Invariant.related fun hc => ⟨.of_isPlain rfl nofun, hc⟩
  | move | lightTorch =>
    exact .bind (related_follow _) fun _ _ => .pure (.of_isPlain rfl nofun)

theorem lawful (hn : limits.text ≤ n) :
    (limits.bounding n).pairing.Lawful (·.utf8ByteSize ≤ n) :=
  bound.lawful (fun _ => of_isPlain) (fun _ => function_iff)
    (fun _ h fits => of_isPlain h fun s hs => Nat.le_trans (fits s hs) hn)
    fun k span _ => related_command k span

end Value.Bounded

theorem Watch.bounded {limits : Limits} {body : List Stmt} (hn : limits.text ≤ n)
    (quotes : ∀ s ∈ body, s.Quotes (·.utf8ByteSize ≤ n)) (h : c.store.All (·.Bounded n)) :
    ∀ m ∈ (Watch.run limits body).seen c,
      m.state.store.All (·.Bounded n) ∧ ∀ v ∈ m.held, v.Bounded n :=
  Keeps.run (k := limits.bounding n) (Value.Bounded.lawful hn) Value.Bounded.bound.roams quotes c h

def Cast.both (p q : Cast Value) : Cast (Value × Value) := do return (← p, ← q)

/-- An addition, how it comes to its two sides, and the span that is named if it is too long. -/
inductive Expr.Adds (limits : Limits) (n : Nat) : Expr → Cast (Value × Value) → Span → Prop
  | plus (span : Span) (a b : Expr) : Adds limits n (.binary span .add a b)
    (Cast.both (Cast.eval limits n a) (Cast.eval limits n b)) span
  | gain (span : Span) (target : Ident) (e : Expr) : Adds limits n (.assign span .add target e)
    (Cast.both (Cast.lookup target.name target.span) (Cast.eval limits n e))
    (target.span.merge e.span)

namespace Cast

theorem binary_add_apply {limits : Limits} {x y : Value} (joins : (x.joins || y.joins) = true)
    (long : limits.text < (x.toText ++ y.toText).utf8ByteSize) (span : Span) (c : Casting) :
    binary limits .add x y span c = (.error (.trap (.textTooLong limits.text span)), c) := by
  rw [binary, Value.apply, if_pos joins]
  simp only [if_pos long, throw_apply]

theorem eval_plus (limits : Limits) (n : Nat) (span : Span) (a b : Expr) :
    eval limits (n + 1) (.binary span .add a b) =
      (tick limits >>= fun _ => both (eval limits n a) (eval limits n b)) >>= fun s =>
        binary limits .add s.1 s.2 span := by
  simp only [eval, both, bind_assoc, pure_bind]

theorem eval_gain (limits : Limits) (n : Nat) (span : Span) (target : Ident) (e : Expr) :
    eval limits (n + 1) (.assign span .add target e) =
      (tick limits >>= fun _ => both (lookup target.name target.span) (eval limits n e)) >>=
        fun s => binary limits .add s.1 s.2 (target.span.merge e.span) >>= fun v => do
          assign target v
          return v := by
  simp only [eval, assigned, AssignOp.binary?, both, bind_assoc, pure_bind]

end Cast

theorem Expr.Adds.traps {limits : Limits} {e : Expr} {sides : Cast (Value × Value)} {span : Span}
    (adds : e.Adds limits n sides span)
    (comes : (Cast.tick limits >>= fun _ => sides) c = (.ok (x, y), d))
    (joins : (x.joins || y.joins) = true)
    (long : limits.text < (x.toText ++ y.toText).utf8ByteSize) :
    Cast.eval limits (n + 1) e c = (.error (.trap (.textTooLong limits.text span)), d) := by
  cases adds with
  | plus span a b =>
    rw [Cast.eval_plus, Cast.bind_apply, comes]
    exact Cast.binary_add_apply joins long span d
  | gain span target e =>
    rw [Cast.eval_gain, Cast.bind_apply, comes]
    simp only [Cast.next]
    rw [Cast.bind_apply, Cast.binary_add_apply joins long]
    rfl

/-- In every state of a run no text that is bound or in hand is longer than the limit on texts and
the longest text in the spell. Where the text of an addition would be longer than the limit, the run
ends in a trap, in the state that the two sides have led to: the text is neither stored nor used. -/
theorem Program.run_bounds_texts (p : Program) (maze : Maze) (start : Position) (g : Grant)
    (limits : Limits) :
    let first := Casting.start maze start g limits
    let longest := max limits.text p.longestText
    (∀ m ∈ (Watch.run limits p.body).seen first,
      (∀ s ∈ m.state.store, ∀ b ∈ s.bindings, b.2.value.Within longest) ∧
        ∀ v ∈ m.held, v.Within longest) ∧
    ∀ v ∈ (Visits.run limits p.body).list first, ∀ n e, v.piece = .expr (n + 1) e →
      ∀ sides span, e.Adds limits n sides span →
        ∀ x y d, (Cast.tick limits >>= fun _ => sides) v.state = (.ok (x, y), d) →
          (x.joins || y.joins) = true → limits.text < (x.toText ++ y.toText).utf8ByteSize →
            Cast.Trapped (.textTooLong limits.text span) d (Cast.run limits p.body first) := by
  intro first longest
  constructor
  · have quotes : ∀ s ∈ p.body, s.Quotes (·.utf8ByteSize ≤ longest) := fun s hs =>
      (quotes_texts hs).mono fun _ ht => Nat.le_trans (le_longestText ht) (Nat.le_max_right ..)
    have bounded : first.store.All (·.Bounded longest) :=
      .initial (.of_isPlain rfl nofun) fun k _ => .command k
    intro m hm
    obtain ⟨bound, held⟩ := Watch.bounded (Nat.le_max_left ..) quotes bounded m hm
    exact ⟨fun s hs b hb => (bound s hs b hb).within, fun v hv => (held v hv).within⟩
  · intro v hv n e piece sides span adds x y d comes joins long
    have traps : v.Traps limits (.textTooLong limits.text span) d :=
      ⟨n + 1, e, piece, adds.traps comes joins long⟩
    exact (Visits.Fatal.lawful limits).run p.body first v hv _ _ traps

def Program.doubling : Program := (parseText "let s = \"ab\"; s += s; s += s;").1

theorem Program.run_bounds_texts_doubling :
    let limits : Limits := ⟨1, 60, 1, 7⟩
    let first := Casting.start .corridor ⟨0, 0⟩ .standard limits
    (∃ m ∈ (Watch.run limits doubling.body).seen first, ∃ v ∈ m.held,
      v.strictEq (.text "abab") = true ∧ v.Within 7) ∧
    ∃ (x y : Value) (d : Casting) (span : Span), (x.toText ++ y.toText).utf8ByteSize = 8 ∧
      Cast.Trapped (.textTooLong 7 span) d (Cast.run limits doubling.body first) := by
  intro limits first
  obtain ⟨within, traps⟩ := doubling.run_bounds_texts .corridor ⟨0, 0⟩ .standard limits
  have longest : max limits.text doubling.longestText = 7 := by decide +kernel
  have held : ((Watch.run limits doubling.body).seen first).any
      (fun m => m.held.any (·.strictEq (.text "abab"))) = true := by decide +kernel
  have visited : ((Visits.run limits doubling.body).list first).any (fun v => match v.piece with
      | .expr (n + 1) (.assign _ .add target e) =>
        ((Cast.tick limits >>= fun _ =>
          .both (Cast.lookup target.name target.span) (Cast.eval limits n e))
            v.state).1.toOption.any fun s =>
              s.1.joins && decide ((s.1.toText ++ s.2.toText).utf8ByteSize = 8)
      | .expr .. | .stmt .. | .list .. | .declare .. | .call .. => false) = true := by
    decide +kernel
  obtain ⟨m, hm, hv⟩ := List.any_eq_true.1 held
  obtain ⟨v, hv, heq⟩ := List.any_eq_true.1 hv
  refine ⟨⟨m, hm, v, hv, heq, longest ▸ (within m hm).2 v hv⟩, ?_⟩
  obtain ⟨u, hu, found⟩ := List.any_eq_true.1 visited
  split at found
  · rename_i n _ target e piece
    rcases comes : (Cast.tick limits >>= fun _ =>
      .both (Cast.lookup target.name target.span) (Cast.eval limits n e)) u.state
      with ⟨_ | ⟨x, y⟩, d⟩ <;> rw [comes] at found
    · cases found
    · obtain ⟨joins, size⟩ := (Bool.and_eq_true _ _).mp found
      replace size : (x.toText ++ y.toText).utf8ByteSize = 8 := of_decide_eq_true size
      have trapped := traps u hu n _ piece _ _ (.gain _ target e) x y d comes
        (by rw [joins, Bool.true_or]) (by rw [size]; decide)
      exact ⟨x, y, d, _, size, trapped⟩
  all_goals cases found

end Spellcraft
