import Spellcraft.Proofs.Casting.Tidy
import Spellcraft.Proofs.Language.ReadsStmt
import Spellcraft.Spell.Compile

namespace Spellcraft

theorem Spell.jumpsInLoops_of_parse (h : Spell.parse source = .ok p) : p.jumpsInLoops = true := by
  simp only [Spell.parse] at h
  split at h
  next clean =>
    cases h
    exact bodyJumpsInLoops_iff.2 fun a ha =>
      ((parseTokens_reads (Report.isClean_of_extend clean).2).2 a ha).2
  next => cases h

namespace Cast

open Rules (jumping)

variable {limits : Limits} {n : Nat} {c : Casting}

/-- Ends in no jump at all, and a value that it ends in is tidy. -/
structure Settles (x : Except Exit Value × Casting) : Prop extends Leaves (fun _ => False) x where
  value : ∀ v, x.1 = .ok v → v.isTidy = true

/-- What evaluation from a state leaves to others: only a statement ends in a jump, and in a `break`
or `continue` only inside of a loop and if it is no loop itself. The statements it comes to on the
way are begun in tidy states too. -/
structure TakesBack (limits : Limits) (n : Nat) (c : Casting) : Prop where
  stmt : ∀ s inLoop, s.jumpsInLoops inLoop = true →
    Leaves (fun e => e.isLoopJump = true → inLoop = true ∧ s.isLoop = false) (exec limits n s c)
  expr : ∀ e, Settles (eval limits n e c)
  call : ∀ f args callee span, f.isTidy = true → (∀ v ∈ args, v.isTidy = true) →
    Settles (call limits (exec limits n) f args callee span c)
  part : ∀ s inLoop t d, s.jumpsInLoops inLoop = true → Part limits n c s t d →
    d.Tidy ∧ t.jumpsInLoops (inLoop || s.isLoop) = true
  body : ∀ f args span t d, bodyJumpsInLoops false f.body = true →
    (∀ v ∈ args, v.isTidy = true) → CallsTo limits n f args span c t d →
    d.Tidy ∧ t.jumpsInLoops false = true

/-- How far an exit goes up: through every statement but the loop whose jump it is, and a `return`
as far as the call. -/
structure HandsUp (limits : Limits) (n : Nat) (c : Casting) : Prop where
  part : ∀ s t d e d', Part limits n c s t d → exec limits n t d = (.error e, d') →
    (e.isLoopJump = true → s.isLoop = false) → (exec limits (n + 1) s c).1 = .error e
  loop : ∀ s t d d', Part limits n c s t d → exec limits n t d = (.error .break_, d') →
    s.isLoop = true → (exec limits (n + 1) s c).1 = .ok ()
  call : ∀ f args span t d v d', CallsTo limits n f args span c t d →
    exec limits n t d = (.error (.return_ v), d') →
    (callClosure limits (exec limits n) f args span c).1 = .ok v

theorem handsUp (limits : Limits) (n : Nat) (c : Casting) : HandsUp limits n c where
  part s t d e d' h he hs := by
    cases hl : s.isLoop with
    | false => exact h.error hl he
    | true =>
      have own : e.isLoopJump = false :=
        Bool.eq_false_iff.2 fun hj => nomatch hl.symm.trans (hs hj)
      have other : e ≠ .continue_ := by
        rintro rfl
        cases own
      rw [h.loop hl he other]
      cases e <;> first | rfl | cases own
  loop s t d d' h he hs := h.loop hs he nofun
  call f args span t d v d' h he := h.error he

theorem exec_leaves (hc : c.Tidy) (h : s.jumpsInLoops inLoop = true) :
    Leaves (fun e => e.isLoopJump = true → inLoop = true) (exec limits n s c) := by
  have follows := (jumping.below limits n).stmt (Rules.jumping_admits [] h)
  refine (follows.leaves hc (List.forall_mem_nil _)).1.imp fun e he hj => ?_
  rwa [if_pos hj] at he

theorem exec_leaves_loop (hc : c.Tidy) (hs : s.isLoop = true) (h : s.jumpsInLoops inLoop = true) :
    Leaves (fun e => e.isLoopJump = false) (exec limits n s c) := by
  have own : s.jumpsInLoops false = true := by
    cases s <;> first | exact h | cases hs
  exact (exec_leaves hc own).imp fun e he => Bool.eq_false_iff.2 fun hj => nomatch he hj

theorem leaves_of_expr {given : α → List Value} {p : Cast α}
    (h : jumping.Follows [] .expr held given p) (hc : c.Tidy)
    (hheld : ∀ v ∈ held, v.isTidy = true) :
    Leaves (fun _ => False) (p c) ∧ ∀ a, (p c).1 = .ok a → ∀ v ∈ given a, v.isTidy = true := by
  obtain ⟨leaves, values⟩ := h.leaves hc hheld
  refine ⟨leaves.imp fun e he => ?_, values⟩
  split at he <;> exact he

theorem settles_of_expr {p : Cast Value} (h : jumping.Follows [] .expr held Watch.single p)
    (hc : c.Tidy) (hheld : ∀ v ∈ held, v.isTidy = true) : Settles (p c) :=
  have ⟨leaves, values⟩ := leaves_of_expr h hc hheld
  ⟨leaves, fun v hv => values v hv v List.mem_cons_self⟩

theorem eval_settles (hc : c.Tidy) (e : Expr) : Settles (eval limits n e c) :=
  settles_of_expr ((jumping.below limits n).expr (Rules.jumping_reads [] _)) hc
    (List.forall_mem_nil _)

theorem call_settles (hc : c.Tidy) (hf : f.isTidy = true) (hargs : ∀ v ∈ args, v.isTidy = true)
    (callee : Option String) (span : Span) :
    Settles (call limits (exec limits n) f args callee span c) := by
  have follows : jumping.Follows [] .expr (f :: args) Watch.single
      (call limits (exec limits n) f args callee span) :=
    Rules.follows_call (jumping.below limits n) List.mem_cons_self
      (fun _ => List.mem_cons_of_mem f) callee span
  exact settles_of_expr follows hc (List.forall_mem_cons.2 ⟨hf, hargs⟩)

theorem takesBack_of_tidy (hc : c.Tidy) (limits : Limits) (n : Nat) : TakesBack limits n c where
  stmt s inLoop h := by
    cases hs : s.isLoop with
    | true =>
      exact (exec_leaves_loop hc hs h).imp fun e he hj => nomatch he.symm.trans hj
    | false => exact (exec_leaves hc h).imp fun _ he hj => ⟨he hj, rfl⟩
  expr := eval_settles hc
  call _ _ callee span hf hargs := call_settles hc hf hargs callee span
  part _ _ _ _ h hp := hp.tidy hc h
  body _ _ _ _ _ h hargs hd := hd.tidy hc h hargs

theorem run_leaves (hc : c.Tidy) (h : bodyJumpsInLoops false body = true) :
    Leaves (fun _ => False) (run limits body c) := by
  have follows : jumping.Follows [] .expr [] Watch.nothing (run limits body) :=
    Rules.follows_run (Rules.jumping_admitsBody _ h)
  exact (leaves_of_expr follows hc (List.forall_mem_nil _)).1

end Cast

theorem Program.perform_ne_strayJump {p : Program} (h : p.jumpsInLoops = true) (maze : Maze)
    (start : Position) (g : Grant) (limits : Limits) (word : String) (span : Span) :
    p.perform maze start g limits ≠ .error (.trap (.typeFault (.strayJump word) span)) := by
  have leaves : Cast.Leaves _ (Cast.run limits p.body _) :=
    Cast.run_leaves (.start maze start g limits) h
  rw [perform]
  rcases hy : Cast.run limits p.body (.start maze start g limits) with ⟨e | _, c⟩ <;>
    rw [hy] at leaves
  · cases e with
    | trap t =>
      rintro ⟨⟩
      cases leaves.traps _ rfl
    | unknown => rintro ⟨⟩
    | return_ | break_ | continue_ => exact (leaves.jumps _ rfl rfl).elim
  · rintro ⟨⟩

theorem Program.perform_of_return {p : Program} {maze : Maze} {start : Position} {g : Grant}
    (h : Cast.RunsTo limits p.body (.start maze start g limits) t d)
    (he : Cast.exec limits limits.gas t d = (.error (.return_ v), d')) :
    p.perform maze start g limits = .ok d'.trail.actions := by
  rw [perform, h.error he]
  rfl

/-- In a spell that is read every `break` and `continue` stands in a loop of its own function, and
none of its runs ends in the trap about a jump. For every run starts from a tidy state, and so does
whatever is evaluated on its way. From there a loop takes back the `break` and `continue` in it, no
jump crosses an expression or a call, and nothing else takes a jump back before: a `return` goes up
to its call, and outside of every function it ends the spell with what was done so far. -/
theorem Spell.jumps_taken_back (parsed : Spell.parse source = .ok p) :
    p.jumpsInLoops = true ∧
    (∀ maze start g limits,
      (∀ word span, p.perform maze start g limits ≠
        .error (.trap (.typeFault (.strayJump word) span))) ∧
      (Casting.start maze start g limits).Tidy ∧
      ∀ t d, Cast.RunsTo limits p.body (.start maze start g limits) t d →
        d.Tidy ∧ t.jumpsInLoops false = true ∧
        ∀ v d', Cast.exec limits limits.gas t d = (.error (.return_ v), d') →
          p.perform maze start g limits = .ok d'.trail.actions) ∧
    ∀ limits n c, (c.Tidy → Cast.TakesBack limits n c) ∧ Cast.HandsUp limits n c := by
  have jumps := jumpsInLoops_of_parse parsed
  refine ⟨jumps, fun maze start g limits => ?_, fun limits n c => ?_⟩
  · refine ⟨p.perform_ne_strayJump jumps maze start g limits, .start maze start g limits, ?_⟩
    intro t d ht
    obtain ⟨tidy, inner⟩ := ht.tidy (.start maze start g limits) jumps
    exact ⟨tidy, inner, fun v d' => p.perform_of_return ht⟩
  · exact ⟨fun hc => Cast.takesBack_of_tidy hc limits n, Cast.handsUp limits n c⟩

def Spell.rounds : String :=
  "function f() { while (true) { break; } return 1; } while (f()) { f(); break; } return;"

theorem Spell.jumps_taken_back_rounds : ∃ p, Spell.parse rounds = .ok p ∧ p.jumpsInLoops = true ∧
    p.perform .corridor ⟨0, 0⟩ .standard ⟨0, 60, 1, 0⟩ = .ok [] ∧
    ∀ word span, p.perform .corridor ⟨0, 0⟩ .standard ⟨0, 60, 1, 0⟩ ≠
      .error (.trap (.typeFault (.strayJump word) span)) := by
  have computed : (Spell.parse rounds).toOption.map
      (·.perform .corridor ⟨0, 0⟩ .standard ⟨0, 60, 1, 0⟩) = some (.ok []) := by decide +kernel
  rcases h : Spell.parse rounds with e | p <;> rw [h] at computed
  · cases computed
  · simp only [Except.toOption, Option.map_some, Option.some.injEq] at computed
    obtain ⟨jumps, runs, -⟩ := jumps_taken_back h
    exact ⟨p, rfl, jumps, computed, (runs _ _ _ _).1⟩

end Spellcraft
