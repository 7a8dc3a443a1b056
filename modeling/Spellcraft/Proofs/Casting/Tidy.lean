import Spellcraft.Proofs.Casting.DisciplinedRuns
import Spellcraft.Proofs.Casting.Parts

namespace Spellcraft

/-- No jump leaves the body of the function. -/
def Value.isTidy : Value → Bool
  | .function f => bodyJumpsInLoops false f.body
  | _ => true

structure Casting.Tidy (c : Casting) : Prop where
  stored : c.store.All (·.isTidy = true)
  current : c.current < c.store.size

namespace Cast

/-- Ends in a tidy state, and in a jump only if that one is left to what stands around. -/
structure Leaves (left : Exit → Prop) (x : Except Exit α × Casting) : Prop where
  tidy : x.2.Tidy
  jumps : ∀ e, x.1 = .error e → e.isJump = true → left e
  traps : ∀ t, x.1 = .error (.trap t) → t.isStray = false

theorem Leaves.imp {x : Except Exit α × Casting} (h : Leaves left x)
    (hl : ∀ e, left e → left' e) : Leaves left' x :=
  ⟨h.tidy, fun e he hj => hl e (h.jumps e he hj), h.traps⟩

end Cast

namespace Rules

def jumping : Rules where
  missing _ := True
  known _ := False
  loose := False

theorem jumping_reads (around : List String) (rs : List Ident) : jumping.Reads around rs :=
  fun _ _ => .inr trivial

theorem jumping_admits (around : List String) (h : s.jumpsInLoops inLoop = true) :
    jumping.Admits around inLoop s :=
  ⟨fun _ _ => .inr trivial, .inr h⟩

theorem jumping_admitsBody (around : List String) (h : bodyJumpsInLoops inLoop body = true) :
    jumping.AdmitsBody around inLoop body :=
  ⟨fun _ _ => .inr trivial, .inr h⟩

theorem jumping_covers (st : Store) (i : Nat) : jumping.Covers [] st i :=
  ⟨List.forall_mem_nil _, False.elim⟩

theorem valid_jumping_iff : jumping.Valid st v ↔ v.isTidy = true := by
  cases v with
  | function f =>
    constructor
    · rintro ⟨around, -, h⟩
      exact h.jumps.resolve_left id
    · intro h
      exact ⟨[], jumping_covers st f.scope, jumping_admitsBody _ h⟩
  | _ => exact iff_of_true trivial rfl

theorem sound_jumping_iff : jumping.Sound c ↔ c.Tidy := by
  constructor
  · intro h
    exact ⟨fun s hs b hb => valid_jumping_iff.1 (h.stored s hs b hb), h.current⟩
  · intro h
    exact ⟨fun s hs b hb => valid_jumping_iff.2 (h.stored s hs b hb), h.current⟩

variable {given : α → List Value} {p : Cast α}

theorem Follows.leaves {seat : Seat} (h : jumping.Follows [] seat held given p) (hc : c.Tidy)
    (hheld : ∀ v ∈ held, v.isTidy = true) :
    Cast.Leaves (fun e => if e.isLoopJump then seat.inLoop else seat.returns) (p c) ∧
      ∀ a, (p c).1 = .ok a → ∀ v ∈ given a, v.isTidy = true := by
  have after := h c (sound_jumping_iff.2 hc) (jumping_covers _ _)
    fun v hv => valid_jumping_iff.2 (hheld v hv)
  have shown := after.shown
  refine ⟨⟨sound_jumping_iff.1 after.sound, ?_, ?_⟩, ?_⟩
  · intro e he hj
    rw [he] at shown
    cases e with
    | trap | unknown => cases hj
    | return_ v => exact shown.1
    | break_ | continue_ => exact shown.resolve_left id
  · intro t ht
    rw [ht] at shown
    exact shown
  · intro a ha v hv
    rw [ha] at shown
    exact valid_jumping_iff.1 (shown v hv)

theorem Follows.tidy (seat : Seat) (h : jumping.Follows [] seat held given p) (hc : c.Tidy)
    (hheld : ∀ v ∈ held, v.isTidy = true) (hd : p c = (r, d)) : d.Tidy := by
  have tidy := (h.leaves hc hheld).1.tidy
  rwa [hd] at tidy

end Rules

theorem Casting.Tidy.start (maze : Maze) (position : Position) (g : Grant) (limits : Limits) :
    (Casting.start maze position g limits).Tidy :=
  Rules.sound_jumping_iff.1 (.start maze position g limits)

theorem Casting.Tidy.enter (hc : Casting.Tidy c) (parent : Nat) (hosts : Bool) :
    (c.enter ⟨[], some parent, hosts⟩).Tidy :=
  Rules.sound_jumping_iff.1 ((Rules.sound_jumping_iff.2 hc).enter parent hosts)

namespace Cast

open Rules (jumping Follows)
open Watch (nothing)

variable {limits : Limits} {n : Nat} {c : Casting}

theorem tidy_tick (hc : c.Tidy) (hd : tick limits c = (.ok (), d)) : d.Tidy :=
  Follows.tidy .expr Rules.follows_tick hc (List.forall_mem_nil _) hd

theorem tidy_eval (hc : c.Tidy) (hd : eval limits n e c = (.ok v, d)) : d.Tidy :=
  Follows.tidy .expr ((jumping.below limits n).expr (Rules.jumping_reads [] _)) hc
    (List.forall_mem_nil _) hd

theorem ComesTo.tidy (hc : c.Tidy) (h : bodyJumpsInLoops inLoop body = true)
    (hd : ComesTo (exec limits n) body c t d) : d.Tidy ∧ t.jumpsInLoops inLoop = true := by
  obtain ⟨before, after, rfl, hd⟩ := hd
  have admits := Rules.jumping_admitsBody [] h
  have follows : jumping.Follows [] (.stmt inLoop) [] nothing
      (hoistFunctions (before ++ t :: after) >>= fun _ => before.forM (exec limits n)) :=
    .bind (Rules.follows_hoistFunctions fun _ => admits.mem) fun _ => .forM _ fun s hs =>
      (jumping.below limits n).stmt (admits.mem (List.mem_append_left _ hs))
  have ht := admits.mem (List.mem_append_right before List.mem_cons_self)
  exact ⟨follows.tidy _ hc (List.forall_mem_nil _) hd, ht.jumps.resolve_left id⟩

theorem Rounds.tidy {round : Cast Bool} (seat : Seat) (hc : c.Tidy)
    (h : jumping.Follows [] seat [] nothing round) (hd : Rounds round i c d) : d.Tidy := by
  induction hd with
  | start => exact hc
  | again hr _ ih => exact ih (h.tidy seat hc (List.forall_mem_nil _) hr)

theorem Part.tidy {s t : Stmt} (hc : c.Tidy) (h : s.jumpsInLoops inLoop = true)
    (hp : Part limits n c s t d) : d.Tidy ∧ t.jumpsInLoops (inLoop || s.isLoop) = true := by
  have below := jumping.below limits n
  have reads (rs : List Ident) : jumping.Reads [] rs := Rules.jumping_reads [] rs
  cases hp with
  | yes ht hv _ =>
    have hyes : t.jumpsInLoops inLoop = true := (Bool.and_eq_true_iff.1 h).1
    exact ⟨tidy_eval (tidy_tick hc ht) hv, by simpa [Stmt.isLoop] using hyes⟩
  | no ht hv _ =>
    have hno : t.jumpsInLoops inLoop = true := (Bool.and_eq_true_iff.1 h).2
    exact ⟨tidy_eval (tidy_tick hc ht) hv, by simpa [Stmt.isLoop] using hno⟩
  | block ht hd =>
    have inner := hd.tidy ((tidy_tick hc ht).enter _ false) h
    exact ⟨inner.1, by simpa [Stmt.isLoop] using inner.2⟩
  | while_ ht hr _ hv _ =>
    have h : t.jumpsInLoops true = true := h
    have rounds := hr.tidy (.stmt false) (tidy_tick hc ht)
      (Rules.follows_whileRound below (reads _) (Rules.jumping_admits [] h))
    exact ⟨tidy_eval rounds hv, by simpa [Stmt.isLoop] using h⟩
  | doWhile ht hr _ =>
    have h : t.jumpsInLoops true = true := h
    have rounds := hr.tidy (.stmt false) (tidy_tick hc ht)
      (Rules.follows_doRound below (reads _) (Rules.jumping_admits [] h))
    exact ⟨rounds, by simpa [Stmt.isLoop] using h⟩
  | for_ ht hstart hr _ hv =>
    have h : t.jumpsInLoops true = true := h
    have start := Follows.tidy .expr (Rules.follows_startFor below (reads _))
      ((tidy_tick hc ht).enter _ false) (List.forall_mem_nil _) hstart
    have rounds := hr.tidy (.stmt false) start
      (Rules.follows_forRound below (reads _) (reads _) (Rules.jumping_admits [] h))
    have test := Follows.tidy .expr (Rules.follows_testFor below (reads _)) rounds
      (List.forall_mem_nil _) hv
    exact ⟨test, by simpa [Stmt.isLoop] using h⟩

theorem CallsTo.tidy {f : Closure} (hc : c.Tidy) (h : bodyJumpsInLoops false f.body = true)
    (hargs : ∀ v ∈ args, v.isTidy = true) (hd : CallsTo limits n f args span c t d) :
    d.Tidy ∧ t.jumpsInLoops false = true := by
  obtain ⟨c₀, -, hstart, hd⟩ := hd
  have counted : Casting.Tidy { c with calls := c.calls + 1 } := ⟨hc.stored, hc.current⟩
  have follows : jumping.Follows [] .expr args nothing
      (bindParams f.params args >>= fun _ => hoistVars f.body) :=
    Rules.follows_bindParams f.params args (fun _ => id) (Rules.follows_hoistVars f.body)
  exact hd.tidy (follows.tidy _ (counted.enter f.scope true) hargs hstart) h

theorem RunsTo.tidy (hc : c.Tidy) (h : bodyJumpsInLoops false body = true)
    (hd : RunsTo limits body c t d) : d.Tidy ∧ t.jumpsInLoops false = true := by
  obtain ⟨c₀, hstart, hd⟩ := hd
  have start := Follows.tidy .expr (Rules.follows_hoistVars body) hc (List.forall_mem_nil _) hstart
  exact hd.tidy start h

end Cast

end Spellcraft
