import Spellcraft.Proofs.Casting.Containment
import Spellcraft.Spell.Compile

/-!
Functions are bound before anything else happens in their list of statements. As names are never
taken back, a function is found all over its list, in the blocks in it and wherever its scope is
around. That goes for the functions that stand in a list themselves: a function that is the whole
branch of an `if`, or the whole body of a loop, is in no list, and is never bound.
-/

namespace Spellcraft

inductive Store.Inside (st : Store) (j : Nat) : Nat → Prop
  | here : Inside st j j
  | outward : st[i]? = some s → s.parent = some p → p < i → Inside st j p → Inside st j i

theorem Store.Inside.finds {st : Store} (h : st.Inside j i) (hf : st.Finds name j) :
    st.Finds name i := by
  induction h with
  | here => exact hf
  | outward hs hp hlt _ ih => exact .outward hs hp hlt ih

/-- The name has a value in the scope, whatever span it is read at. -/
def Casting.Resolves (c : Casting) (name : String) (i : Nat) : Prop :=
  ∀ span, ∃ v, Cast.lookup name span { c with current := i } = (.ok v, { c with current := i })

theorem Casting.resolves {c : Casting} (h : c.store.Finds name i) : c.Resolves name i := by
  intro span
  obtain ⟨b, hb⟩ := Option.isSome_iff_exists.1 (Store.get?_isSome.2 h)
  refine ⟨b.value, ?_⟩
  simp only [Cast.lookup, Cast.get_bind_apply, hb]
  rfl

namespace Cast

theorem hoistFunctions_ok (body : List Stmt) (c : Casting) :
    hoistFunctions body c = (.ok (), (hoistFunctions body c).2) := by
  induction body generalizing c with
  | nil => rfl
  | cons s rest ih =>
    cases s with
    | function => exact ih _
    | _ => exact ih c

theorem hoistFunctions_binds {body : List Stmt} {c : Casting} (inside : c.current < c.store.size)
    (h : .function span name params ps fbody ∈ body) :
    (hoistFunctions body c).2.store.binds c.current name.name = true := by
  have made (f : Ident) (ps : List Ident) (b : List Stmt) (c : Casting) :
      c.Kept (declareFunction f ps b c).2 := (Calm.declareFunction f ps b).kept c
  induction body generalizing c with
  | nil => cases h
  | cons s rest ih =>
    rcases List.mem_cons.1 h with rfl | later
    · have later := (Calm.hoistFunctions rest).kept (declareFunction name params fbody c).2
      refine later.grown.binds ?_
      rw [declareFunction, modify_apply, Store.binds_eq, Store.at?_bind,
        if_pos ⟨rfl, rfl, inside⟩]
      rfl
    · cases s with
      | function _ other ps _ b => exact ih ((made other ps b c).inside inside) later
      | _ => exact ih inside later

end Cast

theorem Visits.execList_finds {exec : Stmt → Cast Unit} {wx : ∀ s, Visits (exec s)}
    {body : List Stmt} {c : Casting} (level : Level limits σ (Visits.forM wx body))
    (inside : c.current < c.store.size) (h : .function span name params ps fbody ∈ body) :
    ∀ v ∈ (execList wx body).list c, v.state.store.Finds name.name c.current ∧
      (v.frames = 0 → v.state.store.Finds name.name v.state.current) := by
  intro v hv
  have kept := (Cast.Calm.hoistFunctions body).kept c
  have bound := Store.Finds.of_binds (Cast.hoistFunctions_binds inside h)
  simp only [execList, Visits.bind, quiet, List.nil_append] at hv
  rw [Cast.hoistFunctions_ok] at hv
  have later := level (Cast.hoistFunctions body c).2
  rw [← kept.current] at bound ⊢
  exact ⟨(later.grown v hv).finds bound, fun hf => later.found v hv hf name.name bound⟩

/-- A function that stands in the list of statements of a program, a block or a function is found
by its name as long as the list is executed: wherever no other function is being called, and, in a
function that is being called, wherever the scope of the list is around. -/
theorem Program.run_finds_functions (p : Program) (maze : Maze) (start : Position) (grant : Grant)
    (limits : Limits) :
    ∀ v ∈ (Visits.run limits p.body).list (.start maze start grant limits),
      ∀ n body, v.piece = .list n body →
      ∀ span name params ps fbody, .function span name params ps fbody ∈ body →
      ∀ u ∈ (Visits.execList (Visits.exec limits n) body).list v.state,
        (u.frames = 0 → u.state.Resolves name.name u.state.current) ∧
        ∀ i, u.state.store.Inside v.state.current i → u.state.Resolves name.name i := by
  intro v hv n body piece span name params ps fbody h u hu
  have framed : Casting.Framed (.start maze start grant limits) :=
    ⟨Nat.one_lt_two, .start maze start grant limits⟩
  have contained := ((Visits.Contains.lawful limits).run p.body).contained _ framed
  have law := Visits.Level.lawful limits
  have level : Visits.Level limits (.opened (bodyVars body))
      (Visits.forM (Visits.exec limits n) body) :=
    law.forM fun s hs => (law.below n).stmt _ s (vars_subset_bodyVars hs)
  have found := Visits.execList_finds level (contained.held v hv).inside h u hu
  exact ⟨fun hf => Casting.resolves (found.2 hf),
    fun i inside => Casting.resolves (inside.finds found.1)⟩

def Piece.isCall : Piece → Bool
  | .expr _ (.call ..) => true
  | _ => false

def Stmt.makes (name : String) : Stmt → Bool
  | .function _ f _ _ _ => f.name == name
  | _ => false

def Program.early : Program := (parseText "f(); function f() \x7b moveRight() \x7d").1

theorem Program.run_finds_functions_early :
    let limits : Limits := ⟨1, 60, 1, 0⟩
    ∃ v ∈ (Visits.run limits early.body).list (.start .corridor ⟨0, 0⟩ .standard limits),
      ∃ n body, v.piece = .list n body ∧
        ∃ u ∈ (Visits.execList (Visits.exec limits n) body).list v.state,
          u.piece.isCall = true ∧ u.state.Resolves "f" u.state.current := by
  intro limits
  have visited : ((Visits.run limits early.body).list
      (.start .corridor ⟨0, 0⟩ .standard limits)).any (fun v => match v.piece with
        | .list n body => body.any (·.makes "f") &&
          ((Visits.execList (Visits.exec limits n) body).list v.state).any
            fun u => u.frames == 0 && u.piece.isCall
        | _ => false) = true := by decide +kernel
  obtain ⟨v, hv, found⟩ := List.any_eq_true.1 visited
  cases piece : v.piece with
  | list n body =>
    simp only [piece, Bool.and_eq_true, List.any_eq_true, beq_iff_eq] at found
    obtain ⟨⟨s, hs, makes⟩, u, hu, frames, call⟩ := found
    cases s with
    | function span name params ps fbody =>
      have finds := early.run_finds_functions .corridor ⟨0, 0⟩ .standard limits v hv n body piece
        span name params ps fbody hs u hu
      refine ⟨v, hv, n, body, piece, u, hu, call, ?_⟩
      rw [← beq_iff_eq.1 makes]
      exact finds.1 frames
    | _ => cases makes
  | _ => simp [piece] at found

def Spell.branched : String := "if (true) function f() { moveRight() }\nf()"

/-- The spell is read, its names are known, and its function is executed; but it is not found. -/
theorem Spell.branched_unknown :
    let first := Casting.start .corridor ⟨0, 0⟩ .standard .standard
    ∃ p, Spell.parse branched = .ok p ∧ p.checkNames .standard = .ok () ∧
      (∃ v ∈ (Visits.run .standard p.body).list first, ∃ n s, v.piece = .stmt n s ∧
        s.makes "f" = true) ∧
      p.perform .corridor ⟨0, 0⟩ .standard .standard =
        .error (.unknown "f" ⟨⟨2, 1⟩, ⟨2, 1⟩⟩) := by
  intro first
  have computed : (Spell.parse branched).toOption.map (fun p =>
      (p.checkNames .standard, ((Visits.run .standard p.body).list first).any (fun v =>
        match v.piece with
        | .stmt _ s => s.makes "f"
        | _ => false),
        p.perform .corridor ⟨0, 0⟩ .standard .standard)) =
      some (.ok (), true, .error (.unknown "f" ⟨⟨2, 1⟩, ⟨2, 1⟩⟩)) := by decide +kernel
  rcases h : Spell.parse branched with e | p <;> rw [h] at computed
  · cases computed
  · simp only [Except.toOption, Option.map_some, Option.some.injEq, Prod.mk.injEq] at computed
    obtain ⟨names, visited, fails⟩ := computed
    obtain ⟨v, hv, makes⟩ := List.any_eq_true.1 visited
    refine ⟨p, rfl, names, ⟨v, hv, ?_⟩, fails⟩
    cases piece : v.piece with
    | stmt n s =>
      rw [piece] at makes
      exact ⟨n, s, rfl, makes⟩
    | _ => simp [piece] at makes

end Spellcraft
