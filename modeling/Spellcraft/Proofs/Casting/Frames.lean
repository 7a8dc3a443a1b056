import Spellcraft.Casting.Fault
import Spellcraft.Proofs.Casting.Growth
import Spellcraft.Proofs.Casting.VisitLaws
import Spellcraft.Proofs.Maze.Walk

namespace Spellcraft

namespace Casting

structure Kept (c d : Casting) : Prop where
  current : d.current = c.current
  calls : d.calls = c.calls
  grown : c.store.Grows d.store

namespace Kept

variable {c d e : Casting}

theorem refl (c : Casting) : c.Kept c := ⟨rfl, rfl, .refl _⟩

theorem trans (h : c.Kept d) (h' : d.Kept e) : c.Kept e :=
  ⟨h'.current.trans h.current, h'.calls.trans h.calls, h.grown.trans h'.grown⟩

theorem bind (c : Casting) (i : Nat) (name : String) (b : Binding) (closures : Nat) :
    c.Kept { c with store := c.store.bind i name b, closures } := ⟨rfl, rfl, .bind ..⟩

theorem finds (h : c.Kept d) (hf : c.store.Finds name c.current) :
    d.store.Finds name d.current := by
  rw [h.current]
  exact h.grown.finds hf

end Kept

end Casting

namespace Cast

structure Calm (p : Cast α) : Prop where
  kept (c : Casting) : c.Kept (p c).2
  allowed (c : Casting) (limit : Nat) (span : Span) :
    (p c).1 ≠ .error (.trap (.tooManyCalls limit span))

namespace Calm

variable {p : Cast α} {f : α → Cast β}

protected theorem pure (a : α) : Calm (pure a : Cast α) := ⟨fun c => .refl c, nofun⟩

protected theorem throw (h : ∀ limit span, e ≠ .trap (.tooManyCalls limit span)) :
    Calm (throw e : Cast α) :=
  ⟨fun c => .refl c, fun _ limit span he => h limit span (Except.error.inj he)⟩

protected theorem bind (h : Calm p) (hf : ∀ a, Calm (f a)) : Calm (p >>= f) := by
  constructor
  · intro c
    rw [bind_apply]
    have kept := h.kept c
    generalize p c = x at kept ⊢
    rcases x with ⟨e | a, d⟩
    · exact kept
    · exact kept.trans ((hf a).kept d)
  · intro c limit span
    rw [bind_apply]
    have allowed := h.allowed c limit span
    generalize p c = x at allowed ⊢
    rcases x with ⟨e | a, d⟩
    · exact fun he => allowed (congrArg Except.error (Except.error.inj he))
    · exact (hf a).allowed d limit span

theorem forM {f : α → Cast Unit} (h : ∀ x, Calm (f x)) (xs : List α) : Calm (xs.forM f) := by
  induction xs with
  | nil => exact .pure ()
  | cons x xs ih => exact .bind (h x) fun _ => ih

theorem get : Calm (get : Cast Casting) := ⟨fun c => .refl c, nofun⟩

theorem tick (limits : Limits) : Calm (tick limits) := by
  constructor
  · intro c
    rw [tick_apply]
    exact ⟨rfl, rfl, .refl _⟩
  · intro c limit span
    rw [tick_apply]
    split <;> simp

theorem lookup (name : String) (span : Span) : Calm (lookup name span) := by
  refine .bind .get fun c => ?_
  cases c.store.get? name c.current with
  | none => exact .throw nofun
  | some b => exact .pure b.value

theorem assign (target : Ident) (v : Value) : Calm (assign target v) := by
  refine .bind .get fun c => ?_
  cases c.store.find? target.name c.current with
  | none => exact .throw nofun
  | some i =>
    cases c.store.get? target.name c.current with
    | none => exact .throw nofun
    | some b =>
      dsimp only
      split
      · exact .throw nofun
      · exact ⟨fun d => .bind d .., nofun⟩

theorem declareVar (name : String) (v : Option Value) : Calm (declareVar name v) := by
  refine ⟨fun c => ?_, nofun⟩
  simp only [Cast.declareVar, modify_apply]
  split
  · exact .refl c
  · exact .bind c ..

theorem declareLocal (name : Ident) (v : Option Value) (constant : Bool) :
    Calm (declareLocal name v constant) := by
  refine .bind .get fun c => ?_
  split
  · exact .throw nofun
  · exact ⟨fun d => .bind d .., nofun⟩

theorem declare (kind : DeclKind) (name : Ident) (v : Option Value) :
    Calm (declare kind name v) := by
  cases kind with
  | var => exact .declareVar name.name v
  | let_ | const => exact .declareLocal name v _

theorem declareFunction (name : Ident) (params : List Ident) (body : List Stmt) :
    Calm (declareFunction name params body) := ⟨fun c => .bind c .., nofun⟩

theorem hoistVars (body : List Stmt) : Calm (hoistVars body) :=
  .forM (fun name => .declareVar name none) _

theorem hoistFunctions (body : List Stmt) : Calm (hoistFunctions body) := by
  induction body with
  | nil => exact .pure ()
  | cons s rest ih =>
    cases s with
    | function => exact .bind (.declareFunction ..) fun _ => ih
    | _ => exact ih

theorem bindParams (params : List Ident) (args : List Value) : Calm (bindParams params args) := by
  induction params generalizing args with
  | nil => exact .pure ()
  | cons p ps ih => exact .bind (.declareVar ..) fun _ => ih args.tail

theorem binary (limits : Limits) (op : BinaryOp) (v w : Value) (span : Span) :
    Calm (binary limits op v w span) := by
  unfold Cast.binary
  split
  · split
    · exact .throw nofun
    · exact .pure _
  · exact .pure _

theorem follow {step : Trail → Except Trap Trail}
    (h : ∀ t limit span, step t ≠ .error (.tooManyCalls limit span)) : Calm (follow step) := by
  constructor
  · intro c
    rw [follow_apply]
    cases step c.trail <;> exact ⟨rfl, rfl, .refl _⟩
  · intro c limit span
    rw [follow_apply]
    cases hs : step c.trail with
    | ok t => nofun
    | error e =>
      rintro ⟨⟩
      exact h _ _ _ hs

theorem command (k : Command) (span : Span) : Calm (command k span) := by
  cases k with
  | look d => exact .bind .get fun _ => .pure _
  | move d =>
    refine .bind (.follow fun t limit s => ?_) fun _ => .pure _
    simp only [Trail.move, Trail.record]
    cases t.room <;> exact fun h => by cases h
  | lightTorch =>
    refine .bind (.follow fun t limit s => ?_) fun _ => .pure _
    simp only [Trail.lightTorch, Trail.record]
    split
    · cases t.room <;> exact fun h => by cases h
    · exact fun h => by cases h

end Calm

end Cast

/-- A computation comes back to where it began. On its way the depth of calls is the number of
functions that are being executed, and what was found before is found in their absence. -/
structure Levelled (limits : Limits) (c : Casting) (l : List Visit)
    (x : Except Exit α × Casting) : Prop where
  kept : c.Kept x.2
  grown : ∀ v ∈ l, c.store.Grows v.state.store
  depth : ∀ v ∈ l, v.state.calls = c.calls + v.frames
  found : ∀ v ∈ l, v.frames = 0 → ∀ name, c.store.Finds name c.current →
    v.state.store.Finds name v.state.current
  bounded : c.calls ≤ limits.calls → ∀ v ∈ l, v.state.calls ≤ limits.calls
  refused (limit : Nat) (span : Span) : x.1 = .error (.trap (.tooManyCalls limit span)) ↔
    limit = limits.calls ∧ ∃ v ∈ l, limits.calls ≤ v.state.calls ∧ v.Calls span

namespace Levelled

variable {limits : Limits} {c d : Casting} {l l' : List Visit}

theorem of_calm {p : Cast α} (h : Cast.Calm p) (c : Casting) : Levelled limits c [] (p c) where
  kept := h.kept c
  grown := List.forall_mem_nil _
  depth := List.forall_mem_nil _
  found := List.forall_mem_nil _
  bounded _ := List.forall_mem_nil _
  refused limit span := by simp [h.allowed c limit span]

theorem append {y : Except Exit β × Casting} (h : Levelled limits c l (Except.ok a, d))
    (h' : Levelled limits d l' y) : Levelled limits c (l ++ l') y where
  kept := h.kept.trans h'.kept
  grown := List.forall_mem_append.2 ⟨h.grown, fun v hv => h.kept.grown.trans (h'.grown v hv)⟩
  depth := List.forall_mem_append.2 ⟨h.depth, fun v hv => by rw [h'.depth v hv, h.kept.calls]⟩
  found := List.forall_mem_append.2
    ⟨h.found, fun v hv hf name hn => h'.found v hv hf name (h.kept.finds hn)⟩
  bounded hc := List.forall_mem_append.2
    ⟨h.bounded hc, h'.bounded (h.kept.calls.symm ▸ hc)⟩
  refused limit span := by
    have none : ¬ ∃ v ∈ l, limits.calls ≤ v.state.calls ∧ v.Calls span := fun hv =>
      nomatch (h.refused limits.calls span).2 ⟨rfl, hv⟩
    rw [h'.refused limit span]
    refine and_congr_right fun _ => ⟨?_, ?_⟩
    · rintro ⟨v, hv, hl⟩
      exact ⟨v, List.mem_append_right _ hv, hl⟩
    · rintro ⟨v, hv, hl⟩
      rcases List.mem_append.1 hv with hv | hv
      · exact (none ⟨v, hv, hl⟩).elim
      · exact ⟨v, hv, hl⟩

theorem note {x : Except Exit α × Casting} {piece : Piece} (h : Levelled limits c l x)
    (hp : ∀ n f args span, piece ≠ .call n f args span) :
    Levelled limits c (⟨0, piece, c⟩ :: l) x where
  kept := h.kept
  grown := List.forall_mem_cons.2 ⟨.refl _, h.grown⟩
  depth := List.forall_mem_cons.2 ⟨rfl, h.depth⟩
  found := List.forall_mem_cons.2 ⟨fun _ _ => id, h.found⟩
  bounded hc := List.forall_mem_cons.2 ⟨hc, h.bounded hc⟩
  refused limit span := by
    rw [h.refused limit span]
    refine and_congr_right fun _ => ⟨?_, ?_⟩
    · rintro ⟨v, hv, hl⟩
      exact ⟨v, List.mem_cons_of_mem _ hv, hl⟩
    · rintro ⟨v, hv, hl⟩
      rcases List.mem_cons.1 hv with rfl | hv
      · obtain ⟨-, n, f, args, hcall⟩ := hl
        exact (hp n f args span hcall).elim
      · exact ⟨v, hv, hl⟩

theorem settle {x : Except Exit α × Casting} {f : Except Exit α → Except Exit β}
    (spares : Visits.Sparing f) (h : Levelled limits c l x) : Levelled limits c l (f x.1, x.2) :=
  { h with refused := fun limit span => (spares _ _).trans (h.refused limit span) }

theorem inBlock {x : Except Exit α × Casting}
    (h : Levelled limits (c.enter ⟨[], some c.current, false⟩) l x) :
    Levelled limits c l (x.1, { x.2 with current := c.current }) where
  kept := ⟨rfl, h.kept.calls, .trans (.push _ _) h.kept.grown⟩
  grown v hv := .trans (.push _ _) (h.grown v hv)
  depth := h.depth
  found v hv hf name hn := h.found v hv hf name (hn.push false)
  bounded := h.bounded
  refused := h.refused

theorem inFrame {x : Except Exit α × Casting} {scope : Nat} {n : Nat} {f : Closure}
    {args : List Value} {span : Span} (room : c.calls < limits.calls)
    (h : Levelled limits
      (Casting.enter { c with calls := c.calls + 1 } ⟨[], some scope, true⟩) l x) :
    Levelled limits c (⟨0, .call n f args span, c⟩ :: l.map Visit.deeper)
      (x.1, { x.2 with current := c.current, calls := c.calls }) where
  kept := ⟨rfl, rfl, .trans (.push _ _) h.kept.grown⟩
  grown := List.forall_mem_cons.2
    ⟨.refl _, List.forall_mem_map.2 fun v hv => .trans (.push _ _) (h.grown v hv)⟩
  depth := by
    refine List.forall_mem_cons.2 ⟨rfl, List.forall_mem_map.2 fun v hv => ?_⟩
    have depth : v.state.calls = c.calls + 1 + v.frames := h.depth v hv
    simp only [Visit.deeper]
    omega
  found := List.forall_mem_cons.2 ⟨fun _ _ => id, List.forall_mem_map.2 fun _ _ => nofun⟩
  bounded hc := List.forall_mem_cons.2 ⟨hc, List.forall_mem_map.2 (h.bounded room)⟩
  refused limit s := by
    rw [h.refused limit s]
    refine and_congr_right fun _ => ⟨?_, ?_⟩
    · rintro ⟨v, hv, hl⟩
      exact ⟨v.deeper, List.mem_cons_of_mem _ (List.mem_map_of_mem hv), hl⟩
    · rintro ⟨v, hv, hl⟩
      rcases List.mem_cons.1 hv with rfl | hv
      · exact absurd hl.1 (Nat.not_le_of_lt room)
      · obtain ⟨w, hw, rfl⟩ := List.mem_map.1 hv
        exact ⟨w, hw, hl⟩

theorem refuse {n : Nat} {f : Closure} {args : List Value} {span : Span}
    (full : limits.calls ≤ c.calls) :
    Levelled limits c [⟨0, .call n f args span, c⟩]
      (Except.error (.trap (.tooManyCalls limits.calls span)), c)
      (α := α) where
  kept := .refl c
  grown := List.forall_mem_singleton.2 (.refl _)
  depth := List.forall_mem_singleton.2 rfl
  found := List.forall_mem_singleton.2 fun _ _ => id
  bounded hc := List.forall_mem_singleton.2 hc
  refused limit s := by
    simp only [Except.error.injEq, Exit.trap.injEq, Trap.tooManyCalls.injEq, List.mem_singleton,
      exists_eq_left, full, true_and, Visit.Calls, Piece.call.injEq]
    constructor
    · rintro ⟨rfl, rfl⟩
      exact ⟨rfl, n, f, args, rfl, rfl, rfl, rfl⟩
    · rintro ⟨rfl, -, -, -, -, -, -, rfl⟩
      exact ⟨rfl, rfl⟩

end Levelled

namespace Visits

def Level (limits : Limits) (_ : Setting) {α : Type} {p : Cast α} (w : Visits p) : Prop :=
  ∀ c, Levelled limits c (w.list c) (p c)

namespace Level

variable {limits : Limits} {σ : Setting} {α β : Type} {p : Cast α} {w : Visits p}

theorem quiet (h : Cast.Calm p) : Level limits σ (quiet p) := fun c => .of_calm h c

theorem bind {f : α → Cast β} {v : ∀ a, Visits (f a)} (hw : Level limits σ w)
    (hv : ∀ a, Level limits σ (v a)) : Level limits σ (w.bind v) := by
  intro c
  have h := hw c
  rw [Cast.bind_apply]
  simp only [Visits.bind]
  generalize p c = x at h ⊢
  rcases x with ⟨e | a, d⟩
  · rw [List.append_nil]
    exact { h with refused := fun limit span => by rw [← h.refused limit span]; simp [Cast.next] }
  · exact h.append (hv a d)

theorem settle {h : Except Exit α → Except Exit β} (spares : Sparing h) (hw : Level limits σ w) :
    Level limits σ (w.settle h) := fun c => (hw c).settle spares

theorem inBlock (hw : Level limits σ w) : Level limits σ w.inBlock := fun _ => (hw _).inBlock

theorem call {p : Cast Unit} {w : Visits p} (n : Nat) (f : Closure) (args : List Value)
    (span : Span) (hw : Level limits .frame w) : Level limits σ (note (.call n f args span)
      ((Visits.quiet (Cast.checkDepth limits span)).bind fun _ =>
        returned (inFrame f.scope w))) := by
  intro c
  rw [Cast.bind_apply]
  simp only [note, Visits.bind, Visits.quiet, Cast.checkDepth, Cast.get_bind_apply,
    List.nil_append, Cast.returned_eq]
  by_cases full : limits.calls ≤ c.calls
  · rw [if_pos full]
    exact .refuse full
  · rw [if_neg full]
    have entered := hw (Casting.enter { c with calls := c.calls + 1 } ⟨[], some f.scope, true⟩)
    exact (entered.inFrame (Nat.lt_of_not_le full)).settle sparing_takeReturn

theorem lawful (limits : Limits) : Lawful limits (Level limits) where
  pure σ _ a := .quiet (.pure a)
  throw σ _ e he := .quiet (.throw he)
  tick σ := .quiet (.tick limits)
  lookup σ name span := .quiet (.lookup name span)
  assign σ target v := .quiet (.assign target v)
  binary σ op v w span := .quiet (.binary limits op v w span)
  command σ k span := .quiet (.command k span)
  declare _ kind name v _ := .quiet (.declare kind name v)
  hoistFunctions _ body := .quiet (.hoistFunctions body)
  bindParams params args := .quiet (.bindParams params args)
  hoistVars body hw := .bind (.quiet (.hoistVars body)) fun _ => hw
  bind := .bind
  settle := .settle
  note {σ _ _ _ piece} fits _ hw := fun c => (hw c).note fun n f args span hp => by
    subst hp
    cases σ <;> exact fits
  inBlock := .inBlock
  call := .call
  anywhere := id
  widen := id

end Level

end Visits

end Spellcraft
