import Spellcraft.Proofs.Casting.Clock
import Spellcraft.Proofs.Casting.Scoped

namespace Spellcraft

namespace Trail

theorem record_ne_outOfGas (t : Trail) (a : Action) (n : Nat) :
    t.record a ≠ .error (.outOfGas n) := by
  unfold record
  split <;> simp

theorem move_ne_outOfGas (t : Trail) (d : Direction) (n : Nat) :
    t.move d ≠ .error (.outOfGas n) := by
  intro h
  simp only [move] at h
  cases hr : t.record (.move d) with
  | ok u =>
    rw [hr] at h
    cases h
  | error e =>
    rw [hr] at h
    cases h
    exact t.record_ne_outOfGas _ n hr

theorem lightTorch_ne_outOfGas (t : Trail) (span : Span) (n : Nat) :
    t.lightTorch span ≠ .error (.outOfGas n) := by
  unfold lightTorch
  split
  · exact t.record_ne_outOfGas _ n
  · simp

end Trail

namespace Cast

theorem isOver_takeReturn (r : Except Exit Unit) : isOver (takeReturn r) = isOver r := by
  rcases r with e | a
  · cases e <;> rfl
  · rfl

theorem isOver_takeEnd (r : Except Exit Unit) : isOver (takeEnd r) = isOver r := by
  rcases r with e | a
  · cases e <;> rfl
  · rfl

theorem isOver_takeJump (r : Except Exit Unit) : isOver (takeJump r) = isOver r := by
  rcases r with e | a
  · cases e <;> rfl
  · rfl

def Idle (p : Cast α) : Prop := ∀ c, isOver (p c).1 = false ∧ (p c).2.gas = c.gas

namespace Idle

protected theorem pure (a : α) : Idle (pure a) := fun _ => ⟨rfl, rfl⟩

protected theorem throw (he : e.isWatchdog = false) : Idle (throw e : Cast α) := fun _ => ⟨he, rfl⟩

protected theorem get : Idle get := fun _ => ⟨rfl, rfl⟩

protected theorem bind {p : Cast α} {f : α → Cast β} (h : Idle p) (hf : ∀ a, Idle (f a)) :
    Idle (p >>= f) := by
  intro c
  obtain ⟨hr, hg⟩ := h c
  rw [bind_apply]
  rcases hp : p c with ⟨e | a, d⟩ <;> rw [hp] at hr hg
  · exact ⟨hr, hg⟩
  · obtain ⟨hr', hg'⟩ := hf a d
    exact ⟨hr', hg'.trans hg⟩

theorem forM {f : α → Cast Unit} (xs : List α) (h : ∀ x, Idle (f x)) : Idle (xs.forM f) := by
  induction xs with
  | nil => exact .pure ()
  | cons x xs ih => exact .bind (h x) fun _ => ih

theorem ofScoped {p : Cast α} (h : Scoped p) : Idle p := fun c => ⟨h.isOver_eq c, h.gas_eq c⟩

theorem lookup (name : String) (span : Span) : Idle (lookup name span) :=
  .ofScoped (.lookup name span)

theorem assign (target : Ident) (v : Value) : Idle (assign target v) :=
  .ofScoped (.assign target v)

theorem declareVar (name : String) (v : Option Value) : Idle (declareVar name v) :=
  .ofScoped (.declareVar name v)

theorem declare (kind : DeclKind) (name : Ident) (v : Option Value) :
    Idle (declare kind name v) := by
  cases kind with
  | var => exact declareVar name.name v
  | let_ => exact .ofScoped (.declareLocal name v false)
  | const => exact .ofScoped (.declareLocal name v true)

theorem hoistVars (body : List Stmt) : Idle (hoistVars body) :=
  .forM _ fun name => declareVar name none

theorem hoistFunctions (body : List Stmt) : Idle (hoistFunctions body) := by
  induction body with
  | nil => exact .pure ()
  | cons s rest ih =>
    cases s with
    | function => exact .bind (.ofScoped (.declareFunction _ _ _)) fun _ => ih
    | _ => exact ih

theorem bindParams (params : List Ident) (args : List Value) : Idle (bindParams params args) := by
  induction params generalizing args with
  | nil => exact .pure ()
  | cons p ps ih => exact .bind (declareVar _ _) fun _ => ih args.tail

theorem binary (limits : Limits) (op : BinaryOp) (v w : Value) (span : Span) :
    Idle (binary limits op v w span) := by
  unfold Cast.binary
  split
  · split
    · exact .throw rfl
    · exact .pure _
  · exact .pure _

theorem update (op : UpdateOp) (before : Bool) (target : Ident) :
    Idle (update op before target) :=
  .bind (lookup _ _) fun _ => .bind (assign _ _) fun _ => .pure _

theorem checkDepth (limits : Limits) (span : Span) : Idle (checkDepth limits span) := by
  apply Idle.bind .get
  intro c
  split
  · exact .throw rfl
  · exact .pure ()

theorem follow {step : Trail → Except Trap Trail} (h : ∀ t n, step t ≠ .error (.outOfGas n)) :
    Idle (follow step) := by
  intro c
  rw [follow_apply]
  cases hs : step c.trail with
  | ok t => exact ⟨rfl, rfl⟩
  | error e =>
    refine ⟨?_, rfl⟩
    cases e with
    | outOfGas n => exact absurd hs (h c.trail n)
    | _ => rfl

theorem command (k : Command) (span : Span) : Idle (command k span) := by
  cases k with
  | look d => exact .bind .get fun _ => .pure _
  | move d => exact .bind (follow fun t n => t.move_ne_outOfGas d n) fun _ => .pure _
  | lightTorch => exact .bind (follow fun t n => t.lightTorch_ne_outOfGas span n) fun _ => .pure _

end Idle

end Cast

namespace Clocked

variable {limits : Limits} {n k : Nat}

/-- At least `g` units of gas are used in the end, and one more than there are only if the run is
over. -/
inductive Spent (limits : Limits) (g : Nat) : Except Exit α × Casting → Prop
  | left {r d} : Cast.isOver r = false → g ≤ d.gas → d.gas ≤ limits.gas → Spent limits g (r, d)
  | gone {d} : d.gas = limits.gas + 1 → Spent limits g (.error (.trap (.outOfGas limits.gas)), d)

theorem Spent.weaken {x : Except Exit α × Casting} (h : Spent limits g x) (hg : g' ≤ g) :
    Spent limits g' x := by
  cases h with
  | left hr h hd => exact .left hr (by omega) hd
  | gone hd => exact .gone hd

/-- Where no more than `n` units of gas are left, `q` ends as `p` does, and uses at least `k`. -/
def Follows (limits : Limits) (n k : Nat) (q : Clocked α) (p : Cast α) : Prop :=
  ∀ c : Casting, c.gas ≤ limits.gas → limits.gas ≤ c.gas + n →
    q c = some (p c) ∧ Spent limits (c.gas + k) (p c)

def next (g : α → Clocked β) : Except Exit α × Casting → Option (Except Exit β × Casting)
  | (.ok a, c) => g a c
  | (.error e, c) => some (.error e, c)

theorem bind_some {q : Clocked α} (h : q c = some x) (g : α → Clocked β) :
    (q >>= g) c = next g x := by
  change (q c).bind (fun x => (ExceptT.bindCont g x.1 : StateT Casting Option _) x.2) = _
  rw [h]
  rcases x with ⟨_ | _, d⟩ <;> rfl

namespace Follows

theorem lower {q : Clocked α} (h : Follows limits n k q p) (hm : m ≤ n) :
    Follows limits m k q p := fun c hc hn => h c hc (by omega)

theorem weaken {q : Clocked α} (h : Follows limits n k q p) : Follows limits n 0 q p := by
  intro c hc hn
  obtain ⟨hq, hs⟩ := h c hc hn
  exact ⟨hq, hs.weaken (by omega)⟩

protected theorem pure (a : α) : Follows limits n 0 (pure a) (pure a) :=
  fun _ hc _ => ⟨rfl, .left rfl (by omega) hc⟩

protected theorem throw (he : e.isWatchdog = false) :
    Follows limits n 0 (throw e : Clocked α) (throw e) :=
  fun _ hc _ => ⟨rfl, .left he (by omega) hc⟩

theorem bind_of_spent {q : Clocked α} {g : α → Clocked β} {f : α → Cast β}
    (h : Follows limits n k q p)
    (hk : ∀ a c, c.gas ≤ limits.gas → limits.gas + k ≤ c.gas + n →
      g a c = some (f a c) ∧ Spent limits c.gas (f a c)) :
    Follows limits n k (q >>= g) (p >>= f) := by
  intro c hc hn
  obtain ⟨hq, hs⟩ := h c hc hn
  rw [bind_some hq, Cast.bind_apply]
  generalize p c = x at hs
  cases hs with
  | gone hd => exact ⟨rfl, .gone hd⟩
  | @left r d hr hg hd =>
    cases r with
    | error e => exact ⟨rfl, .left hr hg hd⟩
    | ok a =>
      obtain ⟨hg', hs'⟩ := hk a d hd (by omega)
      exact ⟨hg', hs'.weaken hg⟩

protected theorem bind {q : Clocked α} {g : α → Clocked β} {f : α → Cast β}
    (h : Follows limits n k q p) (hk : ∀ a, Follows limits n 0 (g a) (f a)) :
    Follows limits n k (q >>= g) (p >>= f) :=
  h.bind_of_spent fun a c hc hn => hk a c hc (by omega)

theorem spend {q : Clocked α} {g : α → Clocked β} {f : α → Cast β}
    (h : Follows limits (n + 1) 1 q p) (hk : ∀ a, Follows limits n 0 (g a) (f a)) :
    Follows limits (n + 1) 1 (q >>= g) (p >>= f) :=
  h.bind_of_spent fun a c hc hn => hk a c hc (by omega)

theorem exhaust {q : Clocked α} (h : Follows limits 0 1 q p) (g : α → Clocked β)
    (f : α → Cast β) : Follows limits 0 1 (q >>= g) (p >>= f) :=
  h.bind_of_spent fun a c hc hn => by omega

theorem discard {q : Clocked α} (h : Follows limits n k q p) :
    Follows limits n k (q >>= fun _ => pure ()) (discard p) := by
  rw [Cast.discard_eq]
  exact h.bind fun _ => .pure ()

theorem idle {p : Cast α} (h : Cast.Idle p) :
    Follows limits n 0 (ofCast p) p := by
  intro c hc hn
  obtain ⟨hr, hg⟩ := h c
  exact ⟨rfl, .left hr (by omega) (by omega)⟩

theorem tick (hcount : ∀ g ≤ limits.gas, count g = g + 1) :
    Follows limits n 1 (ofCast (Clocked.tick count limits)) (Cast.tick limits) := by
  intro c hc hn
  have h : Clocked.tick count limits c = Cast.tick limits c := by
    simp only [Clocked.tick, Cast.tick, Cast.modify_bind_apply, hcount c.gas hc]
  refine ⟨congrArg some h, ?_⟩
  rw [Cast.tick_apply]
  split
  · exact .gone (by simp only; omega)
  · exact .left rfl (Nat.le_refl _) (by simp only; omega)

theorem settle {q : Clocked α} {h : Except Exit α → Except Exit β} (hq : Follows limits n k q p)
    (left : ∀ r, Cast.isOver (h r) = Cast.isOver r)
    (kept : ∀ m, h (.error (.trap (.outOfGas m))) = .error (.trap (.outOfGas m))) :
    Follows limits n k (Clocked.settle h q) (Cast.settle h p) := by
  intro c hc hn
  obtain ⟨hq, hs⟩ := hq c hc hn
  simp only [Clocked.settle, hq, Cast.settle]
  generalize p c = x at hs ⊢
  refine ⟨rfl, ?_⟩
  cases hs with
  | left hr hg hd => exact .left ((left _).trans hr) hg hd
  | gone hd =>
    rw [kept]
    exact .gone hd

theorem loopBody {q : Clocked Unit} (hq : Follows limits n k q p) :
    Follows limits n k (Clocked.loopBody q) (Cast.loopBody p) := by
  rw [Clocked.loopBody, Cast.loopBody_eq]
  exact hq.settle Cast.isOver_takeJump fun _ => rfl

theorem inBlock {q : Clocked Unit} (hq : Follows limits n k q p) :
    Follows limits n k (Clocked.inBlock q) (Cast.inBlock p) := by
  intro c hc hn
  obtain ⟨hq, hs⟩ := hq (c.enter ⟨[], some c.current, false⟩) hc hn
  simp only [Clocked.inBlock, hq, Cast.inBlock, Cast.get_bind_apply, Cast.within]
  generalize p (c.enter ⟨[], some c.current, false⟩) = x at hs ⊢
  refine ⟨rfl, ?_⟩
  cases hs with
  | left hr hg hd => exact .left hr hg hd
  | gone hd => exact .gone hd

theorem inFrame {q : Clocked Unit} (hq : Follows limits n k q p) (scope : Nat) :
    Follows limits n k (Clocked.inFrame scope q) (Cast.inFrame scope p) := by
  intro c hc hn
  obtain ⟨hq, hs⟩ :=
    hq (Casting.enter { c with calls := c.calls + 1 } ⟨[], some scope, true⟩) hc hn
  simp only [Clocked.inFrame, hq, Cast.inFrame, Cast.within]
  generalize p (Casting.enter { c with calls := c.calls + 1 } ⟨[], some scope, true⟩) = x at hs ⊢
  refine ⟨rfl, ?_⟩
  cases hs with
  | left hr hg hd => exact .left hr hg hd
  | gone hd => exact .gone hd

theorem returned {q : Clocked Unit} (hq : Follows limits n k q p) :
    Follows limits n k (Clocked.settle Cast.takeReturn q) (Cast.returned p) := by
  rw [Cast.returned_eq]
  exact hq.settle Cast.isOver_takeReturn fun _ => rfl

theorem forM {g : α → Clocked Unit} {f : α → Cast Unit} (xs : List α)
    (h : ∀ x, Follows limits n 0 (g x) (f x)) : Follows limits n 0 (xs.forM g) (xs.forM f) := by
  induction xs with
  | nil => exact .pure ()
  | cons x xs ih => exact .bind (h x) fun _ => ih

theorem mapM {g : α → Clocked β} {f : α → Cast β} (xs : List α)
    (h : ∀ x, Follows limits n 0 (g x) (f x)) : Follows limits n 0 (xs.mapM g) (xs.mapM f) := by
  induction xs with
  | nil => exact .pure []
  | cons x xs ih =>
    rw [List.mapM_cons, List.mapM_cons]
    exact .bind (h x) fun _ => .bind ih fun _ => .pure _

end Follows

end Clocked

end Spellcraft
