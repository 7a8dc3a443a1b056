import Spellcraft.Proofs.Casting.Confinement
import Spellcraft.Proofs.Casting.Reach
import Spellcraft.Proofs.Casting.Watch
import Spellcraft.Proofs.Language.Admission

/-!
Runs of code that is admitted by rules. A function in the store was admitted together with names
that the bodies around it reserve, and all of these are found from the scope it was made in. A run
that starts from such a store ends in one, and fails only as the rules have it. The values in hand
are listed, since the store has grown by the time they are used.
-/

namespace Spellcraft

def Trap.isStray : Trap → Bool
  | .typeFault (.strayJump _) _ => true
  | _ => false

/-- Where code stands: what takes back its jumps. -/
inductive Seat
  | expr : Seat
  | stmt (inLoop : Bool) : Seat

namespace Seat

def returns : Seat → Prop
  | .expr => False
  | .stmt _ => True

def inLoop : Seat → Prop
  | .expr => False
  | .stmt inLoop => inLoop = true

end Seat

namespace Rules

variable {k : Rules}

structure Covers (k : Rules) (around : List String) (st : Store) (i : Nat) : Prop where
  reserved : ∀ x ∈ around, st.Finds x i
  known : k.known x → st.Finds x i

namespace Covers

theorem mono (h : k.Covers around st i) (hst : st.Extends st') : k.Covers around st' i :=
  ⟨fun x hx => hst.finds (h.reserved x hx), fun hx => hst.finds (h.known hx)⟩

theorem subset (h : k.Covers around st i) (hs : around' ⊆ around) : k.Covers around' st i :=
  ⟨fun x hx => h.reserved x (hs hx), h.known⟩

theorem cons (h : k.Covers around st i) (hf : st.Finds name i) :
    k.Covers (name :: around) st i :=
  ⟨List.forall_mem_cons.2 ⟨hf, h.reserved⟩, h.known⟩

theorem push (h : k.Covers around st i) (hosts : Bool) :
    k.Covers around (Array.push st ⟨[], some i, hosts⟩) st.size :=
  ⟨fun x hx => (h.reserved x hx).push hosts, fun hx => (h.known hx).push hosts⟩

end Covers

def Valid (k : Rules) (st : Store) : Value → Prop
  | .function f => ∃ around, k.Covers around st f.scope ∧
      k.AdmitsBody (reserved f.params f.body around) false f.body
  | _ => True

theorem Valid.mono (h : k.Valid st v) (hst : st.Extends st') : k.Valid st' v := by
  cases v with
  | function f =>
    obtain ⟨around, hcov, hbody⟩ := h
    exact ⟨around, hcov.mono hst, hbody⟩
  | _ => trivial

def AtHand (held : List Value) (v : Value) : Prop := v ∈ held ∨ v.isPlain

theorem AtHand.valid (h : AtHand held v) (hheld : ∀ w ∈ held, k.Valid st w) : k.Valid st v := by
  rcases h with h | h
  · exact hheld v h
  · cases v <;> trivial

structure Sound (k : Rules) (c : Casting) : Prop where
  stored : c.store.All (k.Valid c.store)
  current : c.current < c.store.size

def exits (k : Rules) (seat : Seat) (st : Store) : Exit → Prop
  | .trap t => t.isStray = false
  | .unknown name span => k.missing ⟨name, span⟩ ∧ ¬ k.known name
  | .return_ v => seat.returns ∧ k.Valid st v
  | .break_ | .continue_ => k.loose ∨ seat.inLoop

def shows (k : Rules) (seat : Seat) (given : α → List Value) (st : Store) :
    Except Exit α → Prop
  | .ok a => ∀ v ∈ given a, k.Valid st v
  | .error e => k.exits seat st e

structure After (k : Rules) (seat : Seat) (given : α → List Value) (c : Casting)
    (x : Except Exit α × Casting) : Prop where
  sound : k.Sound x.2
  grown : c.store.Extends x.2.store
  current : x.2.current = c.current
  shown : k.shows seat given x.2.store x.1

/-- With the values in hand valid at the start, the given ones are at the end. -/
def Follows (k : Rules) (around : List String) (seat : Seat) (held : List Value)
    (given : α → List Value) (p : Cast α) : Prop :=
  ∀ c, k.Sound c → k.Covers around c.store c.current → (∀ v ∈ held, k.Valid c.store v) →
    k.After seat given c (p c)

variable {seat : Seat} {given : α → List Value} {p : Cast α}

theorem exits_widen (h : k.exits .expr st e) : k.exits seat st e := by
  cases e with
  | trap | unknown => exact h
  | return_ v => exact h.1.elim
  | break_ | continue_ => exact .inl (h.resolve_right id)

theorem After.still {x : Except Exit α × Casting} (hc : k.Sound c) (hs : x.2.store = c.store)
    (hi : x.2.current = c.current) (h : k.shows seat given c.store x.1) :
    k.After seat given c x where
  sound := ⟨by rw [hs]; exact hc.stored, by rw [hs, hi]; exact hc.current⟩
  grown := by rw [hs]; exact .refl _
  current := hi
  shown := by rw [hs]; exact h

theorem After.trans {x : Except Exit β × Casting} {y : Except Exit α × Casting}
    {given' : β → List Value} (h : k.After seat' given' c x) (h' : k.After seat given x.2 y) :
    k.After seat given c y :=
  ⟨h'.sound, h.grown.trans h'.grown, h'.current.trans h.current, h'.shown⟩

theorem After.covers {x : Except Exit α × Casting} (h : k.After seat given c x)
    (hcov : k.Covers around c.store c.current) : k.Covers around x.2.store x.2.current := by
  rw [h.current]
  exact hcov.mono h.grown

theorem After.stays {x : Except Exit α × Casting} {held : List Value}
    (h : k.After seat given c x) (hheld : ∀ v ∈ held, k.Valid c.store v) :
    ∀ v ∈ held, k.Valid x.2.store v :=
  fun v hv => (hheld v hv).mono h.grown

namespace Follows

theorem keep (h : k.Follows around seat held given p) (hs : held ⊆ held') :
    k.Follows around seat held' given p :=
  fun c hc hcov hheld => h c hc hcov fun v hv => hheld v (hs hv)

theorem hold (h : k.Follows around seat [] given p) : k.Follows around seat held given p :=
  h.keep (List.nil_subset _)

theorem subset (h : k.Follows around seat held given p) (hs : around ⊆ around') :
    k.Follows around' seat held given p :=
  fun c hc hcov hheld => h c hc (hcov.subset hs) hheld

theorem widen (h : k.Follows around .expr held given p) :
    k.Follows around seat held given p := by
  intro c hc hcov hheld
  obtain ⟨hd, hg, hi, hr⟩ := h c hc hcov hheld
  refine ⟨hd, hg, hi, ?_⟩
  generalize (p c).1 = r at hr ⊢
  cases r with
  | ok a => exact hr
  | error e => exact exits_widen hr

protected theorem pure (h : ∀ v ∈ given a, AtHand held v) :
    k.Follows around seat held given (pure a) :=
  fun _ hc _ hheld => .still hc rfl rfl fun v hv => (h v hv).valid hheld

theorem done : k.Follows around seat held Watch.nothing (pure a) := .pure (List.forall_mem_nil _)

theorem value (h : AtHand held v) : k.Follows around seat held Watch.single (pure v) :=
  .pure (List.forall_mem_singleton.2 h)

protected theorem throw
    (h : ∀ st, (∀ v ∈ held, k.Valid st v) → k.exits seat st e) :
    k.Follows around seat held given (throw e : Cast α) :=
  fun c hc _ hheld => .still hc rfl rfl (h c.store hheld)

protected theorem bind {f : α → Cast β} {given' : β → List Value}
    (h : k.Follows around seat held given p)
    (hf : ∀ a, k.Follows around seat (given a ++ held) given' (f a)) :
    k.Follows around seat held given' (p >>= f) := by
  intro c hc hcov hheld
  rw [Cast.bind_apply]
  have hp := h c hc hcov hheld
  rcases hx : p c with ⟨e | a, d⟩ <;> rw [hx] at hp
  · exact ⟨hp.sound, hp.grown, hp.current, hp.shown⟩
  · refine hp.trans (hf a d hp.sound (hp.covers hcov) ?_)
    exact List.forall_mem_append.2 ⟨hp.shown, hp.stays hheld⟩

theorem settle {h : Except Exit α → Except Exit β} {given' : β → List Value}
    (hp : k.Follows around seat held given p)
    (shown : ∀ st r, k.shows seat given st r → k.shows seat' given' st (h r)) :
    k.Follows around seat' held given' (Cast.settle h p) := by
  intro c hc hcov hheld
  obtain ⟨hd, hg, hi, hr⟩ := hp c hc hcov hheld
  exact ⟨hd, hg, hi, shown _ _ hr⟩

theorem discard (h : k.Follows around seat held given p) :
    k.Follows around seat held Watch.nothing (discard p) := by
  rw [Cast.discard_eq]
  exact h.bind fun _ => .done

theorem returned {p : Cast Unit} (h : k.Follows around (.stmt false) held Watch.nothing p) :
    k.Follows around seat held Watch.single (Cast.returned p) := by
  rw [Cast.returned_eq]
  apply Follows.widen
  refine h.settle ?_
  rintro st (e | a) hr
  · cases e with
    | return_ v => exact List.forall_mem_singleton.2 hr.2
    | trap | unknown => exact hr
    | break_ | continue_ => exact hr.imp_right nofun
  · exact List.forall_mem_singleton.2 trivial

theorem loopBody {p : Cast Unit} (h : k.Follows around (.stmt true) held Watch.nothing p) :
    k.Follows around (.stmt inLoop) held Watch.nothing (Cast.loopBody p) := by
  rw [Cast.loopBody_eq]
  refine h.settle ?_
  rintro st (e | a) hr
  · cases e with
    | break_ | continue_ => exact List.forall_mem_nil _
    | trap | unknown | return_ => exact hr
  · exact List.forall_mem_nil _

theorem ended {p : Cast Unit} (h : k.Follows around (.stmt false) held Watch.nothing p) :
    k.Follows around seat held Watch.nothing (Cast.settle Cast.takeEnd p) := by
  apply Follows.widen
  refine h.settle ?_
  rintro st (e | a) hr
  · cases e with
    | return_ v => exact List.forall_mem_nil _
    | trap | unknown => exact hr
    | break_ | continue_ => exact hr.imp_right nofun
  · exact List.forall_mem_nil _

theorem forM {f : α → Cast Unit} (xs : List α)
    (h : ∀ x ∈ xs, k.Follows around seat held Watch.nothing (f x)) :
    k.Follows around seat held Watch.nothing (xs.forM f) := by
  induction xs with
  | nil => exact .done
  | cons x xs ih =>
    apply Follows.bind (h x List.mem_cons_self)
    intro _
    exact ih fun y hy => h y (List.mem_cons_of_mem x hy)

theorem mapM {f : α → Cast Value} (xs : List α)
    (h : ∀ x ∈ xs, k.Follows around seat [] Watch.single (f x)) :
    k.Follows around seat held id (xs.mapM f) := by
  induction xs generalizing held with
  | nil => exact .pure (List.forall_mem_nil _)
  | cons x xs ih =>
    rw [List.mapM_cons]
    apply Follows.bind (h x List.mem_cons_self).hold
    intro v
    apply Follows.bind (ih fun y hy => h y (List.mem_cons_of_mem x hy))
    intro vs
    refine .pure (List.forall_mem_cons.2 ⟨.inl ?_, fun w hw => .inl (List.mem_append_left _ hw)⟩)
    exact List.mem_append_right vs List.mem_cons_self

end Follows

theorem Sound.bind (hc : k.Sound c) (hv : k.Valid c.store b.value) (i : Nat) (name : String) :
    k.Sound { c with store := c.store.bind i name b } where
  stored := by
    have grown := Store.Extends.bind c.store i name b
    exact Store.All.bind (fun s hs x hx => (hc.stored s hs x hx).mono grown) (hv.mono grown) i name
  current := Nat.lt_of_lt_of_le hc.current (Store.Extends.bind c.store i name b).size

theorem Sound.enter (hc : k.Sound c) (parent : Nat) (hosts : Bool) :
    k.Sound (c.enter ⟨[], some parent, hosts⟩) where
  stored := by
    have grown := Store.Extends.push c.store ⟨[], some parent, hosts⟩
    exact Store.All.push (fun s hs x hx => (hc.stored s hs x hx).mono grown) (some parent) hosts
  current := by simp [Casting.enter]

theorem After.within (hc : k.Sound c)
    (h : k.After seat given (c.enter s) (p (c.enter s))) :
    k.After seat given c (Cast.within s p c) := by
  have grown := (Store.Extends.push c.store s).trans h.grown
  exact ⟨⟨h.sound.stored, Nat.lt_of_lt_of_le hc.current grown.size⟩, grown, rfl, h.shown⟩

theorem Follows.inBlock (h : k.Follows around seat held given p) :
    k.Follows around seat held given (Cast.inBlock p) := by
  intro c hc hcov hheld
  have grown := Store.Extends.push c.store ⟨[], some c.current, false⟩
  exact .within hc <| h _ (hc.enter _ _) (hcov.push false) fun v hv => (hheld v hv).mono grown

theorem Follows.inFrame (hf : .function f ∈ held)
    (h : ∀ around', k.AdmitsBody (reserved f.params f.body around') false f.body →
      k.Follows around' seat held given p) :
    k.Follows around seat held given (Cast.inFrame f.scope p) := by
  -- what the caller's scopes promise is of no use: the new scope stands in the function's own
  intro c hc _ hheld
  obtain ⟨around', hcov, hbody⟩ := hheld _ hf
  have hc : k.Sound { c with calls := c.calls + 1 } := ⟨hc.stored, hc.current⟩
  have grown := Store.Extends.push c.store ⟨[], some f.scope, true⟩
  have hd := After.within hc <| h around' hbody _ (hc.enter f.scope true) (hcov.push true)
    fun v hv => (hheld v hv).mono grown
  exact ⟨⟨hd.sound.stored, hd.sound.current⟩, hd.grown, hd.current, hd.shown⟩

end Rules

end Spellcraft
