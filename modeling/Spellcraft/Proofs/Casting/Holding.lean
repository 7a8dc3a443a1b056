import Spellcraft.Proofs.Casting.Courses
import Spellcraft.Proofs.Casting.Discipline
import Spellcraft.Proofs.Casting.Frames

/-!
Holding on to values. What is right to say of the values in hand may depend on the state: a
function can only be called while the scope it was made in is there. So states are looked at
together with the values in hand, and it is enough that a property of both is stable under what a
single step does.
-/

namespace Spellcraft

inductive Casting.Receives (c : Casting) (name : String) : Nat → Prop
  | here : Receives c name c.current
  | host : Receives c name (c.store.host c.current)
  | found : c.store.find? name c.current = some i → c.store.get? name c.current = some b →
    b.constant = false → Receives c name i

namespace Moment

/-- Whatever is read, written, made, entered or left, the property stays. -/
structure Stable (J : Moment → Prop) : Prop where
  forget : l' ⊆ l → J ⟨c, l⟩ → J ⟨c, l'⟩
  plain : v.isPlain → J ⟨c, l⟩ → J ⟨c, v :: l⟩
  still {c d : Casting} : J ⟨c, l⟩ → d.store = c.store → d.current = c.current → J ⟨d, l⟩
  read {c : Casting} : c.store.get? name c.current = some b → J ⟨c, l⟩ → J ⟨c, b.value :: l⟩
  write {c : Casting} (constant : Bool) : c.Receives name i → v ∈ l → J ⟨c, l⟩ →
    J ⟨{ c with store := c.store.bind i name ⟨v, constant⟩ }, l⟩
  make {c : Casting} (id : Nat) (name : String) (params : List Ident) (body : List Stmt) :
    J ⟨c, l⟩ → J ⟨c, .function ⟨id, name, params, body, c.current⟩ :: l⟩
  block {c : Casting} : J ⟨c, l⟩ → J ⟨c.enter ⟨[], some c.current, false⟩, l⟩
  frame {c : Casting} {f : Closure} : .function f ∈ l → J ⟨c, l⟩ →
    J ⟨c.enter ⟨[], some f.scope, true⟩, l⟩
  leave {c d : Casting} : J ⟨c, l'⟩ → c.store.Grows d.store → J ⟨d, l⟩ →
    J ⟨{ d with current := c.current }, l⟩

end Moment

open Moment (Stable)
open Rules (AtHand)

theorem Rules.AtHand.mono (h : AtHand held v) (hs : held ⊆ held') : AtHand held' v :=
  h.imp_left (hs ·)

namespace Moment.Stable

variable {J : Moment → Prop} (hJ : Stable J)

include hJ

theorem add {vs : List Value} (h : ∀ v ∈ vs, AtHand l v) (hc : J ⟨c, l⟩) : J ⟨c, vs ++ l⟩ := by
  induction vs with
  | nil => exact hc
  | cons v vs ih =>
    obtain ⟨hv, hvs⟩ := List.forall_mem_cons.1 h
    have rest := ih hvs
    rcases hv with hv | hv
    · exact hJ.forget (List.cons_subset.2 ⟨List.mem_append_right vs hv, List.Subset.refl _⟩) rest
    · exact hJ.plain hv rest

theorem drop {vs ws : List Value} (hc : J ⟨c, vs ++ (ws ++ l)⟩) : J ⟨c, vs ++ l⟩ :=
  hJ.forget ((List.sublist_append_right ws l).append_left vs).subset hc

theorem put {c : Casting} (h : AtHand l v) (hi : c.Receives name i) (constant : Bool)
    (hc : J ⟨c, l⟩) : J ⟨{ c with store := c.store.bind i name ⟨v, constant⟩ }, l⟩ := by
  have more : J ⟨c, [v] ++ l⟩ := hJ.add (List.forall_mem_singleton.2 h) hc
  exact hJ.forget (List.subset_cons_self v l) (hJ.write constant hi List.mem_cons_self more)

end Moment.Stable

namespace Watch

/-- A computation, begun in `c` with the values `l` in hand, goes through moments of the sort and
ends in one: with what it gives and with all that was in hand before. -/
structure Sustained (J : Moment → Prop) (c : Casting) (l : List Value) (seen : List Moment)
    (given : α → List Value) (x : Except Exit α × Casting) : Prop where
  seen : ∀ m ∈ seen, J m
  last : J ⟨x.2, (finish given x).held ++ l⟩
  kept : c.Kept x.2

def Sustains (held : List Value) (given : α → List Value) {p : Cast α} (w : Watch p) : Prop :=
  ∀ J, Stable J → ∀ c l, held ⊆ l → J ⟨c, l⟩ → Sustained J c l (w.seen c) given (p c)

def unseen (p : Cast α) : Watch p := ⟨fun _ => []⟩

theorem held_finish (given : α → List Value) {x y : Except Exit α × Casting} (h : x.1 = y.1) :
    (finish given x).held = (finish given y).held := by
  obtain ⟨r, c⟩ := x
  obtain ⟨_, d⟩ := y
  obtain rfl : r = _ := h
  rcases r with e | a
  · cases e <;> rfl
  · rfl

theorem held_nothing_subset (given : α → List Value) (x : Except Exit α × Casting) :
    (finish nothing x).held ⊆ (finish given x).held := by
  rcases x with ⟨e | a, d⟩
  · cases e <;> exact List.Subset.refl _
  · exact List.nil_subset _

section

variable {J : Moment → Prop} {c : Casting} {l : List Value}
variable {p : Cast α} {f : α → Cast β} {w : Watch p} {v : ∀ a, Watch (f a)}
variable {given shown : α → List Value} {given' : β → List Value}

theorem Sustained.around (hJ : Stable J) (hc : J ⟨c, l⟩)
    (hs : (finish shown (p c)).held ⊆ (finish given (p c)).held)
    (h : Sustained J c l (w.seen c) given (p c)) :
    Sustained J c l ((Watch.around shown w).seen c) given (p c) where
  seen := by
    refine List.forall_mem_append.2 ⟨List.forall_mem_cons.2 ⟨?_, h.seen⟩, ?_⟩
    · exact hJ.forget (List.nil_subset l) hc
    · have last := hJ.forget (List.Subset.trans hs (List.subset_append_left _ l)) h.last
      rw [← finish_state shown] at last
      exact List.forall_mem_singleton.2 last
  last := h.last
  kept := h.kept

theorem Sustained.bind (hJ : Stable J) (h : Sustained J c l (w.seen c) given (p c))
    (k : ∀ a d, J ⟨d, given a ++ l⟩ → Sustained J d (given a ++ l) ((v a).seen d) given' (f a d)) :
    Sustained J c l ((w.bind v).seen c) given' ((p >>= f) c) := by
  rw [Cast.bind_apply]
  simp only [Watch.bind]
  obtain ⟨seen, last, kept⟩ := h
  generalize p c = x at last kept ⊢
  rcases x with ⟨e | a, d⟩
  · rw [List.append_nil]
    refine ⟨seen, ?_, kept⟩
    cases e <;> exact last
  · have rest := k a d last
    exact ⟨List.forall_mem_append.2 ⟨seen, rest.seen⟩, hJ.drop rest.last, kept.trans rest.kept⟩

theorem Sustained.within {p : Cast Unit} {w : Watch p} {s : Scope} (hJ : Stable J) (hc : J ⟨c, l⟩)
    (he : J ⟨c.enter s, l⟩)
    (h : Sustained J (c.enter s) l (w.seen (c.enter s)) nothing (p (c.enter s))) :
    Sustained J c l ((Watch.within s w).seen c) nothing (Cast.within s p c) := by
  have grown : c.store.Grows (p (c.enter s)).2.store := .trans (.push _ _) h.kept.grown
  have last := hJ.leave hc grown h.last
  rw [held_finish nothing (x := p (c.enter s)) (y := Cast.within s p c) rfl] at last
  refine .around hJ hc (List.Subset.refl _) ⟨?_, last, rfl, h.kept.calls, grown⟩
  exact List.forall_mem_cons.2 ⟨hJ.forget (List.nil_subset l) he, h.seen⟩

end

namespace Sustains

variable {held : List Value} {p q : Cast α} {f : α → Cast β} {w : Watch p} {v : ∀ a, Watch (f a)}
variable {given shown : α → List Value} {given' : β → List Value}

theorem hold (hw : w.Sustains [] given) : w.Sustains held given :=
  fun J hJ c l _ hc => hw J hJ c l (List.nil_subset l) hc

theorem unwatched (hw : w.Sustains held given) : (unseen p).Sustains held given :=
  fun _ hJ c l hl hc => { hw _ hJ c l hl hc with seen := List.forall_mem_nil _ }

theorem around (hs : ∀ x, (finish shown x).held ⊆ (finish given x).held)
    (hw : w.Sustains held given) : (Watch.around shown w).Sustains held given :=
  fun J hJ c l hl hc => .around hJ hc (hs _) (hw J hJ c l hl hc)

theorem step (hp : (unseen p).Sustains held given) : (Watch.step p).Sustains held given :=
  around (held_nothing_subset given) hp

theorem value {p : Cast Value} (hp : (unseen p).Sustains held single) :
    (Watch.value p).Sustains held single :=
  around (fun _ => List.Subset.refl _) hp

theorem idle {a : α} (h : ∀ v ∈ given a, AtHand held v) : (Watch.idle a).Sustains held given :=
  fun _ hJ c _ hl hc =>
    ⟨List.forall_mem_nil _, hJ.add (fun v hv => (h v hv).mono hl) hc, .refl c⟩

theorem done {a : α} : (Watch.idle a).Sustains held nothing := idle (List.forall_mem_nil _)

theorem hand {v : Value} (h : AtHand held v) : (Watch.idle v).Sustains held single :=
  idle (List.forall_mem_singleton.2 h)

theorem bind (hw : w.Sustains held given) (hv : ∀ a, (v a).Sustains (given a ++ held) given') :
    (w.bind v).Sustains held given' := by
  intro J hJ c l hl hc
  refine .bind hJ (hw J hJ c l hl hc) fun a d hd => hv a J hJ d _ (List.append_subset.2 ⟨?_, ?_⟩) hd
  · exact List.subset_append_left _ l
  · exact List.Subset.trans hl (List.subset_append_right _ l)

theorem branch (b : Prop) [Decidable b] {u : Watch q} (hw : w.Sustains held given)
    (hu : u.Sustains held given) : (Watch.branch b w u).Sustains held given := by
  intro J hJ c l hl hc
  simp only [Watch.branch]
  split
  · exact hw J hJ c l hl hc
  · exact hu J hJ c l hl hc

theorem ofEq (e : p = q) (hw : w.Sustains held given) : (Watch.ofEq e w).Sustains held given := by
  subst e
  exact hw

theorem settle {h : Except Exit α → Except Exit β} (hw : w.Sustains held given)
    (shown : ∀ r c, ∀ v ∈ (finish given' (h r, c)).held, AtHand (finish given (r, c)).held v) :
    (w.settle h).Sustains held given' := by
  intro J hJ c l hl hc
  obtain ⟨seen, last, kept⟩ := hw J hJ c l hl hc
  have more := hJ.add (fun v hv => (shown _ _ v hv).mono (List.subset_append_left _ l)) last
  exact ⟨seen, hJ.drop more, kept⟩

theorem discard (hw : w.Sustains held given) : (Watch.discard w).Sustains held nothing :=
  ofEq _ (bind hw fun _ => done)

theorem returned {p : Cast Unit} {w : Watch p} (hw : w.Sustains held nothing) :
    (Watch.returned w).Sustains held single := by
  refine ofEq _ (settle hw ?_)
  rintro (e | a) c v hv
  · cases e with
    | return_ => exact .inl hv
    | _ => cases hv
  · exact .inr (List.mem_singleton.1 hv ▸ rfl)

theorem loopBody {p : Cast Unit} {w : Watch p} (hw : w.Sustains held nothing) :
    (Watch.loopBody w).Sustains held nothing := by
  refine ofEq _ (settle hw ?_)
  rintro (e | a) c v hv
  · cases e with
    | return_ => exact .inl hv
    | _ => cases hv
  · cases hv

theorem forM {f : α → Cast Unit} {w : ∀ x, Watch (f x)} (hw : ∀ x, (w x).Sustains held nothing)
    (xs : List α) : (Watch.forM w xs).Sustains held nothing := by
  induction xs with
  | nil => exact done
  | cons x xs ih => exact bind (hw x) fun _ => ih

theorem mapM {f : α → Cast Value} {w : ∀ x, Watch (f x)} (hw : ∀ x, (w x).Sustains [] single)
    (xs : List α) : (Watch.mapM w xs).Sustains held id := by
  induction xs generalizing held with
  | nil => exact idle (List.forall_mem_nil _)
  | cons x xs ih =>
    refine ofEq _ (bind (hw x).hold fun y => bind ih fun ys => idle ?_)
    refine List.forall_mem_cons.2 ⟨.inl ?_, fun v hv => .inl (List.mem_append_left _ hv)⟩
    exact List.mem_append_right ys List.mem_cons_self

theorem inBlock {p : Cast Unit} {w : Watch p} (hw : w.Sustains held nothing) :
    (Watch.inBlock w).Sustains held nothing := by
  intro J hJ c l hl hc
  -- the scope to enter is read from the state, which is the same afterwards
  have got : Sustained J c l ((Watch.step get).seen c) nothing ((get : Cast Casting) c) :=
    .around (w := unseen get) hJ hc (List.Subset.refl _) ⟨List.forall_mem_nil _, hc, .refl c⟩
  have entered := hJ.block hc
  obtain ⟨seen, last, kept⟩ := Sustained.within hJ hc entered (hw J hJ _ l hl entered)
  exact ⟨List.forall_mem_append.2 ⟨got.seen, seen⟩, last, kept⟩

theorem inFrame {p : Cast Unit} {w : Watch p} {f : Closure} (hf : .function f ∈ held)
    (hw : w.Sustains held nothing) : (Watch.inFrame f.scope w).Sustains held nothing := by
  intro J hJ c l hl hc
  let deep : Casting := { c with calls := c.calls + 1 }
  have deeper : J ⟨deep, l⟩ := hJ.still hc rfl rfl
  have entered := hJ.frame (hl hf) deeper
  obtain ⟨seen, last, kept⟩ := Sustained.within hJ deeper entered (hw J hJ _ l hl entered)
  let ended := Cast.within ⟨[], some f.scope, true⟩ p deep
  rw [held_finish nothing (x := ended) (y := Cast.inFrame f.scope p c) rfl] at last
  refine .around hJ hc (List.Subset.refl _) ⟨seen, ?_, kept.current, rfl, kept.grown⟩
  exact hJ.still last rfl rfl

end Sustains

end Watch

end Spellcraft
