import Spellcraft.Proofs.Casting.Constants
import Spellcraft.Proofs.Casting.Watch
import Spellcraft.Proofs.Casting.Widening

/-!
Courses. Along a whole run a constant stays what it is. A `var` declaration, a parameter or a
function is bound without a look at what was there; but the variables of a function are reserved
when its scope is new, so no constant of theirs can be made, and parameters and functions are only
bound in new scopes.
-/

namespace Spellcraft

/-- The stores along a list of moments: each goes on steadily from the one before it, and the grant
stands outermost in all of them. -/
inductive Course (g : Grant) : Store → List Moment → Store → Prop
  | done {st st' : Store} : st.Steady st' → st'.Rooted g → Course g st [] st'
  | next {st st' : Store} {m : Moment} : st.Steady m.state.store → m.state.store.Rooted g →
    Course g m.state.store l st' → Course g st (m :: l) st'

namespace Course

variable {g : Grant} {a b c : Store}

theorem before (hs : a.Steady b) (h : Course g b l c) : Course g a l c := by
  cases h with
  | done h hr => exact .done (hs.trans h) hr
  | next h hr rest => exact .next (hs.trans h) hr rest

theorem append (h : Course g a l b) (h' : Course g b l' c) : Course g a (l ++ l') c := by
  induction h with
  | done hs _ => exact h'.before hs
  | next hs hr _ ih => exact .next hs hr (ih h')

theorem steady (h : Course g a l b) : a.Steady b := by
  induction h with
  | done hs _ => exact hs
  | next hs _ _ ih => exact hs.trans ih

theorem rooted (h : Course g a l b) : b.Rooted g := by
  induction h with
  | done _ hr => exact hr
  | next _ _ _ ih => exact ih

theorem forall_mem (h : Course g a l b) :
    ∀ m ∈ l, a.Steady m.state.store ∧ m.state.store.Rooted g := by
  induction h with
  | done => simp
  | next hs hr _ ih =>
    exact List.forall_mem_cons.2 ⟨⟨hs, hr⟩, fun m hm => ⟨hs.trans (ih m hm).1, (ih m hm).2⟩⟩

theorem pairwise (h : Course g a l b) :
    l.Pairwise fun m n => m.state.store.Steady n.state.store := by
  induction h with
  | done => exact .nil
  | next _ _ rest ih => exact List.pairwise_cons.2 ⟨fun m hm => (rest.forall_mem m hm).1, ih⟩

end Course

namespace Casting

structure Standing (g : Grant) (c : Casting) : Prop where
  rooted : c.Rooted g
  inside : c.current < c.store.size

def Reserves (names : List String) (c : Casting) : Prop := c.store.Reserves names c.current

def Fresh (c : Casting) : Prop := ∀ name, c.store.Unfixed c.current name

def Hosting (c : Casting) : Prop := c.store.host c.current = c.current

structure Passes (g : Grant) (c : Casting) (l : List Moment) (d : Casting) : Prop where
  course : Course g c.store l d.store
  current : d.current = c.current

namespace Passes

variable {g : Grant} {c d e : Casting} {names : List String}

theorem refl (hc : c.Standing g) : c.Passes g [] c := ⟨.done (.refl _) hc.rooted.store, rfl⟩

theorem append (h : c.Passes g l d) (h' : d.Passes g l' e) : c.Passes g (l ++ l') e :=
  ⟨h.course.append h'.course, h'.current.trans h.current⟩

theorem standing (h : c.Passes g l d) (hc : c.Standing g) : d.Standing g where
  rooted := ⟨h.course.rooted, h.current ▸ hc.rooted.current⟩
  inside := h.current ▸ Nat.lt_of_lt_of_le hc.inside h.course.steady.size

theorem reserves (h : c.Passes g l d) (hc : c.Standing g) (hr : c.Reserves names) :
    d.Reserves names := by
  rw [Reserves, h.current]
  exact Store.Reserves.steady hr h.course.steady hc.inside

theorem hosting (h : c.Passes g l d) (hc : c.Standing g) (hh : c.Hosting) : d.Hosting := by
  rw [Hosting, h.current, h.course.steady.host_eq hc.inside]
  exact hh

theorem of_same (hc : c.Standing g) (store : d.store = c.store) (current : d.current = c.current) :
    c.Passes g [] d :=
  ⟨.done (store ▸ .refl _) (store ▸ hc.rooted.store), current⟩

end Passes

end Casting

namespace Watch

variable {g : Grant} {names : List String} {c : Casting}

theorem finish_state (given : α → List Value) (x : Except Exit α × Casting) :
    (finish given x).state = x.2 := by
  rcases x with ⟨e | a, d⟩
  · cases e <;> rfl
  · rfl

section

variable {p : Cast α} {f : α → Cast β} {w : Watch p} {v : ∀ a, Watch (f a)}

theorem passes_around (given : α → List Value) (hc : c.Standing g)
    (h : c.Passes g (w.seen c) (p c).2) : c.Passes g ((around given w).seen c) (p c).2 := by
  have last := finish_state given (p c)
  have root := h.course.rooted
  refine ⟨.append (.next (.refl _) hc.rooted.store h.course) ?_, h.current⟩
  rw [← last] at root ⊢
  exact .next (.refl _) root (.done (.refl _) root)

theorem passes_bind (h : c.Passes g (w.seen c) (p c).2)
    (k : ∀ a, (p c).1 = .ok a → (p c).2.Passes g ((v a).seen (p c).2) (f a (p c).2).2) :
    c.Passes g ((w.bind v).seen c) ((p >>= f) c).2 := by
  rw [Cast.bind_apply]
  simp only [Watch.bind]
  generalize p c = x at h k ⊢
  rcases x with ⟨e | a, d⟩
  · simpa [Cast.next] using h
  · exact h.append (k a rfl)

theorem passes_ofEq {q : Cast α} (e : p = q) (h : c.Passes g (w.seen c) (p c).2) :
    c.Passes g ((ofEq e w).seen c) (q c).2 := by
  subst e
  exact h

theorem passes_discard (hc : c.Standing g) (h : c.Passes g (w.seen c) (p c).2) :
    c.Passes g ((discard w).seen c) (Functor.discard p c).2 :=
  passes_ofEq _ (passes_bind h fun _ _ => .refl (h.standing hc))

theorem passes_returned {p : Cast Unit} {w : Watch p} (h : c.Passes g (w.seen c) (p c).2) :
    c.Passes g ((returned w).seen c) (Cast.returned p c).2 :=
  passes_ofEq (w := settle Cast.takeReturn w) _ h

theorem passes_loopBody {p : Cast Unit} {w : Watch p} (h : c.Passes g (w.seen c) (p c).2) :
    c.Passes g ((loopBody w).seen c) (Cast.loopBody p c).2 :=
  passes_ofEq (w := settle Cast.takeJump w) _ h

theorem passes_within {s : Scope} (hc : c.Standing g)
    (hs : s.hosts = true ∨ ∃ i, s.parent = some i ∧ 0 < i)
    (h : (c.enter s).Passes g (w.seen (c.enter s)) (p (c.enter s)).2) :
    c.Passes g ((within s w).seen c) (Cast.within s p c).2 :=
  passes_around nothing hc ⟨.next (.push _ _) (hc.rooted.store.push hs) h.course, rfl⟩

end

theorem standing_enter (hc : c.Standing g) {s : Scope}
    (hs : s.hosts = true ∨ ∃ i, s.parent = some i ∧ 0 < i) : (c.enter s).Standing g where
  rooted := ⟨hc.rooted.store.push hs, hc.rooted.store.size_pos⟩
  inside := by simp [Casting.enter]

theorem fresh_enter (c : Casting) (parent : Option Nat) (hosts : Bool) :
    (c.enter ⟨[], parent, hosts⟩).Fresh := by
  intro name b hb
  simp only [Casting.enter, Store.at?_push, ↓reduceIte] at hb
  cases hb

theorem reserves_enter (hc : c.Standing g) (hr : c.Reserves names) :
    (c.enter ⟨[], some c.current, false⟩).Reserves names := by
  intro name hn
  simp only [Casting.enter, Store.host_push_block hc.inside]
  exact (Store.Steady.push _ _).varies (hr name hn)

/-- The watch steers clear of constants: whatever happens to the names of the function that the run
stands in, no constant is touched. -/
def Steers (g : Grant) (names : List String) {p : Cast α} (w : Watch p) : Prop :=
  ∀ c : Casting, c.Standing g → c.Reserves names → c.Passes g (w.seen c) (p c).2

namespace Steers

section

variable {p q : Cast α} {f : α → Cast β} {w : Watch p} {v : ∀ a, Watch (f a)}

theorem around (given : α → List Value) (hw : w.Steers g names) :
    (Watch.around given w).Steers g names :=
  fun c hc hr => passes_around given hc (hw c hc hr)

theorem idle (a : α) : (Watch.idle a).Steers g names := fun _ hc _ => .refl hc

theorem bind (hw : w.Steers g names) (hv : ∀ a, (v a).Steers g names) :
    (w.bind v).Steers g names := fun c hc hr =>
  have h := hw c hc hr
  passes_bind h fun a _ => hv a _ (h.standing hc) (h.reserves hc hr)

theorem branch (b : Prop) [Decidable b] {u : Watch q} (hw : w.Steers g names)
    (hu : u.Steers g names) : (Watch.branch b w u).Steers g names := by
  intro c hc hr
  simp only [Watch.branch]
  split
  · exact hw c hc hr
  · exact hu c hc hr

theorem ofEq (e : p = q) (hw : w.Steers g names) : (Watch.ofEq e w).Steers g names :=
  fun c hc hr => passes_ofEq e (hw c hc hr)

theorem discard (hw : w.Steers g names) : (Watch.discard w).Steers g names :=
  fun c hc hr => passes_discard hc (hw c hc hr)

theorem returned {p : Cast Unit} {w : Watch p} (hw : w.Steers g names) :
    (Watch.returned w).Steers g names := fun c hc hr => passes_returned (hw c hc hr)

theorem loopBody {p : Cast Unit} {w : Watch p} (hw : w.Steers g names) :
    (Watch.loopBody w).Steers g names := fun c hc hr => passes_loopBody (hw c hc hr)

theorem forM {f : α → Cast Unit} {w : ∀ x, Watch (f x)} {xs : List α}
    (hw : ∀ x ∈ xs, (w x).Steers g names) : (Watch.forM w xs).Steers g names := by
  induction xs with
  | nil => exact idle ()
  | cons x xs ih =>
    exact bind (hw x List.mem_cons_self) fun _ => ih fun y hy => hw y (List.mem_cons_of_mem x hy)

theorem mapM {w : ∀ x, Watch (f x)} (hw : ∀ x, (w x).Steers g names) (xs : List α) :
    (Watch.mapM w xs).Steers g names := by
  induction xs with
  | nil => exact idle []
  | cons x xs ih => exact ofEq _ (bind (hw x) fun y => bind ih fun ys => idle (y :: ys))

theorem inBlock {p : Cast α} {w : Watch p}
    (hw : ∀ c : Casting, c.Standing g → c.Reserves names → c.Fresh →
      c.Passes g (w.seen c) (p c).2) : (Watch.inBlock w).Steers g names := by
  intro c hc hr
  refine passes_bind (passes_around _ hc (.refl hc)) ?_
  rintro _ ⟨⟩
  have root : 0 < c.current := hc.rooted.current
  refine passes_within hc (.inr ⟨_, rfl, root⟩) ?_
  exact hw _ (standing_enter hc (.inr ⟨_, rfl, root⟩)) (reserves_enter hc hr) (fresh_enter c _ _)

theorem inFrame {p : Cast α} {w : Watch p} (scope : Nat)
    (hw : ∀ c : Casting, c.Standing g → c.Fresh → c.Hosting → c.Passes g (w.seen c) (p c).2) :
    (Watch.inFrame scope w).Steers g names := by
  intro c hc _
  have deeper : Casting.Standing g { c with calls := c.calls + 1 } :=
    ⟨⟨hc.rooted.store, hc.rooted.current⟩, hc.inside⟩
  have entered := hw _ (standing_enter (s := ⟨[], some scope, true⟩) deeper (.inl rfl))
    (fresh_enter _ _ _) (Store.host_push_frame _ _ _)
  have h := passes_within deeper (.inl rfl) entered
  exact passes_around nothing hc ⟨h.course, h.current⟩

end

end Steers

end Watch

end Spellcraft
