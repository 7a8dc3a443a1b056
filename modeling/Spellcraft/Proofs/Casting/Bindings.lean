import Mathlib.Control.Monad.Basic
import Spellcraft.Proofs.Casting.Keeping
import Spellcraft.Proofs.Casting.Scoped

namespace Spellcraft

theorem Scope.mem_of_get? {s : Scope} (h : s.get? name = some b) : (name, b) ∈ s.bindings := by
  obtain ⟨l, r, h, -⟩ := List.lookup_eq_some_iff.1 h
  simp [h]

theorem Scope.mem_setIn (h : x ∈ setIn name b bs) : x ∈ bs ∨ x.2 = b := by
  induction bs with
  | nil =>
    cases List.mem_singleton.1 h
    exact .inr rfl
  | cons head rest ih =>
    simp only [setIn] at h
    split at h
    · rcases List.mem_cons.1 h with rfl | h
      · exact .inr rfl
      · exact .inl (List.mem_cons_of_mem _ h)
    · rcases List.mem_cons.1 h with rfl | h
      · exact .inl List.mem_cons_self
      · exact (ih h).imp_left (List.mem_cons_of_mem _)

def Store.All (P : Value → Prop) (st : Store) : Prop := ∀ s ∈ st, ∀ b ∈ s.bindings, P b.2.value

namespace Store.All

variable {P : Value → Prop} {st : Store}

theorem get? (h : st.All P) (hb : st.get? name i = some b) : P b.value := by
  simp only [Store.get?, Option.bind_eq_bind, Option.bind_eq_some_iff] at hb
  obtain ⟨j, -, s, hs, hb⟩ := hb
  exact h s (Array.mem_of_getElem? hs) _ (Scope.mem_of_get? hb)

theorem bind (h : st.All P) (hb : P b.value) (i : Nat) (name : String) :
    (Store.bind st i name b).All P := by
  intro s hs x hx
  obtain ⟨j, hj, rfl⟩ := Array.getElem_of_mem hs
  simp only [Store.bind, Array.getElem_modify] at hx
  split at hx
  · rcases Scope.mem_setIn hx with hx | hx
    · exact h _ (Array.getElem_mem _) x hx
    · exact hx ▸ hb
  · exact h _ (Array.getElem_mem _) x hx

theorem push (h : st.All P) (parent : Option Nat) (hosts : Bool) :
    Store.All P (Array.push st ⟨[], parent, hosts⟩) := by
  intro s hs b hb
  rcases Array.mem_push.1 hs with hs | rfl
  · exact h s hs b hb
  · cases hb

theorem initial {g : Grant} (hu : P .undefined) (hg : ∀ k ∈ g.commands, P (.command k)) :
    (initial g).All P := by
  intro s hs b hb
  simp only [Store.initial, List.mem_toArray, List.mem_cons, List.not_mem_nil, or_false] at hs
  rcases hs with rfl | rfl
  · rcases List.mem_cons.1 hb with rfl | hb
    · exact hu
    · obtain ⟨k, hk, rfl⟩ := List.mem_map.1 hb
      exact hg k hk
  · cases hb

end Store.All

theorem Value.apply_isPlain (op : BinaryOp) (a b : Value) : (apply op a b).isPlain := by
  cases op <;> simp only [apply, arithmetic] <;> first | rfl | (split <;> rfl)

namespace Invariant

structure Bound (k : Invariant) (R : Trail → Prop) : Prop where
  intro {c : Casting} : c.store.All k.values → R c.trail → k.states c
  store {c : Casting} : k.states c → c.store.All k.values
  trail {c : Casting} : k.states c → R c.trail
  undefined : k.values .undefined

namespace Bound

open Pairing (any)

variable {k : Invariant} {R : Trail → Prop} (hk : k.Bound R)

include hk

theorem still {c d : Casting} (h : k.states c) (store : d.store = c.store)
    (trail : d.trail = c.trail) : k.states d :=
  hk.intro (store ▸ hk.store h) (trail ▸ hk.trail h)

theorem roams : k.Roams where
  enter parent hosts h := by
    have trail := hk.trail h
    exact hk.intro ((hk.store h).push (some parent) hosts) trail
  current _ h := hk.still h rfl rfl
  calls _ h := hk.still h rfl rfl

theorem ofScoped {p : Cast α} {P : α → Prop} (h : Cast.Scoped p)
    (kept : ∀ {c : Casting}, c.store.All k.values →
      k.pairing.shows P (p c).1 ∧ (p c).2.store.All k.values) : k.pairing.Related P p p :=
  related fun {c} hc =>
    ⟨(kept (hk.store hc)).1, hk.intro (kept (hk.store hc)).2 ((h.trail_eq c).symm ▸ hk.trail hc)⟩

theorem lookup (name : String) (span : Span) :
    k.pairing.Related k.values (Cast.lookup name span) (Cast.lookup name span) := by
  refine hk.ofScoped (.lookup name span) fun {c} hc => ?_
  simp only [Cast.lookup, Cast.get_bind_apply]
  cases hb : c.store.get? name c.current with
  | none => exact ⟨trivial, hc⟩
  | some b => exact ⟨hc.get? hb, hc⟩

theorem assign (target : Ident) (hv : k.values v) :
    k.pairing.Related any (Cast.assign target v) (Cast.assign target v) := by
  refine hk.ofScoped (.assign target v) fun {c} hc => ?_
  simp only [Cast.assign, Cast.get_bind_apply]
  cases c.store.find? target.name c.current with
  | none => exact ⟨trivial, hc⟩
  | some i =>
    cases c.store.get? target.name c.current with
    | none => exact ⟨trivial, hc⟩
    | some b =>
      cases hb : b.constant <;> simp only [hb, Bool.false_eq_true, if_true, if_false]
      · exact ⟨trivial, hc.bind hv _ _⟩
      · exact ⟨trivial, hc⟩

theorem getD {v : Option Value} (hv : ∀ w ∈ v, k.values w) : k.values (v.getD .undefined) := by
  cases v with
  | none => exact hk.undefined
  | some w => exact hv w rfl

theorem declareVar (name : String) {v : Option Value} (hv : ∀ w ∈ v, k.values w) :
    k.pairing.Related any (Cast.declareVar name v) (Cast.declareVar name v) := by
  refine hk.ofScoped (.declareVar name v) fun {c} hc => ⟨trivial, ?_⟩
  simp only [Cast.declareVar, Cast.modify_apply]
  split
  · exact hc
  · exact hc.bind (hk.getD hv) _ _

theorem declareLocal (name : Ident) (constant : Bool) {v : Option Value}
    (hv : ∀ w ∈ v, k.values w) :
    k.pairing.Related any (Cast.declareLocal name v constant)
      (Cast.declareLocal name v constant) := by
  refine hk.ofScoped (.declareLocal name v constant) fun {c} hc => ?_
  simp only [Cast.declareLocal, Cast.get_bind_apply]
  split
  · exact ⟨trivial, hc⟩
  · exact ⟨trivial, hc.bind (hk.getD hv) _ _⟩

theorem declareFunction (name : Ident) (params : List Ident) {body : List Stmt}
    (made : ∀ f : Closure, f.body = body → k.values (.function f)) :
    k.pairing.Related any (Cast.declareFunction name params body)
      (Cast.declareFunction name params body) := by
  refine hk.ofScoped (.declareFunction name params body) fun {c} hc => ⟨trivial, ?_⟩
  have value : k.values (.function ⟨c.closures, name.name, params, body, c.current⟩) := made _ rfl
  exact hc.bind value _ _

theorem tick (limits : Limits) :
    k.pairing.Related any (Cast.tick limits) (Cast.tick limits) := by
  refine related fun {c} hc => ?_
  rw [Cast.tick_apply]
  refine ⟨?_, hk.still hc rfl rfl⟩
  split <;> trivial

omit hk in
theorem checkDepth (limits : Limits) (span : Span) :
    k.pairing.Related any (Cast.checkDepth limits span) (Cast.checkDepth limits span) := by
  refine related fun {c} hc => ?_
  simp only [Cast.checkDepth, Cast.get_bind_apply]
  split <;> exact ⟨trivial, hc⟩

omit hk in
theorem binary
    (made : ∀ v : Value, v.isPlain → (∀ s, v = .text s → s.utf8ByteSize ≤ k.limits.text) →
      k.values v) (op : BinaryOp) (a b : Value) (span : Span) :
    k.pairing.Related k.values (Cast.binary k.limits op a b span)
      (Cast.binary k.limits op a b span) := by
  have plain := Value.apply_isPlain op a b
  unfold Cast.binary
  split
  · split
    · exact .throw trivial
    · next fits =>
      exact .pure (made _ rfl fun t ht => Value.text.inj ht ▸ Nat.le_of_not_lt fits)
  · next other => exact .pure (made _ plain fun s hs => (other s hs).elim)

theorem lawful {T : String → Prop}
    (plain : ∀ v : Value, v.isPlain → (∀ s, v = .text s → T s) → k.values v)
    (function : ∀ f : Closure, k.values (.function f) ↔ ∀ s ∈ f.body, s.Quotes T)
    (made : ∀ v : Value, v.isPlain → (∀ s, v = .text s → s.utf8ByteSize ≤ k.limits.text) →
      k.values v)
    (command : ∀ c span, k.values (.command c) →
      k.pairing.Related k.values (Cast.command c span) (Cast.command c span)) :
    k.pairing.Lawful T where
  plain := plain _
  tick := hk.tick _
  overrun := .bind (hk.tick _) fun _ _ => .throw trivial
  lookup := hk.lookup
  assign := hk.assign
  declareVar name := hk.declareVar name
  declareLocal name constant := hk.declareLocal name constant
  declareFunction name params _ quotes :=
    hk.declareFunction name params fun f hf => (function f).2 (hf ▸ quotes)
  binary op span _ _ := binary made op _ _ span
  command span := command _ span
  depth := checkDepth _
  block h := hk.roams.paired.inBlock h
  frame _ h := hk.roams.paired.inFrame _ h
  body hf := (function _).1 hf

end Bound

end Invariant

end Spellcraft
