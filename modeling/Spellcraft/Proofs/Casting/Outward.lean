import Spellcraft.Proofs.Casting.Grants
import Spellcraft.Proofs.Casting.Growth

/-!
The way outward. Scopes name their parents by number, and nothing in a store by itself keeps such
links from leading nowhere or round in a circle. Here they are followed as they are. In a nested
store every scope stands in one that was there before it, and all but the outermost one stand in the
global scope, so that to look for a name or for a host comes to an end.
-/

namespace Spellcraft.Store

/-- The scopes that are met from scope `i` on, from parent to parent. -/
inductive Outward (st : Store) : Nat → List Nat → Prop
  | outermost : st[i]? = some s → s.parent = none → Outward st i [i]
  | parent : st[i]? = some s → s.parent = some p → Outward st p l → Outward st i (i :: l)

/-- The search from scope `i` on, from parent to parent, for a scope of some sort: it ends in the
first one, or in none when it is past the outermost scope. -/
inductive Seeks (st : Store) (sort : Scope → Bool) : Nat → Option Nat → Prop
  | here : st[i]? = some s → sort s = true → Seeks st sort i (some i)
  | past : st[i]? = some s → sort s = false → s.parent = none → Seeks st sort i none
  | parent : st[i]? = some s → sort s = false → s.parent = some p → Seeks st sort p r →
    Seeks st sort i r

/-- The way outward from scope `i` ends: it comes to the global scope, which hosts, and from there
to what was granted. So to look for a name comes to an end, and to look for a host does so before
the grant is reached. -/
structure Grounded (g : Grant) (st : Store) (i : Nat) : Prop where
  way : ∃ inner, st.Outward i (inner ++ [global, 0])
  granted : st[0]? = some (builtins g)
  hosting : ∃ s, st[global]? = some s ∧ s.hosts = true
  names (name : String) : st.Seeks (fun s => (s.get? name).isSome) i (st.find? name i)
  host : st.Seeks (·.hosts) i (some (st.host i))
  inside : 0 < st.host i

def Owns (st : Store) (i : Nat) : Prop := 0 < i ∧ i < st.size

theorem Owns.mono {st st' : Store} (h : st.Owns i) (size : st.size ≤ st'.size) : st'.Owns i :=
  ⟨h.1, Nat.lt_of_lt_of_le h.2 size⟩

/-- The grant stands outermost, the global scope in it, and any other scope in one that was there
before it. -/
structure Nested (g : Grant) (st : Store) : Prop where
  root : st[0]? = some (builtins g)
  global : ∃ s, st[global]? = some s ∧ s.parent = some 0 ∧ s.hosts = true
  inner (i : Nat) : Store.global < i → i < st.size →
    ∃ s p, st[i]? = some s ∧ s.parent = some p ∧ 0 < p ∧ p < i

namespace Nested

variable {g : Grant} {st st' : Store}

theorem initial (g : Grant) : (initial g).Nested g where
  root := rfl
  global := ⟨_, rfl, rfl, rfl⟩
  inner _ hi hs := absurd hs (Nat.not_lt_of_le hi)

theorem owns_global (h : st.Nested g) : st.Owns Store.global := by
  obtain ⟨s, hs, -⟩ := h.global
  exact ⟨Nat.one_pos, (Array.getElem?_eq_some_iff.1 hs).1⟩

theorem parent_lt (h : st.Nested g) {s : Scope} (hs : st[i]? = some s) (hp : s.parent = some p) :
    p < i := by
  rcases Nat.lt_trichotomy i Store.global with before | rfl | later
  · obtain rfl := Nat.lt_one_iff.1 before
    cases hs.symm.trans h.root
    cases hp
  · obtain ⟨t, ht, zero, -⟩ := h.global
    cases hs.symm.trans ht
    cases hp.symm.trans zero
    exact Nat.one_pos
  · obtain ⟨t, q, ht, hq, -, lt⟩ := h.inner i later (Array.getElem?_eq_some_iff.1 hs).1
    cases hs.symm.trans ht
    cases hp.symm.trans hq
    exact lt

theorem rooted (h : st.Nested g) : st.Rooted g where
  root := h.root
  hosted {i s} hs pos := by
    rcases Nat.eq_or_lt_of_le pos with rfl | later
    · obtain ⟨t, ht, -, hosts⟩ := h.global
      cases hs.symm.trans ht
      exact .inl hosts
    · obtain ⟨t, p, ht, hp, pos, -⟩ := h.inner i later (Array.getElem?_eq_some_iff.1 hs).1
      cases hs.symm.trans ht
      exact .inr ⟨p, hp, pos⟩

theorem outward (h : st.Nested g) (hi : st.Owns i) :
    ∃ inner, st.Outward i (inner ++ [Store.global, 0]) := by
  -- By induction on the scope: its parent was there before it.
  obtain ⟨pos, size⟩ := hi
  induction i using Nat.strongRecOn with
  | ind i ih =>
    rcases Nat.eq_or_lt_of_le pos with rfl | later
    · obtain ⟨s, hs, hp, -⟩ := h.global
      exact ⟨[], .parent hs hp (.outermost h.root rfl)⟩
    · obtain ⟨s, p, hs, hp, pos, lt⟩ := h.inner i later size
      obtain ⟨inner, way⟩ := ih p lt pos (Nat.lt_trans lt size)
      exact ⟨i :: inner, .parent hs hp way⟩

theorem seeks_name (h : st.Nested g) (size : i < st.size) (name : String) :
    st.Seeks (fun s => (s.get? name).isSome) i (st.find? name i) := by
  fun_induction Store.find? st name i with
  | case1 i hs => exact absurd hs (by simp [size])
  | case2 i s hs hn => exact .here hs hn
  | case3 i s hs hn hp => exact .past hs (Bool.eq_false_iff.2 hn) hp
  | case4 i s hs hn p hp lt ih =>
    exact .parent hs (Bool.eq_false_iff.2 hn) hp (ih (Nat.lt_trans lt size))
  | case5 i s hs hn p hp ge => exact absurd (h.parent_lt hs hp) ge

theorem seeks_host (h : st.Nested g) (hi : st.Owns i) :
    st.Seeks (·.hosts) i (some (st.host i)) := by
  obtain ⟨pos, size⟩ := hi
  fun_induction Store.host st i with
  | case1 i hs => exact absurd hs (by simp [size])
  | case2 i s hs hosts => exact .here hs hosts
  | case3 i s hs hosts none =>
    obtain hosted | ⟨p, hp, -⟩ := h.rooted.hosted hs pos
    · exact absurd hosted hosts
    · cases none.symm.trans hp
  | case4 i s hs hosts p hp lt ih =>
    obtain hosted | ⟨q, hq, pos⟩ := h.rooted.hosted hs pos
    · exact absurd hosted hosts
    · cases hp.symm.trans hq
      exact .parent hs (Bool.eq_false_iff.2 hosts) hp (ih pos (Nat.lt_trans lt size))
  | case5 i s hs hosts p hp ge => exact absurd (h.parent_lt hs hp) ge

theorem grounded (h : st.Nested g) (hi : st.Owns i) : st.Grounded g i where
  way := h.outward hi
  granted := h.root
  hosting := by
    obtain ⟨s, hs, -, hosts⟩ := h.global
    exact ⟨s, hs, hosts⟩
  names := h.seeks_name hi.2
  host := h.seeks_host hi
  inside := h.rooted.host_pos hi.1

theorem grow (h : st.Nested g) (grown : st.Grows st') (root : st'[0]? = some (builtins g))
    (new : ∀ i, st.size ≤ i → i < st'.size →
      ∃ s p, st'[i]? = some s ∧ s.parent = some p ∧ 0 < p ∧ p < i) : st'.Nested g where
  root := root
  global := by
    obtain ⟨s, hs, hp, hosts⟩ := h.global
    obtain ⟨t, ht, parent, hosts', -⟩ := grown.scopes hs
    exact ⟨t, ht, parent.trans hp, hosts'.trans hosts⟩
  inner i hi hs := by
    by_cases old : i < st.size
    · obtain ⟨s, p, hs, hp, pos, lt⟩ := h.inner i hi old
      obtain ⟨t, ht, parent, -⟩ := grown.scopes hs
      exact ⟨t, p, ht, parent.trans hp, pos, lt⟩
    · exact new i (Nat.le_of_not_lt old) hs

theorem bind (h : st.Nested g) (hi : 0 < i) (name : String) (b : Binding) :
    (st.bind i name b).Nested g := by
  refine h.grow (.bind st i name b) (h.rooted.bind hi name b).root fun j hj hs => ?_
  rw [Store.bind, Array.size_modify] at hs
  exact absurd hs (Nat.not_lt_of_le hj)

theorem push (h : st.Nested g) (hp : st.Owns p) (hosts : Bool) :
    Nested g (Array.push st ⟨[], some p, hosts⟩) := by
  refine h.grow (.push _ _) (h.rooted.push (.inr ⟨p, rfl, hp.1⟩)).root fun i hi hs => ?_
  rw [Array.size_push] at hs
  obtain rfl : i = st.size := Nat.le_antisymm (Nat.le_of_lt_succ hs) hi
  exact ⟨_, p, Array.getElem?_push_size, rfl, hp⟩

end Nested

end Spellcraft.Store
