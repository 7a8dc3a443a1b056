import Spellcraft.Proofs.Casting.Reach

namespace Spellcraft.Store

def at? (st : Store) (i : Nat) (name : String) : Option Binding := st[i]?.bind (·.get? name)

theorem binds_eq (st : Store) (i : Nat) (name : String) :
    st.binds i name = (st.at? i name).isSome := rfl

theorem at?_bind (st : Store) (i : Nat) (name : String) (b : Binding) (j : Nat) (other : String) :
    (st.bind i name b).at? j other =
      if i = j ∧ other = name ∧ j < st.size then some b else st.at? j other := by
  rw [at?, at?, getElem?_bind]
  by_cases hi : i = j
  · subst hi
    rw [if_pos rfl]
    by_cases hs : i < st.size
    · simp only [Array.getElem?_eq_getElem hs, Option.map_some, Option.bind_some, Scope.get?_set,
        true_and, hs, and_true]
    · simp [hs]
  · rw [if_neg hi, if_neg (fun h => hi h.1)]

theorem at?_push (st : Store) (s : Scope) (i : Nat) (name : String) :
    at? (Array.push st s) i name = if i = st.size then s.get? name else st.at? i name := by
  rw [at?, at?, Array.getElem?_push]
  split <;> rfl

def Unfixed (st : Store) (i : Nat) (name : String) : Prop :=
  ∀ b, st.at? i name = some b → b.constant = false

def Varies (st : Store) (i : Nat) (name : String) : Prop :=
  ∃ b, st.at? i name = some b ∧ b.constant = false

theorem Varies.unfixed {st : Store} (h : st.Varies i name) : st.Unfixed i name := by
  obtain ⟨b, hb, hv⟩ := h
  intro b' hb'
  cases hb.symm.trans hb'
  exact hv

theorem unfixed_of_binds {st : Store} (h : st.binds i name = false) : st.Unfixed i name := by
  intro b hb
  rw [binds_eq, hb] at h
  cases h

theorem Varies.bind {st : Store} (h : i < st.size) (name : String) (v : Value) :
    (st.bind i name ⟨v, false⟩).Varies i name :=
  ⟨_, by rw [at?_bind, if_pos ⟨rfl, rfl, h⟩], rfl⟩

theorem Unfixed.bind {st : Store} (h : st.Unfixed j other) (i : Nat) (name : String) (v : Value) :
    (st.bind i name ⟨v, false⟩).Unfixed j other := by
  intro b hb
  rw [at?_bind] at hb
  split at hb
  · cases hb
    rfl
  · exact h b hb

theorem host_eq_of_shape {st st' : Store}
    (shape : ∀ {i : Nat} {s : Scope}, st[i]? = some s →
      ∃ t : Scope, st'[i]? = some t ∧ t.parent = s.parent ∧ t.hosts = s.hosts)
    (hi : i < st.size) : st'.host i = st.host i := by
  fun_induction Store.host st i with
  | case1 i hs => exact absurd hs (by simp [hi])
  | case2 i s hs hosts =>
    obtain ⟨t, ht, -, hh⟩ := shape hs
    rw [Store.host, ht]
    simp [hh, hosts]
  | case3 i s hs hosts hp =>
    obtain ⟨t, ht, hp', hh⟩ := shape hs
    rw [Store.host, ht]
    simp [hh, hosts, hp', hp]
  | case4 i s hs hosts p hp hlt ih =>
    obtain ⟨t, ht, hp', hh⟩ := shape hs
    rw [Store.host, ht]
    simp only [hh, hosts, hp', hp, hlt, Bool.false_eq_true, ↓reduceIte]
    exact ih (Nat.lt_trans hlt hi)
  | case5 i s hs hosts p hp hlt =>
    obtain ⟨t, ht, hp', hh⟩ := shape hs
    rw [Store.host, ht]
    simp [hh, hosts, hp', hp, hlt]

structure Steady (st st' : Store) : Prop where
  size : st.size ≤ st'.size
  shape {i : Nat} {s : Scope} : st[i]? = some s →
    ∃ t : Scope, st'[i]? = some t ∧ t.parent = s.parent ∧ t.hosts = s.hosts
  constants : st.at? i name = some b → b.constant = true → st'.at? i name = some b
  varies : st.Varies i name → st'.Varies i name

namespace Steady

variable {st st' st'' : Store}

theorem refl (st : Store) : Steady st st :=
  ⟨Nat.le_refl _, fun hs => ⟨_, hs, rfl, rfl⟩, fun hb _ => hb, id⟩

theorem trans (h : Steady st st') (h' : Steady st' st'') : Steady st st'' where
  size := Nat.le_trans h.size h'.size
  shape hs := by
    obtain ⟨t, ht, hp, hh⟩ := h.shape hs
    obtain ⟨u, hu, hp', hh'⟩ := h'.shape ht
    exact ⟨u, hu, hp'.trans hp, hh'.trans hh⟩
  constants hb hc := h'.constants (h.constants hb hc) hc
  varies hv := h'.varies (h.varies hv)

theorem bind (h : st.Unfixed i name) {b : Binding}
    (hb : b.constant = false ∨ st.binds i name = false) : Steady st (st.bind i name b) where
  size := by simp [Store.bind]
  shape hs := by
    obtain ⟨t, ht, hp, hh, -⟩ := exists_bind hs i name b
    exact ⟨t, ht, hp, hh⟩
  constants {j other b'} hb' hc := by
    rw [at?_bind, if_neg, hb']
    rintro ⟨rfl, rfl, -⟩
    rw [h b' hb'] at hc
    cases hc
  varies {j other} hv := by
    obtain ⟨b', hb', hc⟩ := hv
    refine ⟨if i = j ∧ other = name ∧ j < st.size then b else b', ?_, ?_⟩
    · rw [at?_bind, hb']
      split <;> rfl
    · split
      · rename_i hj
        obtain ⟨rfl, rfl, -⟩ := hj
        refine hb.resolve_right fun hn => ?_
        rw [binds_eq, hb'] at hn
        cases hn
      · exact hc

theorem push (st : Store) (s : Scope) : Steady st (Array.push st s) := by
  have old {i : Nat} {t : Scope} (h : st[i]? = some t) : i ≠ st.size :=
    Nat.ne_of_lt (Array.getElem?_eq_some_iff.1 h).1
  have bound {i : Nat} {name : String} {b : Binding} (h : st.at? i name = some b) :
      at? (Array.push st s) i name = some b := by
    obtain ⟨t, ht, -⟩ := Option.bind_eq_some_iff.1 h
    rw [at?_push, if_neg (old ht), h]
  refine ⟨by simp, fun {i t} ht => ⟨t, ?_, rfl, rfl⟩, fun hb _ => bound hb, ?_⟩
  · rw [Array.getElem?_push, if_neg (old ht), ht]
  · rintro i name ⟨b, hb, hv⟩
    exact ⟨b, bound hb, hv⟩

theorem host_eq (h : Steady st st') (hi : i < st.size) : st'.host i = st.host i :=
  host_eq_of_shape h.shape hi

end Steady

theorem host_lt_size {st : Store} (hi : i < st.size) : st.host i < st.size := by
  fun_induction Store.host st i with
  | case4 i s hs hosts p hp hlt ih => exact ih (Nat.lt_trans hlt hi)
  | _ => exact hi

theorem host_push_block {st : Store} (hi : i < st.size) :
    host (Array.push st ⟨[], some i, false⟩) st.size = st.host i := by
  rw [Store.host, Array.getElem?_push_size]
  simp only [hi, Bool.false_eq_true, ↓reduceIte]
  exact (Steady.push st _).host_eq hi

theorem host_push_frame (st : Store) (bindings : List (String × Binding)) (parent : Option Nat) :
    host (Array.push st ⟨bindings, parent, true⟩) st.size = st.size := by
  rw [Store.host, Array.getElem?_push_size]
  simp

/-- The names are variables in the scope that hosts `var` declarations made in scope `i`. -/
def Reserves (st : Store) (names : List String) (i : Nat) : Prop :=
  ∀ name ∈ names, st.Varies (st.host i) name

theorem Reserves.steady {st st' : Store} (h : st.Reserves names i) (hs : st.Steady st')
    (hi : i < st.size) : st'.Reserves names i := by
  intro name hn
  rw [hs.host_eq hi]
  exact hs.varies (h name hn)

end Spellcraft.Store
