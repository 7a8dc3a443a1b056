import Spellcraft.Proofs.Casting.Reach

namespace Spellcraft

namespace Grant

def Within (g h : Grant) : Prop := ∀ k ∈ g.commands, k ∈ h.commands

theorem Within.lookup? {g h : Grant} (w : g.Within h) (hk : g.lookup? name = some k) :
    h.lookup? name = some k := by
  obtain ⟨named, mem⟩ := (Option.filter_eq_some_iff ..).1 hk
  exact (Option.filter_eq_some_iff ..).2 ⟨named, by simpa using w k (by simpa using mem)⟩

theorem Within.knows {g h : Grant} (w : g.Within h) (hn : g.knows name = true) :
    h.knows name = true := by
  simp only [Grant.knows, Bool.or_eq_true] at hn ⊢
  refine hn.imp_right fun hn => ?_
  obtain ⟨k, hk⟩ := Option.isSome_iff_exists.1 hn
  rw [w.lookup? hk, Option.isSome_some]

end Grant

namespace Store

theorem lookup_commands (ks : List Command) (name : String) :
    (ks.map fun k => (k.name, (⟨.command k, true⟩ : Binding))).lookup name =
      ((Command.ofName? name).filter (· ∈ ks)).map fun k => ⟨.command k, true⟩ := by
  induction ks with
  | nil => cases Command.ofName? name <;> simp [Option.filter]
  | cons k ks ih =>
    rw [List.map_cons, List.lookup_cons]
    by_cases hn : name = k.name
    · simp [hn, Option.filter]
    · have other : ∀ j, Command.ofName? name = some j → j ≠ k := by
        rintro j hj rfl
        have hj : j.name = name := by simpa using List.find?_some hj
        exact hn hj.symm
      rw [beq_eq_false_iff_ne.2 hn, ih]
      cases hj : Command.ofName? name with
      | none => rfl
      | some j => simp [Option.filter, other j hj]

theorem builtins_get? (g : Grant) (name : String) :
    (builtins g).get? name =
      if name = Grant.undefinedName then some ⟨.undefined, true⟩
      else (g.lookup? name).map fun k => ⟨.command k, true⟩ := by
  rw [Scope.get?, builtins, List.lookup_cons]
  by_cases hn : name = Grant.undefinedName
  · simp [hn]
  · rw [beq_eq_false_iff_ne.2 hn, if_neg hn]
    exact lookup_commands g.commands name

theorem constant_of_builtins (h : (builtins g).get? name = some b) : b.constant = true := by
  rw [builtins_get?] at h
  split at h
  · exact Option.some.inj h ▸ rfl
  · obtain ⟨k, -, rfl⟩ := Option.map_eq_some_iff.1 h
    rfl

theorem builtins_get?_of_within {g h : Grant} (w : g.Within h)
    (hb : (builtins g).get? name = some b) : (builtins h).get? name = some b := by
  rw [builtins_get?] at hb ⊢
  split at hb
  · next hn => rw [if_pos hn, hb]
  · next hn =>
    obtain ⟨k, hk, rfl⟩ := Option.map_eq_some_iff.1 hb
    rw [if_neg hn, w.lookup? hk, Option.map_some]

/-- The grant stands in the outermost scope, and between any other scope and it stands one that
hosts. -/
structure Rooted (g : Grant) (st : Store) : Prop where
  root : st[0]? = some (builtins g)
  hosted : st[i]? = some s → 0 < i → s.hosts = true ∨ ∃ p, s.parent = some p ∧ 0 < p

def regrant (g : Grant) (st : Store) : Store := st.modify 0 fun _ => builtins g

variable {g g' : Grant} {st : Store}

theorem Rooted.initial (g : Grant) : (initial g).Rooted g := by
  refine ⟨rfl, fun {i s} hs hi => ?_⟩
  match i with
  | 1 => exact .inl (Option.some.inj hs ▸ rfl)
  | i + 2 => cases hs

theorem Rooted.bind (h : st.Rooted g) (hi : 0 < i) (name : String) (b : Binding) :
    (st.bind i name b).Rooted g := by
  constructor
  · rw [getElem?_bind, if_neg (by omega), h.root]
  · intro j t ht hj
    rw [getElem?_bind] at ht
    split at ht
    · obtain ⟨s, hs, rfl⟩ := Option.map_eq_some_iff.1 ht
      exact h.hosted (s := s) hs hj
    · exact h.hosted ht hj

theorem Rooted.size_pos (h : st.Rooted g) : 0 < st.size := (Array.getElem?_eq_some_iff.1 h.root).1

theorem Rooted.push (h : st.Rooted g) {s : Scope}
    (hs : s.hosts = true ∨ ∃ p, s.parent = some p ∧ 0 < p) : Rooted g (Array.push st s) := by
  have size := h.size_pos
  constructor
  · rw [Array.getElem?_push, if_neg (by omega), h.root]
  · intro i t ht hi
    rw [Array.getElem?_push] at ht
    split at ht
    · exact Option.some.inj ht ▸ hs
    · exact h.hosted ht hi

theorem Rooted.host_pos (h : st.Rooted g) (hi : 0 < i) : 0 < st.host i := by
  fun_induction Store.host st i with
  | case4 i s hs hosts p hp hlt ih =>
    obtain hosted | ⟨q, hq, pos⟩ := h.hosted hs hi
    · exact absurd hosted hosts
    · cases hp.symm.trans hq
      exact ih pos
  | _ => exact hi

theorem getElem?_regrant (st : Store) (g : Grant) (hi : 0 < i) : (st.regrant g)[i]? = st[i]? := by
  rw [regrant, Array.getElem?_modify, if_neg (by omega)]

theorem Rooted.regrant_root (h : st.Rooted g) (g' : Grant) :
    (st.regrant g')[0]? = some (builtins g') := by
  rw [regrant, Array.getElem?_modify, if_pos rfl, h.root, Option.map_some]

@[simp] theorem size_regrant (g : Grant) (st : Store) : (st.regrant g).size = st.size := by
  simp [regrant]

theorem regrant_bind (st : Store) (g : Grant) (hi : 0 < i) (name : String) (b : Binding) :
    (st.bind i name b).regrant g = (st.regrant g).bind i name b := by
  apply Array.ext_getElem?
  intro j
  simp only [regrant, Store.bind, Array.getElem?_modify]
  by_cases hj : j = 0
  · subst hj
    simp [show i ≠ 0 by omega]
  · simp [show ¬0 = j by omega]

theorem regrant_push (h : 0 < st.size) (g : Grant) (s : Scope) :
    regrant g (Array.push st s) = Array.push (st.regrant g) s := by
  apply Array.ext_getElem?
  intro j
  simp only [regrant, Array.getElem?_modify, Array.getElem?_push, Array.size_modify]
  by_cases hj : 0 = j
  · subst hj
    simp [show 0 ≠ st.size by omega]
  · simp [hj]

theorem Rooted.host_regrant (h : st.Rooted g) (g' : Grant) (hi : 0 < i) :
    (st.regrant g').host i = st.host i := by
  fun_induction Store.host st i with
  | case1 i hs => rw [Store.host, getElem?_regrant st g' hi, hs]
  | case2 i s hs hosts => rw [Store.host, getElem?_regrant st g' hi, hs]; simp [hosts]
  | case3 i s hs hosts hp => rw [Store.host, getElem?_regrant st g' hi, hs]; simp [hosts, hp]
  | case4 i s hs hosts p hp hlt ih =>
    rw [Store.host, getElem?_regrant st g' hi, hs]
    simp only [hosts, hp, hlt, if_true, if_false, Bool.false_eq_true]
    obtain hosted | ⟨q, hq, pos⟩ := h.hosted hs hi
    · exact absurd hosted hosts
    · cases hp.symm.trans hq
      exact ih pos
  | case5 i s hs hosts p hp hlt =>
    rw [Store.host, getElem?_regrant st g' hi, hs]; simp [hosts, hp, hlt]

theorem Rooted.find?_regrant (h : st.Rooted g) (w : g.Within g') (hf : st.find? name i = some j) :
    (st.regrant g').find? name i = some j := by
  fun_induction Store.find? st name i with
  | case1 => cases hf
  | case2 i s hs hn =>
    rw [← hf, Store.find?]
    by_cases hi : 0 < i
    · rw [getElem?_regrant st g' hi, hs]
      simp [hn]
    · obtain rfl : i = 0 := by omega
      obtain rfl : s = builtins g := Option.some.inj (hs.symm.trans h.root)
      obtain ⟨b, hb⟩ := Option.isSome_iff_exists.1 hn
      rw [h.regrant_root g']
      simp [builtins_get?_of_within w hb]
  | case3 => cases hf
  | case4 i s hs hn p hp hlt ih =>
    have hi : 0 < i := by omega
    rw [Store.find?, getElem?_regrant st g' hi, hs]
    simpa only [hn, hp, hlt, if_true, if_false, Bool.false_eq_true] using ih hf
  | case5 => cases hf

theorem Rooted.get?_regrant (h : st.Rooted g) (w : g.Within g') (hb : st.get? name i = some b) :
    (st.regrant g').get? name i = some b := by
  simp only [Store.get?, Option.bind_eq_bind, Option.bind_eq_some_iff] at hb ⊢
  obtain ⟨j, hf, s, hs, hb⟩ := hb
  refine ⟨j, h.find?_regrant w hf, ?_⟩
  by_cases hj : 0 < j
  · exact ⟨s, by rw [getElem?_regrant st g' hj, hs], hb⟩
  · obtain rfl : j = 0 := by omega
    obtain rfl : s = Store.builtins g := Option.some.inj (hs.symm.trans h.root)
    exact ⟨_, h.regrant_root g', builtins_get?_of_within w hb⟩

theorem Rooted.find?_pos (h : st.Rooted g) (hf : st.find? name i = some j)
    (hb : st.get? name i = some b) (changes : b.constant = false) : 0 < j := by
  simp only [Store.get?, Option.bind_eq_bind, Option.bind_eq_some_iff] at hb
  obtain ⟨k, hk, s, hs, hb⟩ := hb
  cases hf.symm.trans hk
  refine Nat.pos_of_ne_zero ?_
  rintro rfl
  obtain rfl : s = Store.builtins g := Option.some.inj (hs.symm.trans h.root)
  rw [constant_of_builtins hb] at changes
  cases changes

theorem binds_regrant (st : Store) (g : Grant) (hi : 0 < i) (name : String) :
    (st.regrant g).binds i name = st.binds i name := by
  rw [Store.binds, Store.binds, getElem?_regrant st g hi]

end Store

end Spellcraft
