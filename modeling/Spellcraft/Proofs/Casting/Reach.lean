import Spellcraft.Casting.Scope

namespace Spellcraft

namespace Store

inductive Finds (st : Store) (name : String) : Nat → Prop
  | here : st[i]? = some s → (s.get? name).isSome = true → Finds st name i
  | outward : st[i]? = some s → s.parent = some p → p < i → Finds st name p → Finds st name i

variable {st st' st'' : Store}

theorem Finds.lt_size (h : Finds st name i) : i < st.size := by
  cases h with
  | here hs | outward hs => exact (Array.getElem?_eq_some_iff.1 hs).1

theorem find?_isSome : (st.find? name i).isSome = true ↔ Finds st name i := by
  constructor
  · intro h
    fun_induction Store.find? st name i with
    | case1 => cases h
    | case2 i s hs hn => exact .here hs hn
    | case3 => cases h
    | case4 i s hs hn p hp hlt ih => exact .outward hs hp hlt (ih h)
    | case5 => cases h
  · intro h
    induction h with
    | here hs hn => rw [Store.find?]; simp [hs, hn]
    | @outward i s p hs hp hlt _ ih =>
      rw [Store.find?]
      simp only [hs, hp, hlt, if_true]
      split
      · rfl
      · exact ih

theorem get?_isSome : (st.get? name i).isSome = true ↔ Finds st name i := by
  rw [← find?_isSome, Store.get?]
  fun_induction Store.find? st name i <;> simp_all

theorem getElem?_bind (st : Store) (i : Nat) (name : String) (b : Binding) (j : Nat) :
    (st.bind i name b)[j]? = if i = j then st[j]?.map (·.set name b) else st[j]? := by
  simp [Store.bind, Array.getElem?_modify]

theorem exists_bind {s : Scope} {j : Nat} (h : st[j]? = some s) (i : Nat) (name : String)
    (b : Binding) :
    ∃ t : Scope, (st.bind i name b)[j]? = some t ∧ t.parent = s.parent ∧ t.hosts = s.hosts ∧
      ∀ other, (s.get? other).isSome = true → (t.get? other).isSome = true := by
  rw [getElem?_bind, h]
  split
  · refine ⟨s.set name b, rfl, rfl, rfl, fun other ho => ?_⟩
    rw [Scope.get?_set]
    split
    · rfl
    · exact ho
  · exact ⟨s, rfl, rfl, rfl, fun _ ho => ho⟩

structure Extends (st st' : Store) : Prop where
  size : st.size ≤ st'.size
  finds : st.Finds name i → st'.Finds name i

namespace Extends

theorem refl (st : Store) : Extends st st := ⟨Nat.le_refl _, id⟩

theorem trans (h : Extends st st') (h' : Extends st' st'') : Extends st st'' :=
  ⟨Nat.le_trans h.size h'.size, fun hf => h'.finds (h.finds hf)⟩

theorem bind (st : Store) (i : Nat) (name : String) (b : Binding) :
    Extends st (st.bind i name b) := by
  refine ⟨by simp [Store.bind], fun hf => ?_⟩
  induction hf with
  | here hs hn =>
    obtain ⟨t, ht, -, -, kept⟩ := exists_bind hs i name b
    exact .here ht (kept _ hn)
  | outward hs hp hlt _ ih =>
    obtain ⟨t, ht, hparent, -, -⟩ := exists_bind hs i name b
    exact .outward ht (hparent.trans hp) hlt ih

theorem push (st : Store) (s : Scope) : Extends st (Array.push st s) := by
  have kept {j : Nat} {t : Scope} (h : st[j]? = some t) : (Array.push st s)[j]? = some t := by
    have := (Array.getElem?_eq_some_iff.1 h).1
    rw [Array.getElem?_push, if_neg (by omega), h]
  refine ⟨by simp, fun hf => ?_⟩
  induction hf with
  | here hs hn => exact .here (kept hs) hn
  | outward hs hp hlt _ ih => exact .outward (kept hs) hp hlt ih

end Extends

theorem Finds.push (hf : Finds st name p) (hosts : Bool) :
    Finds (Array.push st ⟨[], some p, hosts⟩) name st.size :=
  .outward Array.getElem?_push_size rfl hf.lt_size ((Extends.push st _).finds hf)

theorem Finds.of_binds (h : st.binds i name = true) : Finds st name i := by
  obtain ⟨b, hb⟩ := Option.isSome_iff_exists.1 h
  obtain ⟨s, hs, hn⟩ := Option.bind_eq_some_iff.1 hb
  exact .here hs (by rw [hn]; rfl)

theorem Finds.of_host (h : st.binds (st.host i) name = true) : Finds st name i := by
  fun_induction Store.host st i with
  | case4 i s hs _ p hp hlt ih => exact .outward hs hp hlt (ih h)
  | _ => exact .of_binds h

theorem Finds.bind_host (h : i < st.size) (name : String) (b : Binding) :
    Finds (st.bind (st.host i) name b) name i := by
  have here {i : Nat} (h : i < st.size) : Finds (st.bind i name b) name i := by
    refine .here (s := st[i].set name b) ?_ ?_
    · rw [getElem?_bind, if_pos rfl, Array.getElem?_eq_getElem h, Option.map_some]
    · rw [Scope.get?_set, if_pos rfl, Option.isSome_some]
  fun_induction Store.host st i with
  | case4 i s hs _ p hp hlt ih =>
    obtain ⟨t, ht, hparent, -, -⟩ := exists_bind hs (st.host p) name b
    exact .outward ht (hparent.trans hp) hlt (ih (by omega))
  | _ => exact here h

theorem builtins_get?_isSome {g : Grant} (h : g.knows name = true) :
    ((builtins g).get? name).isSome = true := by
  rw [Option.isSome_iff_ne_none, Scope.get?]
  intro hn
  have absent := List.lookup_eq_none_iff.1 hn
  simp only [Grant.knows, Bool.or_eq_true, decide_eq_true_eq] at h
  rcases h with rfl | h
  · simpa using absent _ List.mem_cons_self
  · obtain ⟨c, hc⟩ := Option.isSome_iff_exists.1 h
    obtain ⟨hname, hmem⟩ := (Option.filter_eq_some_iff ..).1 hc
    have hname : c.name = name := by simpa using List.find?_some hname
    have hmem : c ∈ g.commands := by simpa using hmem
    simpa [hname] using absent _ (List.mem_cons_of_mem _ (List.mem_map_of_mem hmem))

theorem Finds.initial {g : Grant} (h : g.knows name = true) : Finds (initial g) name global :=
  .outward rfl rfl Nat.zero_lt_one (.here rfl (builtins_get?_isSome h))

end Store

end Spellcraft
