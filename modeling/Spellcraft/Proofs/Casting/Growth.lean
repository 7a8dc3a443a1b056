import Spellcraft.Proofs.Casting.Constants

namespace Spellcraft.Store

structure Grows (st st' : Store) : Prop where
  size : st.size ≤ st'.size
  scopes {i : Nat} {s : Scope} : st[i]? = some s →
    ∃ t : Scope, st'[i]? = some t ∧ t.parent = s.parent ∧ t.hosts = s.hosts ∧
      ∀ name, (s.get? name).isSome = true → (t.get? name).isSome = true

namespace Grows

variable {st st' st'' : Store}

theorem refl (st : Store) : Grows st st :=
  ⟨Nat.le_refl _, fun hs => ⟨_, hs, rfl, rfl, fun _ => id⟩⟩

theorem trans (h : Grows st st') (h' : Grows st' st'') : Grows st st'' where
  size := Nat.le_trans h.size h'.size
  scopes hs := by
    obtain ⟨t, ht, hp, hh, bound⟩ := h.scopes hs
    obtain ⟨u, hu, hp', hh', bound'⟩ := h'.scopes ht
    exact ⟨u, hu, hp'.trans hp, hh'.trans hh, fun name hn => bound' name (bound name hn)⟩

theorem bind (st : Store) (i : Nat) (name : String) (b : Binding) :
    Grows st (st.bind i name b) :=
  ⟨by simp [Store.bind], fun hs => exists_bind hs i name b⟩

theorem push (st : Store) (s : Scope) : Grows st (Array.push st s) := by
  refine ⟨by simp, fun {i t} ht => ⟨t, ?_, rfl, rfl, fun _ => id⟩⟩
  have old : i < st.size := (Array.getElem?_eq_some_iff.1 ht).1
  rw [Array.getElem?_push, if_neg (Nat.ne_of_lt old), ht]

theorem finds (h : Grows st st') (hf : st.Finds name i) : st'.Finds name i := by
  induction hf with
  | here hs hn =>
    obtain ⟨t, ht, -, -, bound⟩ := h.scopes hs
    exact .here ht (bound _ hn)
  | outward hs hp hlt _ ih =>
    obtain ⟨t, ht, hparent, -, -⟩ := h.scopes hs
    exact .outward ht (hparent.trans hp) hlt ih

theorem binds (h : Grows st st') (hb : st.binds i name = true) : st'.binds i name = true := by
  obtain ⟨b, hb⟩ := Option.isSome_iff_exists.1 hb
  obtain ⟨s, hs, hn⟩ := Option.bind_eq_some_iff.1 hb
  obtain ⟨t, ht, -, -, bound⟩ := h.scopes hs
  rw [Store.binds, ht, Option.bind_some]
  exact bound name (by rw [hn]; rfl)

theorem host_eq (h : Grows st st') (hi : i < st.size) : st'.host i = st.host i :=
  host_eq_of_shape (fun hs => have ⟨t, ht, hp, hh, _⟩ := h.scopes hs; ⟨t, ht, hp, hh⟩) hi

end Grows

end Spellcraft.Store
