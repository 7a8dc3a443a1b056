import Mathlib.Data.List.Forall2
import Mathlib.Data.List.Nodup
import Mathlib.Logic.Function.Basic
import Spellcraft.Json.Record

namespace Spellcraft.Json

open Function (update)

variable {α β : Type}

theorem mapM_eq_some {decode : α → Option β} {xs : List α} {as : List β} :
    xs.mapM decode = some as ↔ List.Forall₂ (fun x a => decode x = some a) xs as := by
  induction xs generalizing as with
  | nil => cases as <;> simp
  | cons x xs ih =>
    rw [List.mapM_cons]
    constructor
    · intro h
      simp only [Option.bind_eq_bind, Option.bind_eq_some_iff, Option.pure_def,
        Option.some.injEq] at h
      obtain ⟨a, ha, as, has, rfl⟩ := h
      exact .cons ha (ih.1 has)
    · intro h
      cases h with
      | cons ha has => simp [ha, ih.2 has]

theorem forall₂_and_right {R : α → β → Prop} {P : β → Prop} {xs : List α} {ys : List β} :
    List.Forall₂ (fun x y => R x y ∧ P y) xs ys ↔ List.Forall₂ R xs ys ∧ ∀ y ∈ ys, P y := by
  induction xs generalizing ys with
  | nil => cases ys <;> simp
  | cons x xs ih =>
    cases ys with
    | nil => simp
    | cons y ys =>
      rw [List.forall₂_cons, List.forall₂_cons, List.forall_mem_cons, ih]
      tauto

theorem toList?_eq_some {decode : Json → Option α} {j : Json} {as : List α} :
    toList? decode j = some as ↔
      ∃ xs, j = .array xs ∧ List.Forall₂ (fun x a => decode x = some a) xs as := by
  cases j <;> simp [toList?, mapM_eq_some]

def Reads (encode : α → Json) (good : α → Prop) (decode : Json → Option α) : Prop :=
  ∀ j a, decode j = some a ↔ j = encode a ∧ good a

theorem reads_text : Reads .text (fun _ => True) toText? := by
  intro j s
  cases j <;> simp [toText?]

theorem reads_nat (bits : Nat) : Reads ofNat (· < Nat.pow 2 bits) (toNat? bits) := by
  intro j n
  cases j with
  | integer i =>
    simp only [toNat?, Option.ite_none_right_eq_some, Option.some.injEq, ofNat, integer.injEq]
    constructor
    · rintro ⟨⟨hi, hbits⟩, rfl⟩
      exact ⟨(Int.toNat_of_nonneg hi).symm, hbits⟩
    · rintro ⟨rfl, hbits⟩
      exact ⟨⟨Int.natCast_nonneg n, hbits⟩, rfl⟩
  | _ => simp [toNat?, ofNat]

theorem Reads.list {encode : α → Json} {good : α → Prop} {decode : Json → Option α}
    (h : Reads encode good decode) :
    Reads (ofList encode) (fun as => ∀ a ∈ as, good a) (toList? decode) := by
  intro j as
  have written (xs : List Json) : List.Forall₂ (fun x a => x = encode a) xs as ↔
      xs = as.map encode := by
    rw [← List.forall₂_eq_eq_eq, List.forall₂_map_right_iff]
  simp only [toList?_eq_some, h _ _, forall₂_and_right, written]
  constructor
  · rintro ⟨xs, rfl, rfl, hgood⟩
    exact ⟨rfl, hgood⟩
  · rintro ⟨rfl, hgood⟩
    exact ⟨_, rfl, rfl, hgood⟩

namespace Reads

variable {encode : α → Json} {good : α → Prop} {decode : Json → Option α} {v : Option Json} {a : α}
  (h : Reads encode good decode)

include h

theorem required : required? decode v = some a ↔ v = some (encode a) ∧ good a := by
  cases v <;> simp [required?, h _ a]

theorem defaulted {default : α} : defaulted? decode default v = some a ↔
    v = some (encode a) ∧ good a ∨ v = none ∧ default = a := by
  cases v <;> simp [defaulted?, h _ a]

end Reads

section

variable {decode : Json → Option α} {v : Option Json}

theorem toOption?_of_ne_null {j : Json} (h : j ≠ .null) :
    toOption? decode j = (decode j).map some := by
  cases j with
  | null => exact absurd rfl h
  | _ => rfl

theorem optional?_eq_some_none :
    optional? decode v = some none ↔ v = none ∨ v = some .null := by
  cases v with
  | none => simp [optional?]
  | some j => cases j <;> simp [optional?, toOption?]

theorem optional?_eq_some_some (h : decode .null = none) {a : α} :
    optional? decode v = some (some a) ↔ ∃ j, v = some j ∧ decode j = some a := by
  cases v with
  | none => simp [optional?]
  | some j => cases j <;> simp [optional?, toOption?, h]

end

section

variable {names : List String} {name : String} {ms ns : List (String × Json)}
  {f : String → Option Json}

theorem single?_eq_some {a : Option Json} :
    single? ms name = some a ↔ (ms.filter fun m => m.1 = name) = present name a := by
  rw [single?]
  cases hs : ms.filter fun m => m.1 = name with
  | nil => cases a <;> simp [present]
  | cons m rest =>
    have hm : m.1 = name := by
      have : m ∈ ms.filter fun m => m.1 = name := hs ▸ List.mem_cons_self
      simpa using (List.mem_filter.1 this).2
    subst hm
    cases rest <;> cases a <;> simp [present, Prod.ext_iff]

theorem fields?_object {fs : List (Option Json)} : fields? names (.object ms) = some fs ↔
    List.Forall₂ (fun name a => single? ms name = some a) names fs := mapM_eq_some

theorem fields?_map : fields? names (.object ms) = some (names.map f) ↔
    ∀ name ∈ names, single? ms name = some (f name) := by
  rw [fields?_object, List.forall₂_map_right_iff, List.forall₂_same]

theorem length_fields? {j : Json} {fs : List (Option Json)} (h : fields? names j = some fs) :
    fs.length = names.length := by
  cases j with
  | object ms => exact (fields?_object.1 h).length_eq.symm
  | array xs =>
    simp only [fields?, Option.ite_none_right_eq_some, Option.some.injEq] at h
    obtain ⟨hle, rfl⟩ := h
    simp [hle]
  | _ => cases h

theorem exists_map (hn : names.Nodup) {fs : List (Option Json)} (h : fs.length = names.length) :
    ∃ f, fs = names.map f := by
  induction names generalizing fs with
  | nil => exact ⟨fun _ => none, List.length_eq_zero_iff.1 h⟩
  | cons name names ih =>
    obtain ⟨hname, hn⟩ := List.nodup_cons.1 hn
    cases fs with
    | nil => cases h
    | cons a fs =>
      obtain ⟨f, rfl⟩ := ih hn (Nat.succ.inj h)
      refine ⟨update f name a, ?_⟩
      rw [List.map_cons, Function.update_self]
      congr 1
      exact List.map_congr_left fun other ho =>
        (Function.update_of_ne (ne_of_mem_of_not_mem ho hname) ..).symm

def inOrder (names : List String) (f : String → Option Json) : List (String × Json) :=
  names.flatMap fun name => present name (f name)

theorem inOrder_cons : inOrder (name :: names) f = present name (f name) ++ inOrder names f :=
  List.flatMap_cons

theorem name_of_mem_present {a : Option Json} {m : String × Json} (h : m ∈ present name a) :
    m.1 = name := by
  cases a with
  | none => cases h
  | some j =>
    cases List.mem_singleton.1 h
    rfl

theorem name_mem_of_mem_inOrder {m : String × Json} (h : m ∈ inOrder names f) : m.1 ∈ names := by
  obtain ⟨name, hname, hm⟩ := List.mem_flatMap.1 h
  exact name_of_mem_present hm ▸ hname

theorem filter_present (name other : String) (a : Option Json) :
    ((present name a).filter fun m => m.1 = other) =
      if name = other then present name a else [] := by
  cases a <;> simp [present, List.filter_cons]

theorem filter_inOrder (hn : names.Nodup) (h : name ∈ names) :
    ((inOrder names f).filter fun m => m.1 = name) = present name (f name) := by
  induction names with
  | nil => cases h
  | cons first names ih =>
    obtain ⟨hfirst, hn⟩ := List.nodup_cons.1 hn
    rw [inOrder_cons, List.filter_append, filter_present]
    rcases List.mem_cons.1 h with rfl | h
    · have others : ((inOrder names f).filter fun m => m.1 = name) = [] := by
        rw [List.filter_eq_nil_iff]
        intro m hm
        have := ne_of_mem_of_not_mem (name_mem_of_mem_inOrder hm) hfirst
        simpa using this
      rw [if_pos rfl, others, List.append_nil]
    · rw [if_neg (ne_of_mem_of_not_mem h hfirst).symm, List.nil_append]
      exact ih hn h

theorem fields?_inOrder (hn : names.Nodup) :
    fields? names (.object (inOrder names f)) = some (names.map f) :=
  fields?_map.2 fun _ h => single?_eq_some.2 (filter_inOrder hn h)

theorem zip_eq_inOrder {xs : List Json} (hle : xs.length ≤ names.length)
    (h : xs.map some ++ List.replicate (names.length - xs.length) none = names.map f) :
    names.zip xs = inOrder names f := by
  induction names generalizing xs with
  | nil => rfl
  | cons name names ih =>
    rw [inOrder_cons]
    cases xs with
    | nil =>
      obtain ⟨absent, rest⟩ := List.cons.inj h
      rw [← @ih [] (Nat.zero_le _) rest, ← absent, List.zip_nil_right, List.zip_nil_right]
      rfl
    | cons x xs =>
      rw [List.length_cons, List.length_cons, Nat.add_sub_add_right] at h
      obtain ⟨item, rest⟩ := List.cons.inj h
      rw [← ih (Nat.le_of_succ_le_succ hle) rest, ← item]
      rfl

theorem fields?_array (hn : names.Nodup) {xs : List Json} (hle : xs.length ≤ names.length) :
    fields? names (.array xs) = fields? names (.object (names.zip xs)) := by
  have filled : fields? names (.array xs) =
      some (xs.map some ++ List.replicate (names.length - xs.length) none) := if_pos hle
  obtain ⟨f, hf⟩ := exists_map hn (length_fields? filled)
  rw [zip_eq_inOrder hle hf, fields?_inOrder hn, filled, hf]

theorem single?_order (h : ms.Perm ns) (name : String) : single? ms name = single? ns name := by
  have single : ∀ (a : Option Json) (l : List (String × Json)),
      l = present name a ↔ l.Perm (present name a) := by
    intro a l
    cases a with
    | none => exact List.perm_nil.symm
    | some j => exact List.perm_singleton.symm
  apply Option.ext
  intro a
  have filtered := h.filter fun m => m.1 = name
  rw [single?_eq_some, single?_eq_some, single, single]
  exact ⟨filtered.symm.trans, filtered.trans⟩

theorem single?_present (others : ∀ m ∈ ms, m.1 ≠ name) (a : Option Json) :
    single? (present name a ++ ms) name = some a := by
  have none_left : (ms.filter fun m => m.1 = name) = [] := by
    simpa [List.filter_eq_nil_iff] using others
  rw [single?_eq_some, List.filter_append, filter_present, if_pos rfl, none_left, List.append_nil]

theorem single?_other {other : String} (h : name ≠ other) (a : Option Json) :
    single? (present name a ++ ms) other = single? ms other := by
  rw [single?, single?, List.filter_append, filter_present, if_neg h, List.nil_append]

theorem fields?_congr (h : ∀ name ∈ names, single? ms name = single? ns name) :
    fields? names (.object ms) = fields? names (.object ns) := by
  change names.mapM (single? ms) = names.mapM (single? ns)
  induction names with
  | nil => rfl
  | cons name names ih =>
    obtain ⟨hname, hnames⟩ := List.forall_mem_cons.1 h
    rw [List.mapM_cons, List.mapM_cons, hname, ih hnames]

theorem filter_mem_perm (hn : names.Nodup) : (ms.filter fun m => m.1 ∈ names).Perm
    (names.flatMap fun name => ms.filter fun m => m.1 = name) := by
  induction names with
  | nil => simp
  | cons name names ih =>
    obtain ⟨hname, hn⟩ := List.nodup_cons.1 hn
    have first : ((ms.filter fun m => m.1 ∈ name :: names).filter fun m => m.1 = name) =
        ms.filter fun m => m.1 = name := by
      rw [List.filter_filter]
      refine List.filter_congr fun m _ => ?_
      by_cases hm : m.1 = name <;> simp [hm]
    have rest : ((ms.filter fun m => m.1 ∈ name :: names).filter fun m => !m.1 = name) =
        ms.filter fun m => m.1 ∈ names := by
      rw [List.filter_filter]
      refine List.filter_congr fun m _ => ?_
      by_cases hm : m.1 = name <;> simp [hm, hname]
    have split := List.filter_append_perm (fun m : String × Json => m.1 = name)
      (ms.filter fun m => m.1 ∈ name :: names)
    rw [first, rest] at split
    exact split.symm.trans ((ih hn).append_left _)

theorem fields?_replace (others : ∀ m ∈ ms, m.1 ≠ name) {a : Option Json} (b : Option Json)
    (h : fields? names (.object (present name a ++ ms)) = some (names.map f)) :
    fields? names (.object (present name b ++ ms)) = some (names.map (update f name b)) := by
  rw [fields?_map] at h ⊢
  intro other ho
  by_cases same : name = other
  · subst same
    rw [single?_present others, Function.update_self]
  · rw [single?_other same, Function.update_of_ne (Ne.symm same), ← h other ho, single?_other same]

end

/-- Two ways to write one record with fields of these names. The members may stand in another order,
members of other names do not count, and a field may be given or left out in a way that is `alike`.
An array is the object that gives its items to the first fields. -/
inductive Restated (names : List String) (alike : String → Option Json → Option Json → Prop) :
    Json → Json → Prop
  | refl (j : Json) : Restated names alike j j
  | symm : Restated names alike j k → Restated names alike k j
  | trans : Restated names alike j k → Restated names alike k l → Restated names alike j l
  | order : ms.Perm ns → Restated names alike (.object ms) (.object ns)
  | unknown : name ∉ names → Restated names alike (.object ((name, j) :: ms)) (.object ms)
  | field : name ∈ names → (∀ m ∈ ms, m.1 ≠ name) → alike name a b →
    Restated names alike (.object (present name a ++ ms)) (.object (present name b ++ ms))
  | array : xs.length ≤ names.length → Restated names alike (.array xs) (.object (names.zip xs))

namespace Restated

variable {names : List String} {alike : String → Option Json → Option Json → Prop} {j k : Json}
  (hn : names.Nodup)

section

variable {decode : Json → Option α} {parse : List (Option Json) → Option α}
  (hd : ∀ j, decode j = (fields? names j).bind parse)
  (blind : ∀ f g, (∀ name ∈ names, f name = g name ∨ alike name (f name) (g name)) →
    parse (names.map f) = parse (names.map g))

include hn hd blind

theorem decode_field {ms : List (String × Json)} (others : ∀ m ∈ ms, m.1 ≠ name)
    (ha : alike name a b) :
    decode (.object (present name a ++ ms)) = decode (.object (present name b ++ ms)) := by
  rw [hd, hd]
  cases h : fields? names (.object (present name a ++ ms)) with
  | none =>
    cases h' : fields? names (.object (present name b ++ ms)) with
    | none => rfl
    | some fs =>
      obtain ⟨f, rfl⟩ := exists_map hn (length_fields? h')
      rw [fields?_replace others a h'] at h
      cases h
  | some fs =>
    obtain ⟨f, rfl⟩ := exists_map hn (length_fields? h)
    rw [← h, fields?_replace others a h, fields?_replace others b h, Option.bind_some,
      Option.bind_some]
    refine blind _ _ fun other _ => ?_
    by_cases same : other = name
    · subst same
      rw [Function.update_self, Function.update_self]
      exact .inr ha
    · rw [Function.update_of_ne same, Function.update_of_ne same]
      exact .inl rfl

theorem decode_eq (h : Restated names alike j k) : decode j = decode k := by
  induction h with
  | refl j => rfl
  | symm _ ih => exact ih.symm
  | trans _ _ ih ih' => exact ih.trans ih'
  | order hp => rw [hd, hd, fields?_congr fun name _ => single?_order hp name]
  | @unknown name j ms hname =>
    have ignored : ∀ other ∈ names, single? ((name, j) :: ms) other = single? ms other :=
      fun other ho => single?_other (ne_of_mem_of_not_mem ho hname).symm (some j)
    rw [hd, hd, fields?_congr ignored]
  | field _ others ha => exact decode_field hn hd blind others ha
  | array hle => rw [hd, hd, fields?_array hn hle]

end

theorem null_iff (h : Restated names alike j k) : j = .null ↔ k = .null := by
  induction h with
  | refl j => rfl
  | symm _ ih => exact ih.symm
  | trans _ _ ih ih' => exact ih.trans ih'
  | _ => exact ⟨nofun, nofun⟩

theorem toOption?_eq {decode : Json → Option α} (h : Restated names alike j k)
    (hd : decode j = decode k) : toOption? decode j = toOption? decode k := by
  by_cases hj : j = .null
  · rw [hj, h.null_iff.1 hj]
  · rw [toOption?_of_ne_null hj, toOption?_of_ne_null (h.null_iff.not.1 hj), hd]

theorem field_between {ms ns : List (String × Json)} (hname : name ∈ names)
    (before : ∀ m ∈ ms, m.1 ≠ name) (behind : ∀ m ∈ ns, m.1 ≠ name) (ha : alike name a b) :
    Restated names alike (.object (ms ++ (present name a ++ ns)))
      (.object (ms ++ (present name b ++ ns))) := by
  have others : ∀ m ∈ ms ++ ns, m.1 ≠ name := List.forall_mem_append.2 ⟨before, behind⟩
  have front (c : Option Json) : Restated names alike (.object (ms ++ (present name c ++ ns)))
      (.object (present name c ++ (ms ++ ns))) :=
    .order (List.perm_append_comm_assoc ..)
  exact (front a).trans ((field hname others ha).trans (front b).symm)

theorem append_unknown {us : List (String × Json)} (h : ∀ m ∈ us, m.1 ∉ names)
    (ms : List (String × Json)) : Restated names alike (.object (us ++ ms)) (.object ms) := by
  induction us with
  | nil => exact refl _
  | cons m us ih =>
    obtain ⟨hm, hus⟩ := List.forall_mem_cons.1 h
    exact (unknown hm).trans (ih hus)

include hn

theorem fields {f g : String → Option Json}
    (h : ∀ name ∈ names, f name = g name ∨ alike name (f name) (g name)) :
    Restated names alike (.object (inOrder names f)) (.object (inOrder names g)) := by
  -- The members in front have been replaced already.
  suffices replaced : ∀ (rest : List String) (front : List (String × Json)), rest.Nodup →
      rest ⊆ names → (∀ m ∈ front, m.1 ∉ rest) →
      Restated names alike (.object (front ++ inOrder rest f))
        (.object (front ++ inOrder rest g)) from
    replaced names [] hn (List.Subset.refl _) (List.forall_mem_nil _)
  intro rest
  induction rest with
  | nil => exact fun _ _ _ _ => refl _
  | cons name rest ih =>
    intro front hrest sub apart
    obtain ⟨hname, hrest⟩ := List.nodup_cons.1 hrest
    obtain ⟨known, sub⟩ := List.cons_subset.1 sub
    have step : Restated names alike (.object (front ++ (present name (f name) ++ inOrder rest f)))
        (.object (front ++ (present name (g name) ++ inOrder rest f))) := by
      rcases h name known with same | ha
      · rw [same]
        exact refl _
      · exact field_between known (fun m hm => (List.ne_and_not_mem_of_not_mem_cons (apart m hm)).1)
          (fun m hm => ne_of_mem_of_not_mem (name_mem_of_mem_inOrder hm) hname) ha
    refine step.trans ?_
    rw [inOrder_cons, ← List.append_assoc, ← List.append_assoc]
    refine ih _ hrest sub (List.forall_mem_append.2 ⟨fun m hm => ?_, fun m hm => ?_⟩)
    · exact (List.ne_and_not_mem_of_not_mem_cons (apart m hm)).2
    · exact name_of_mem_present hm ▸ hname

theorem object_inOrder {f : String → Option Json} {ms : List (String × Json)}
    (h : fields? names (.object ms) = some (names.map f)) :
    Restated names alike (.object ms) (.object (inOrder names f)) := by
  have known : (ms.filter fun m => m.1 ∈ names).Perm (inOrder names f) := by
    refine (filter_mem_perm hn).trans (.of_eq ?_)
    exact List.flatMap_congr fun name hname => single?_eq_some.1 (fields?_map.1 h name hname)
  have split := List.filter_append_perm (fun m : String × Json => m.1 ∉ names) ms
  have sorted : ms.Perm ((ms.filter fun m => m.1 ∉ names) ++ inOrder names f) := by
    refine split.symm.trans (.append_left _ ?_)
    simpa using known
  have unknown : ∀ m ∈ ms.filter fun m => m.1 ∉ names, m.1 ∉ names := by
    simp [List.mem_filter]
  exact (order sorted).trans (append_unknown unknown _)

theorem to_inOrder {f : String → Option Json} (h : fields? names j = some (names.map f)) :
    Restated names alike j (.object (inOrder names f)) := by
  cases j with
  | object ms => exact object_inOrder hn h
  | array xs =>
    have hle : xs.length ≤ names.length := (Option.ite_none_right_eq_some.1 h).1
    rw [fields?_array hn hle] at h
    exact (array hle).trans (object_inOrder hn h)
  | _ => cases h

section

variable {encode : α → Json} {good : α → Prop} {decode : Json → Option α}
  {parse : List (Option Json) → Option α}

/-- What decodes as a value is what restates the JSON of the value: the fields that are written are
read back, and the fields that are read are alike to those that would be written. -/
theorem decode_eq_some (value : α → String → Option Json)
    (hd : ∀ j, decode j = (fields? names j).bind parse)
    (he : ∀ a, encode a = .object (inOrder names (value a)))
    (blind : ∀ f g, (∀ name ∈ names, f name = g name ∨ alike name (f name) (g name)) →
      parse (names.map f) = parse (names.map g))
    (written : ∀ a, good a → parse (names.map (value a)) = some a)
    (read : ∀ f a, parse (names.map f) = some a → good a ∧
      ∀ name ∈ names, f name = value a name ∨ alike name (f name) (value a name)) (a : α) :
    decode j = some a ↔ Restated names alike j (encode a) ∧ good a := by
  constructor
  · intro h
    rw [hd, Option.bind_eq_some_iff] at h
    obtain ⟨fs, hfs, ha⟩ := h
    obtain ⟨f, rfl⟩ := exists_map hn (length_fields? hfs)
    obtain ⟨hgood, hf⟩ := read f a ha
    rw [he]
    exact ⟨(to_inOrder hn hfs).trans (fields hn hf), hgood⟩
  · rintro ⟨hj, hgood⟩
    rw [decode_eq hn hd blind hj, hd, he, fields?_inOrder hn, Option.bind_some]
    exact written a hgood

end

end Restated

end Spellcraft.Json
