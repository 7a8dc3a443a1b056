import Spellcraft.Json.Read

namespace Spellcraft.Json

open Number (natOfDigits)

variable {r : List Char}

def Stops (r : List Char) : Prop :=
  ∀ c ∈ r.head?, c.isDigit = false ∧ c ≠ '.' ∧ c ≠ 'e' ∧ c ≠ 'E'

theorem Stops.nil : Stops [] := nofun

theorem Stops.cons {c : Char} (h : c.isDigit = false ∧ c ≠ '.' ∧ c ≠ 'e' ∧ c ≠ 'E') :
    Stops (c :: r) := by
  rintro d ⟨⟩
  exact h

theorem natOfDigits_toDigits (n : Nat) : natOfDigits (Nat.toDigits 10 n) = n :=
  Nat.ofDigitChars_ten_toDigits

theorem isDigit_of_mem {n : Nat} : ∀ c ∈ Nat.toDigits 10 n, c.isDigit = true :=
  fun _ => Nat.isDigit_of_mem_toDigits (by decide) (by decide)

theorem toDigits_cons (n : Nat) : ∃ d ds, Nat.toDigits 10 n = d :: ds ∧ d.isDigit = true := by
  obtain ⟨d, ds, h⟩ := List.exists_cons_of_ne_nil (Nat.toDigits_ne_nil (b := 10) (n := n))
  exact ⟨d, ds, h, isDigit_of_mem d (h ▸ List.mem_cons_self)⟩

theorem ne_of_isDigit {c d : Char} (hc : c.isDigit = true) (hd : d.isDigit = false) : c ≠ d := by
  rintro rfl
  cases hd.symm.trans hc

theorem head_toDigits {n : Nat} (h : n ≠ 0) : ∀ ds, Nat.toDigits 10 n ≠ '0' :: ds := by
  induction n using Nat.strongRecOn with
  | ind n ih =>
    intro ds
    rcases Nat.lt_or_ge n 10 with small | large
    · rw [Nat.toDigits_of_lt_base small]
      have digit : ∀ m < 10, m ≠ 0 → m.digitChar ≠ '0' := by decide
      exact fun same => digit n small h (List.cons.inj same).1
    · rw [Nat.toDigits_of_base_le (by decide) large]
      intro same
      obtain ⟨d, front, hd, -⟩ := toDigits_cons (n / 10)
      rw [hd, List.cons_append] at same
      exact ih (n / 10) (by omega) (by omega) front (by rw [hd, (List.cons.inj same).1])

theorem takeWhile_digits (n : Nat) (h : Stops r) :
    (Nat.toDigits 10 n ++ r).takeWhile Char.isDigit = Nat.toDigits 10 n ∧
      (Nat.toDigits 10 n ++ r).dropWhile Char.isDigit = r := by
  rw [List.takeWhile_append_of_pos isDigit_of_mem, List.dropWhile_append_of_pos isDigit_of_mem]
  cases r with
  | nil => simp
  | cons c r => simp [(h c rfl).1]

theorem wholePart_digits (n : Nat) (h : Stops r) :
    wholePart (Nat.toDigits 10 n ++ r) = some (Nat.toDigits 10 n, r) := by
  by_cases hn : n = 0
  · subst hn
    rfl
  · obtain ⟨taken, left⟩ := takeWhile_digits n h
    unfold wholePart
    split
    · next heq =>
      obtain ⟨d, front, hd, -⟩ := toDigits_cons n
      rw [hd, List.cons_append] at heq
      exact absurd (hd.trans (by rw [(List.cons.inj heq).1])) (head_toDigits hn front)
    · rw [taken, left, if_neg Nat.toDigits_ne_nil]

theorem magnitude_digits (negative : Bool) {n : Nat} (hn : negative = true → n ≠ 0)
    (h : Stops r) : magnitude negative (Nat.toDigits 10 n ++ r) =
      some (.integer (if negative then -(n : Int) else n), r) := by
  have fraction : fractionPart r = some ([], r) := by
    unfold fractionPart
    split
    · exact absurd rfl (h _ rfl).2.1
    · rfl
  have exponent : exponentPart r = some (none, r) := by
    unfold exponentPart
    split
    · next e tail =>
      obtain ⟨-, -, he, hE⟩ := h e rfl
      rw [if_neg (by simp [he, hE])]
    · rfl
  have proper : ¬(negative = true ∧ n = 0) := fun ⟨hneg, hz⟩ => hn hneg hz
  simp [magnitude, wholePart_digits n h, fraction, exponent, natOfDigits_toDigits, proper]

theorem number_integer (i : Int) (h : Stops r) :
    number ((toString i).toList ++ r) = some (.integer i, r) := by
  cases i with
  | ofNat n =>
    have digits : (toString (Int.ofNat n)).toList = Nat.toDigits 10 n := Nat.toList_repr
    rw [digits]
    unfold number
    split
    · next heq =>
      obtain ⟨d, front, hd, digit⟩ := toDigits_cons n
      rw [hd, List.cons_append] at heq
      exact absurd (List.cons.inj heq).1 (ne_of_isDigit digit (by decide))
    · exact magnitude_digits false nofun h
  | negSucc n =>
    have digits : (toString (Int.negSucc n)).toList = '-' :: Nat.toDigits 10 (n + 1) := by
      change ("-" ++ (n + 1).repr).toList = _
      rw [String.toList_append, Nat.toList_repr]
      rfl
    rw [digits]
    exact magnitude_digits true (fun _ => Nat.succ_ne_zero n) h

theorem unit_hexDigit : ∀ n < 32, unit '0' '0' (hexDigit (n / 16)) (hexDigit n) = some n := by
  decide

theorem pieces_quoteChar (c : Char) (cs : List Char) :
    pieces (quoteChar c ++ cs) = (pieces cs).map fun (ps, r) => (.char c :: ps, r) := by
  have pair (p : Option (List Piece × List Char)) : (do
      let (ps, r) ← p
      return (Piece.char c :: ps, r)) = p.map fun (ps, r) => (.char c :: ps, r) := by
    cases p <;> rfl
  unfold quoteChar
  split
  · next h =>
    subst h
    exact pair _
  split
  · next h =>
    subst h
    exact pair _
  split
  · next control =>
    have low : Piece.ofUnit c.toNat = .char c := by
      have notHigh : isHigh c.toNat = false := by simp [isHigh]; omega
      have notLow : isLow c.toNat = false := by simp [isLow]; omega
      simp [Piece.ofUnit, notHigh, notLow]
    rw [← pair, ← low]
    simp [pieces, unit_hexDigit _ control]
  · next slash shown =>
    rw [← pair]
    simp [pieces, slash, shown]

theorem pieces_quoted (cs : List Char) : pieces (cs.flatMap quoteChar ++ '"' :: r) =
    some (cs.map .char, r) := by
  induction cs with
  | nil => rfl
  | cons c cs ih =>
    rw [List.flatMap_cons, List.append_assoc, pieces_quoteChar, ih]
    rfl

theorem joinPieces_map (cs : List Char) : joinPieces (cs.map .char) = some cs := by
  induction cs with
  | nil => rfl
  | cons c cs ih => simp [joinPieces, ih]

theorem toList_quoted (s : String) :
    (quoted s).toList ++ r = '"' :: (s.toList.flatMap quoteChar ++ '"' :: r) := by
  simp [quoted]

theorem string_quoted (s : String) :
    string (s.toList.flatMap quoteChar ++ '"' :: r) = some (.text s, r) := by
  simp [string, pieces_quoted, joinPieces_map]

/-- A value that may be written: no decimal, whose digits may be written in several ways, and
nothing that is no text. -/
inductive Plain : Json → Prop
  | null : Plain .null
  | bool (b : Bool) : Plain (.bool b)
  | integer (i : Int) : Plain (.integer i)
  | text (s : String) : Plain (.text s)
  | array : (∀ x ∈ xs, Plain x) → Plain (.array xs)
  | object : (∀ m ∈ ms, Plain m.2) → Plain (.object ms)

theorem skipSpace_cons {c : Char} (h : isSpace c = false) : skipSpace (c :: r) = c :: r := by
  simp [skipSpace, h]

theorem integer_head (i : Int) :
    ∃ c cs, (toString i).toList = c :: cs ∧ (c = '-' ∨ c.isDigit = true) := by
  cases i with
  | ofNat n =>
    obtain ⟨c, cs, h, digit⟩ := toDigits_cons n
    exact ⟨c, cs, Nat.toList_repr.trans h, .inr digit⟩
  | negSucc n => exact ⟨'-', _, String.toList_append, .inl rfl⟩

theorem value_number {c : Char} (h : c = '-' ∨ c.isDigit = true) (n : Nat) (cs : List Char) :
    value (n + 1) (c :: cs) = number (c :: cs) := by
  rcases h with rfl | digit
  · rfl
  · rw [value]
    all_goals intro r heq
    all_goals exact ne_of_isDigit digit (by decide) (List.cons.inj heq).1

theorem toList_array (xs : List Json) :
    (render (.array xs)).toList ++ r = '[' :: ((renderItems xs).toList ++ ']' :: r) := by
  simp [render]

theorem toList_object (ms : List (String × Json)) :
    (render (.object ms)).toList ++ r =
      '\x7b' :: ((renderMembers ms).toList ++ '\x7d' :: r) := by
  simp [render]

theorem Plain.head {j : Json} (h : j.Plain) :
    ∃ c cs, j.render.toList ++ r = c :: cs ∧ isSpace c = false ∧ c ≠ ']' := by
  cases h with
  | null => exact ⟨'n', _, rfl, by decide, by decide⟩
  | bool b => cases b <;> exact ⟨_, _, rfl, by decide, by decide⟩
  | integer i =>
    obtain ⟨c, cs, hi, hc⟩ := integer_head i
    refine ⟨c, cs ++ r, by rw [render, hi]; rfl, ?_⟩
    rcases hc with rfl | digit
    · decide
    · simp (disch := decide) [isSpace, ne_of_isDigit digit]
  | text s => exact ⟨'"', _, toList_quoted s, by decide, by decide⟩
  | array _ => exact ⟨'[', _, toList_array _, by decide, by decide⟩
  | object _ => exact ⟨'\x7b', _, toList_object _, by decide, by decide⟩

def ReadBack (j : Json) : Prop := ∀ n r, j.render.toList.length ≤ n → Stops r →
  value n (j.render.toList ++ r) = some (j, r)

theorem ReadBack.skipped {j : Json} (h : j.ReadBack) (plain : j.Plain) {n : Nat}
    (room : j.render.toList.length ≤ n) (stops : Stops r) :
    value n (skipSpace (j.render.toList ++ r)) = some (j, r) := by
  obtain ⟨c, cs, hj, hc, -⟩ := plain.head (r := r)
  rw [hj, skipSpace_cons hc, ← hj]
  exact h n r room stops

theorem toList_items (x y : Json) (xs : List Json) : (renderItems (x :: y :: xs)).toList ++ r =
    x.render.toList ++ ',' :: ((renderItems (y :: xs)).toList ++ r) := by
  simp [renderItems]

theorem items_render {xs : List Json} (plain : ∀ x ∈ xs, x.Plain) (read : ∀ x ∈ xs, x.ReadBack)
    (ne : xs ≠ []) {n : Nat} (room : (renderItems xs).toList.length < n) :
    items n ((renderItems xs).toList ++ ']' :: r) = some (xs, r) := by
  induction xs generalizing n with
  | nil => exact absurd rfl ne
  | cons x xs ih =>
    obtain ⟨n, rfl⟩ := Nat.exists_eq_succ_of_ne_zero (Nat.ne_zero_of_lt room)
    obtain ⟨first, others⟩ := List.forall_mem_cons.1 plain
    obtain ⟨readFirst, readOthers⟩ := List.forall_mem_cons.1 read
    cases xs with
    | nil =>
      have found := readFirst.skipped first (r := ']' :: r) (Nat.le_of_lt_succ room)
        (.cons (by decide))
      simp [items, renderItems, found, skipSpace_cons (c := ']') (by decide)]
    | cons y xs =>
      have length := congrArg List.length (toList_items (r := []) x y xs)
      simp only [List.length_append, List.length_cons, List.length_nil] at length
      have found := readFirst.skipped first (n := n)
        (r := ',' :: ((renderItems (y :: xs)).toList ++ ']' :: r)) (by omega)
        (.cons (by decide))
      have more := ih others readOthers (List.cons_ne_nil _ _) (n := n) (by omega)
      rw [toList_items]
      simp [items, found, skipSpace_cons (c := ',') (by decide), more]

theorem toList_member (k : String) (v : Json) : (renderMembers [(k, v)]).toList ++ r =
    (quoted k).toList ++ ':' :: (v.render.toList ++ r) := by
  simp [renderMembers]

theorem toList_members (k : String) (v : Json) (m : String × Json) (ms : List (String × Json)) :
    (renderMembers ((k, v) :: m :: ms)).toList ++ r =
      (quoted k).toList ++ ':' :: (v.render.toList ++
        ',' :: ((renderMembers (m :: ms)).toList ++ r)) := by
  simp [renderMembers]

theorem members_render {ms : List (String × Json)} (plain : ∀ m ∈ ms, m.2.Plain)
    (read : ∀ m ∈ ms, m.2.ReadBack) (ne : ms ≠ []) {n : Nat}
    (room : (renderMembers ms).toList.length < n) :
    members n ((renderMembers ms).toList ++ '\x7d' :: r) =
      some (ms.map fun m => (some m.1, m.2), r) := by
  induction ms generalizing n with
  | nil => exact absurd rfl ne
  | cons m ms ih =>
    obtain ⟨n, rfl⟩ := Nat.exists_eq_succ_of_ne_zero (Nat.ne_zero_of_lt room)
    obtain ⟨k, v⟩ := m
    obtain ⟨(first : v.Plain), others⟩ := List.forall_mem_cons.1 plain
    obtain ⟨(readFirst : v.ReadBack), readOthers⟩ := List.forall_mem_cons.1 read
    cases ms with
    | nil =>
      have length := congrArg List.length (toList_member (r := []) k v)
      simp only [List.length_append, List.length_cons, List.length_nil] at length
      have found := readFirst.skipped first (n := n) (r := '\x7d' :: r) (by omega)
        (.cons (by decide))
      rw [toList_member, toList_quoted]
      simp [members, skipSpace_cons (c := '"') (by decide), string_quoted,
        skipSpace_cons (c := ':') (by decide), found, skipSpace_cons (c := '\x7d') (by decide)]
    | cons m ms =>
      have length := congrArg List.length (toList_members (r := []) k v m ms)
      simp only [List.length_append, List.length_cons, List.length_nil] at length
      have found := readFirst.skipped first (n := n)
        (r := ',' :: ((renderMembers (m :: ms)).toList ++ '\x7d' :: r)) (by omega)
        (.cons (by decide))
      have more := ih others readOthers (List.cons_ne_nil _ _) (n := n) (by omega)
      rw [toList_members, toList_quoted]
      simp [members, skipSpace_cons (c := '"') (by decide), string_quoted,
        skipSpace_cons (c := ':') (by decide), found, skipSpace_cons (c := ',') (by decide), more]

theorem objectOf_named (ms : List (String × Json)) :
    objectOf (ms.map fun m => (some m.1, m.2)) = .object ms := by
  have named : (ms.map fun m => (some m.1, m.2)).mapM (fun m : Option String × Json =>
      m.1.map (·, m.2)) = some ms := by
    induction ms with
    | nil => rfl
    | cons m ms ih => simp [ih]
  rw [objectOf, named]

theorem value_array {xs : List Json} (plain : ∀ x ∈ xs, x.Plain) (read : ∀ x ∈ xs, x.ReadBack)
    {n : Nat} (room : (renderItems xs).toList.length < n) :
    value (n + 1) ('[' :: ((renderItems xs).toList ++ ']' :: r)) = some (.array xs, r) := by
  cases xs with
  | nil => rfl
  | cons x xs =>
    have found := items_render (r := r) plain read (List.cons_ne_nil _ _) room
    have begins : ∃ more, (renderItems (x :: xs)).toList ++ ']' :: r = x.render.toList ++ more := by
      cases xs with
      | nil => exact ⟨_, rfl⟩
      | cons y xs => exact ⟨_, toList_items x y xs⟩
    obtain ⟨more, begins⟩ := begins
    obtain ⟨c, cs, hx, hc, hne⟩ := (plain x List.mem_cons_self).head (r := more)
    rw [begins, hx] at found ⊢
    simp [value, skipSpace_cons hc, hne, found]

theorem value_object {ms : List (String × Json)} (plain : ∀ m ∈ ms, m.2.Plain)
    (read : ∀ m ∈ ms, m.2.ReadBack) {n : Nat} (room : (renderMembers ms).toList.length < n) :
    value (n + 1) ('\x7b' :: ((renderMembers ms).toList ++ '\x7d' :: r)) =
      some (.object ms, r) := by
  cases ms with
  | nil => rfl
  | cons m ms =>
    have found := members_render (r := r) plain read (List.cons_ne_nil _ _) room
    have begins : ∃ more, (renderMembers (m :: ms)).toList ++ '\x7d' :: r = '"' :: more := by
      obtain ⟨k, v⟩ := m
      cases ms with
      | nil => exact ⟨_, (toList_member k v).trans (toList_quoted k)⟩
      | cons m ms => exact ⟨_, (toList_members k v m ms).trans (toList_quoted k)⟩
    obtain ⟨more, begins⟩ := begins
    rw [begins] at found ⊢
    simpa [value, skipSpace_cons (c := '"') (by decide), found] using objectOf_named (m :: ms)

theorem ReadBack.of_succ {j : Json} (plain : j.Plain) (read : ∀ n r,
    j.render.toList.length ≤ n + 1 → Stops r →
    value (n + 1) (j.render.toList ++ r) = some (j, r)) : j.ReadBack := by
  intro n r room
  obtain ⟨c, cs, hj, -, -⟩ := plain.head (r := [])
  rw [List.append_nil] at hj
  obtain ⟨n, rfl⟩ := Nat.exists_eq_succ_of_ne_zero (n := n) (by rintro rfl; simp [hj] at room)
  exact read n r room

theorem Plain.readBack {j : Json} (h : j.Plain) : j.ReadBack := by
  induction h with
  | null => exact ReadBack.of_succ .null fun n r _ _ => rfl
  | bool b => exact ReadBack.of_succ (.bool b) fun n r _ _ => by cases b <;> rfl
  | integer i =>
    refine ReadBack.of_succ (.integer i) fun n r _ stops => ?_
    obtain ⟨c, cs, hi, hc⟩ := integer_head i
    have read := number_integer i stops
    rw [hi, List.cons_append] at read
    rw [render, hi, List.cons_append, value_number hc, read]
  | text s =>
    refine ReadBack.of_succ (.text s) fun n r _ _ => ?_
    rw [render, toList_quoted]
    exact string_quoted s
  | @array xs plain ih =>
    refine ReadBack.of_succ (.array plain) fun n r room _ => ?_
    have length := congrArg List.length (toList_array (r := []) xs)
    simp only [List.length_append, List.length_cons, List.length_nil] at length
    rw [toList_array]
    exact value_array plain ih (by omega)
  | @object ms plain ih =>
    refine ReadBack.of_succ (.object plain) fun n r room _ => ?_
    have length := congrArg List.length (toList_object (r := []) ms)
    simp only [List.length_append, List.length_cons, List.length_nil] at length
    rw [toList_object]
    exact value_object plain ih (by omega)

theorem readHead?_render {j : Json} (h : j.Plain) : readHead? j.render = some (j, []) := by
  have read := h.readBack.skipped h (n := j.render.toList.length + 1) (Nat.le_succ _) Stops.nil
  rwa [List.append_nil] at read

theorem read?_render {j : Json} (h : j.Plain) : read? j.render = some j := by
  rw [read?, readHead?_render h]
  rfl

end Spellcraft.Json
