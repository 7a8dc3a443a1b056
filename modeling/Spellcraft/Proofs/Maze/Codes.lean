import Spellcraft.Proofs.Maze.Layout

namespace Spellcraft

/-- Why rows of such lengths are no maze: there is nothing in the first, or one is not as long. -/
inductive Misshapen (lengths : List Nat) : MazeError → Prop
  | empty : lengths.head?.getD 0 = 0 → Misshapen lengths .empty
  | ragged : lengths.head? = some width → width ≠ 0 → lengths[n]? = some found → found ≠ width →
    (∀ k ∈ lengths.take n, k = width) → Misshapen lengths (.ragged n found width)

/-- Why rows of codes are no maze. The first unknown code in reading order comes before all else. -/
inductive Refused (rows : List (List Nat)) : MazeError → Prop
  | unknown : rows.flatten.find? (4 < ·) = some c → Refused rows (.unknownTile c)
  | shape : (∀ row ∈ rows, ∀ c ∈ row, c ≤ 4) → Misshapen (rows.map List.length) e → Refused rows e

structure Readable (rows : List (List Nat)) : Prop where
  known : ∀ row ∈ rows, ∀ c ∈ row, c ≤ 4
  nonempty : rows ≠ []
  rectangle : ∀ first, rows.head? = some first →
    first ≠ [] ∧ ∀ row ∈ rows, row.length = first.length

namespace Tile

theorem code_le (t : Tile) : t.code ≤ 4 := by cases t <;> decide

theorem ofCode?_eq_some {n : Nat} {t : Tile} : ofCode? n = some t ↔ t.code = n := by
  constructor
  · intro h
    simpa using List.find?_some h
  · rintro rfl
    exact ofCode?_code t

theorem ofCode?_eq_none {n : Nat} : ofCode? n = none ↔ 4 < n := by
  constructor
  · intro h
    have known : ∀ n < 5, ofCode? n ≠ none := by decide
    exact Nat.lt_of_not_le fun hn => known n (by omega) h
  · intro hn
    rw [Option.eq_none_iff_forall_ne_some]
    intro t ht
    have := t.code_le
    rw [ofCode?_eq_some.1 ht] at this
    omega

end Tile

namespace Maze

variable {width k n found : Nat}

theorem firstRagged_eq_some {rows : List (List Tile)} :
    firstRagged width k rows = some (n, found) ↔ ∃ i, (rows.map List.length)[i]? = some found ∧
      n = k + i ∧ found ≠ width ∧ ∀ l ∈ (rows.map List.length).take i, l = width := by
  induction rows generalizing k with
  | nil => simp [firstRagged]
  | cons first rest ih =>
    rw [List.map_cons]
    by_cases same : first.length = width
    · rw [firstRagged, if_pos same, ih]
      constructor
      · rintro ⟨i, hrow, rfl, other, before⟩
        exact ⟨i + 1, hrow, by omega, other, List.forall_mem_cons.2 ⟨same, before⟩⟩
      · rintro ⟨i, hrow, hn, other, before⟩
        cases i with
        | zero =>
          cases hrow
          exact absurd same other
        | succ i => exact ⟨i, hrow, by omega, other, (List.forall_mem_cons.1 before).2⟩
    · rw [firstRagged, if_neg same, Option.some.injEq, Prod.mk.injEq]
      constructor
      · rintro ⟨rfl, rfl⟩
        exact ⟨0, rfl, rfl, same, List.forall_mem_nil _⟩
      · rintro ⟨i, hrow, hn, -, before⟩
        cases i with
        | zero =>
          cases hrow
          exact ⟨hn.symm, rfl⟩
        | succ i => exact absurd (before first.length List.mem_cons_self) same

theorem firstRagged_eq_none {rows : List (List Tile)} (h : ∀ row ∈ rows, row.length = width) :
    firstRagged width k rows = none := by
  rw [Option.eq_none_iff_forall_ne_some]
  rintro ⟨n, found⟩ hf
  obtain ⟨i, hrow, -, other, -⟩ := firstRagged_eq_some.1 hf
  obtain ⟨row, mem, rfl⟩ := List.mem_map.1 (List.mem_of_getElem? hrow)
  exact other (h row mem)

theorem width_eq {m : Maze} (h : m.rows = first :: rest) : m.width = first.length :=
  (m.rectangular first (h ▸ List.mem_cons_self)).symm

theorem ofTiles_eq_ok {rows : List (List Tile)} {m : Maze} :
    ofTiles rows = .ok m ↔ m.rows = rows := by
  fun_cases ofTiles rows with
  | case1 => exact ⟨nofun, fun h => absurd h m.rows_ne_nil⟩
  | case2 rest =>
    refine ⟨nofun, fun h => absurd m.width_pos ?_⟩
    rw [width_eq h]
    exact Nat.lt_irrefl 0
  | case3 t row rest n found h =>
    refine ⟨nofun, fun hm => ?_⟩
    have rest_eq : ∀ r ∈ rest, r.length = (t :: row).length := fun r hr =>
      (m.rectangular r (hm ▸ List.mem_cons_of_mem _ hr)).trans (width_eq hm)
    rw [firstRagged_eq_none rest_eq] at h
    cases h
  | case4 t row rest h =>
    rw [Except.ok.injEq]
    constructor
    · rintro rfl
      rfl
    · intro hm
      have hw := width_eq hm
      cases m
      subst hm hw
      rfl

theorem firstRagged_iff (row : List Tile) (rest : List (List Tile)) (hrow : row ≠ []) :
    firstRagged row.length 1 rest = some (n, found) ↔
      Misshapen ((row :: rest).map List.length) (.ragged n found row.length) := by
  rw [firstRagged_eq_some]
  constructor
  · rintro ⟨i, at_, rfl, other, before⟩
    rw [Nat.add_comm]
    exact .ragged rfl (by simpa using hrow) at_ other (List.forall_mem_cons.2 ⟨rfl, before⟩)
  · intro h
    cases h with
    | ragged head _ at_ other before =>
      cases n with
      | zero => exact absurd (Option.some.inj at_).symm other
      | succ i => exact ⟨i, at_, Nat.add_comm .., other, (List.forall_mem_cons.1 before).2⟩

theorem Misshapen.eq_ragged {row : List Tile} {rest : List (List Tile)} (hrow : row ≠ [])
    (h : Misshapen ((row :: rest).map List.length) e) :
    ∃ n found, e = .ragged n found row.length := by
  cases h with
  | empty head => exact absurd (List.length_eq_zero_iff.1 head) hrow
  | ragged head =>
    cases head
    exact ⟨_, _, rfl⟩

theorem ofTiles_eq_error {rows : List (List Tile)} {e : MazeError} :
    ofTiles rows = .error e ↔ Misshapen (rows.map List.length) e := by
  fun_cases ofTiles rows with
  | case1 =>
    constructor
    · rintro ⟨⟩
      exact .empty rfl
    · intro h
      cases h with
      | empty => rfl
      | ragged head => cases head
  | case2 rest =>
    constructor
    · rintro ⟨⟩
      exact .empty rfl
    · intro h
      cases h with
      | empty => rfl
      | ragged head width =>
        cases head
        exact absurd rfl width
  | case3 t row rest n found h =>
    have nonempty := List.cons_ne_nil t row
    constructor
    · rintro ⟨⟩
      exact (firstRagged_iff (t :: row) rest nonempty).1 h
    · intro he
      obtain ⟨n', found', rfl⟩ := Misshapen.eq_ragged nonempty he
      rw [(firstRagged_iff (t :: row) rest nonempty).2 he] at h
      cases h
      rfl
  | case4 t row rest h =>
    have nonempty := List.cons_ne_nil t row
    refine ⟨nofun, fun he => ?_⟩
    obtain ⟨n, found, rfl⟩ := Misshapen.eq_ragged nonempty he
    rw [(firstRagged_iff (t :: row) rest nonempty).2 he] at h
    cases h

theorem tilesOfCodes_eq (row : List Nat) : tilesOfCodes row =
    match row.find? (4 < ·) with
    | some c => .error (.unknownTile c)
    | none => .ok (row.filterMap Tile.ofCode?) := by
  induction row with
  | nil => rfl
  | cons c row ih =>
    rw [tilesOfCodes, List.mapM_cons]
    rw [tilesOfCodes] at ih
    rw [ih, List.find?_cons, List.filterMap_cons]
    cases ht : Tile.ofCode? c with
    | none =>
      rw [decide_eq_true (Tile.ofCode?_eq_none.1 ht)]
      rfl
    | some t =>
      have known : ¬4 < c := fun h => by rw [Tile.ofCode?_eq_none.2 h] at ht; cases ht
      rw [decide_eq_false known]
      cases row.find? (4 < ·) <;> rfl

theorem mapM_tilesOfCodes (rows : List (List Nat)) : rows.mapM tilesOfCodes =
    match rows.flatten.find? (4 < ·) with
    | some c => .error (.unknownTile c)
    | none => .ok (rows.map (·.filterMap Tile.ofCode?)) := by
  induction rows with
  | nil => rfl
  | cons row rows ih =>
    rw [List.mapM_cons, tilesOfCodes_eq, ih, List.flatten_cons, List.find?_append]
    cases row.find? (4 < ·) with
    | some c => rfl
    | none => cases hr : rows.flatten.find? (4 < ·) <;> simp <;> rfl

theorem filterMap_code (ts : List Tile) : (ts.map Tile.code).filterMap Tile.ofCode? = ts := by
  simp [List.filterMap_map]

theorem map_code {row : List Nat} (h : ∀ c ∈ row, c ≤ 4) :
    (row.filterMap Tile.ofCode?).map Tile.code = row := by
  induction row with
  | nil => rfl
  | cons c row ih =>
    obtain ⟨hc, hrow⟩ := List.forall_mem_cons.1 h
    cases ht : Tile.ofCode? c with
    | none =>
      have := Tile.ofCode?_eq_none.1 ht
      omega
    | some t => rw [List.filterMap_cons, ht, List.map_cons, ih hrow, Tile.ofCode?_eq_some.1 ht]

theorem find?_eq_none {rows : List (List Nat)} :
    rows.flatten.find? (4 < ·) = none ↔ ∀ row ∈ rows, ∀ c ∈ row, c ≤ 4 := by
  simp [List.find?_eq_none]

def decoded (rows : List (List Nat)) : List (List Tile) := rows.map (·.filterMap Tile.ofCode?)

theorem decoded_codes (m : Maze) : decoded m.codes = m.rows := by
  rw [decoded, codes, List.map_map]
  exact List.map_id'' filterMap_code m.rows

theorem known_codes (m : Maze) : ∀ row ∈ m.codes, ∀ c ∈ row, c ≤ 4 := by
  simp only [codes, List.forall_mem_map]
  exact fun _ _ t _ => t.code_le

section

variable {rows : List (List Nat)} (known : ∀ row ∈ rows, ∀ c ∈ row, c ≤ 4)

include known

theorem codes_decoded : (decoded rows).map (·.map Tile.code) = rows := by
  rw [decoded, List.map_map]
  exact (List.map_congr_left fun row hrow => map_code (known row hrow)).trans (List.map_id rows)

theorem lengths_decoded : (decoded rows).map List.length = rows.map List.length := by
  conv_rhs => rw [← codes_decoded known, List.map_map]
  simp [Function.comp_def]

theorem ofCodes_of_known : ofCodes rows = ofTiles (decoded rows) := by
  rw [ofCodes, mapM_tilesOfCodes, find?_eq_none.2 known]
  rfl

end

theorem ofCodes_of_unknown {rows : List (List Nat)} (h : rows.flatten.find? (4 < ·) = some c) :
    ofCodes rows = .error (.unknownTile c) := by
  rw [ofCodes, mapM_tilesOfCodes, h]
  rfl

theorem ofCodes_eq_ok {rows : List (List Nat)} {m : Maze} :
    ofCodes rows = .ok m ↔ m.codes = rows := by
  constructor
  · intro h
    cases hu : rows.flatten.find? (4 < ·) with
    | some c =>
      rw [ofCodes_of_unknown hu] at h
      cases h
    | none =>
      have known := find?_eq_none.1 hu
      rw [ofCodes_of_known known, ofTiles_eq_ok] at h
      rw [codes, h, codes_decoded known]
  · rintro rfl
    rw [ofCodes_of_known m.known_codes, decoded_codes, ofTiles_eq_ok]

theorem ofCodes_eq_error {rows : List (List Nat)} {e : MazeError} :
    ofCodes rows = .error e ↔ Refused rows e := by
  cases hu : rows.flatten.find? (4 < ·) with
  | some c =>
    rw [ofCodes_of_unknown hu]
    constructor
    · rintro ⟨⟩
      exact .unknown hu
    · intro h
      cases h with
      | unknown hc =>
        cases hu.symm.trans hc
        rfl
      | shape known =>
        rw [find?_eq_none.2 known] at hu
        cases hu
  | none =>
    have known := find?_eq_none.1 hu
    rw [ofCodes_of_known known, ofTiles_eq_error, lengths_decoded known]
    constructor
    · exact .shape known
    · intro h
      cases h with
      | unknown hc => cases hu.symm.trans hc
      | shape _ h => exact h

theorem readable_codes (m : Maze) : Readable m.codes where
  known := m.known_codes
  nonempty h := m.rows_ne_nil (List.map_eq_nil_iff.1 h)
  rectangle first head := by
    have lengths : ∀ row ∈ m.codes, row.length = m.width := by
      simpa [codes] using m.rectangular
    have width := lengths first (List.mem_of_head? head)
    refine ⟨?_, fun row hrow => (lengths row hrow).trans width.symm⟩
    rintro rfl
    exact absurd m.width_pos (width ▸ Nat.lt_irrefl 0)

theorem Refused.not_readable {rows : List (List Nat)} (h : Refused rows e) : ¬Readable rows := by
  rintro ⟨known, nonempty, rectangle⟩
  cases h with
  | unknown hc =>
    rw [find?_eq_none.2 known] at hc
    cases hc
  | shape _ h =>
    cases rows with
    | nil => exact nonempty rfl
    | cons first rest =>
      obtain ⟨filled, same⟩ := rectangle first rfl
      cases h with
      | empty head => exact filled (List.length_eq_zero_iff.1 head)
      | ragged head _ at_ other =>
        cases head
        obtain ⟨row, hrow, rfl⟩ := List.mem_map.1 (List.mem_of_getElem? at_)
        exact other (same row hrow)

/-- Rows of codes make a maze exactly where they have one length, which is not zero, and no unknown
code. The maze is the one that has these codes, and cutting its tiles at every width gives the rows
again. Other rows are refused for the first unknown code in them, or else because there is nothing
in the first row, or else for the first row that is not as long as it. -/
theorem ofCodes_exact (rows : List (List Nat)) :
    ((∃ m, ofCodes rows = .ok m) ↔ Readable rows) ∧
    (∀ m, ofCodes rows = .ok m ↔ m.codes = rows) ∧
    (∀ m : Maze, ofCodes m.codes = .ok m) ∧
    (∀ m, ofCodes rows = .ok m ↔ (chunks m.width m.tiles).map (·.map Tile.code) = rows) ∧
    ∀ e, ofCodes rows = .error e ↔ Refused rows e := by
  refine ⟨⟨?_, fun readable => ?_⟩, fun m => ofCodes_eq_ok, fun m => ofCodes_eq_ok.2 rfl,
    fun m => ?_, fun e => ofCodes_eq_error⟩
  · rintro ⟨m, h⟩
    obtain rfl := ofCodes_eq_ok.1 h
    exact m.readable_codes
  · cases h : ofCodes rows with
    | ok m => exact ⟨m, rfl⟩
    | error e => exact absurd readable (Refused.not_readable (ofCodes_eq_error.1 h))
  · rw [chunks_tiles, ofCodes_eq_ok, codes]

example : ofCodes [[], [2, 9], [7]] = .error (.unknownTile 9) := by decide

end Maze

end Spellcraft
