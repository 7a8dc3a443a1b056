import Mathlib.Data.List.Basic
import Spellcraft.Proofs.Maze.Walk

namespace Spellcraft

namespace Position

def Fits (p : Position) : Prop :=
  (least ≤ p.x ∧ p.x ≤ greatest) ∧ least ≤ p.y ∧ p.y ≤ greatest

instance (p : Position) : Decidable p.Fits := inferInstanceAs (Decidable ((_ ∧ _) ∧ _ ∧ _))

/-- Earlier on the floor, read row by row. -/
def Before (p q : Position) : Prop := p.y < q.y ∨ p.y = q.y ∧ p.x < q.x

theorem Before.ne {p q : Position} (h : p.Before q) : p ≠ q := by
  rintro rfl
  rcases h with h | ⟨-, h⟩ <;> exact Int.lt_irrefl _ h

def word (n : Nat) : Int := Int.bmod n 4294967296

theorem word_eq {n : Nat} (h : n ≤ 2147483647) : word n = n :=
  Int.bmod_eq_of_le_mul_two (by omega) (by omega)

end Position

def chunks (n : Nat) (as : List α) : List (List α) :=
  if n = 0 ∨ as = [] then [] else as.take n :: chunks n (as.drop n)
termination_by as.length
decreasing_by
  rename_i h
  rw [not_or] at h
  have := List.length_pos_iff.2 h.2
  rw [List.length_drop]
  omega

theorem chunks_flatten {n : Nat} (hn : 0 < n) {rows : List (List α)}
    (h : ∀ row ∈ rows, row.length = n) : chunks n rows.flatten = rows := by
  induction rows with
  | nil => rw [List.flatten_nil, chunks, if_pos (.inr rfl)]
  | cons row rest ih =>
    obtain ⟨hrow, hrest⟩ := List.forall_mem_cons.1 h
    have nonempty : ¬(n = 0 ∨ row ++ rest.flatten = []) := by
      rw [List.append_eq_nil_iff]
      rintro (rfl | ⟨rfl, -⟩)
      · exact Nat.lt_irrefl 0 hn
      · exact Nat.ne_of_lt hn hrow
    rw [List.flatten_cons, chunks, if_neg nonempty, ← hrow, List.take_left, List.drop_left, hrow,
      ih hrest]

theorem getElem?_flatten {n x : Nat} (hx : x < n) {rows : List (List α)}
    (h : ∀ row ∈ rows, row.length = n) (y : Nat) :
    rows.flatten[y * n + x]? = rows[y]?.bind (·[x]?) := by
  induction rows generalizing y with
  | nil => rfl
  | cons row rest ih =>
    obtain ⟨hrow, hrest⟩ := List.forall_mem_cons.1 h
    cases y with
    | zero =>
      rw [List.flatten_cons, Nat.zero_mul, Nat.zero_add, List.getElem?_append_left (by omega)]
      rfl
    | succ y =>
      have behind : (y + 1) * n + x = row.length + (y * n + x) := by
        rw [Nat.succ_mul, hrow]
        omega
      rw [List.flatten_cons, behind, List.getElem?_append_right (Nat.le_add_right ..),
        Nat.add_sub_cancel_left, ih hrest]
      rfl

namespace Maze

def tiles (m : Maze) : List Tile := m.rows.flatten

def Inside (m : Maze) (p : Position) : Prop :=
  (0 ≤ p.x ∧ p.x < m.width) ∧ 0 ≤ p.y ∧ p.y < m.height

instance (m : Maze) (p : Position) : Decidable (m.Inside p) :=
  inferInstanceAs (Decidable ((_ ∧ _) ∧ _ ∧ _))

def index? (m : Maze) (p : Position) : Option Nat :=
  if m.Inside p then some (p.y.toNat * m.width + p.x.toNat) else none

def place (m : Maze) (i : Nat) : Position :=
  ⟨Position.word (i % m.width), Position.word (i / m.width)⟩

variable (m : Maze)

theorem length_tiles : m.tiles.length = m.height * m.width := by
  have lengths : m.rows.map List.length = List.replicate m.height m.width :=
    List.eq_replicate_iff.2 ⟨List.length_map .., List.forall_mem_map.2 m.rectangular⟩
  rw [tiles, List.length_flatten, lengths, List.sum_replicate_nat]

theorem chunks_tiles : chunks m.width m.tiles = m.rows :=
  chunks_flatten m.width_pos m.rectangular

theorem index?_eq_some {p : Position} :
    m.index? p = some i ↔ m.Inside p ∧ p.y.toNat * m.width + p.x.toNat = i := by
  unfold index?
  split <;> simp [*]

theorem lt_length_of_index? {p : Position} (h : m.index? p = some i) : i < m.tiles.length := by
  obtain ⟨inside, rfl⟩ := m.index?_eq_some.1 h
  unfold Inside at inside
  have whole : p.y.toNat * m.width + m.width ≤ m.height * m.width := by
    rw [← Nat.succ_mul]
    exact Nat.mul_le_mul_right _ (by omega)
  rw [length_tiles]
  omega

theorem tile?_eq (p : Position) : m.tile? p = (m.index? p).bind (m.tiles[·]?) := by
  unfold tile? index?
  by_cases inside : m.Inside p
  · have column : p.x.toNat < m.width := by unfold Inside at inside; omega
    rw [if_pos inside, if_pos ⟨inside.1.1, inside.2.1⟩, Option.bind_some]
    exact (getElem?_flatten column m.rectangular _).symm
  · rw [if_neg inside, Option.bind_none]
    split
    · next signs =>
      -- off the floor there is no such row, or the row is too short
      cases hrow : m.rows[p.y.toNat]? with
      | none => rfl
      | some row =>
        have length := m.rectangular row (List.mem_of_getElem? hrow)
        have height : p.y.toNat < m.height := (List.getElem?_eq_some_iff.1 hrow).1
        refine List.getElem?_eq_none ?_
        unfold Inside at inside
        omega
    · rfl

theorem isSome_tile? (p : Position) : (m.tile? p).isSome = true ↔ m.Inside p := by
  rw [tile?_eq]
  constructor
  · intro h
    obtain ⟨t, ht⟩ := Option.isSome_iff_exists.1 h
    obtain ⟨i, hi, -⟩ := Option.bind_eq_some_iff.1 ht
    exact (m.index?_eq_some.1 hi).1
  · intro inside
    have hi := m.index?_eq_some.2 ⟨inside, rfl⟩
    simp [hi, m.lt_length_of_index? hi]

def spot (n i : Nat) : Position := ⟨(i % n : Nat), (i / n : Nat)⟩

theorem flatMap_zipIdx {n : Nat} (hn : 0 < n) (kind : Tile) {rows : List (List Tile)}
    (h : ∀ row ∈ rows, row.length = n) (y : Nat) :
    (rows.zipIdx y).flatMap (fun (row, y) => row.zipIdx.filterMap fun (t, x) =>
      if t = kind then some (⟨x, y⟩ : Position) else none) =
    (rows.flatten.zipIdx (y * n)).filterMap fun (t, i) =>
      if t = kind then some (spot n i) else none := by
  induction rows generalizing y with
  | nil => rfl
  | cons row rest ih =>
    obtain ⟨hrow, hrest⟩ := List.forall_mem_cons.1 h
    have next : y * n + row.length = (y + 1) * n := by rw [hrow, Nat.succ_mul]
    rw [List.zipIdx_cons, List.flatMap_cons, ih hrest, List.flatten_cons, List.zipIdx_append, next,
      List.filterMap_append, List.zipIdx_eq_map_add (i := y * n), List.filterMap_map]
    congr 1
    refine List.filterMap_congr fun ⟨t, x⟩ hx => ?_
    have column : x < n := hrow ▸ (List.mem_zipIdx' hx).1
    have hdiv : (y * n + x) / n = y := by
      rw [Nat.add_comm, Nat.add_mul_div_right _ _ hn, Nat.div_eq_of_lt column, Nat.zero_add]
    simp only [Function.comp, spot, Nat.mul_add_mod_of_lt column, hdiv]

theorem positionsOf_line (kind : Tile) :
    m.positionsOf kind = (m.tiles.zipIdx.filter (·.1 = kind)).map (spot m.width ·.2) := by
  have line := flatMap_zipIdx m.width_pos kind m.rectangular 0
  rw [Nat.zero_mul] at line
  rw [positionsOf, line, ← List.filterMap_eq_map, List.filterMap_filter]
  simp [tiles]

theorem place_eq (hw : m.width ≤ 2147483647) (hh : m.height ≤ 2147483647) {i : Nat}
    (hi : i < m.tiles.length) : m.place i = spot m.width i := by
  rw [length_tiles, Nat.mul_comm] at hi
  have column : i % m.width < m.width := Nat.mod_lt i m.width_pos
  have row : i / m.width < m.height := Nat.div_lt_of_lt_mul hi
  rw [place, Position.word_eq (by omega), Position.word_eq (by omega), spot]

theorem positionsOf_eq (hw : m.width ≤ 2147483647) (hh : m.height ≤ 2147483647) (kind : Tile) :
    m.positionsOf kind = (m.tiles.zipIdx.filter (·.1 = kind)).map (m.place ·.2) := by
  rw [positionsOf_line]
  refine List.map_congr_left fun ⟨t, i⟩ hi => (m.place_eq hw hh ?_).symm
  exact (List.mem_zipIdx' (List.mem_filter.1 hi).1).1

theorem pairwise_zipIdx (as : List α) : as.zipIdx.Pairwise fun a b => a.2 < b.2 := by
  rw [← List.pairwise_map, List.zipIdx_map_snd]
  exact List.pairwise_lt_range'

theorem before_spot (n : Nat) {i j : Nat} (h : i < j) : (spot n i).Before (spot n j) := by
  have rows : i / n ≤ j / n := Nat.div_le_div_right (Nat.le_of_lt h)
  have hi := Nat.div_add_mod i n
  have hj := Nat.div_add_mod j n
  rcases Nat.lt_or_eq_of_le rows with rows | rows
  · exact .inl (Int.ofNat_lt.2 rows)
  · refine .inr ⟨congrArg Nat.cast rows, Int.ofNat_lt.2 ?_⟩
    rw [rows] at hi
    omega

theorem pairwise_positionsOf (kind : Tile) : (m.positionsOf kind).Pairwise Position.Before := by
  rw [positionsOf_line, List.pairwise_map]
  exact ((pairwise_zipIdx m.tiles).filter _).imp (before_spot m.width)

theorem nodup_positionsOf (kind : Tile) : (m.positionsOf kind).Nodup :=
  (m.pairwise_positionsOf kind).imp Position.Before.ne

end Maze

end Spellcraft
