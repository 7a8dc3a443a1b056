import Spellcraft.Proofs.Maze.Layout

namespace Spellcraft

namespace Position

/-- The place next to `p`, whatever the range of coordinates. -/
def beside (p : Position) (d : Direction) : Position := ⟨p.x + d.dx, p.y + d.dy⟩

def distance (p q : Position) : Nat := (q.x - p.x).natAbs + (q.y - p.y).natAbs

theorem distance_beside (p : Position) (d : Direction) : p.distance (p.beside d) = 1 := by
  cases d <;> simp only [distance, beside, Direction.dx, Direction.dy] <;> omega

theorem neighbour_eq {p : Position} (hp : p.Fits) (d : Direction) :
    p.neighbour d = if (p.beside d).Fits then p.beside d else p := by
  by_cases fits : (p.beside d).Fits
  · rw [if_pos fits]
    simp only [Fits, beside, least, greatest] at fits
    simp only [neighbour, offset, clamp, beside, least, greatest, mk.injEq]
    omega
  · rw [if_neg fits]
    obtain ⟨x, y⟩ := p
    simp only [Fits, beside, least, greatest] at hp fits
    simp only [neighbour, offset, clamp, least, greatest, mk.injEq]
    cases d <;> simp only [Direction.dx, Direction.dy] at fits ⊢ <;> omega

end Position

namespace Maze

variable (m : Maze)

theorem passable_iff_inside (p : Position) :
    m.passable p = true ↔ m.Inside p ∧ m.tile? p ≠ some .wall := by
  rw [← isSome_tile?, passable]
  cases m.tile? p <;> simp

section

variable {m} (hw : m.width ≤ 2147483647) (hh : m.height ≤ 2147483647)

include hw hh

theorem fits_of_inside {p : Position} (h : m.Inside p) : p.Fits := by
  unfold Inside at h
  unfold Position.Fits Position.least Position.greatest
  omega

theorem not_inside_of_edge {p : Position} {d : Direction} (hp : p.Fits)
    (h : ¬(p.beside d).Fits) : ¬m.Inside p := by
  unfold Position.Fits Position.least Position.greatest at hp h
  unfold Inside
  cases d <;> simp only [Position.beside, Direction.dx, Direction.dy] at h <;> omega

theorem step_eq_free {p q : Position} {d : Direction} (hp : p.Fits) :
    m.step p d = .free q ↔ q = p.beside d ∧ m.Inside q ∧ m.tile? q ≠ some .wall := by
  rw [step, Position.neighbour_eq hp]
  by_cases fits : (p.beside d).Fits
  · rw [if_pos fits]
    split
    · next free =>
      have inside := (m.passable_iff_inside _).1 free
      rw [Step.free.injEq, eq_comm]
      exact ⟨fun h => ⟨h, h ▸ inside⟩, And.left⟩
    · next blocked =>
      rw [passable_iff_inside] at blocked
      refine ⟨nofun, ?_⟩
      rintro ⟨rfl, inside⟩
      exact absurd inside blocked
  · have edge := not_inside_of_edge hw hh hp fits
    rw [if_neg fits, if_neg fun free => edge ((m.passable_iff_inside p).1 free).1]
    refine ⟨nofun, ?_⟩
    rintro ⟨rfl, inside, -⟩
    exact absurd (fits_of_inside hw hh inside) fits

theorem eq_of_step_blocked {p q : Position} {d : Direction} (hp : p.Fits)
    (h : m.step p d = .blocked q) :
    (p.beside d).Fits ∧ q = p.beside d ∨ ¬(p.beside d).Fits ∧ q = p ∧ ¬m.Inside p := by
  rw [step, Position.neighbour_eq hp] at h
  by_cases fits : (p.beside d).Fits
  · rw [if_pos fits] at h
    split at h
    · cases h
    · exact .inl ⟨fits, (Step.blocked.inj h).symm⟩
  · have edge := not_inside_of_edge hw hh hp fits
    rw [if_neg fits, if_neg fun free => edge ((m.passable_iff_inside p).1 free).1] at h
    exact .inr ⟨fits, (Step.blocked.inj h).symm, edge⟩

end

theorem head?_eq_some_iff {R : α → α → Prop} (asymm : ∀ a b, R a b → ¬R b a) {l : List α}
    (h : l.Pairwise R) : l.head? = some a ↔ a ∈ l ∧ ∀ b ∈ l, a = b ∨ R a b := by
  cases h with
  | nil => simp
  | @cons b rest first _ =>
    rw [List.head?_cons, Option.some.injEq]
    constructor
    · rintro rfl
      exact ⟨List.mem_cons_self, List.forall_mem_cons.2 ⟨.inl rfl, fun c hc => .inr (first c hc)⟩⟩
    · rintro ⟨ha, least⟩
      rcases List.mem_cons.1 ha with rfl | ha
      · rfl
      · rcases least b List.mem_cons_self with rfl | hab
        · rfl
        · exact absurd hab (asymm _ _ (first a ha))

theorem start?_eq_some (p : Position) : m.start? = some p ↔
    m.tile? p = some .start ∧ ∀ q, m.tile? q = some .start → p = q ∨ p.Before q := by
  have asymm (p q : Position) (h : p.Before q) : ¬q.Before p := by
    unfold Position.Before at *
    omega
  rw [start?, head?_eq_some_iff asymm (m.pairwise_positionsOf .start)]
  simp only [mem_positionsOf]

theorem mem_freshTorches (t : Torch) :
    t ∈ m.freshTorches ↔ m.tile? t.position = some .torch ∧ t.lit = false := by
  obtain ⟨p, lit⟩ := t
  simp only [freshTorches, List.mem_map, mem_positionsOf, Torch.mk.injEq]
  constructor
  · rintro ⟨q, hq, rfl, rfl⟩
    exact ⟨hq, rfl⟩
  · rintro ⟨hp, rfl⟩
    exact ⟨p, hp, rfl, rfl⟩

theorem nodup_freshTorches : (m.freshTorches.map Torch.position).Nodup := by
  rw [freshTorches, List.map_map]
  simpa [Function.comp_def] using m.nodup_positionsOf .torch

theorem start?_eq_none : m.start? = none ↔ ∀ p, m.tile? p ≠ some .start := by
  rw [start?, List.head?_eq_none_iff, List.eq_nil_iff_forall_not_mem]
  simp only [mem_positionsOf, ne_eq]

/-- On a floor whose sides have 32 bits a step from any place is free where the true neighbour is a
tile other than a wall, and then it leads there; a blocked one names the true neighbour, or at the
edge of the range the place it was tried from, which is off the floor. A tile is found behind the
rows and columns before it, and division leads back, so that the tiles of every kind are listed each
once and row by row; the start is the first of its kind, and there is one dark torch for each of
theirs. -/
theorem geometry_exact (hw : m.width ≤ 2147483647) (hh : m.height ≤ 2147483647) :
    (∀ (p : Position) (d : Direction), p.Fits →
      (∀ q, m.step p d = .free q ↔ q = p.beside d ∧ m.Inside q ∧ m.tile? q ≠ some .wall) ∧
      (∀ q, m.step p d = .free q → p.distance q = 1) ∧
      ∀ q, m.step p d = .blocked q →
        (p.beside d).Fits ∧ q = p.beside d ∨ ¬(p.beside d).Fits ∧ q = p ∧ ¬m.Inside p) ∧
    (∀ p, ((m.tile? p).isSome = true ↔ m.Inside p) ∧
      m.tile? p = (m.index? p).bind (m.tiles[·]?)) ∧
    (∀ kind,
      (∀ p, p ∈ m.positionsOf kind ↔ m.tile? p = some kind) ∧
      (m.positionsOf kind).Nodup ∧ (m.positionsOf kind).Pairwise Position.Before ∧
      m.positionsOf kind = (m.tiles.zipIdx.filter (·.1 = kind)).map (m.place ·.2)) ∧
    (∀ p, m.start? = some p ↔
      m.tile? p = some .start ∧ ∀ q, m.tile? q = some .start → p = q ∨ p.Before q) ∧
    (m.start? = none ↔ ∀ p, m.tile? p ≠ some .start) ∧
    (m.freshTorches.map Torch.position).Nodup ∧
    ∀ t, t ∈ m.freshTorches ↔ m.tile? t.position = some .torch ∧ t.lit = false := by
  refine ⟨fun p d hp => ⟨fun _ => step_eq_free hw hh hp, fun q free => ?_,
    fun _ => eq_of_step_blocked hw hh hp⟩, fun p => ⟨m.isSome_tile? p, m.tile?_eq p⟩,
    fun kind => ⟨m.mem_positionsOf kind, m.nodup_positionsOf kind, m.pairwise_positionsOf kind,
      m.positionsOf_eq hw hh kind⟩,
    m.start?_eq_some, m.start?_eq_none, m.nodup_freshTorches, m.mem_freshTorches⟩
  rw [((step_eq_free hw hh hp).1 free).1]
  exact p.distance_beside d

def gallery : Maze :=
  ⟨6, [[.torch, .wall, .start, .torch, .wall, .empty],
    [.empty, .torch, .start, .goal, .wall, .empty]], by decide, by decide, by decide⟩

theorem geometry_exact_gallery :
    let edge : Position := ⟨2147483647, -2147483648⟩
    gallery.width ≤ 2147483647 ∧ gallery.height ≤ 2147483647 ∧
      gallery.step ⟨2, 0⟩ .down = .free ⟨2, 1⟩ ∧
      edge.Fits ∧ gallery.step edge .right = .blocked edge ∧ ¬gallery.Inside edge ∧
      gallery.start? = some ⟨2, 0⟩ ∧ Position.Before ⟨2, 0⟩ ⟨2, 1⟩ := by
  intro edge
  have fits : edge.Fits := by decide
  have blocked : gallery.step edge .right = .blocked edge := by decide
  have first : gallery.start? = some ⟨2, 0⟩ := by decide
  obtain ⟨steps, -, -, start, -⟩ := gallery.geometry_exact (by decide) (by decide)
  refine ⟨by decide, by decide, ?_, fits, blocked, ?_, first, ?_⟩
  · exact ((steps ⟨2, 0⟩ .down (by decide)).1 ⟨2, 1⟩).2 ⟨by decide, by decide, by decide⟩
  · rcases (steps edge .right fits).2.2 edge blocked with ⟨inRange, -⟩ | ⟨-, -, outside⟩
    · exact absurd inRange (by decide)
    · exact outside
  · exact (((start _).1 first).2 ⟨2, 1⟩ (by decide)).resolve_left (by decide)

end Maze

end Spellcraft
