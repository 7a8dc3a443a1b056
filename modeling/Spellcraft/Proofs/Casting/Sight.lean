import Spellcraft.Language.ParseStmt
import Spellcraft.Proofs.Casting.Confinement
import Spellcraft.Proofs.Casting.Limits

namespace Spellcraft

def Tile.seen : Tile → Tile
  | .empty | .start | .goal => .empty
  | .wall => .wall
  | .torch => .torch

namespace Maze

/-- Mazes of one size with the same walls and the same torches. -/
structure SameSight (m m' : Maze) : Prop where
  width : m.width = m'.width
  height : m.height = m'.height
  wall (p : Position) : m.tile? p = some .wall ↔ m'.tile? p = some .wall
  torch (p : Position) : m.tile? p = some .torch ↔ m'.tile? p = some .torch

theorem inBounds_iff (m : Maze) (p : Position) :
    m.inBounds p = true ↔ (0 ≤ p.x ∧ 0 ≤ p.y) ∧ p.y.toNat < m.height ∧ p.x.toNat < m.width := by
  rw [inBounds, tile?]
  split
  · rename_i hp
    simp only [hp, and_self, true_and, Option.isSome_bind]
    by_cases hy : p.y.toNat < m.rows.length
    · have hx : m.rows[p.y.toNat].length = m.width := m.rectangular _ (List.getElem_mem hy)
      simp [height, hy, hx]
    · simp [height, hy]
  · rename_i hp
    simp [hp]

theorem passable_iff (m : Maze) (p : Position) :
    m.passable p = true ↔ m.inBounds p = true ∧ m.tile? p ≠ some .wall := by
  rw [passable, inBounds]
  cases m.tile? p with
  | none => simp
  | some t => simp

variable {m m' : Maze}

theorem SameSight.passable_eq (h : m.SameSight m') (p : Position) :
    m.passable p = m'.passable p := by
  rw [Bool.eq_iff_iff, passable_iff, passable_iff, inBounds_iff, inBounds_iff, h.width, h.height]
  exact and_congr_right fun _ => not_congr (h.wall p)

theorem SameSight.step_eq (h : m.SameSight m') (p : Position) (d : Direction) :
    m.step p d = m'.step p d := by
  rw [step, step, h.passable_eq]

theorem SameSight.isTorch_eq (h : m.SameSight m') (p : Position) : m.isTorch p = m'.isTorch p := by
  rw [isTorch, isTorch, decide_eq_decide]
  exact h.torch p

def sight (m : Maze) : List (List Tile) := m.rows.map (·.map Tile.seen)

theorem seen_tile? (m : Maze) (p : Position) :
    (m.tile? p).map Tile.seen =
      if 0 ≤ p.x ∧ 0 ≤ p.y then m.sight[p.y.toNat]?.bind (·[p.x.toNat]?) else none := by
  rw [tile?, sight]
  split
  · simp only [List.getElem?_map]
    cases m.rows[p.y.toNat]? <;> simp
  · rfl

theorem tile?_eq_wall_iff (m : Maze) (p : Position) :
    m.tile? p = some .wall ↔ (m.tile? p).map Tile.seen = some .wall := by
  cases m.tile? p with
  | none => simp
  | some t => cases t <;> decide

theorem tile?_eq_torch_iff (m : Maze) (p : Position) :
    m.tile? p = some .torch ↔ (m.tile? p).map Tile.seen = some .torch := by
  cases m.tile? p with
  | none => simp
  | some t => cases t <;> decide

theorem SameSight.of_sight (width : m.width = m'.width) (h : m.sight = m'.sight) :
    m.SameSight m' where
  width := width
  height := by
    have hlen := congrArg List.length h
    rwa [sight, sight, List.length_map, List.length_map] at hlen
  wall p := by rw [tile?_eq_wall_iff, tile?_eq_wall_iff, seen_tile?, seen_tile?, h]
  torch p := by rw [tile?_eq_torch_iff, tile?_eq_torch_iff, seen_tile?, seen_tile?, h]

def pairing (m m' : Maze) (limits : Limits) : TrailPairing where
  left := limits
  right := limits
  trails t u := t.maze = m ∧ u = { t with maze := m' }
  cuts _ _ := False

variable {limits : Limits}

theorem agree_record (h : (pairing m m' limits).trails t u) (a : Action) :
    (pairing m m' limits).Agree (t.record a) (u.record a) := by
  obtain ⟨maze, position, past, room, ceiling⟩ := t
  obtain ⟨ht, rfl⟩ := h
  cases room with
  | zero => exact .fail
  | succ n => exact .step ⟨ht, rfl⟩

theorem SameSight.lawful (h : m.SameSight m') : (pairing m m' limits).Lawful where
  gas _ := .inl rfl
  calls _ _ := .inl rfl
  text _ _ := .inl rfl
  canMove d := by
    rintro ⟨rfl, rfl⟩
    simp only [Trail.canMove, h.step_eq]
  move d ht := by
    have ha := agree_record ht (.move d)
    obtain ⟨rfl, rfl⟩ := ht
    rw [Trail.move_eq, Trail.move_eq]
    simp only [after, h.step_eq]
    refine ha.map ?_ False.elim
    rintro t _ ⟨ht, rfl⟩
    exact ⟨ht, rfl⟩
  lightTorch {t u} span ht := by
    have ha := agree_record ht (.lightTorch t.position)
    obtain ⟨rfl, rfl⟩ := ht
    simp only [Trail.lightTorch, h.isTorch_eq]
    split
    · exact ha
    · exact .fail
  stays_move _ := False.elim
  stays_lightTorch _ := False.elim

end Maze

namespace Cast

def Untrailed (p : Cast α) : Prop :=
  ∀ c u, p { c with trail := u } = ((p c).1, { (p c).2 with trail := u })

namespace Untrailed

theorem trail_eq {p : Cast α} (h : Untrailed p) (c : Casting) : (p c).2.trail = c.trail :=
  congrArg (·.2.trail) (h c c.trail)

theorem ofScoped {p : Cast α} (h : Scoped p) : Untrailed p := h.apart_trail

theorem tick (limits : Limits) : Untrailed (tick limits) :=
  fun c _ => by rw [tick_apply, tick_apply]

theorem checkDepth (limits : Limits) (span : Span) : Untrailed (checkDepth limits span) := by
  intro c _
  simp only [Cast.checkDepth, get_bind_apply]
  split <;> rfl

theorem binary (limits : Limits) (op : BinaryOp) (a b : Value) (span : Span) :
    Untrailed (binary limits op a b span) := by
  unfold Cast.binary
  split
  · split <;> exact fun _ _ => rfl
  · exact fun _ _ => rfl

end Untrailed

end Cast

structure Trail.Alike (t u : Trail) : Prop where
  past : t.past = u.past
  room : t.room = u.room
  ceiling : t.ceiling = u.ceiling

theorem Trail.Alike.move {t u : Trail} (h : t.Alike u) (d : Direction) :
    (∃ e, t.move d = .error e ∧ u.move d = .error e) ∨
      ∃ t' u', t.move d = .ok t' ∧ u.move d = .ok u' ∧ t'.Alike u' := by
  obtain ⟨past, hr, ceiling⟩ := h
  rw [move_eq, move_eq]
  cases room : t.room with
  | zero =>
    rw [record_of_full room, record_of_full (hr ▸ room), ceiling]
    exact .inl ⟨_, rfl, rfl⟩
  | succ n =>
    rw [record_of_room room, record_of_room (hr ▸ room)]
    exact .inr ⟨_, _, rfl, rfl, congrArg (.move d :: ·) past, rfl, ceiling⟩

namespace Grant

structure Unseeing (g : Grant) : Prop where
  look (d : Direction) : .look d ∉ g.commands
  lightTorch : .lightTorch ∉ g.commands

def pairing (g : Grant) (limits : Limits) : Pairing where
  left := limits
  right := limits
  states c d := c.Confined g ∧ ∃ u, c.trail.Alike u ∧ d = { c with trail := u }
  values v := v.IsGranted g
  cuts _ _ := False

variable {g : Grant} {limits : Limits} {d : Direction}

open Pairing (any)
open Cast (Untrailed)
open Invariant (same_of_related)

theorem related_untrailed {p : Cast α} {P : α → Prop} (hp : Untrailed p)
    (confined : (g.confinement limits).pairing.Related P p p) :
    (g.pairing limits).Related P p p where
  agree := by
    rintro c _ ⟨hc, u, hu, rfl⟩
    obtain ⟨-, hr, hd⟩ := same_of_related confined hc
    rw [hp c u]
    exact .same hr ⟨hd, u, hp.trail_eq c ▸ hu, rfl⟩
  stays := False.elim

theorem related_move (hk : .move d ∈ g.commands) :
    (g.pairing limits).Related any (Cast.follow (·.move d)) (Cast.follow (·.move d)) where
  agree := by
    rintro c _ ⟨hc, u, hu, rfl⟩
    have confined : (g.confinement limits).pairing.Related any (Cast.follow (·.move d))
        (Cast.follow (·.move d)) :=
      related_follow hk fun hm => ⟨_, rfl, Trail.past_of_move hm⟩
    obtain ⟨-, -, hd⟩ := same_of_related confined hc
    rw [Cast.follow_apply] at hd ⊢
    rw [Cast.follow_apply]
    rcases hu.move d with ⟨e, ht, hu'⟩ | ⟨t', u', ht, hu', alike⟩
    · simp only [ht, hu']
      exact .same trivial ⟨hc, u, hu, rfl⟩
    · simp only [ht, hu'] at hd ⊢
      exact .same trivial ⟨hd, u', alike, rfl⟩
  stays := False.elim

theorem pairing_roams : (g.pairing limits).Roams :=
  have hr : (g.confinement limits).Roams := bound.roams
  { current := by rintro c _ ⟨-, u, -, rfl⟩; rfl
    calls := by rintro c _ ⟨-, u, -, rfl⟩; rfl
    block := by rintro c _ ⟨hc, u, hu, rfl⟩; exact ⟨hr.enter _ false hc, u, hu, rfl⟩
    frame := by rintro c _ scope ⟨hc, u, hu, rfl⟩; exact ⟨hr.enter scope true hc, u, hu, rfl⟩
    leave := by
      rintro c _ c' _ ⟨-, u, -, rfl⟩ ⟨hc', u', hu', rfl⟩
      exact ⟨hr.current _ hc', u', hu', rfl⟩
    deeper := by rintro c _ n ⟨hc, u, hu, rfl⟩; exact ⟨hr.calls n hc, u, hu, rfl⟩
    cuts := False.elim }

theorem Unseeing.related_command (hg : g.Unseeing) (k : Command) (hk : k ∈ g.commands)
    (span : Span) :
    (g.pairing limits).Related (·.IsGranted g) (Cast.command k span) (Cast.command k span) := by
  cases k with
  | look d => exact absurd hk (hg.look d)
  | move d => exact .bind (related_move hk) fun _ _ => .pure trivial
  | lightTorch => exact absurd hk hg.lightTorch

theorem Unseeing.lawful (hg : g.Unseeing) : (g.pairing limits).Lawful :=
  have confined : (g.confinement limits).pairing.Lawful := Grant.lawful
  { plain := fun h _ => .of_isPlain h
    tick := related_untrailed (.tick limits) confined.tick
    overrun := .bind (related_untrailed (.tick limits) confined.tick) fun _ _ => .throw trivial
    lookup := fun name span =>
      related_untrailed (.ofScoped (.lookup name span)) (confined.lookup name span)
    assign := fun target hv =>
      related_untrailed (.ofScoped (.assign target _)) (confined.assign target hv)
    declareVar := fun name hv =>
      related_untrailed (.ofScoped (.declareVar name _)) (confined.declareVar name hv)
    declareLocal := fun name constant hv =>
      related_untrailed (.ofScoped (.declareLocal name _ constant))
        (confined.declareLocal name constant hv)
    declareFunction := fun name params body quotes =>
      related_untrailed (.ofScoped (.declareFunction name params body))
        (confined.declareFunction name params quotes)
    binary := fun op span ha hb =>
      related_untrailed (.binary limits op _ _ span) (confined.binary op span ha hb)
    command := fun span hk => hg.related_command _ hk span
    depth := fun span => related_untrailed (.checkDepth limits span) (confined.depth span)
    block := fun h => pairing_roams.inBlock h
    frame := fun _ h => pairing_roams.inFrame _ h
    body := fun _ _ _ => Pairing.quotes_any }

end Grant

namespace Program

theorem perform_eq_of_agree {p : Program} {l : Pairing} (uncut : ∀ e d, ¬l.cuts e d)
    (past : ∀ c d, l.states c d → c.trail.past = d.trail.past)
    (h : l.Agree Pairing.any (Cast.run limits p.body (.start m start g limits))
      (Cast.run limits p.body (.start m' start' g limits))) :
    p.perform m start g limits = p.perform m' start' g limits := by
  simp only [perform]
  generalize Cast.run limits p.body (.start m start g limits) = x,
    Cast.run limits p.body (.start m' start' g limits) = y at h ⊢
  cases h with
  | @same r c d _ hs =>
    cases r with
    | ok _ => exact congrArg (fun past => Except.ok past.reverse) (past c d hs)
    | error e => rfl
  | cut _ _ hc => exact absurd hc (uncut _ _)

/-- A spell sees nothing of its maze but walls and torches; and without a command that looks for
them it does the same in every maze, from every place. -/
theorem cast_sight (p : Program) (g : Grant) (limits : Limits) :
    (∀ {m m' : Maze}, m.SameSight m' → ∀ start,
      p.cast m start g limits = p.cast m' start g limits) ∧
    (g.Unseeing → ∀ m m' start start',
      p.cast m start g limits = p.cast m' start' g limits) := by
  refine ⟨fun {m m'} h start => ?_, fun hg m m' start start' => ?_⟩
  · have ha := TrailPairing.runBody_agree (l := m.pairing m' limits) h.lawful limits.gas p.body
      (c := .start m start g limits) ⟨rfl, rfl⟩
    have performed : p.perform m start g limits = p.perform m' start g limits := by
      refine perform_eq_of_agree (fun _ _ => False.elim) ?_ ha
      rintro c _ ⟨u, ⟨-, rfl⟩, rfl⟩
      rfl
    rw [cast_eq, cast_eq, performed]
  · have ha : (g.pairing limits).Agree Pairing.any
        (Cast.run limits p.body (.start m start g limits))
        (Cast.run limits p.body (.start m' start' g limits)) :=
      (Pairing.related_runBody hg.lawful limits.gas fun _ _ => Pairing.quotes_any).agree
        ⟨.start m start g limits, .start m' start' limits.actions, ⟨rfl, rfl, rfl⟩, rfl⟩
    have performed : p.perform m start g limits = p.perform m' start' g limits := by
      refine perform_eq_of_agree (fun _ _ => False.elim) ?_ ha
      rintro c _ ⟨-, u, hu, rfl⟩
      exact hu.past
    rw [cast_eq, cast_eq, performed]

def groping : Program := (parseText "if (canMoveRight()) moveRight(); lightTorch()").1

def blindly : Program := (parseText "moveRight(); moveRight()").1

end Program

def Maze.hall : Maze := ⟨4, [[.start, .torch, .empty, .goal]], by decide, by decide, by decide⟩

def Maze.mirroredHall : Maze :=
  ⟨4, [[.goal, .torch, .start, .empty]], by decide, by decide, by decide⟩

def Maze.cell : Maze := ⟨4, [[.wall, .start, .wall, .wall]], by decide, by decide, by decide⟩

namespace Program

theorem cast_sight_hall :
    let limits : Limits := ⟨2, 20, 1, 0⟩
    let g : Grant := .restricted ["moveRight", "moveLeft"]
    (Maze.hall.SameSight .mirroredHall ∧ g.Unseeing) ∧
      groping.cast .mirroredHall ⟨0, 0⟩ .standard limits =
        .ok [.move .right, .lightTorch ⟨1, 0⟩] ∧
      blindly.cast .cell ⟨1, 0⟩ g limits = .ok [.move .right, .move .right] := by
  intro limits g
  have same : Maze.hall.SameSight .mirroredHall := .of_sight rfl rfl
  have unseeing : g.Unseeing := ⟨fun d => by cases d <;> decide, by decide⟩
  have seen : groping.cast .hall ⟨0, 0⟩ .standard limits =
      .ok [.move .right, .lightTorch ⟨1, 0⟩] := by decide +kernel
  have done : blindly.cast .hall ⟨0, 0⟩ g limits = .ok [.move .right, .move .right] := by
    decide +kernel
  refine ⟨⟨same, unseeing⟩, ?_, ?_⟩
  · exact ((groping.cast_sight .standard limits).1 same ⟨0, 0⟩).symm.trans seen
  · exact ((blindly.cast_sight g limits).2 unseeing .cell .hall ⟨1, 0⟩ ⟨0, 0⟩).trans done

end Program

end Spellcraft
