import Spellcraft.Proofs.Casting.Trails
import Spellcraft.Spell.Compile

namespace Spellcraft

def TrailPairing.keeping (limits : Limits) (J : Trail → Prop) : TrailPairing where
  left := limits
  right := limits
  trails t u := J t ∧ u = t
  cuts _ _ := False

theorem TrailPairing.lawful_keeping (limits : Limits) {J : Trail → Prop}
    (move : ∀ {t u d}, J t → t.move d = .ok u → J u)
    (lightTorch : ∀ {t u span}, J t → t.lightTorch span = .ok u → J u) :
    (keeping limits J).Lawful where
  gas _ := .inl rfl
  calls _ _ := .inl rfl
  text _ _ := .inl rfl
  canMove d := by
    rintro ⟨-, rfl⟩
    rfl
  move {t u} d := by
    rintro ⟨ht, rfl⟩
    cases hm : u.move d with
    | error e => exact .fail
    | ok v => exact .step ⟨move ht hm, rfl⟩
  lightTorch {t u} span := by
    rintro ⟨ht, rfl⟩
    cases hm : u.lightTorch span with
    | error e => exact .fail
    | ok v => exact .step ⟨lightTorch ht hm, rfl⟩
  stays_move _ := False.elim
  stays_lightTorch _ := False.elim

structure Trail.Rehearsed (maze : Maze) (start : Position) (ceiling : Nat) (t : Trail) : Prop where
  maze_eq : t.maze = maze
  ceiling_eq : t.ceiling = ceiling
  balanced : t.Balanced
  position_eq : t.position = maze.walk start t.actions
  torches : maze.Rehearsed start t.actions

namespace Trail.Rehearsed

theorem start (maze : Maze) (position : Position) (ceiling : Nat) :
    (Trail.start maze position ceiling).Rehearsed maze position ceiling :=
  ⟨rfl, rfl, .start .., rfl, .nil maze position⟩

variable {maze : Maze} {origin : Position} {ceiling : Nat} {t u : Trail}

theorem concat (h : t.Rehearsed maze origin ceiling) (hr : t.room = n + 1)
    (hp : p = maze.after t.position a)
    (ha : ∀ q, a = .lightTorch q → q = t.position ∧ maze.isTorch q = true) :
    Trail.Rehearsed maze origin ceiling
      { t with position := p, past := a :: t.past, room := n } := by
  have hb := h.balanced
  refine ⟨h.maze_eq, h.ceiling_eq, ?_, ?_, ?_⟩
  · simp only [Balanced, List.length_cons] at hb ⊢
    omega
  · simp only [actions, List.reverse_cons, Maze.walk_concat, hp, h.position_eq]
  · simp only [actions, List.reverse_cons]
    refine h.torches.concat fun q hq => ?_
    obtain ⟨rfl, ht⟩ := ha q hq
    exact ⟨h.position_eq, ht⟩

theorem move (h : t.Rehearsed maze origin ceiling) (hm : t.move d = .ok u) :
    u.Rehearsed maze origin ceiling := by
  obtain ⟨n, hr, rfl⟩ := room_of_move hm
  exact h.concat hr (by rw [h.maze_eq]) (by simp)

theorem lightTorch (h : t.Rehearsed maze origin ceiling) (hm : t.lightTorch span = .ok u) :
    u.Rehearsed maze origin ceiling := by
  obtain ⟨ht, n, hr, rfl⟩ := room_of_lightTorch hm
  rw [h.maze_eq] at ht
  exact h.concat hr rfl (by rintro q ⟨rfl⟩; exact ⟨rfl, ht⟩)

end Trail.Rehearsed

theorem Cast.rehearsed_of_run (limits : Limits) (body : List Stmt) (maze : Maze) (start : Position)
    (grant : Grant) :
    (run limits body (.start maze start grant limits)).2.trail.Rehearsed maze start
      limits.actions := by
  have hl : (TrailPairing.keeping limits (·.Rehearsed maze start limits.actions)).Lawful :=
    TrailPairing.lawful_keeping limits .move .lightTorch
  have ha : (TrailPairing.keeping limits _).pairing.Agree Pairing.any
      (run limits body (.start maze start grant limits))
      (run limits body (.start maze start grant limits)) :=
    TrailPairing.runBody_agree hl limits.gas body ⟨.start maze start limits.actions, rfl⟩
  generalize run limits body (.start maze start grant limits) = x at ha ⊢
  cases ha with
  | same _ hs =>
    obtain ⟨_, ⟨h, -⟩, -⟩ := hs
    exact h
  | cut _ _ hc => exact hc.elim

theorem Program.rehearsed_of_perform (p : Program)
    (h : p.perform maze start grant limits = .ok actions) :
    actions.length ≤ limits.actions ∧ maze.Rehearsed start actions := by
  have ht := Cast.rehearsed_of_run limits p.body maze start grant
  rw [perform] at h
  generalize Cast.run limits p.body (.start maze start grant limits) = x at h ht
  rcases x with ⟨e | _, c⟩
  · cases h
  · cases h
    refine ⟨?_, ht.torches⟩
    have hb : c.trail.past.length + c.trail.room = c.trail.ceiling := ht.balanced
    have hc : c.trail.ceiling = limits.actions := ht.ceiling_eq
    simp only [Trail.actions, List.length_reverse]
    omega

theorem Spell.rehearsed_of_compile (h : compile source maze start options = .ok actions) :
    actions.length ≤ options.limits.actions ∧ maze.Rehearsed start actions := by
  cases hp : parse source with
  | error e => simp [compile, hp, bind, Except.bind] at h
  | ok p =>
    have hc : p.cast maze start options.grant options.limits = .ok actions := by
      simpa [compile, hp, bind, Except.bind] using h
    cases hn : p.checkNames options.grant with
    | error e => simp [Program.cast, hn, bind, Except.bind] at hc
    | ok _ =>
      apply p.rehearsed_of_perform
      simpa [Program.cast, hn, bind, Except.bind] using hc

end Spellcraft
