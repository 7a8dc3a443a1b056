import Spellcraft.Proofs.Casting.Grants
import Spellcraft.Proofs.Casting.Hoisting
import Spellcraft.Proofs.Casting.Limits

namespace Spellcraft

namespace Cast

structure Blind (p : Cast α) : Prop where
  apart (c : Casting) (store : Store) : p { c with store } = ((p c).1, { (p c).2 with store })
  current (c : Casting) : (p c).2.current = c.current

namespace Blind

variable {p : Cast α} {f : α → Cast β}

theorem store_eq (h : Blind p) (c : Casting) : (p c).2.store = c.store :=
  congrArg (·.2.store) (h.apart c c.store)

protected theorem pure (a : α) : Blind (pure a : Cast α) := ⟨fun _ _ => rfl, fun _ => rfl⟩

protected theorem throw (e : Exit) : Blind (throw e : Cast α) := ⟨fun _ _ => rfl, fun _ => rfl⟩

protected theorem bind (h : Blind p) (k : ∀ a, Blind (f a)) : Blind (p >>= f) := by
  constructor
  · intro c store
    rw [bind_apply, bind_apply, h.apart c store]
    rcases p c with ⟨e | a, d⟩
    · rfl
    · exact (k a).apart d store
  · intro c
    have hp := h.current c
    rw [bind_apply]
    generalize p c = x at hp ⊢
    rcases x with ⟨e | a, d⟩
    · exact hp
    · exact ((k a).current d).trans hp

theorem tick (limits : Limits) : Blind (tick limits) :=
  ⟨fun c _ => by rw [tick_apply, tick_apply], fun c => by rw [tick_apply]⟩

theorem follow (step : Trail → Except Trap Trail) : Blind (follow step) := by
  constructor
  · intro c _
    rw [follow_apply, follow_apply]
    dsimp only
    cases step c.trail <;> rfl
  · intro c
    rw [follow_apply]
    cases step c.trail <;> rfl

theorem command (k : Command) (span : Span) : Blind (command k span) := by
  cases k with
  | look d => exact ⟨fun _ _ => rfl, fun _ => rfl⟩
  | move d => exact (follow _).bind fun _ => .pure _
  | lightTorch => exact (follow _).bind fun _ => .pure _

theorem checkDepth (limits : Limits) (span : Span) : Blind (checkDepth limits span) := by
  constructor
  · intro c _
    simp only [Cast.checkDepth, get_bind_apply]
    split <;> rfl
  · intro c
    simp only [Cast.checkDepth, get_bind_apply]
    split <;> rfl

theorem binary (limits : Limits) (op : BinaryOp) (a b : Value) (span : Span) :
    Blind (binary limits op a b span) := by
  unfold Cast.binary
  split
  · split
    · exact .throw _
    · exact .pure _
  · exact .pure _

end Blind

end Cast

structure Casting.Rooted (g : Grant) (c : Casting) : Prop where
  store : c.store.Rooted g
  current : 0 < c.current

namespace Widening

def pairing (g g' : Grant) (limits : Limits) : Pairing where
  left := limits
  right := limits
  states c d := c.Rooted g ∧ d = { c with store := c.store.regrant g' }
  values := Pairing.any
  cuts e _ := ∃ name span, e = .unknown name span

variable {g g' : Grant} {limits : Limits}

open Pairing (any)

theorem shows_any (r : Except Exit α) : (pairing g g' limits).shows any r := by
  rcases r with e | a
  · cases e <;> trivial
  · trivial

theorem related_of_agree {p q : Cast α}
    (h : ∀ c : Casting, c.Rooted g →
      (pairing g g' limits).Agree any (p c) (q { c with store := c.store.regrant g' })) :
    (pairing g g' limits).Related any p q where
  agree := by
    rintro c _ ⟨hc, rfl⟩
    exact h c hc
  stays hc := ⟨shows_any _, hc⟩

theorem related_blind {p : Cast α} (h : Cast.Blind p) :
    (pairing g g' limits).Related any p p := by
  refine related_of_agree fun c hc => ?_
  have hs := h.store_eq c
  have hi := h.current c
  rw [h.apart c (c.store.regrant g')]
  generalize p c = x at hs hi ⊢
  obtain ⟨r, d⟩ := x
  dsimp only at hs hi
  refine .same (shows_any _) ⟨⟨hs ▸ hc.store, hi ▸ hc.current⟩, ?_⟩
  rw [hs]

theorem related_lookup (w : g.Within g') (name : String) (span : Span) :
    (pairing g g' limits).Related any (Cast.lookup name span) (Cast.lookup name span) := by
  refine related_of_agree fun c hc => ?_
  simp only [Cast.lookup, Cast.get_bind_apply]
  cases hb : c.store.get? name c.current with
  | none => exact .cut rfl (shows_any _) ⟨_, _, rfl⟩
  | some b =>
    rw [hc.store.get?_regrant w hb]
    exact .same trivial ⟨hc, rfl⟩

theorem agree_bind {c : Casting} (hc : c.Rooted g) (hi : 0 < i) (name : String) (b : Binding) :
    (pairing g g' limits).Agree any (.ok (), { c with store := c.store.bind i name b })
      (.ok (), { c with store := (c.store.regrant g').bind i name b }) :=
  .same trivial ⟨⟨hc.store.bind hi name b, hc.current⟩, by rw [Store.regrant_bind _ _ hi]⟩

theorem related_assign (w : g.Within g') (target : Ident) (v : Value) :
    (pairing g g' limits).Related any (Cast.assign target v) (Cast.assign target v) := by
  refine related_of_agree fun c hc => ?_
  simp only [Cast.assign, Cast.get_bind_apply]
  cases hf : c.store.find? target.name c.current with
  | none => exact .cut rfl (shows_any _) ⟨_, _, rfl⟩
  | some i =>
    cases hb : c.store.get? target.name c.current with
    | none => exact .cut rfl (shows_any _) ⟨_, _, rfl⟩
    | some b =>
      rw [hc.store.find?_regrant w hf, hc.store.get?_regrant w hb]
      dsimp only
      cases changes : b.constant with
      | true => exact .same trivial ⟨hc, rfl⟩
      | false => exact agree_bind hc (hc.store.find?_pos hf hb changes) _ _

theorem related_declareVar (name : String) (v : Option Value) :
    (pairing g g' limits).Related any (Cast.declareVar name v) (Cast.declareVar name v) := by
  refine related_of_agree fun c hc => ?_
  have host := hc.store.host_pos hc.current
  simp only [Cast.declareVar, Cast.modify_apply, hc.store.host_regrant g' hc.current,
    Store.binds_regrant _ g' host]
  split
  · exact .same trivial ⟨hc, rfl⟩
  · exact agree_bind hc host _ _

theorem related_declareLocal (name : Ident) (v : Option Value) (constant : Bool) :
    (pairing g g' limits).Related any (Cast.declareLocal name v constant)
      (Cast.declareLocal name v constant) := by
  refine related_of_agree fun c hc => ?_
  simp only [Cast.declareLocal, Cast.get_bind_apply, Store.binds_regrant _ g' hc.current]
  split
  · exact .same trivial ⟨hc, rfl⟩
  · exact agree_bind hc hc.current _ _

theorem related_declareFunction (name : Ident) (params : List Ident) (body : List Stmt) :
    (pairing g g' limits).Related any (Cast.declareFunction name params body)
      (Cast.declareFunction name params body) := by
  refine related_of_agree fun c hc => ?_
  simp only [Cast.declareFunction, Cast.modify_apply]
  refine .same trivial ⟨⟨hc.store.bind hc.current _ _, hc.current⟩, ?_⟩
  rw [Store.regrant_bind _ _ hc.current]

theorem states_enter {s : Scope} {c d : Casting} (h : (pairing g g' limits).states c d)
    (hs : s.hosts = true ∨ ∃ i, s.parent = some i ∧ 0 < i) :
    (pairing g g' limits).states (c.enter s) (d.enter s) := by
  obtain ⟨hc, rfl⟩ := h
  refine ⟨⟨hc.store.push hs, hc.store.size_pos⟩, ?_⟩
  simp only [Casting.enter, Store.size_regrant, Store.regrant_push hc.store.size_pos]

theorem roams : (pairing g g' limits).Roams where
  current := by rintro c _ ⟨-, rfl⟩; rfl
  calls := by rintro c _ ⟨-, rfl⟩; rfl
  block h := states_enter h (.inr ⟨_, rfl, h.1.current⟩)
  frame _ h := states_enter h (.inl rfl)
  leave := by rintro c _ c' _ ⟨hc, rfl⟩ ⟨hc', rfl⟩; exact ⟨⟨hc'.store, hc.current⟩, rfl⟩
  deeper _ h := by obtain ⟨hc, rfl⟩ := h; exact ⟨⟨hc.store, hc.current⟩, rfl⟩
  cuts hc _ := hc

theorem lawful (w : g.Within g') : (pairing g g' limits).Lawful where
  plain _ _ := trivial
  tick := related_blind (.tick limits)
  overrun := .bind (related_blind (.tick limits)) fun _ _ => .throw trivial
  lookup := related_lookup w
  assign target _ := related_assign w target _
  declareVar name _ := related_declareVar name _
  declareLocal name constant _ := related_declareLocal name _ constant
  declareFunction name params body _ := related_declareFunction name params body
  binary op span _ _ := related_blind (.binary limits op _ _ span)
  command span _ := related_blind (.command _ span)
  depth span := related_blind (.checkDepth limits span)
  block h := roams.inBlock h
  frame _ h := roams.inFrame _ h
  body _ _ _ := Pairing.quotes_any

theorem run_agree (w : g.Within g') (limits : Limits) (body : List Stmt) (maze : Maze)
    (start : Position) :
    (pairing g g' limits).Agree any (Cast.run limits body (.start maze start g limits))
      (Cast.run limits body (.start maze start g' limits)) :=
  (Pairing.related_runBody (lawful w) limits.gas fun _ _ => Pairing.quotes_any).agree
    ⟨⟨.initial g, Nat.one_pos⟩, rfl⟩

end Widening

namespace Program

theorem unknown_of_checkNames {p : Program} (h : p.checkNames g = .error e) :
    ∃ name span, e = .unknown name span := by
  rw [checkNames] at h
  split at h
  · next r _ => exact ⟨r.name, r.span, (Except.error.inj h).symm⟩
  · cases h

theorem checkNames_of_within (p : Program) {g g' : Grant} (w : g.Within g')
    (h : p.checkNames g = .ok ()) : p.checkNames g' = .ok () := by
  rw [checkNames_eq_ok_iff] at h ⊢
  exact fun r hr => (h r hr).imp_right w.knows

/-- What a spell does with few commands it does with more of them, unless it lacked one. -/
theorem cast_of_within (p : Program) (maze : Maze) (start : Position) {g g' : Grant}
    (limits : Limits) (w : g.Within g')
    (served : ∀ name span, p.cast maze start g limits ≠ .error (.unknown name span)) :
    p.cast maze start g' limits = p.cast maze start g limits := by
  rw [cast_eq] at served
  rw [cast_eq, cast_eq]
  cases checked : p.checkNames g with
  | error e =>
    obtain ⟨name, span, rfl⟩ := unknown_of_checkNames checked
    exact absurd (by rw [checked]) (served name span)
  | ok _ =>
    rw [p.checkNames_of_within w checked]
    rw [checked] at served
    dsimp only at served ⊢
    have agree := Widening.run_agree w limits p.body maze start
    simp only [perform] at served ⊢
    generalize Cast.run limits p.body (.start maze start g limits) = x,
      Cast.run limits p.body (.start maze start g' limits) = y at agree served ⊢
    cases agree with
    | @same r c d _ hs =>
      obtain ⟨_, rfl⟩ := hs
      cases r <;> rfl
    | cut _ _ lacked =>
      obtain ⟨name, span, rfl⟩ := lacked
      exact absurd rfl (served name span)

def masked : Program := (parseText
  "let moveUp; function f(canMoveUp) \x7b return canMoveUp \x7d moveUp = f(moveRight); moveUp()").1

theorem cast_of_within_masked :
    let g : Grant := .restricted ["moveRight"]
    let limits : Limits := ⟨1, 30, 1, 0⟩
    (g.Within .standard ∧
      ∀ name span, masked.cast .corridor ⟨0, 0⟩ g limits ≠ .error (.unknown name span)) ∧
    masked.cast .corridor ⟨0, 0⟩ g limits = .ok [.move .right] ∧
    masked.cast .corridor ⟨0, 0⟩ .standard limits = .ok [.move .right] := by
  intro g limits
  have w : g.Within .standard := fun k _ => k.mem_all
  have done : masked.cast .corridor ⟨0, 0⟩ g limits = .ok [.move .right] := by decide +kernel
  have served (name : String) (span : Span) :
      masked.cast .corridor ⟨0, 0⟩ g limits ≠ .error (.unknown name span) := by
    rw [done]
    nofun
  exact ⟨⟨w, served⟩, done, (masked.cast_of_within .corridor ⟨0, 0⟩ limits w served).trans done⟩

end Program

end Spellcraft
