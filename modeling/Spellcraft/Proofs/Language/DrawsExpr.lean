import Spellcraft.Proofs.Language.Drawing
import Spellcraft.Proofs.Language.ReadsExpr

namespace Spellcraft

theorem Operator.build_outline (op : Operator) (l r : Expr) :
    (op.build l r).outline = ⟨l.span.merge r.span, [l.outline, r.outline]⟩ := by
  cases op <;> rfl

namespace Parse

variable {G : Span → Prop} {s₀ : Stream} {room n : Nat}

abbrev DrawsExpr (G : Span → Prop) (p : Parse Expr) : Prop := Draws G p fun e => [e.outline]

theorem literal_outline (h : literal? here k = some e) : e.outline = .leaf here := by
  unfold literal? at h
  split at h <;> cases h <;> rfl

theorem target_drawing {P : Stream → Prop} (e : Expr)
    (h : ∀ s, P s → Drawn G [] s₀ s ∧ e.outline.Orderly G) :
    Drawing G s₀ P (target problem e)
      fun i s => P s ∧ i.outline.Orderly G ∧ e.outline.span.Covers i.outline.span := by
  cases e with
  | name => exact .pure fun s hs => ⟨hs, (h s hs).2, .refl _⟩
  | paren _ e =>
    have inner (s) (hs : P s) := (h s hs).2.part (n := e.outline) List.mem_cons_self
    refine (target_drawing e fun s hs => ⟨(h s hs).1, (inner s hs).1⟩).post fun i s hs => ?_
    exact ⟨hs.1, hs.2.1, (inner s hs.1).2.trans hs.2.2⟩
  | _ => exact .refusal _ fun s hs => ⟨(h s hs).1, Expr.outline_span _ ▸ (h s hs).2.sort⟩

theorem nested_draws (h : ∀ r < room, DrawsExpr G (unary r)) : DrawsExpr G (nested room) := by
  rw [nested.eq_def]
  cases room with
  | zero => exact fun s₀ => .refuse _
  | succ room => exact h room (Nat.lt_succ_self room)

theorem expression_draws_of (h : ∀ r < room, DrawsExpr G (assignment r)) :
    DrawsExpr G (expression room) := by
  rw [expression.eq_def]
  cases room with
  | zero => exact fun s₀ => .refuse _
  | succ room => exact h room (Nat.lt_succ_self room)

variable (closed : Span.Closed G)
include closed

theorem primary_draws (h : DrawsExpr G (expression room)) : DrawsExpr G (primary room) := by
  rw [primary]
  intro s₀
  refine .bind (.sight Stream.span) fun start => .bind (.sight Stream.kind) fun k => ?_
  split
  case h_1 e he =>
    have hne := (literal_writing he).2.2.2
    refine ((Drawing.take hne).pre fun s hs => ⟨hs.2.1, hs.1, hs.2.2⟩).bind fun _ =>
      .pure fun s hs => ?_
    simpa [literal_outline he] using hs
  split
  · next opens =>
    obtain rfl := Kind.eq_of_isSymbol opens
    refine ((Drawing.take (k := .symbol .openParen) (by simp)).pre fun s hs =>
      ⟨hs.2.1, hs.1, hs.2.2⟩).bind fun _ => h.drawing.bind fun e =>
      (Drawing.expectClosing _ _).bind fun _ => .bind (.sight Stream.previousSpan) fun stop =>
      .pure fun s hs => ?_
    obtain ⟨rfl, drawn⟩ := hs
    exact drawn.enclosed closed (List.sublist_cons_self _ _)
  · exact (Drawing.refuse _).pre fun s hs => hs.2.2

theorem calls_drawing {room : Nat} (h : ∀ r < room, DrawsExpr G (expression r)) (f : Expr) :
    Drawing G s₀ (Drawn G [f.outline] s₀) (calls room f) fun e => Drawn G [e.outline] s₀ := by
  rw [calls.eq_def]
  refine .bind (.glance Stream.kind) fun k => ?_
  have refused (problem : Problem) : Drawing G s₀ (Drawn G [f.outline] s₀)
      (do complain problem (f.span.merge (← span)); failure : Parse Expr)
      fun e => Drawn G [e.outline] s₀ :=
    .bind (.sight Stream.span) fun here => .refusal problem fun s hs => by
      obtain ⟨rfl, drawn⟩ := hs
      have sort := (drawn.orderly List.mem_cons_self).sort
      exact ⟨drawn.drop, closed.merge (f.outline_span ▸ sort) drawn.sound.span⟩
  split
  · cases room with
    | zero => exact .refuse _
    | succ room =>
      refine .bind (.glance Stream.span) fun opened => Drawing.advance.bind fun _ =>
        ((h room (Nat.lt_succ_self room)).arguments opened).drawing.bind fun args =>
        .bind (.sight Stream.previousSpan) fun stop => ?_
      refine (calls_drawing (fun r hr => h r (Nat.lt_succ_of_lt hr)) _).pre fun s hs => ?_
      obtain ⟨rfl, drawn⟩ := hs
      have node := drawn.enclosed closed (.refl _)
      simpa [Expr.outline, argumentOutlines_eq, List.map_eq_flatMap] using node
  · exact refused _
  · exact refused _
  · exact .pure fun s hs => hs
termination_by room

theorem suffixed_draws (h : ∀ r ≤ room, DrawsExpr G (expression r)) :
    DrawsExpr G (suffixed room) := by
  rw [suffixed]
  intro s₀
  refine (primary_draws closed (h room (Nat.le_refl room)) s₀).bind fun f =>
    (calls_drawing closed (fun r hr => h r (Nat.le_of_lt hr)) f).bind fun e =>
    .bind (.sight Stream.kind) fun k => .bind (.glance id) fun s => ?_
  split
  case h_1 op hop _ =>
    refine .bind (.sight Stream.span) fun stop =>
      (Drawing.take (by simp [UpdateOp.eq_symbol hop])).bind fun _ =>
      (target_drawing e fun s hs => ⟨hs.drop, hs.orderly (by simp)⟩).bind fun i => .pure fun s hs => ?_
    obtain ⟨drawn, orderly, covers⟩ := hs
    have shrunk : Drawn G [i.outline] s₀ s := (drawn.shrink [] orderly covers).sublist (by simp)
    have node := drawn.joined closed shrunk
      fun p hp => ⟨e.outline, List.mem_cons_self, List.mem_singleton.1 hp ▸ covers⟩
    simpa [Expr.outline, Outline.leaf] using node
  · exact .pure fun s hs => hs.2

theorem unary_draws (h : ∀ r ≤ room, DrawsExpr G (expression r))
    (hu : ∀ r < room, DrawsExpr G (unary r)) : DrawsExpr G (unary room) := by
  rw [unary]
  intro s₀
  refine .bind (.sight Stream.span) fun start => .bind (.sight Stream.kind) fun k => ?_
  split
  case h_1 op hop =>
    refine ((Drawing.take (k := k) (by simp [UnaryOp.eq_symbol hop])).pre fun s hs =>
      ⟨hs.2.1, hs.1, hs.2.2⟩).bind fun _ => (nested_draws hu).drawing.bind fun e =>
      .pure fun s hs => ?_
    have node := hs.joined closed (hs.sublist (List.sublist_cons_self _ _)) fun p hp =>
      ⟨p, List.mem_cons_of_mem _ hp, .refl _⟩
    simpa [Expr.outline, Outline.leaf] using node
  case h_2 op _ hop =>
    refine ((Drawing.take (k := k) (by simp [UpdateOp.eq_symbol hop])).pre fun s hs =>
      ⟨hs.2.1, hs.1, hs.2.2⟩).bind fun _ => (nested_draws hu).drawing.bind fun e =>
      (target_drawing e fun s hs => ⟨hs.drop, hs.orderly (by simp)⟩).bind fun i => .pure fun s hs => ?_
    obtain ⟨drawn, orderly, covers⟩ := hs
    have shrunk : Drawn G [i.outline] s₀ s := (drawn.shrink _ orderly covers).sublist (by simp)
    have node := drawn.joined closed shrunk
      fun p hp => ⟨e.outline, by simp, List.mem_singleton.1 hp ▸ covers⟩
    simpa [Expr.outline, Outline.leaf] using node
  · exact (suffixed_draws closed h s₀).pre fun s hs => hs.2.2

theorem chain_drawing {room : Nat} (h : ∀ r < room, DrawsExpr G (tier n r)) (l : Expr) :
    Drawing G s₀ (Drawn G [l.outline] s₀) (chain n room l) fun e => Drawn G [e.outline] s₀ := by
  rw [chain.eq_def]
  refine .bind (.glance Stream.kind) fun k => ?_
  split
  · exact .pure fun s hs => hs
  case h_2 op hop =>
    cases room with
    | zero => exact .refuse _
    | succ room =>
      refine Drawing.advance.bind fun _ => (h room (Nat.lt_succ_self room)).drawing.bind fun r => ?_
      refine (chain_drawing (fun q hq => h q (Nat.lt_succ_of_lt hq)) _).pre fun s hs => ?_
      have node := hs.joined closed hs fun p hp => ⟨p, hp, .refl _⟩
      simpa [op.build_outline] using node
termination_by room

theorem tier_draws (hu : DrawsExpr G (unary room)) (h : ∀ r < room, ∀ n, DrawsExpr G (tier n r)) :
    ∀ n, DrawsExpr G (tier n room)
  | 0 => by
    rw [tier]
    exact hu
  | n + 1 => by
    rw [tier]
    exact fun s₀ => (tier_draws hu h n s₀).bind fun l => chain_drawing closed (fun r hr => h r hr n) l

theorem conditional_draws (h : DrawsExpr G (expression room)) (ht : DrawsExpr G (tier 6 room)) :
    DrawsExpr G (conditional room) := by
  rw [conditional]
  refine fun s₀ => (ht s₀).bind fun c => .ifEaten ?_ (.pure fun s hs => hs)
  refine h.drawing.bind fun a => (Drawing.expect .colon).bind fun _ => h.drawing.bind fun b =>
    .pure fun s hs => ?_
  have node := hs.joined closed hs fun p hp => ⟨p, hp, .refl _⟩
  simpa [Expr.outline] using node

theorem assignment_draws (h : DrawsExpr G (expression room)) (hc : DrawsExpr G (conditional room)) :
    DrawsExpr G (assignment room) := by
  rw [assignment]
  refine fun s₀ => (hc s₀).bind fun left => .bind (.glance Stream.kind) fun k => ?_
  split
  · exact .pure fun s hs => hs
  case h_2 op hop =>
    refine Drawing.advance.bind fun _ =>
      (target_drawing left fun s hs => ⟨hs.drop, hs.orderly List.mem_cons_self⟩).bind fun i =>
      (h.drawing.keep _).bind fun value => .pure fun s hs => ?_
    obtain ⟨drawn, orderly, covers⟩ := hs
    have shrunk := drawn.shrink [] orderly covers
    have node := drawn.joined closed shrunk fun p hp => by
      rcases List.mem_cons.1 hp with rfl | hp
      · exact ⟨left.outline, List.mem_cons_self, covers⟩
      · exact ⟨p, List.mem_cons_of_mem _ hp, .refl _⟩
    simpa [Expr.outline] using node

theorem assignment_tier_draws (room : Nat) :
    DrawsExpr G (assignment room) ∧ ∀ n, DrawsExpr G (tier n room) := by
  -- By induction on the room, as the rules use it up.
  induction room using Nat.strongRecOn with
  | ind room ih =>
    have inner : ∀ r ≤ room, DrawsExpr G (expression r) := fun r hr =>
      expression_draws_of fun q hq => (ih q (Nat.lt_of_lt_of_le hq hr)).1
    have prefixed : ∀ r < room, DrawsExpr G (unary r) := fun r hr => by
      have := (ih r hr).2 0
      rwa [tier] at this
    have tiers := tier_draws closed (unary_draws closed inner prefixed) fun r hr => (ih r hr).2
    have here := inner room (Nat.le_refl room)
    exact ⟨assignment_draws closed here (conditional_draws closed here (tiers 6)), tiers⟩

theorem expression_draws (room : Nat) : DrawsExpr G (expression room) :=
  expression_draws_of fun r _ => (assignment_tier_draws closed r).1

end Parse

end Spellcraft
