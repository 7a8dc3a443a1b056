import Spellcraft.Proofs.Language.Reading

namespace Spellcraft

namespace Parse

variable {s₀ : Stream} {room n : Nat}

def ReadsTo (n : Nat) (p : Parse Expr) : Prop :=
  Reads p Expr.writing fun e => e.looseness ≤ n ∧ e.isRanked = true

abbrev ReadsRanked (p : Parse Expr) : Prop := Reads p Expr.writing (·.isRanked = true)

theorem literal_writing (h : literal? here k = some e) :
    e.writing = [k] ∧ e.looseness = 0 ∧ e.isRanked = true ∧ k ≠ .eof := by
  unfold literal? at h
  split at h <;> cases h <;> exact ⟨rfl, rfl, rfl, nofun⟩

theorem target_triple {P : Stream → Prop} : (e : Expr) → Triple P (target problem e)
    fun i s => P s ∧ skeleton e.writing = skeleton [.name i.name]
  | .name _ n => .pure fun _ h => ⟨h, rfl⟩
  | .paren _ e => (target_triple e).post fun _ _ h => ⟨h.1, by simpa [Expr.writing] using h.2⟩
  | .number .. | .text .. | .bool .. | .null _ | .call .. | .unary .. | .binary .. | .logical ..
  | .conditional .. | .assign .. | .update .. => .refusal _ _

theorem primary_reads (h : ReadsRanked (expression room)) : ReadsTo 0 (primary room) := by
  rw [primary]
  refine .of_triple fun s₀ => .bind (.glance Stream.span) fun start =>
    .bind (.sight Stream.kind) fun k => ?_
  split
  case h_1 e he =>
    obtain ⟨writing, loose, ranked, hne⟩ := literal_writing he
    refine (Triple.take k hne).bind fun _ => .pure fun s h => ?_
    exact ⟨by simpa [writing] using h.1, Nat.le_of_eq loose, ranked⟩
  split
  · next opens =>
    obtain rfl := Kind.eq_of_isSymbol opens
    refine (Triple.takeSymbol .openParen).bind fun _ => h.triple.bind fun e =>
      (Triple.expectClosing _ _).bind fun _ => .bind (.glance Stream.previousSpan) fun _ =>
      .pure fun s h => ?_
    exact ⟨by simpa [Expr.writing] using h.1, Nat.le_refl 0, h.2.1⟩
  · exact .refuse _

theorem calls_triple {room : Nat} (h : ∀ r < room, ReadsRanked (expression r)) (f : Expr) :
    Triple (fun s => Took f.writing s₀ s ∧ f.looseness ≤ 0 ∧ f.isRanked = true) (calls room f)
      fun e s => Took e.writing s₀ s ∧ e.looseness ≤ 0 ∧ e.isRanked = true := by
  rw [calls.eq_def]
  refine .bind (.sight Stream.kind) fun k => ?_
  split
  · cases room with
    | zero => exact .refuse _
    | succ room =>
      refine .bind (.glance Stream.span) fun opened =>
        (Triple.takeSymbol .openParen).bind fun _ =>
        (Triple.arguments (h room (Nat.lt_succ_self room)) (by simp) opened).bind fun args =>
        .bind (.glance Stream.previousSpan) fun stop => ?_
      refine (calls_triple (fun r hr => h r (Nat.lt_succ_of_lt hr)) _).pre fun s hs => ?_
      obtain ⟨took, ranked, loose, first⟩ := hs
      refine ⟨?_, Nat.le_refl 0, ?_⟩
      · simpa [Expr.writing, argumentWritings_eq] using took
      · simp [Expr.isRanked, first, Nat.le_zero.1 loose, areRanked_iff.2 ranked]
  · exact .bind (.glance Stream.span) fun _ => .refusal _ _
  · exact .bind (.glance Stream.span) fun _ => .refusal _ _
  · exact .pure fun s h => h.2
termination_by room

theorem suffixed_reads (h : ∀ r ≤ room, ReadsRanked (expression r)) :
    ReadsTo 1 (suffixed room) := by
  rw [suffixed]
  refine .of_triple fun s₀ => ?_
  refine ((primary_reads (h room (Nat.le_refl room))).triple.post fun _ _ h => ⟨h.1, h.2.1⟩).bind
    fun f => (calls_triple (fun r hr => h r (Nat.le_of_lt hr)) f).bind fun e =>
    .bind (.sight Stream.kind) fun k => .bind (.glance id) fun s => ?_
  split
  case h_1 op hop _ =>
    refine .bind (.glance Stream.span) fun _ => ?_
    refine (Triple.take _ (by simp [UpdateOp.eq_symbol hop])).bind fun _ =>
      (target_triple e).bind fun i => .pure fun s h => ?_
    obtain rfl := UpdateOp.eq_symbol hop
    refine ⟨h.1.1.cast ?_ (by simp), Nat.le_refl 1, rfl⟩
    show skeleton ([.name i.name] ++ [.symbol op.symbol]) = _
    rw [skeleton_append, skeleton_append, h.2]
  · exact .pure fun s h => ⟨h.2.1, Nat.le_succ_of_le h.2.2.1, h.2.2.2⟩

theorem nested_reads (h : ∀ r < room, ReadsTo 2 (unary r)) : ReadsTo 2 (nested room) := by
  rw [nested.eq_def]
  cases room with
  | zero => exact .of_triple fun _ => .refuse _
  | succ room => exact h room (Nat.lt_succ_self room)

theorem unary_reads (h : ∀ r ≤ room, ReadsRanked (expression r))
    (hu : ∀ r < room, ReadsTo 2 (unary r)) : ReadsTo 2 (unary room) := by
  rw [unary]
  refine .of_triple fun s₀ => .bind (.glance Stream.span) fun start =>
    .bind (.sight Stream.kind) fun k => ?_
  split
  case h_1 op hop =>
    refine (Triple.take _ (by simp [UnaryOp.eq_symbol hop])).bind fun _ =>
      (nested_reads hu).triple.bind fun e => .pure fun s h => ?_
    obtain rfl := UnaryOp.eq_symbol hop
    exact ⟨h.1, Nat.le_refl 2, by simp [Expr.isRanked, h.2.1]⟩
  case h_2 op _ hop =>
    refine (Triple.take _ (by simp [UpdateOp.eq_symbol hop])).bind fun _ =>
      (nested_reads hu).triple.bind fun e => (target_triple e).bind fun i => .pure fun s h => ?_
    obtain rfl := UpdateOp.eq_symbol hop
    refine ⟨h.1.1.cast ?_ (by simp), Nat.le_refl 2, rfl⟩
    show skeleton ([.symbol op.symbol] ++ [.name i.name]) = skeleton ([.symbol op.symbol] ++ _)
    rw [skeleton_append, skeleton_append, h.2]
  · refine ((suffixed_reads h).triple.post fun e s h => ?_).pre fun _ h => h.2
    exact ⟨h.1, Nat.le_succ_of_le h.2.1.1, h.2.1.2⟩

theorem chain_triple {room : Nat} (h : ∀ r < room, ReadsTo (n + 2) (tier n r)) (l : Expr) :
    Triple (fun s => Took l.writing s₀ s ∧ l.looseness ≤ n + 3 ∧ l.isRanked = true)
      (chain n room l) fun e s =>
        Took e.writing s₀ s ∧ e.looseness ≤ n + 3 ∧ e.isRanked = true := by
  rw [chain.eq_def]
  refine .bind (.sight Stream.kind) fun k => ?_
  split
  · exact .pure fun s h => h.2
  case h_2 op hop =>
    cases room with
    | zero => exact .refuse _
    | succ room =>
      refine (Triple.take _ (by simp [Operator.eq_symbol hop])).bind fun _ =>
        (h room (Nat.lt_succ_self room)).triple.bind fun r => ?_
      refine (chain_triple (fun q hq => h q (Nat.lt_succ_of_lt hq)) _).pre fun s hs => ?_
      obtain ⟨took, ⟨tight, right⟩, loose, left⟩ := hs
      have tier := Operator.tier_of_ofKind hop
      obtain rfl := Operator.eq_symbol hop
      have ranks : op.ranks l r = true := by simp [Operator.ranks]; omega
      refine ⟨took.cast (by cases op <;> simp [Operator.build, Expr.writing]) (by simp), ?_, ?_⟩
      · cases op <;> exact Nat.le_of_eq (congrArg (· + 3) tier)
      · cases op <;> simp [Operator.build, Expr.isRanked, ranks, left, right]
termination_by room

theorem tier_reads (hu : ReadsTo 2 (unary room))
    (h : ∀ r < room, ∀ n, ReadsTo (n + 2) (tier n r)) : ∀ n, ReadsTo (n + 2) (tier n room)
  | 0 => by
    rw [tier]
    exact hu
  | n + 1 => by
    rw [tier]
    refine .of_triple fun s₀ => (tier_reads hu h n).triple.bind fun l => ?_
    refine (chain_triple (fun r hr => h r hr n) l).pre fun s hs => ?_
    exact ⟨hs.1, Nat.le_succ_of_le hs.2.1.1, hs.2.1.2⟩

theorem conditional_reads (h : ReadsRanked (expression room))
    (ht : ReadsTo 8 (tier 6 room)) : ReadsTo 9 (conditional room) := by
  rw [conditional]
  refine .of_triple fun s₀ => ht.triple.bind fun c => .ifEaten ?_ (.pure fun s hs => ?_)
  · refine h.triple.bind fun a => (Triple.expect .colon).bind fun _ => h.triple.bind fun b =>
      .pure fun s hs => ?_
    obtain ⟨took, no, yes, ⟨tight, head⟩, _⟩ := hs
    exact ⟨by simpa [Expr.writing] using took, Nat.le_refl 9,
      by simp [Expr.isRanked, tight, head, yes, no]⟩
  · exact ⟨hs.1, Nat.le_succ_of_le hs.2.1.1, hs.2.1.2⟩

theorem assignment_reads (h : ReadsRanked (expression room))
    (hc : ReadsTo 9 (conditional room)) :
    ReadsRanked (assignment room) := by
  rw [assignment]
  refine .of_triple fun s₀ => hc.triple.bind fun left => .bind (.sight Stream.kind) fun k => ?_
  split
  · exact .pure fun s hs => ⟨hs.2.1, hs.2.2.1.2⟩
  case h_2 op hop =>
    refine (Triple.take _ (by simp [AssignOp.eq_symbol hop])).bind fun _ =>
      (target_triple left).bind fun i => ?_
    refine (h.triple.pre fun s hs => ⟨hs.1.1, hs.2⟩).bind fun value => .pure fun s hs => ?_
    obtain rfl := AssignOp.eq_symbol hop
    refine ⟨hs.1.cast ?_ (by simp), hs.2.1⟩
    show skeleton ([.name i.name] ++ [.symbol op.symbol] ++ value.writing) = _
    simp only [skeleton_append, hs.2.2, List.nil_append]

theorem expression_reads_of (h : ∀ r < room, ReadsRanked (assignment r)) :
    ReadsRanked (expression room) := by
  rw [expression.eq_def]
  cases room with
  | zero => exact .of_triple fun _ => .refuse _
  | succ room => exact h room (Nat.lt_succ_self room)

theorem assignment_tier_reads (room : Nat) :
    ReadsRanked (assignment room) ∧
      ∀ n, ReadsTo (n + 2) (tier n room) := by
  -- By induction on the room, as the rules use it up.
  induction room using Nat.strongRecOn with
  | ind room ih =>
    have inner : ∀ r ≤ room, ReadsRanked (expression r) := fun r hr =>
      expression_reads_of fun q hq => (ih q (Nat.lt_of_lt_of_le hq hr)).1
    have prefixed : ∀ r < room, ReadsTo 2 (unary r) := fun r hr => by
      have := (ih r hr).2 0
      rwa [tier] at this
    have tiers := tier_reads (unary_reads inner prefixed) fun r hr => (ih r hr).2
    have here := inner room (Nat.le_refl room)
    exact ⟨assignment_reads here (conditional_reads here (tiers 6)), tiers⟩

theorem expression_reads (room : Nat) :
    ReadsRanked (expression room) :=
  expression_reads_of fun r _ => (assignment_tier_reads r).1

end Parse

end Spellcraft
