import Spellcraft.Proofs.Language.Climbing
import Spellcraft.Proofs.Language.ReadsExpr

namespace Spellcraft

namespace Tracks

variable {clock room : Nat} {b : Bool} {w : Leeway} {e : Counted Expr}

theorem target {problem : Problem} :
    (e : Expr) → Tracks 0 w (Parse.target problem e) (Counted.target problem e)
  | .name .. => .pure _
  | .paren _ e => target e
  | .number .. | .text .. | .bool .. | .null _ | .call .. | .unary .. | .binary .. | .logical ..
  | .conditional .. | .assign .. | .update .. => .refusal _ _

theorem argumentRounds {p : Parse Expr} (h : Tracks 1 w p e) (bound n : Nat) (c : Cursor)
    (hc : c.At w) (enough : c.left < bound) (time : c.left < n) :
    Follows 0 c (Parse.argumentRounds p bound) (Counted.argumentRounds e n) := by
  induction n generalizing bound c with
  | zero => cases time
  | succ n ih =>
    cases bound with
    | zero => cases enough
    | succ bound =>
      refine .look (Counted.sees_apply hc.closed _) ?_
      split
      · exact .pure hc.closed []
      refine ((h c hc).bind fun a d goes takes => ?_).mono (Nat.zero_le 1)
      refine .ifEaten goes.closed (fun onward fewer => ?_) (fun _ => .pure goes.closed [a])
        (Nat.zero_le 1)
      have rest := ih bound d.next (onward.at (goes.at hc)) (by omega) (by omega)
      exact rest.bind fun as f goes' _ => .pure goes'.closed (a :: as)

theorem arguments {p : Parse Expr} (h : Tracks 1 w p e) (opened : Span) :
    Tracks 0 w (Parse.arguments p opened) (Counted.arguments w.clock e opened) := by
  intro c hc
  have rounds := h.argumentRounds (c.left + 1) w.clock c hc (Nat.lt_succ_self _) hc.left_lt
  refine .of_eq ?_ rfl (rounds.bind fun args d goes _ =>
    (((Tracks.expectClosing .closeParen opened).mono).bind fun _ => .pure args) d (goes.at hc))
  rfl

theorem primary (he : Tracks 1 w (Parse.expression room) e) :
    Tracks 1 w (Parse.primary room) (Counted.primary e) := by
  rw [Parse.primary]
  refine .span fun start => .kind fun k => ?_
  cases hl : Parse.literal? start k with
  | some l => exact .take (.pure l) (Parse.literal_writing hl).2.2.2
  | none =>
    dsimp only
    split
    next opens =>
      obtain rfl := Kind.eq_of_isSymbol opens
      refine .take (he.mono.bind fun inner => ?_) (by simp)
      exact ((expectClosing .closeParen start).mono).bind fun _ => .previousSpan fun _ => .pure _
    · exact .of (.refuse _)

theorem callRounds {n levels : Nat} (he : ∀ r < room, Tracks 1 ⟨clock, r, b⟩ (Parse.expression r) e)
    (callee : Expr) {c : Cursor} (hc : c.At ⟨clock, room, b⟩) (time : room < n) :
    Climbs levels c (Parse.calls room callee) (Counted.callRounds clock e n callee levels) := by
  induction n generalizing room callee levels c with
  | zero => cases time
  | succ n ih =>
    rw [Parse.calls.eq_def, Counted.callRounds]
    refine .look (Counted.kind_apply hc.closed) ?_
    generalize hk : c.stream.kind = k
    have refused (problem : Problem) : Climbs levels c
        (Parse.span >>= fun here => Parse.complain problem (callee.span.merge here) >>= fun _ =>
          (failure : Parse Expr))
        (Counted.span >>= fun here => Counted.complain problem (callee.span.merge here) >>= fun _ =>
          pure (none, levels)) :=
      .look (Counted.span_apply hc.closed) (.refusal hc.closed _ _)
    cases k with
    | symbol s =>
      cases s with
      | openParen =>
        cases room with
        | zero => exact .full hc.closed (Nat.le_of_eq hc.depth.symm)
        | succ room =>
          have deep : Cursor.At ⟨clock, room, b⟩ { c with depth := c.depth + 1 } :=
            hc.deeper (Nat.le_succ clock)
          have hne : c.stream.kind ≠ .eof := by simp [hk]
          refine .deeper hc.depth_lt (.takeSpan hc.closed hne ?_)
          intro opened _ goes _
          have args := arguments (he room (Nat.lt_succ_self room)) opened.span _ (goes.at deep)
          refine .bind args fun args d goes' _ => ?_
          refine .look (Counted.previousSpan_apply goes'.closed) ?_
          exact ih (fun r hr => he r (Nat.lt_succ_of_lt hr)) _ (goes'.at (goes.at deep))
            (Nat.lt_of_succ_lt_succ time)
      | dot => exact refused .memberAccess
      | openBracket => exact refused .indexing
      | _ => exact .stop hc.closed callee
    | _ => exact .stop hc.closed callee

theorem calls (he : ∀ r ≤ room, Tracks 1 ⟨clock, r, b⟩ (Parse.expression r) e) :
    Tracks 1 ⟨clock, room, b⟩ (do Parse.calls room (← Parse.primary room))
      (Counted.calls clock e) := by
  refine (primary (he room (Nat.le_refl room))).bind fun callee c hc => ?_
  exact (callRounds (fun r hr => he r (Nat.le_of_lt hr)) callee hc hc.room_lt).left

theorem suffixed (he : ∀ r ≤ room, Tracks 1 ⟨clock, r, b⟩ (Parse.expression r) e) :
    Tracks 1 ⟨clock, room, b⟩ (Parse.suffixed room) (Counted.suffixed clock e) := by
  rw [Parse.suffixed, ← bind_assoc]
  refine (calls he).bind fun f => .kind fun k c hc hk => ?_
  have unchanged : Follows 0 c (pure f) (pure f) := .pure hc.closed f
  cases hup : UpdateOp.ofKind? k with
  | none => exact .of_eq rfl (Counted.bind_gives (Counted.onNewLine_apply hc.closed)) unchanged
  | some op =>
    have hne : k ≠ .eof := by simp [UpdateOp.eq_symbol hup]
    have updated : TracksFrom k 1 ⟨clock, room, b⟩
        (do
          let stop ← Parse.span
          Parse.advance
          let name ← Parse.target .updateTarget f
          return Expr.update (f.span.merge stop) op false name)
        (do
          let stop ← Counted.advance
          let name ← Counted.target .updateTarget f
          return Expr.update (f.span.merge stop.span) op false name) :=
      .takeSpan (fun _ => (target f).bind fun _ => .pure _) hne
    cases line : c.stream.onNewLine with
    | true =>
      refine .of_eq ?_ ?_ unchanged
      · rw [Parse.get_bind, line]
      · rw [Counted.bind_gives (Counted.onNewLine_apply hc.closed), line]
    | false =>
      refine .of_eq ?_ ?_ (updated.mono c hc hk)
      · rw [Parse.get_bind, line]
      · rw [Counted.bind_gives (Counted.onNewLine_apply hc.closed), line]

theorem nested {n : Nat} (time : room < n + 1)
    (hu : ∀ r < room, r < n → Tracks 1 ⟨clock, r, b⟩ (Parse.unary r) (Counted.unary clock e n)) :
    Tracks 1 ⟨clock, room, b⟩ (Parse.nested room)
      (Counted.levelled (Counted.unary clock e n)) := by
  rw [Parse.nested.eq_def]
  cases room with
  | zero => exact .tooDeep rfl
  | succ room =>
    have operand := hu room (Nat.lt_succ_self room) (Nat.lt_of_succ_lt_succ time)
    exact .levelled operand (Nat.le_succ clock)

theorem unary (he : ∀ r ≤ room, Tracks 1 ⟨clock, r, b⟩ (Parse.expression r) e) {n : Nat}
    (time : room < n) :
    Tracks 1 ⟨clock, room, b⟩ (Parse.unary room) (Counted.unary clock e n) := by
  induction n generalizing room with
  | zero => cases time
  | succ n ih =>
    rw [Parse.unary, Counted.unary]
    refine .span fun start => .kind fun k => ?_
    have operand := nested time fun r hr => ih fun q hq => he q (by omega)
    cases hop : UnaryOp.ofKind? k with
    | some op =>
      have hne : k ≠ .eof := by simp [UnaryOp.eq_symbol hop]
      exact .take (operand.mono.bind fun operand => .pure _) hne
    | none =>
      cases hup : UpdateOp.ofKind? k with
      | some op =>
        have hne : k ≠ .eof := by simp [UpdateOp.eq_symbol hup]
        exact .take (operand.mono.bind fun f => (target f).bind fun _ => .pure _) hne
      | none => exact .of (suffixed he)

theorem chainRounds {q : Counted Expr} {tier n levels : Nat}
    (ht : ∀ r < room, Tracks 1 ⟨clock, r, b⟩ (Parse.tier tier r) q) (left : Expr) {c : Cursor}
    (hc : c.At ⟨clock, room, b⟩) (time : room < n) :
    Climbs levels c (Parse.chain tier room left)
      (Counted.chainRounds q (Operator.ofKind? tier) n left levels) := by
  induction n generalizing room left levels c with
  | zero => cases time
  | succ n ih =>
    rw [Parse.chain.eq_def, Counted.chainRounds]
    refine .look (Counted.kind_apply hc.closed) ?_
    generalize hk : c.stream.kind = k
    cases hop : Operator.ofKind? tier k with
    | none => exact .stop hc.closed left
    | some op =>
      -- The level that the operator opens stays open, so the rest of the chain has less room too.
      cases room with
      | zero => exact .full hc.closed (Nat.le_of_eq hc.depth.symm)
      | succ room =>
        have deep : Cursor.At ⟨clock, room, b⟩ { c with depth := c.depth + 1 } :=
          hc.deeper (Nat.le_succ clock)
        have hne : c.stream.kind ≠ .eof := by simp [hk, Operator.eq_symbol hop]
        refine .deeper hc.depth_lt (.take hc.closed hne fun _ _ goes _ => ?_)
        refine .bind (ht room (Nat.lt_succ_self room) _ (goes.at deep)) fun right d goes' _ => ?_
        exact ih (fun r hr => ht r (Nat.lt_succ_of_lt hr)) _ (goes'.at (goes.at deep))
          (Nat.lt_of_succ_lt_succ time)

theorem tier {n : Nat} (he : ∀ r ≤ room, Tracks 1 ⟨clock, r, b⟩ (Parse.expression r) e) :
    Tracks 1 ⟨clock, room, b⟩ (Parse.tier n room) (Counted.tier clock e n) := by
  induction n generalizing room with
  | zero =>
    rw [Parse.tier, Counted.tier]
    exact fun c hc => unary he hc.room_lt c hc
  | succ n ih =>
    rw [Parse.tier, Counted.tier]
    refine (ih he).bind fun left c hc => ?_
    refine (chainRounds (fun r hr => ih fun q hq => he q ?_) left hc hc.room_lt).left
    omega

theorem conditional (he : ∀ r ≤ room, Tracks 1 ⟨clock, r, b⟩ (Parse.expression r) e) :
    Tracks 1 ⟨clock, room, b⟩ (Parse.conditional room) (Counted.conditional clock e) := by
  rw [Parse.conditional]
  have branch := (he room (Nat.le_refl room)).mono
  refine (tier he).bind fun condition => .ifEaten ?_ (.pure condition) (Nat.zero_le 1)
  exact branch.bind fun yes => (expect .colon).mono.bind fun _ => branch.bind fun no => .pure _

theorem assignment (he : ∀ r ≤ room, Tracks 1 ⟨clock, r, b⟩ (Parse.expression r) e) :
    Tracks 1 ⟨clock, room, b⟩ (Parse.assignment room) (Counted.assignment clock e) := by
  rw [Parse.assignment]
  refine (conditional he).bind fun left => .kind fun k c hc hk => ?_
  cases hop : AssignOp.ofKind? k with
  | none => exact .pure hc.closed left
  | some op =>
    have hne : k ≠ .eof := by simp [AssignOp.eq_symbol hop]
    have value := (he room (Nat.le_refl room)).mono
    refine (TracksFrom.take ?_ hne c hc hk).mono (Nat.zero_le 1)
    exact (target left).bind fun name => value.bind fun value => .pure _

theorem expression (clock room : Nat) (b : Bool) :
    Tracks 1 ⟨clock, room, b⟩ (Parse.expression room) (Counted.expression clock) := by
  -- By induction on the clock: what stands in an expression has a level less and needs less
  -- time.
  induction clock generalizing room with
  | zero => exact fun c hc => absurd hc.time (Nat.not_lt_zero _)
  | succ n ih =>
    rw [Parse.expression.eq_def, Counted.expression]
    cases room with
    | zero => exact .tooDeep rfl
    | succ room => exact .levelled (assignment fun r _ => ih r) (Nat.le_refl _)

end Tracks

end Spellcraft
