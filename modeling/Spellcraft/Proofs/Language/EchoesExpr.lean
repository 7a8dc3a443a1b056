import Spellcraft.Proofs.Language.Echoing

namespace Spellcraft

def Expr.isTarget : Expr → Bool
  | .name .. => true
  | .paren _ e => e.isTarget
  | _ => false

def Expr.Unwraps : Expr → List Token → Prop
  | .paren _ e, t :: ts => t.kind.isSymbol .openParen = true ∧ e.Unwraps ts
  | .name .., t :: _ => t.kind.isSymbol .openParen = false
  | _, _ => False

theorem Expr.copied_target : ∀ (e : Expr) {c : Scribe}, e.Unwraps c.rest → e.copied c = c.keepTarget
  | .name .., ⟨t :: ts, copy⟩, (h : t.kind.isSymbol .openParen = false) => by
    rw [copied, Scribe.keepTarget, List.takeWhile_cons_of_neg (by simp [h])]
    rfl
  | .paren _ e, ⟨t :: ts, copy⟩, ⟨opens, h⟩ => by
    rw [copied, e.copied_target (c := .keep 1 ⟨t :: ts, copy⟩) h, Scribe.keepTarget,
      Scribe.keepTarget, Scribe.keep_keep, Scribe.keep_keep,
      List.takeWhile_cons_of_pos (p := fun t : Token => t.kind.isSymbol .openParen) opens]
    refine congrArg (Scribe.keep · _) ?_
    simp only [Scribe.keep, List.drop_succ_cons, List.drop_zero, List.length_cons]
    omega

namespace Parse

def Unwrapping (p : Parse Expr) : Prop :=
  ∀ s e t, p s = (some e, t) → e.isTarget = true → e.Unwraps s.rest

abbrev Retains (e : Expr) (p : Parse Expr) : Prop := Gives (fun x => x.isTarget = true → x = e) p

theorem Unwrapping.bind {p : Parse Expr} {f : Expr → Parse Expr} (h : Unwrapping p)
    (hf : ∀ e, Retains e (f e)) : Unwrapping (p >>= f) := by
  intro s x u he target
  rw [bind_apply] at he
  rcases hp : p s with ⟨_ | e, t⟩ <;> rw [hp] at he
  · cases he
  · obtain rfl := hf e t x u he target
    exact h s x t hp target

theorem Unwrapping.look (l : Stream → α) {f : α → Parse Expr} (h : ∀ x, Unwrapping (f x)) :
    Unwrapping ((fun s => (some (l s), s)) >>= f) := fun s => h (l s) s

theorem Unwrapping.none {p : Parse Expr} (h : Gives (·.isTarget = false) p) : Unwrapping p :=
  fun s e t he target => by cases target.symm.trans (h s e t he)

theorem calls_retains {room : Nat} (f : Expr) : Retains f (calls room f) := by
  rw [calls.eq_def]
  refine .after fun k => ?_
  split
  · cases room with
    | zero => exact .refuse
    | succ room =>
      refine .after fun _ => .after fun _ => .after fun args => .after fun _ => ?_
      exact (calls_retains _).mono fun x hx target => by cases hx target; cases target
  · exact .after fun _ => .after fun _ => .failure
  · exact .after fun _ => .after fun _ => .failure
  · exact .pure fun _ => rfl
termination_by room

theorem chain_retains {n room : Nat} (l : Expr) : Retains l (chain n room l) := by
  rw [chain.eq_def]
  refine .after fun k => ?_
  split
  · exact .pure fun _ => rfl
  case h_2 op hop =>
    cases room with
    | zero => exact .refuse
    | succ room =>
      refine .after fun _ => .after fun r => (chain_retains _).mono fun x hx target => ?_
      cases hx target
      cases op <;> cases target
termination_by room

theorem literal_target (h : literal? here k = some e) (target : e.isTarget = true) :
    (∃ n, e = .name here n) ∧ k.isSymbol .openParen = false := by
  unfold literal? at h
  split at h <;> cases h <;> cases target
  exact ⟨⟨_, rfl⟩, rfl⟩

theorem primary_unwrapping (h : Unwrapping (expression room)) : Unwrapping (primary room) := by
  intro s e t he target
  rw [primary, span_bind, kind_bind] at he
  rcases hs : s.rest with _ | ⟨u, us⟩
  · have : s.kind = .eof := by rw [Stream.kind, hs]; rfl
    rw [this] at he
    cases he
  have kind : s.kind = u.kind := by rw [Stream.kind, hs]; rfl
  rw [kind] at he
  rcases hl : literal? s.span u.kind with _ | x <;> simp only [hl] at he
  · split at he
    · next opens =>
      rw [advance_bind, Stream.advance_cons hs, bind_apply] at he
      rcases hi : expression room { s with previous := some u.span, rest := us } with ⟨_ | x, v⟩ <;>
        rw [hi] at he
      · cases he
      have paren : Gives (fun e => ∃ σ, e = .paren σ x) (do
          expectClosing .closeParen s.span
          let stop ← previousSpan
          return Expr.paren (s.span.merge stop) x) :=
        .after fun _ => .after fun stop => .pure ⟨_, rfl⟩
      obtain ⟨σ, rfl⟩ := paren v e t he
      exact ⟨opens, h _ x v hi target⟩
    · cases he
  · cases he
    obtain ⟨⟨n, rfl⟩, other⟩ := literal_target hl target
    exact other

theorem suffixed_unwrapping (h : Unwrapping (expression room)) : Unwrapping (suffixed room) := by
  rw [suffixed]
  refine (primary_unwrapping h).bind fun f => ?_
  refine Gives.bind (calls_retains f) fun e he => .after fun k => .after fun s => ?_
  split
  · exact .after fun _ => .after fun _ => .after fun _ => .pure fun target => by cases target
  · exact .pure he

theorem unary_unwrapping (h : Unwrapping (expression room)) : Unwrapping (unary room) := by
  rw [unary]
  refine .look Stream.span fun start => .look Stream.kind fun k => ?_
  split
  · exact .none (.after fun _ => .after fun _ => .pure rfl)
  · exact .none (.after fun _ => .after fun _ => .after fun _ => .pure rfl)
  · exact suffixed_unwrapping h

theorem tier_unwrapping (h : Unwrapping (unary room)) : ∀ n, Unwrapping (tier n room)
  | 0 => by
    rw [tier]
    exact h
  | n + 1 => by
    rw [tier]
    exact (tier_unwrapping h n).bind chain_retains

theorem conditional_unwrapping (h : Unwrapping (tier 6 room)) : Unwrapping (conditional room) := by
  rw [conditional]
  refine h.bind fun c => .after fun b => ?_
  split
  · exact .after fun _ => .after fun _ => .after fun _ => .pure fun target => by cases target
  · exact .pure fun _ => rfl

theorem assignment_unwrapping (h : Unwrapping (conditional room)) : Unwrapping (assignment room) := by
  rw [assignment]
  refine h.bind fun left => .after fun k => ?_
  split
  · exact .pure fun _ => rfl
  · exact .after fun _ => .after fun _ => .after fun _ => .pure fun target => by cases target

theorem expression_unwrapping : ∀ room, Unwrapping (expression room)
  | 0 => by
    rw [expression]
    intro s e t he
    cases he
  | room + 1 => by
    have h := expression_unwrapping room
    rw [expression]
    exact assignment_unwrapping (conditional_unwrapping (tier_unwrapping (unary_unwrapping h) 6))

theorem nested_unwrapping : ∀ {room}, Unwrapping (nested room)
  | 0 => by
    rw [nested]
    intro s e t he
    cases he
  | room + 1 => by
    rw [nested]
    exact unary_unwrapping (expression_unwrapping room)

variable {A : Prop} {c k : Scribe} {L M : Point} {room n : Nat}

/-- An expression takes the same tokens in both runs, up to where it may end. -/
def EchoExpr (p : Parse Expr) : Prop :=
  ∀ A k, Echo A k .outset p p Expr.bare (·.copied k) .brink

theorem target_echo [L.Leads M] {problem : Problem} : ∀ {e e' : Expr}, e'.bare = e.bare →
    (A → e.isTarget = true → c = k) →
    Echo A k L (target problem e) (target problem e') Ident.bare (fun _ => c) M
  | .name _ n, e', h, copied => by
    cases e' with
    | name =>
      cases h
      exact .pure fun hA => ⟨rfl, copied hA rfl⟩
    | update _ _ before => cases before <;> cases h
    | _ => cases h
  | .paren _ e, e', h, copied => by
    cases e' with
    | paren _ e' =>
      have inner : Echo A k L (target problem e) (target problem e') _ (fun _ => c) M :=
        target_echo (Expr.paren.inj h).2 copied
      exact inner
    | _ => cases h
  | .number .., _, _, _ | .text .., _, _, _ | .bool .., _, _, _ | .null _, _, _, _
  | .call .., _, _, _ | .unary .., _, _, _ | .binary .., _, _, _ | .logical .., _, _, _
  | .conditional .., _, _, _ | .assign .., _, _, _ | .update .., _, _, _ =>
    .fruitless (.refusal _ _) fun _ => rfl

theorem literal_echo (h : literal? here κ = some e) (there : Span) (k : Scribe) :
    (∃ e', literal? there κ = some e' ∧ e'.bare = e.bare) ∧ e.copied k = k.keep 1 := by
  unfold literal? at h
  split at h <;> cases h <;> exact ⟨⟨_, rfl, rfl⟩, rfl⟩

theorem literal_none (h : literal? here κ = none) (there : Span) : literal? there κ = none := by
  unfold literal? at h ⊢
  split at h <;> first | rfl | cases h

theorem primary_echo (h : EchoExpr (expression room)) : EchoExpr (primary room) := by
  intro A k
  rw [primary]
  refine .glance Stream.span fun start start' => .kind fun κ => ?_
  rcases hl : literal? start κ with _ | e
  · rw [literal_none hl start']
    dsimp only
    split
    · next opens =>
      have there : κ ≠ .eof := by simp [Kind.eq_of_isSymbol opens]
      exact (Echo.takeKnown (L := .outset) (M := .agree 0) there).bind fun _ _ _ => (h _ _).bind
        fun e e' he => (Echo.expectClosing (L := .outset) (M := .agree 0) _ _ _).bind fun _ _ _ =>
        .glance Stream.previousSpan fun _ _ => .pure fun _ => ⟨by simp [Expr.bare, he], rfl⟩
    · exact .refuse _
  · obtain ⟨⟨e', hl', he⟩, copied⟩ := literal_echo hl start' k
    rw [hl']
    exact (Echo.takeKnown (L := .outset) (M := .agree 0) (literal_writing hl).2.2.2).bind
      fun _ _ _ => .pure fun _ => ⟨he, copied⟩

theorem calls_echo {room : Nat} (h : ∀ r < room, EchoExpr (expression r)) {f g : Expr}
    (same : g.bare = f.bare) (A : Prop) (k : Scribe) :
    Echo A (f.copied k) .brink (calls room f) (calls room g) Expr.bare (·.copied k) .brink := by
  rw [calls.eq_def, calls.eq_def]
  refine .kindBrink fun κ => ?_
  dsimp only
  split
  · left
    cases room with
    | zero => exact .refuse _
    | succ room =>
      have here := h room (Nat.lt_succ_self room)
      refine .glance Stream.span fun opened opened' =>
        (Echo.takeKnown (L := .outset) (M := .agree 0) (by simp)).bind fun _ _ _ =>
        (Echo.arguments here (expression_reads room) Expr.writing_ne_nil opened opened').bind
        fun args args' hargs => .glance Stream.previousSpan fun stop stop' => ?_
      have calls := calls_echo (fun r hr => h r (Nat.lt_succ_of_lt hr))
        (f := .call (f.span.merge stop) f args) (g := .call (g.span.merge stop') g args')
        (by simpa [Expr.bare, bareArguments_eq, same] using hargs)
        (A ∧ (f.copied k).kind = .symbol .openParen) k
      rw [Expr.copied, argumentsCopied_eq] at calls
      exact calls.lead
  · exact .inl (.forbid _ _)
  · exact .inl (.forbid _ _)
  · exact .inr ⟨.pure fun _ => ⟨same, rfl⟩, rfl⟩
termination_by room

theorem onNewLine_eq {s t : Stream} (previous : t.previous = s.previous)
    (head : t.rest.head? = s.rest.head?) (goes : s.rest ≠ []) : t.onNewLine = s.onNewLine := by
  have span : t.span = s.span := by
    obtain ⟨u, us, hs⟩ := List.exists_cons_of_ne_nil goes
    rw [Stream.span, Stream.span, head, hs]
    rfl
  rw [Stream.onNewLine, Stream.onNewLine, previous, span]

theorem kind_get (f : Kind → Stream → Parse β) :
    (do let x ← kind; f x (← get)) = (do let s ← get; f s.kind s) := rfl

theorem update_echo {e e' : Expr} (same : e'.bare = e.bare) (op : UpdateOp)
    (there : A → (e.copied k).kind ≠ .eof) (unwraps : A → e.isTarget = true → e.Unwraps k.rest) :
    Echo A (e.copied k) (.agree 1)
      (do
        let stop ← span
        advance
        let name ← target .updateTarget e
        return .update (e.span.merge stop) op false name)
      (do
        let stop ← span
        advance
        let name ← target .updateTarget e'
        return .update (e'.span.merge stop) op false name)
      Expr.bare (·.copied k) .brink := by
  refine .glance Stream.span fun stop stop' =>
    (Echo.take (L := .agree 1) (M := .agree 0) there).bind fun _ _ _ =>
    (target_echo (L := .agree 0) (M := .agree 0) (c := k.keepTarget.keep 1) same ?_).bind
    fun i i' hi => .pure fun _ => ⟨by simp [Expr.bare, hi], rfl⟩
  intro hA target
  rw [e.copied_target (unwraps hA target)]

theorem suffixed_echo (h : ∀ r ≤ room, EchoExpr (expression r)) : EchoExpr (suffixed room) := by
  intro A k
  rw [suffixed]
  refine (primary_echo (h room (Nat.le_refl room)) A k).bindWith
    (B := fun f => A ∧ (f.isTarget = true → f.Unwraps k.rest))
    (fun s f t hA hk hp _ =>
      ⟨hA, hk ▸ primary_unwrapping (expression_unwrapping room) s f t hp⟩)
    fun f f' hf => (calls_echo (fun r hr => h r (Nat.le_of_lt hr)) hf _ k).bindWith
    (B := fun e => A ∧ (e.isTarget = true → e.Unwraps k.rest))
    (fun s e t hf _ he _ => ⟨hf.1, fun target => ?_⟩) fun e e' he => ?_
  · obtain rfl := calls_retains f s e t he target
    exact hf.2 target
  rw [kind_get, kind_get]
  refine .look (B := fun x => (e.copied k).kind = x.kind) id
    (fun _ hk => (Scribe.kind_eq hk).symm) fun x => ?_
  have ended {C : Prop} : Echo C (e.copied k) .brink (pure e) (pure e') Expr.bare (·.copied k)
      .brink := .pure fun _ => ⟨he, rfl⟩
  have none {s' : Stream} (semicolon : s'.rest.head?.map Token.kind = some (.symbol .semicolon)) :
      UpdateOp.ofKind? s'.kind = none := by
    rw [Stream.kind, semicolon]
    rfl
  -- the semicolon that the other run may find here is no operator either
  rcases hop : UpdateOp.ofKind? x.kind with _ | op
  · refine ⟨.brink, pure e', inferInstance, ended, fun s s' _ hs _ _ heads => ?_⟩
    obtain rfl : s = x := hs
    rcases heads with same | semicolon
    · simp only [id_eq, Point.Firm.kind (L := .outset) same, hop]
    · simp only [id_eq, none semicolon]
  have there : x.kind ≠ .eof := by simp [UpdateOp.eq_symbol hop]
  have goes : x.rest ≠ [] := fun none => there (by rw [Stream.kind, none]; rfl)
  rcases hl : x.onNewLine with _ | _
  · have going := update_echo he op (fun hk : (A ∧ (e.isTarget = true → e.Unwraps k.rest)) ∧
      (e.copied k).kind = x.kind => hk.2 ▸ there) fun hk => hk.1.2
    refine ⟨.agree 1, _, inferInstance, going, fun s s' _ hs previous _ heads => ?_⟩
    obtain rfl : s = x := hs
    have line := onNewLine_eq previous (Point.head_of_take heads) goes
    simp only [id_eq, Point.Firm.kind heads, line, hop, hl]
  · refine ⟨.brink, pure e', inferInstance, ended, fun s s' _ hs previous _ heads => ?_⟩
    obtain rfl : s = x := hs
    rcases heads with same | semicolon
    · have line := onNewLine_eq previous same goes
      simp only [id_eq, Point.Firm.kind (L := .outset) same, line, hop, hl]
    · simp only [id_eq, none semicolon]

theorem nested_echo (h : ∀ r < room, EchoExpr (unary r)) : EchoExpr (nested room) := by
  rw [nested.eq_def]
  cases room with
  | zero => exact fun A k => .refuse _
  | succ room => exact h room (Nat.lt_succ_self room)

theorem unary_echo (h : ∀ r ≤ room, EchoExpr (expression r)) (hu : ∀ r < room, EchoExpr (unary r)) :
    EchoExpr (unary room) := by
  intro A k
  rw [unary]
  refine .glance Stream.span fun start start' => .kind fun κ => ?_
  split
  case h_1 op hop =>
    have there : κ ≠ .eof := by simp [UnaryOp.eq_symbol hop]
    exact (Echo.takeKnown (L := .outset) (M := .agree 0) there).bind fun _ _ _ =>
      (nested_echo hu _ _).bind fun e e' he => .pure fun _ => ⟨by simp [Expr.bare, he], rfl⟩
  case h_2 op _ hop =>
    have there : κ ≠ .eof := by simp [UpdateOp.eq_symbol hop]
    refine (Echo.takeKnown (L := .outset) (M := .agree 0) there).bind fun _ _ _ =>
      (nested_echo hu _ _).bindWith (B := fun e => e.isTarget = true → e.Unwraps (k.keep 1).rest)
      (fun s e t _ hk he _ => hk ▸ nested_unwrapping s e t he) fun e e' he =>
      (target_echo (L := .brink) (M := .brink) (c := (k.keep 1).keepTarget) he ?_).bind
      fun i i' hi => .pure fun _ => ⟨by simp [Expr.bare, hi], rfl⟩
    intro unwraps target
    rw [e.copied_target (unwraps target)]
  · exact (suffixed_echo h _ _)

theorem expression_echo_of (h : ∀ r < room, EchoExpr (assignment r)) :
    EchoExpr (expression room) := by
  rw [expression.eq_def]
  cases room with
  | zero => exact fun A k => .refuse _
  | succ room => exact h room (Nat.lt_succ_self room)

theorem Operator.ofKind?_semicolon (n : Nat) : Operator.ofKind? n (.symbol .semicolon) = none := by
  rcases n with _ | _ | _ | _ | _ | _ | n <;> rfl

theorem chain_echo {room : Nat} (h : ∀ r < room, EchoExpr (tier n r)) {l m : Expr}
    (same : m.bare = l.bare) (A : Prop) (k : Scribe) :
    Echo A (l.copied k) .brink (chain n room l) (chain n room m) Expr.bare (·.copied k) .brink := by
  rw [chain.eq_def, chain.eq_def]
  refine .kindBrink fun κ => ?_
  rcases hop : Operator.ofKind? n κ with _ | op
  · refine .inr ⟨.pure fun _ => ⟨same, rfl⟩, ?_⟩
    rw [Operator.ofKind?_semicolon]
  left
  cases room with
  | zero => exact .refuse _
  | succ room =>
    have there : κ ≠ .eof := by simp [Operator.eq_symbol hop]
    refine (Echo.takeKnown (L := .outset) (M := .agree 0) there).bind fun _ _ _ =>
      (h room (Nat.lt_succ_self room) _ _).bind fun r r' hr => ?_
    have copied : (op.build l r).copied k = r.copied ((l.copied k).keep 1) := by cases op <;> rfl
    have rest := chain_echo (fun q hq => h q (Nat.lt_succ_of_lt hq)) (l := op.build l r)
      (m := op.build m r') (by cases op <;> simp [Operator.build, Expr.bare, same, hr])
      (A ∧ (l.copied k).kind = κ) k
    rw [copied] at rest
    exact rest
termination_by room

theorem tier_echo (hu : EchoExpr (unary room)) (h : ∀ r < room, ∀ n, EchoExpr (tier n r)) :
    ∀ n, EchoExpr (tier n room)
  | 0 => by
    rw [tier]
    exact hu
  | n + 1 => by
    rw [tier]
    exact fun A k => (tier_echo hu h n A k).bind fun l l' hl =>
      chain_echo (fun r hr => h r hr n) hl A k

theorem conditional_echo (h : EchoExpr (expression room)) (ht : EchoExpr (tier 6 room)) :
    EchoExpr (conditional room) := by
  intro A k
  rw [conditional]
  refine (ht A k).bind fun c c' hc => .ifEatenBrink (by simp) ?_ (.pure fun _ => ⟨hc, rfl⟩)
  refine (h _ _).bind fun a a' ha => (Echo.expect (L := .outset) (M := .agree 0) .colon).bind
    fun _ _ _ => (h _ _).bind fun b b' hb => .pure fun _ => ⟨by simp [Expr.bare, hc, ha, hb], rfl⟩

theorem assignment_echo (h : EchoExpr (expression room)) (hc : EchoExpr (conditional room)) :
    EchoExpr (assignment room) := by
  intro A k
  rw [assignment]
  refine (hc A k).bindWith (B := fun e => A ∧ (e.isTarget = true → e.Unwraps k.rest))
    (fun s e t hA hk he _ => ⟨hA, hk ▸ conditional_unwrapping
      (tier_unwrapping (unary_unwrapping (expression_unwrapping room)) 6) s e t he⟩)
    fun left left' hleft => .kindBrink fun κ => ?_
  rcases hop : AssignOp.ofKind? κ with _ | op
  · exact .inr ⟨.pure fun _ => ⟨hleft, rfl⟩, rfl⟩
  have there : κ ≠ .eof := by simp [AssignOp.eq_symbol hop]
  refine .inl ((Echo.takeKnown (L := .outset) (M := .agree 0) there).bind fun _ _ _ =>
    (target_echo (L := .agree 0) (M := .agree 0) (c := k.keepTarget.keep 1) hleft ?_).bind
    fun i i' hi => (h _ _).bind fun value value' hvalue => .pure fun _ =>
    ⟨by simp [Expr.bare, hi, hvalue], rfl⟩)
  rintro ⟨⟨-, unwraps⟩, -⟩ target
  rw [left.copied_target (unwraps target)]

theorem assignment_tier_echo (room : Nat) :
    EchoExpr (assignment room) ∧ ∀ n, EchoExpr (tier n room) := by
  -- By induction on the room, as the rules use it up.
  induction room using Nat.strongRecOn with
  | ind room ih =>
    have inner : ∀ r ≤ room, EchoExpr (expression r) := fun r hr =>
      expression_echo_of fun q hq => (ih q (Nat.lt_of_lt_of_le hq hr)).1
    have prefixed : ∀ r < room, EchoExpr (unary r) := fun r hr => by
      have := (ih r hr).2 0
      rwa [tier] at this
    have tiers := tier_echo (unary_echo inner prefixed) fun r hr => (ih r hr).2
    have here := inner room (Nat.le_refl room)
    exact ⟨assignment_echo here (conditional_echo here (tiers 6)), tiers⟩

theorem expression_echo (room : Nat) : EchoExpr (expression room) :=
  expression_echo_of fun r _ => (assignment_tier_echo r).1

end Parse

end Spellcraft
