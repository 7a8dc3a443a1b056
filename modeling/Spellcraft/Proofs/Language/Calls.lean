import Spellcraft.Proofs.Language.Mentions

namespace Spellcraft

namespace Usage

theorem calledNames_cons {t : Token} (h : t.kind.isName = false) (ts : List Token) :
    calledNames (t :: ts) = calledNames ts := by
  obtain ⟨k, span⟩ := t
  cases k with
  | name => cases h
  | _ => rfl

theorem calledNames_name (n : String) (span : Span) (ts : List Token) :
    calledNames (⟨.name n, span⟩ :: ts) =
      (if ((ts.head?.map Token.kind).getD .eof).isSymbol .openParen then [n] else []) ++
        calledNames ts := by
  cases ts with
  | nil => rfl
  | cons t rest =>
    obtain ⟨k, there⟩ := t
    cases opens : k.isSymbol .openParen with
    | true =>
      obtain rfl := Kind.eq_of_isSymbol opens
      rfl
    | false =>
      rw [calledNames]
      · simp [opens]
      · rintro span tail ⟨⟩
        cases opens

end Usage

namespace Stream

def called (s : Stream) : List String := Usage.calledNames s.rest

def pending (s : Stream) (ms : List Mention) : List Mention :=
  if s.kind.isSymbol .openParen then ms else []

@[simp] theorem pending_nil (s : Stream) : s.pending [] = [] := ite_self []

theorem pending_open {s : Stream} (h : .symbol .openParen = s.kind) (ms : List Mention) :
    s.pending ms = ms := by
  rw [pending, ← h]
  rfl

theorem pending_other {s : Stream} (h : s.kind.isSymbol .openParen = false) (ms : List Mention) :
    s.pending ms = [] := by
  rw [pending, h]
  rfl

theorem called_advance {s : Stream} (h : s.kind.isName = false) : s.advance.called = s.called := by
  unfold advance called
  split
  · rfl
  · next t rest hs =>
    have : t.kind.isName = false := by simpa [kind, hs] using h
    rw [hs, Usage.calledNames_cons this]

theorem called_name {s : Stream} (h : .name n = s.kind) : s.called =
    (if s.advance.kind.isSymbol .openParen then [n] else []) ++ s.advance.called := by
  unfold kind at h
  rcases hs : s.rest with _ | ⟨⟨k, span⟩, rest⟩ <;> rw [hs] at h
  · cases h
  · cases h
    simp only [called, advance, kind, hs, Usage.calledNames_name]

end Stream

/-- From `s` to `t` the stream gave every call among `v`, and no name before a parenthesis that is
not among `v`. -/
def Named (v : List Mention) (s t : Stream) : Prop :=
  ∃ used, s.called = used ++ t.called ∧ (∀ n, .call n ∈ v → n ∈ used) ∧
    ∀ n ∈ used, .call n ∈ v ∨ .declared n ∈ v

namespace Named

variable {s₀ s : Stream} {v : List Mention}

theorem refl (s : Stream) : Named [] s s :=
  ⟨[], rfl, fun _ h => absurd h List.not_mem_nil, fun _ h => absurd h List.not_mem_nil⟩

theorem advance (h : Named v s₀ s) (hk : s.kind.isName = false) : Named v s₀ s.advance := by
  obtain ⟨used, called, calls, only⟩ := h
  exact ⟨used, by rw [called, Stream.called_advance hk], calls, only⟩

theorem name (h : Named v s₀ s) (hk : .name n = s.kind) :
    Named (v ++ s.advance.pending [.call n]) s₀ s.advance := by
  obtain ⟨used, called, calls, only⟩ := h
  refine ⟨used ++ if s.advance.kind.isSymbol .openParen then [n] else [], ?_, ?_, ?_⟩
  · rw [called, Stream.called_name hk, List.append_assoc]
  · unfold Stream.pending
    split <;> grind
  · unfold Stream.pending
    split <;> grind

theorem declare (h : Named (v ++ s.pending [.call n]) s₀ s) :
    Named (v ++ [.declared n]) s₀ s := by
  obtain ⟨used, called, calls, only⟩ := h
  refine ⟨used, called, fun m hm => calls m ?_, fun m hm => ?_⟩
  · simp only [List.mem_append, List.mem_singleton, reduceCtorEq, or_false] at hm
    exact List.mem_append_left _ hm
  · have := only m hm
    unfold Stream.pending at this
    split at this <;> grind

end Named

namespace Parse

def Moves (k : Kind) (P P' : Stream → Prop) : Prop := ∀ s, k = s.kind → P s → P' s.advance

theorem Moves.named {k : Kind} (hk : k.isName = false) : Moves k (Named v s₀) (Named v s₀) := by
  rintro s rfl h
  exact h.advance hk

namespace Triple

variable {P P' : Stream → Prop} {A B : Parse β} {Q : β → Stream → Prop}

theorem move {k : Kind} (step : Moves k P P') :
    Triple (fun s => k = s.kind ∧ P s) advance fun _ => P' where
  toHonest := .advance
  gives hs he _ := by
    cases he
    exact step _ hs.1 hs.2

theorem moveIf {m : Symbol} (step : Moves (.symbol m) P P') :
    Triple P (Parse.eat m) fun b s => if b then P' s else P s := by
  refine .bind (.sight fun s => s.kind.isSymbol m) fun b => ?_
  cases b with
  | true =>
    refine .bind (.pre (.move step) fun s h => ?_) fun _ => .pure fun s h => h
    exact ⟨(Kind.eq_of_isSymbol h.1.symm).symm, h.2⟩
  | false => exact .pure fun s h => h.2

theorem ifMoved {m : Symbol} (step : Moves (.symbol m) P P') (hA : Triple P' A Q)
    (hB : Triple P B Q) : Triple P (do if ← Parse.eat m then A else B) Q := by
  refine (moveIf step).bind fun b => ?_
  cases b with
  | true => exact hA
  | false => exact hB

theorem moveKind {present : Kind → Bool} {k : Kind} (only : ∀ j, present j = true → j = k)
    (step : Moves k P P') (wanted : String) :
    Triple P (Parse.expectKind present wanted) fun _ => P' := by
  refine .bind (.sight Stream.kind) fun j => ?_
  split
  · next there =>
    obtain rfl := only j there
    exact .bind (.glance Stream.span) fun _ => .bind (.move step) fun _ => .pure fun _ h => h
  · exact .refuse _

theorem moveSymbol {m : Symbol} (step : Moves (.symbol m) P P') :
    Triple P (Parse.expect m) fun _ => P' :=
  moveKind (fun _ => Kind.eq_of_isSymbol) step m.text

theorem moveClosing {m : Symbol} (step : Moves (.symbol m) P P') (opened : Span) :
    Triple P (Parse.expectClosing m opened) fun _ => P' :=
  ifMoved step (.pure fun _ h => h) <|
    .bind (.glance Stream.kind) fun _ => .bind (.glance id) fun _ => .refuse _

theorem moveEnd : Triple (Named v s₀) Parse.endStatement fun _ => Named v s₀ := by
  refine .ifMoved (.named rfl) (.pure fun _ h => h) (.bind (.glance id) fun s => ?_)
  split
  · exact .pure fun _ h => h
  · exact .complain _ _

end Triple

def Names (p : Parse α) (w : α → List Mention) : Prop :=
  ∀ v s₀, Triple (Named v s₀) p fun a => Named (v ++ w a) s₀

namespace Names

variable {w : α → List Mention} {p : Parse α}

theorem honest (h : Names p w) : Honest p := (h [] (.ofTokens [])).toHonest

protected theorem commaRounds (hp : Names p w) : ∀ n, Names (commaRounds p n) (·.flatMap w)
  | 0 => fun v s₀ => (hp v s₀).bind fun a => .pure fun s h => by simpa using h
  | n + 1 => fun v s₀ => (hp v s₀).bind fun a => by
    refine .ifMoved (.named rfl) ?_ (.pure fun s h => by simpa using h)
    exact .bind (hp.commaRounds n _ s₀) fun as => .pure fun s h => by simpa using h

protected theorem argumentRounds {p : Parse Expr} {w : Expr → List Mention} (hp : Names p w) :
    ∀ n, Names (argumentRounds p n) (·.flatMap w)
  | 0 => fun v s₀ => .pure fun s h => by simpa using h
  | n + 1 => fun v s₀ => by
    refine .bind (.glance fun s => s.kind.isSymbol .closeParen) fun closes => ?_
    split
    · exact .pure fun s h => by simpa using h
    refine (hp v s₀).bind fun a => .ifMoved (.named rfl) ?_ (.pure fun s h => by simpa using h)
    exact .bind (hp.argumentRounds n _ s₀) fun as => .pure fun s h => by simpa using h

theorem arguments {p : Parse Expr} {w : Expr → List Mention} (hp : Names p w) (opened : Span) :
    Names (arguments p opened) (·.flatMap w) := fun v s₀ =>
  .bind (.glance fun s => s.rest.length) fun n => (hp.argumentRounds (n + 1) v s₀).bind fun _ =>
    (Triple.moveClosing (.named rfl) opened).bind fun _ => .pure fun _ h => h

end Names

variable {v : List Mention} {s₀ : Stream} {room n : Nat}

theorem literal_mentions (h : literal? here k = some e) : e.mentions = [] ∧
    (k.isName = false ∧ e.head = [] ∨ ∃ n, k = .name n ∧ e.head = [.call n]) := by
  unfold literal? at h
  split at h <;> cases h
  case h_3 n => exact ⟨rfl, .inr ⟨n, rfl, rfl⟩⟩
  all_goals exact ⟨rfl, .inl ⟨rfl, rfl⟩⟩

theorem target_mentions {P : Stream → Prop} : (e : Expr) →
    Triple P (target problem e) fun _ s => P s ∧ e.mentions = []
  | .name .. => .pure fun _ h => ⟨h, rfl⟩
  | .paren _ e => target_mentions e
  | .number .. | .text .. | .bool .. | .null _ | .call .. | .unary .. | .binary .. | .logical ..
  | .conditional .. | .assign .. | .update .. => .refusal _ _

theorem primary_names (h : Names (expression room) Expr.mentions) :
    Triple (Named v s₀) (primary room)
      fun e s => Named (v ++ s.pending e.head ++ e.mentions) s₀ s := by
  rw [primary]
  refine .bind (.glance Stream.span) fun start => .bind (.sight Stream.kind) fun k => ?_
  split
  case h_1 e he =>
    obtain ⟨none, plain | named⟩ := literal_mentions he
    · exact (Triple.move (.named plain.1)).bind fun _ => .pure fun s hs => by
        simpa [none, plain.2] using hs
    · obtain ⟨n, rfl, head⟩ := named
      have step : Moves (.name n) (Named v s₀) fun s => Named (v ++ s.pending [.call n]) s₀ s :=
        fun s hk hs => hs.name hk
      exact (Triple.move step).bind fun _ => .pure fun s hs => by simpa [none, head] using hs
  split
  · next opens =>
    obtain rfl := Kind.eq_of_isSymbol opens
    refine (Triple.move (.named rfl)).bind fun _ => (h v s₀).bind fun e =>
      (Triple.moveClosing (.named rfl) _).bind fun _ => .bind (.glance Stream.previousSpan) fun _ =>
      .pure fun s hs => by simpa [Expr.head, Expr.mentions] using hs
  · exact .refuse _

theorem calls_names {room : Nat} (h : ∀ r < room, Names (expression r) Expr.mentions) (f : Expr) :
    Triple (fun s => Named (v ++ s.pending f.head ++ f.mentions) s₀ s) (calls room f)
      fun e => Named (v ++ e.mentions) s₀ := by
  rw [calls.eq_def]
  refine .bind (.sight Stream.kind) fun k => ?_
  split
  · cases room with
    | zero => exact .refuse _
    | succ room =>
      have step : Moves (.symbol .openParen)
          (fun s => Named (v ++ s.pending f.head ++ f.mentions) s₀ s)
          (Named (v ++ f.head ++ f.mentions) s₀) := fun s hk hs => by
        dsimp only at hs
        rw [Stream.pending_open hk] at hs
        exact hs.advance (hk ▸ rfl)
      refine .bind (.glance Stream.span) fun opened => (Triple.move step).bind fun _ =>
        ((h room (Nat.lt_succ_self room)).arguments opened _ s₀).bind fun args =>
        .bind (.glance Stream.previousSpan) fun stop => ?_
      refine (calls_names (fun r hr => h r (Nat.lt_succ_of_lt hr)) _).pre fun s hs => ?_
      simpa [Expr.head, Expr.mentions, argumentMentions_eq] using hs
  · exact .bind (.glance Stream.span) fun _ => .refusal _ _
  · exact .bind (.glance Stream.span) fun _ => .refusal _ _
  · next other _ _ =>
    refine .pure fun s hs => ?_
    obtain ⟨rfl, hs⟩ := hs
    have closed : s.kind.isSymbol .openParen = false := by
      rw [Bool.eq_false_iff]
      exact fun opens => other (Kind.eq_of_isSymbol opens)
    rwa [Stream.pending_other closed, List.append_nil] at hs
termination_by room

theorem suffixed_names (h : ∀ r ≤ room, Names (expression r) Expr.mentions) :
    Names (suffixed room) Expr.mentions := by
  rw [suffixed]
  refine fun v s₀ => (primary_names (h room (Nat.le_refl room))).bind fun f =>
    (calls_names (fun r hr => h r (Nat.le_of_lt hr)) f).bind fun e =>
    .bind (.sight Stream.kind) fun k => .bind (.glance id) fun s => ?_
  split
  case h_1 op hop _ =>
    obtain rfl := UpdateOp.eq_symbol hop
    exact .bind (.glance Stream.span) fun _ => (Triple.move (.named rfl)).bind fun _ =>
      (target_mentions e).bind fun i => .pure fun s hs => by simpa [Expr.mentions, hs.2] using hs.1
  · exact .pure fun s hs => hs.2

theorem nested_names (h : ∀ r < room, Names (unary r) Expr.mentions) :
    Names (nested room) Expr.mentions := by
  rw [nested.eq_def]
  cases room with
  | zero => exact fun _ _ => .refuse _
  | succ room => exact h room (Nat.lt_succ_self room)

theorem unary_names (h : ∀ r ≤ room, Names (expression r) Expr.mentions)
    (hu : ∀ r < room, Names (unary r) Expr.mentions) : Names (unary room) Expr.mentions := by
  rw [unary]
  refine fun v s₀ => .bind (.glance Stream.span) fun start => .bind (.sight Stream.kind) fun k => ?_
  split
  case h_1 op hop =>
    obtain rfl := UnaryOp.eq_symbol hop
    exact (Triple.move (.named rfl)).bind fun _ => (nested_names hu v s₀).bind fun e =>
      .pure fun s hs => hs
  case h_2 op _ hop =>
    obtain rfl := UpdateOp.eq_symbol hop
    exact (Triple.move (.named rfl)).bind fun _ => (nested_names hu v s₀).bind fun e =>
      (target_mentions e).bind fun i => .pure fun s hs => by simpa [Expr.mentions, hs.2] using hs.1
  · exact (suffixed_names h v s₀).pre fun _ hs => hs.2

theorem chain_names {room : Nat} (h : ∀ r < room, Names (tier n r) Expr.mentions) (l : Expr) :
    Triple (Named (v ++ l.mentions) s₀) (chain n room l) fun e => Named (v ++ e.mentions) s₀ := by
  rw [chain.eq_def]
  refine .bind (.sight Stream.kind) fun k => ?_
  split
  · exact .pure fun s hs => hs.2
  case h_2 op hop =>
    cases room with
    | zero => exact .refuse _
    | succ room =>
      obtain rfl := Operator.eq_symbol hop
      refine (Triple.move (.named rfl)).bind fun _ =>
        (h room (Nat.lt_succ_self room) _ s₀).bind fun r => ?_
      refine (chain_names (fun q hq => h q (Nat.lt_succ_of_lt hq)) _).pre fun s hs => ?_
      cases op <;> simpa [Operator.build, Expr.mentions] using hs
termination_by room

theorem tier_names (hu : Names (unary room) Expr.mentions)
    (h : ∀ r < room, ∀ n, Names (tier n r) Expr.mentions) : ∀ n, Names (tier n room) Expr.mentions
  | 0 => by
    rw [tier]
    exact hu
  | n + 1 => by
    rw [tier]
    exact fun v s₀ => (tier_names hu h n v s₀).bind fun l => chain_names (fun r hr => h r hr n) l

theorem conditional_names (h : Names (expression room) Expr.mentions)
    (ht : Names (tier 6 room) Expr.mentions) : Names (conditional room) Expr.mentions := by
  rw [conditional]
  refine fun v s₀ => (ht v s₀).bind fun c => .ifMoved (.named rfl) ?_ (.pure fun s hs => hs)
  exact (h _ s₀).bind fun a => (Triple.moveSymbol (.named rfl)).bind fun _ => (h _ s₀).bind fun b =>
    .pure fun s hs => by simpa [Expr.mentions] using hs

theorem assignment_names (h : Names (expression room) Expr.mentions)
    (hc : Names (conditional room) Expr.mentions) : Names (assignment room) Expr.mentions := by
  rw [assignment]
  refine fun v s₀ => (hc v s₀).bind fun left => .bind (.sight Stream.kind) fun k => ?_
  split
  · exact .pure fun s hs => hs.2
  case h_2 op hop =>
    obtain rfl := AssignOp.eq_symbol hop
    refine (Triple.move (.named rfl)).bind fun _ => (target_mentions left).bind fun i => ?_
    refine ((h v s₀).pre fun s hs => ?_).bind fun value => .pure fun s hs => hs
    simpa [hs.2] using hs.1

theorem expression_names_of (h : ∀ r < room, Names (assignment r) Expr.mentions) :
    Names (expression room) Expr.mentions := by
  rw [expression.eq_def]
  cases room with
  | zero => exact fun _ _ => .refuse _
  | succ room => exact h room (Nat.lt_succ_self room)

theorem assignment_tier_names (room : Nat) :
    Names (assignment room) Expr.mentions ∧ ∀ n, Names (tier n room) Expr.mentions := by
  -- By induction on the room, as the rules use it up.
  induction room using Nat.strongRecOn with
  | ind room ih =>
    have inner : ∀ r ≤ room, Names (expression r) Expr.mentions := fun r hr =>
      expression_names_of fun q hq => (ih q (Nat.lt_of_lt_of_le hq hr)).1
    have prefixed : ∀ r < room, Names (unary r) Expr.mentions := fun r hr => by
      have := (ih r hr).2 0
      rwa [tier] at this
    have tiers := tier_names (unary_names inner prefixed) fun r hr => (ih r hr).2
    have here := inner room (Nat.le_refl room)
    exact ⟨assignment_names here (conditional_names here (tiers 6)), tiers⟩

theorem expression_names (room : Nat) : Names (expression room) Expr.mentions :=
  expression_names_of fun r _ => (assignment_tier_names r).1

end Parse

end Spellcraft
