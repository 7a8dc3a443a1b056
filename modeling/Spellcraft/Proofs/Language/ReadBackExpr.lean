import Spellcraft.Proofs.Language.Ahead
import Spellcraft.Proofs.Language.Opens

/-!
An expression in shape is read back from its writing. A rule reads it whole where what follows does
not continue it: each token that continues an expression does so at one looseness, so a rule stops
before all tokens that are looser than what it reads.
-/

namespace Spellcraft

def Kind.reach : Kind → Nat
  | .symbol .openParen | .symbol .dot | .symbol .openBracket => 0
  | .symbol .plusPlus | .symbol .minusMinus => 1
  | .symbol .star | .symbol .slash | .symbol .percent => 3
  | .symbol .plus | .symbol .minus => 4
  | .symbol .less | .symbol .greater | .symbol .lessEq | .symbol .greaterEq => 5
  | .symbol .looseEq | .symbol .looseNe | .symbol .strictEq | .symbol .strictNe => 6
  | .symbol .and => 7
  | .symbol .or => 8
  | .symbol .question => 9
  | .symbol .assign | .symbol .plusAssign | .symbol .minusAssign | .symbol .starAssign
  | .symbol .slashAssign | .symbol .percentAssign => 10
  | _ => 11

theorem Operator.reach_of_ofKind (h : ofKind? n k = some op) : k.reach = n + 3 := by
  unfold ofKind? ofSymbol? at h
  split at h
  · split at h <;> cases h <;> rfl
  · cases h

theorem Operator.ofKind_symbol (op : Operator) : ofKind? op.tier (.symbol op.symbol) = some op := by
  rcases op with op | op <;> cases op <;> rfl

theorem Operator.ofKind_none (h : n + 3 < k.reach) : ofKind? n k = none := by
  cases hop : ofKind? n k with
  | none => rfl
  | some op => exact absurd (reach_of_ofKind hop) (Nat.ne_of_gt h)

theorem AssignOp.ofKind_symbol (op : AssignOp) : ofKind? (.symbol op.symbol) = some op := by
  cases op <;> rfl

theorem AssignOp.ofKind_none (h : 10 < k.reach) : ofKind? k = none := by
  unfold ofKind?
  split <;> first | rfl | exact absurd h (by decide)

theorem UpdateOp.ofKind_symbol (op : UpdateOp) : ofKind? (.symbol op.symbol) = some op := by
  cases op <;> rfl

theorem UpdateOp.ofKind_none (h : 1 < k.reach) : ofKind? k = none := by
  unfold ofKind?
  split <;> first | rfl | exact absurd h (by decide)

theorem UnaryOp.ofKind_symbol (op : UnaryOp) : ofKind? (.symbol op.symbol) = some op := by
  cases op <;> rfl

theorem Kind.isSymbol_of_reach {k : Kind} (h : n < k.reach) (hs : (symbol m).reach ≤ n) :
    k.isSymbol m = false := by
  cases hk : k.isSymbol m with
  | false => rfl
  | true =>
    rw [eq_of_isSymbol hk] at h
    omega

def Operator.node (op : Operator) (here : Span) (a b : Expr) : Expr :=
  match op with
  | .binary op => .binary here op a b
  | .logical op => .logical here op a b

namespace Operator

variable {here : Span} {a b : Expr}

theorem build_eq (op : Operator) : op.build a b = op.node (a.span.merge b.span) a b := by
  cases op <;> rfl

theorem node_writing (op : Operator) :
    (op.node here a b).writing = a.writing ++ .symbol op.symbol :: b.writing := by cases op <;> rfl

theorem node_looseness (op : Operator) : (op.node here a b).looseness = op.tier + 3 := by
  cases op <;> rfl

theorem node_opens (op : Operator) :
    (op.node here a b).opens = max a.opens (a.spine op.tier + 1 + b.opens) := by cases op <;> rfl

theorem node_spine (op : Operator) : (op.node here a b).spine op.tier = a.spine op.tier + 1 := by
  cases op <;> exact if_pos rfl

theorem node_bare (op : Operator) :
    (op.node here a b).bare = op.node (.point .origin) a.bare b.bare := by cases op <;> rfl

theorem tier_lt (op : Operator) : op.tier < 6 := by rcases op with op | op <;> cases op <;> decide

end Operator

def Kind.begins : Kind → Bool
  | .number _ | .text _ | .name _ => true
  | .keyword .true_ | .keyword .false_ | .keyword .null => true
  | .symbol .openParen | .symbol .not | .symbol .minus | .symbol .plus | .symbol .plusPlus
  | .symbol .minusMinus => true
  | _ => false

theorem Kind.isSymbol_of_begins {k : Kind} (h : k.begins = true) (hm : (symbol m).begins = false) :
    k.isSymbol m = false := by
  cases hk : k.isSymbol m with
  | false => rfl
  | true =>
    rw [eq_of_isSymbol hk, hm] at h
    cases h

theorem Expr.begins : (e : Expr) → (next e.writing).begins = true
  | .number .. | .text .. | .null _ | .name .. | .assign .. | .paren .. => rfl
  | .bool _ b => by cases b <;> rfl
  | .unary _ op _ => by cases op <;> rfl
  | .update _ op true _ => by cases op <;> rfl
  | .update _ _ false _ => rfl
  | .call _ f _ => by
    simpa only [writing, List.append_assoc, next_append f.writing_ne_nil] using f.begins
  | .binary _ _ a _ | .logical _ _ a _ => by
    simpa only [writing, next_append a.writing_ne_nil] using a.begins
  | .conditional _ c _ _ => by
    simpa only [writing, List.append_assoc, List.cons_append, next_append c.writing_ne_nil]
      using c.begins

theorem Expr.begins_tight : (e : Expr) → e.looseness ≤ 1 → e.isRanked = true →
    UnaryOp.ofKind? (next e.writing) = none ∧ UpdateOp.ofKind? (next e.writing) = none
  | .number .., _, _ | .text .., _, _ | .null _, _, _ | .name .., _, _ | .paren .., _, _
  | .update _ _ false _, _, _ => ⟨rfl, rfl⟩
  | .bool _ b, _, _ => by cases b <;> exact ⟨rfl, rfl⟩
  | .call _ f _, _, ranked => by
    simp only [isRanked, Bool.and_eq_true, decide_eq_true_eq] at ranked
    simpa only [writing, List.append_assoc, next_append f.writing_ne_nil] using
      f.begins_tight (by omega) ranked.1.2
  | .unary .., loose, _ | .update _ _ true _, loose, _ | .conditional .., loose, _
  | .assign .., loose, _ => absurd loose (by simp [looseness])
  | .binary .., loose, _ | .logical .., loose, _ => absurd loose (by simp [looseness])

theorem Expr.spine_eq_zero (e : Expr) (h : e.looseness ≠ n + 3) : e.spine n = 0 := by
  cases e <;> first | rfl | exact if_neg fun same => h (congrArg (· + 3) same)

namespace Parse

/-- A rule that reads as loosely as this reads the expression back. -/
structure AnswersAt (n : Nat) (rule : Nat → Parse Expr) (e : Expr) : Prop where
  run {line room : Nat} {ks : List Kind} {s : Stream} (ahead : Ahead line (e.writing ++ ks) s)
    (stop : n < (next ks).reach) :
    Answers line (e.opens ≤ room) (·.bare = e.bare) ks pure (rule room s)

structure Callee (e : Expr) : Prop where
  run {line room : Nat} {ks : List Kind} {s : Stream} (ahead : Ahead line (e.writing ++ ks) s) :
    Answers line (e.opens ≤ room) (·.bare = e.bare) ks (calls (room - e.callSpine))
      ((primary room >>= calls room) s)

structure Chain (n : Nat) (e : Expr) : Prop where
  run {line room : Nat} {ks : List Kind} {s : Stream} (ahead : Ahead line (e.writing ++ ks) s)
    (stop : n + 2 < (next ks).reach) :
    Answers line (e.opens ≤ room) (·.bare = e.bare) ks (chain n (room - e.spine n))
      ((tier n room >>= chain n room) s)

theorem AnswersAt.mono (h : AnswersAt m rule e) (le : m ≤ n) : AnswersAt n rule e :=
  ⟨fun ahead stop => h.run ahead (Nat.lt_of_le_of_lt le stop)⟩

abbrev Tiered (n : Nat) : Expr → Prop := AnswersAt (n + 2) (tier n)

variable {line room : Nat} {ks : List Kind} {s : Stream}

theorem calls_stop (ahead : Ahead line ks s) (stop : 0 < (next ks).reach) (f : Expr) :
    calls room f s = (some f, s) := by
  rw [calls.eq_def, kind_bind, ahead.kind_eq]
  generalize next ks = k at stop
  split
  case h_4 => rfl
  all_goals exact absurd stop (by decide)

theorem chain_stop (ahead : Ahead line ks s) (stop : n + 3 < (next ks).reach) (l : Expr) :
    chain n room l s = (some l, s) := by
  rw [chain.eq_def, kind_bind, ahead.kind_eq, Operator.ofKind_none stop]
  rfl

theorem Callee.whole (h : Callee e) (ahead : Ahead line (e.writing ++ ks) s)
    (stop : 0 < (next ks).reach) :
    Answers line (e.opens ≤ room) (·.bare = e.bare) ks pure ((primary room >>= calls room) s) :=
  (h.run ahead).onto id fun f t fits same ahead => by
    rw [calls_stop ahead stop]
    exact .on fits same ahead

theorem Callee.suffixed (h : Callee e) : AnswersAt 1 suffixed e := by
  refine ⟨fun {line room ks s} ahead stop => ?_⟩
  rw [Parse.suffixed, ← bind_assoc]
  refine (h.whole ahead (Nat.lt_of_succ_lt stop)).bind id fun f t fits same ahead => ?_
  rw [kind_bind, get_bind, ahead.kind_eq, UpdateOp.ofKind_none stop]
  exact .on fits same ahead

theorem AnswersAt.unary (h : AnswersAt 1 suffixed e) (loose : e.looseness ≤ 1)
    (ranked : e.isRanked = true) : Tiered 0 e := by
  refine ⟨fun {line room ks s} ahead stop => ?_⟩
  obtain ⟨noPrefix, noUpdate⟩ := e.begins_tight loose ranked
  rw [← next_append e.writing_ne_nil ks] at noPrefix noUpdate
  rw [tier, Parse.unary, span_bind, kind_bind, ahead.kind_eq, noPrefix, noUpdate]
  exact h.run ahead (Nat.lt_of_succ_lt stop)

theorem AnswersAt.chain (h : Tiered n e) (flat : e.spine n = 0) : Chain n e := by
  refine ⟨fun ahead stop => ?_⟩
  refine (h.run ahead stop).bind id fun l t fits same ahead => ?_
  rw [flat]
  exact .on fits same ahead

theorem Chain.tier (h : Chain n e) : Tiered (n + 1) e := by
  refine ⟨fun ahead stop => ?_⟩
  rw [Parse.tier]
  refine (h.run ahead (Nat.lt_of_succ_lt stop)).onto id fun l t fits same ahead => ?_
  rw [chain_stop ahead stop]
  exact .on fits same ahead

theorem AnswersAt.tier (h : Tiered n e) (flat : ∀ m, n ≤ m → e.spine m = 0) (le : n ≤ m) :
    Tiered m e := by
  induction le with
  | refl => exact h
  | step le ih => exact (ih.chain (flat _ le)).tier

theorem AnswersAt.conditional (h : Tiered 6 e) : AnswersAt 9 conditional e := by
  refine ⟨fun ahead stop => ?_⟩
  rw [Parse.conditional]
  refine (h.run ahead (Nat.lt_of_succ_lt stop)).bind id fun c t fits same ahead => ?_
  rw [ahead.pass_bind (Kind.isSymbol_of_reach stop (by decide))]
  exact .on fits same ahead

theorem AnswersAt.assignment (h : AnswersAt 10 Parse.conditional e) :
    AnswersAt 10 assignment e := by
  refine ⟨fun ahead stop => ?_⟩
  rw [Parse.assignment]
  refine (h.run ahead stop).bind id fun l t fits same ahead => ?_
  rw [kind_bind, ahead.kind_eq, AssignOp.ofKind_none stop]
  exact .on fits same ahead

structure Back (e : Expr) : Prop where
  called : e.looseness = 0 → Callee e
  chained : n < 6 → e.looseness ≤ n + 3 → Chain n e
  tiered : n ≤ 6 → e.looseness ≤ n + 2 → Tiered n e
  conditional : e.looseness ≤ 8 → AnswersAt 9 conditional e
  assignment : AnswersAt 10 assignment e

namespace Back

theorem of_assignment (loose : e.looseness = 10) (h : AnswersAt 10 Parse.assignment e) :
    Back e where
  called := by omega
  chained := by omega
  tiered := by omega
  conditional := by omega
  assignment := h

theorem of_conditional (loose : e.looseness = 9) (h : AnswersAt 10 Parse.conditional e) :
    Back e where
  called := by omega
  chained := by omega
  tiered := by omega
  conditional := by omega
  assignment := h.assignment

theorem of_chain (hn : n < 6) (loose : e.looseness = n + 3) (h : Chain n e) : Back e :=
  have tiers {m : Nat} (le : n + 1 ≤ m) : Tiered m e :=
    h.tier.tier (fun m hm => e.spine_eq_zero (by omega)) le
  { called := by omega
    chained := fun {m} hm le => by
      rcases Nat.lt_or_eq_of_le (show n ≤ m by omega) with lt | rfl
      · exact (tiers lt).chain (e.spine_eq_zero (by omega))
      · exact h
    tiered := fun _ le => tiers (by omega)
    conditional := fun _ => (tiers hn).conditional
    assignment := ((tiers hn).conditional.mono (Nat.le_succ 9)).assignment }

theorem of_unary (loose : e.looseness ≤ 2) (h : Tiered 0 e) (called : e.looseness = 0 → Callee e) :
    Back e :=
  have flat (m : Nat) : e.spine m = 0 := e.spine_eq_zero (by omega)
  have tiers {m : Nat} : Tiered m e := h.tier (fun m _ => flat m) (Nat.zero_le m)
  { called
    chained := fun _ _ => tiers.chain (flat _)
    tiered := fun _ _ => tiers
    conditional := fun _ => tiers.conditional
    assignment := (tiers.conditional.mono (Nat.le_succ 9)).assignment }

theorem of_called (loose : e.looseness = 0) (ranked : e.isRanked = true) (h : Callee e) : Back e :=
  of_unary (by omega) (h.suffixed.unary (by omega) ranked) fun _ => h

theorem of_primary (loose : e.looseness = 0) (ranked : e.isRanked = true) (alone : e.callSpine = 0)
    (h : ∀ {line room ks s}, Ahead line (e.writing ++ ks) s →
      Answers line (e.opens ≤ room) (·.bare = e.bare) ks pure (primary room s)) : Back e :=
  of_called loose ranked ⟨fun ahead => (h ahead).bind id fun f t fits same ahead => by
    rw [alone]
    exact .on fits same ahead⟩

theorem expression (h : Back e) (ahead : Ahead line (e.writing ++ ks) s)
    (stop : 10 < (next ks).reach) :
    Answers line (e.opens + 1 ≤ room) (·.bare = e.bare) ks pure (expression room s) := by
  cases room with
  | zero =>
    rw [Parse.expression]
    exact .tooDeep ahead (Nat.not_succ_le_zero _)
  | succ room =>
    rw [Parse.expression]
    refine (h.assignment.run ahead stop).onto (by omega) fun e t fits same ahead => ?_
    exact .on (by omega) same ahead

theorem literal (hk : e.writing = [k])
    (reads : ∀ here, ∃ l, literal? here k = some l ∧ l.bare = e.bare) (loose : e.looseness = 0)
    (ranked : e.isRanked = true) (alone : e.callSpine = 0) (flat : e.opens = 0) : Back e :=
  of_primary loose ranked alone fun {line room ks s} ahead => by
    rw [hk] at ahead
    obtain ⟨l, hl, same⟩ := reads s.span
    rw [primary, span_bind, kind_bind, ahead.kind_eq, List.singleton_append, next_cons, hl]
    exact .on (by omega) same ahead.advance

theorem name (here : Span) (n : String) : Back (.name here n) :=
  literal rfl (fun _ => ⟨_, rfl, rfl⟩) rfl rfl rfl rfl

theorem paren (h : Back e) (ranked : e.isRanked = true) : Back (.paren here e) :=
  of_primary rfl ranked rfl fun {line room ks s} ahead => by
    have ahead : Ahead line (.symbol .openParen :: (e.writing ++ .symbol .closeParen :: ks)) s := by
      simpa [Expr.writing] using ahead
    rw [primary, span_bind, kind_bind, ahead.kind_eq]
    refine (h.expression ahead.advance (Nat.le_refl 11)).bind id fun e' t fits same ahead => ?_
    rw [ahead.expectClosing_bind, previousSpan_bind]
    exact .on fits (congrArg (Expr.paren _) same) ahead.advance

theorem nested (h : Back e) (loose : e.looseness ≤ 2) (ahead : Ahead line (e.writing ++ ks) s)
    (stop : 2 < (next ks).reach) :
    Answers line (e.opens + 1 ≤ room) (·.bare = e.bare) ks pure (nested room s) := by
  cases room with
  | zero =>
    rw [Parse.nested]
    exact .tooDeep ahead (Nat.not_succ_le_zero _)
  | succ room =>
    rw [Parse.nested, ← tier]
    refine ((h.tiered (Nat.zero_le 6) loose).run ahead stop).onto (by omega)
      fun e t fits same ahead => ?_
    exact .on (by omega) same ahead

theorem unary (h : Back e) (loose : e.looseness ≤ 2) : Back (.unary here op e) := by
  refine of_unary (Nat.le_refl 2) ⟨fun {line room ks s} ahead stop => ?_⟩ nofun
  have ahead : Ahead line (.symbol op.symbol :: (e.writing ++ ks)) s := ahead
  rw [tier, Parse.unary, span_bind, kind_bind, ahead.kind_eq, next_cons, UnaryOp.ofKind_symbol]
  refine (h.nested loose ahead.advance stop).bind id fun e' t fits same ahead => ?_
  exact .on fits (congrArg (Expr.unary _ op) same) ahead

theorem target_name {problem : Problem} (same : e.bare = (Expr.name here n).bare) :
    ∃ here, target problem e = pure ⟨n, here⟩ := by
  cases e with
  | name here m =>
    cases same
    exact ⟨here, rfl⟩
  | _ => cases same

theorem updateBefore : Back (.update here op true i) := by
  refine of_unary (Nat.le_refl 2) ⟨fun {line room ks s} ahead stop => ?_⟩ nofun
  have ahead : Ahead line (.symbol op.symbol :: .name i.name :: ks) s := ahead
  have none : UnaryOp.ofKind? (.symbol op.symbol) = none := by cases op <;> rfl
  rw [tier, Parse.unary, span_bind, kind_bind, ahead.kind_eq, next_cons, none,
    UpdateOp.ofKind_symbol]
  refine ((name here i.name).nested (Nat.zero_le 2) ahead.advance stop).bind id
    fun e t fits same ahead => ?_
  obtain ⟨there, run⟩ := target_name same
  rw [run, pure_bind]
  exact .on fits rfl ahead

theorem updateBehind : Back (.update here op false i) := by
  have suffixed : AnswersAt 1 suffixed (.update here op false i) := by
    refine ⟨fun {line room ks s} ahead stop => ?_⟩
    have ahead : Ahead line ((Expr.name here i.name).writing ++ .symbol op.symbol :: ks) s := ahead
    have zero : 0 < (next (.symbol op.symbol :: ks)).reach := by cases op <;> exact Nat.one_pos
    rw [Parse.suffixed, ← bind_assoc]
    refine (((name here i.name).called rfl).whole ahead zero).bind id fun e t fits same ahead => ?_
    rw [kind_bind, get_bind, ahead.kind_eq, next_cons, UpdateOp.ofKind_symbol, ahead.onLine]
    obtain ⟨there, run⟩ := target_name same
    simp only [span_bind, advance_bind]
    rw [run, pure_bind]
    exact .on fits rfl ahead.advance
  exact of_unary (Nat.le_succ 1) (suffixed.unary (Nat.le_refl 1) rfl) nofun

theorem conditional_of (hc : Back c) (ha : Back a) (hb : Back b) (loose : c.looseness ≤ 8) :
    Back (.conditional here c a b) := by
  refine of_conditional rfl ⟨fun {line room ks s} ahead stop => ?_⟩
  have ahead : Ahead line (c.writing ++ .symbol .question :: (a.writing ++
      .symbol .colon :: (b.writing ++ ks))) s := by simpa [Expr.writing] using ahead
  have fits : (Expr.conditional here c a b).opens ≤ room ↔
      c.opens ≤ room ∧ a.opens + 1 ≤ room ∧ b.opens + 1 ≤ room := by
    simp only [Expr.opens]
    omega
  rw [fits, Parse.conditional]
  refine ((hc.tiered (Nat.le_refl 6) loose).run ahead (Nat.le_refl 9)).bind (mt And.left)
    fun c' t head sameC ahead => ?_
  rw [ahead.eat_bind]
  refine (ha.expression ahead.advance (Nat.le_refl 11)).bind (mt (·.2.1))
    fun a' t yes sameA ahead => ?_
  rw [ahead.expect_bind]
  refine (hb.expression ahead.advance stop).bind (mt (·.2.2)) fun b' t no sameB ahead => ?_
  exact .on ⟨head, yes, no⟩ (by simp only [Expr.bare, sameC, sameA, sameB]) ahead

theorem assign (h : Back e) : Back (.assign here op i e) := by
  refine of_assignment rfl ⟨fun {line room ks s} ahead stop => ?_⟩
  have ahead : Ahead line ((Expr.name here i.name).writing ++
      .symbol op.symbol :: (e.writing ++ ks)) s := ahead
  have nine : 9 < (next (.symbol op.symbol :: (e.writing ++ ks))).reach := by
    cases op <;> exact Nat.lt_succ_self 9
  rw [Parse.assignment]
  refine (((name here i.name).conditional (Nat.zero_le 8)).run ahead nine).bind
    (fun h => absurd (Nat.zero_le room) h) fun l t _ same ahead => ?_
  rw [kind_bind, ahead.kind_eq, next_cons, AssignOp.ofKind_symbol]
  obtain ⟨there, run⟩ := target_name same
  simp only [advance_bind]
  rw [run, pure_bind]
  refine (h.expression ahead.advance stop).bind id fun e' t fits same ahead => ?_
  exact .on fits (congrArg (Expr.assign _ op _) same) ahead

theorem node (op : Operator) (ha : Back a) (hb : Back b) (loose : a.looseness ≤ op.tier + 3)
    (tight : b.looseness < op.tier + 3) : Back (op.node here a b) := by
  refine of_chain op.tier_lt op.node_looseness ⟨fun {line room ks s} ahead stop => ?_⟩
  have ahead : Ahead line (a.writing ++ .symbol op.symbol :: (b.writing ++ ks)) s := by
    simpa [op.node_writing] using ahead
  have follows : op.tier + 2 < (next (.symbol op.symbol :: (b.writing ++ ks))).reach := by
    rw [next_cons, Operator.reach_of_ofKind op.ofKind_symbol]
    exact Nat.lt_succ_self _
  rw [op.node_opens, op.node_spine]
  refine ((ha.chained op.tier_lt loose).run ahead follows).onto (by omega)
    fun l t fitsA sameA ahead => ?_
  rw [chain.eq_def, kind_bind, ahead.kind_eq, next_cons, op.ofKind_symbol]
  rcases hleft : room - a.spine op.tier with _ | left
  · exact .tooDeep ahead (by omega)
  · simp only [advance_bind]
    refine ((hb.tiered (Nat.le_of_lt op.tier_lt) (Nat.le_of_lt_succ tight)).run ahead.advance
      stop).bind (by omega) fun r t fitsB sameB ahead => ?_
    rw [show left = room - (a.spine op.tier + 1) by omega]
    exact .on (by omega) (by rw [op.build_eq, op.node_bare, op.node_bare, sameA, sameB]) ahead

end Back

theorem argumentRounds_answers : ∀ (args : List Expr), (∀ a ∈ args, Back a) → ∀ {line room ks s n},
    args.length ≤ n → Ahead line (commas (argumentWritings args) ++ .symbol .closeParen :: ks) s →
    Answers line (argumentsOpen args ≤ room) (fun as => bareArguments as = bareArguments args)
      (.symbol .closeParen :: ks) pure (argumentRounds (expression room) n s)
  | [], _, line, room, ks, s, n, _, ahead => by
    have ahead : Ahead line (.symbol .closeParen :: ks) s := ahead
    cases n with
    | zero => exact .on (Nat.zero_le _) rfl ahead
    | succ n =>
      rw [argumentRounds, sees_bind, ahead.kind_eq]
      exact .on (Nat.zero_le _) rfl ahead
  | a :: rest, _, line, room, ks, s, 0, le, _ => absurd le (Nat.not_succ_le_zero _)
  | a :: rest, back, line, room, ks, s, n + 1, le, ahead => by
    obtain ⟨first, others⟩ := List.forall_mem_cons.1 back
    have fits : argumentsOpen (a :: rest) ≤ room ↔
        a.opens + 1 ≤ room ∧ argumentsOpen rest ≤ room := Nat.max_le
    have shape : ∃ ls, Ahead line (a.writing ++ ls) s := ⟨_, by
      simpa only [argumentWritings, commas, List.append_assoc] using ahead⟩
    obtain ⟨ls, whole⟩ := shape
    have opens : (next (a.writing ++ ls)).isSymbol .closeParen = false := by
      rw [next_append a.writing_ne_nil]
      exact Kind.isSymbol_of_begins a.begins rfl
    rw [fits, argumentRounds, sees_bind, whole.kind_eq, opens]
    cases rest with
    | nil =>
      have ahead : Ahead line (a.writing ++ .symbol .closeParen :: ks) s := by
        simpa [argumentWritings, commas] using ahead
      refine (first.expression ahead (Nat.le_refl 11)).bind (mt And.left)
        fun a' t one same ahead => ?_
      rw [ahead.pass_bind rfl]
      exact .on ⟨one, Nat.zero_le _⟩ (by simp only [bareArguments, same]) ahead
    | cons b rest =>
      have ahead : Ahead line (a.writing ++ .symbol .comma ::
          (commas (argumentWritings (b :: rest)) ++ .symbol .closeParen :: ks)) s := by
        simpa [argumentWritings, commas] using ahead
      refine (first.expression ahead (Nat.le_refl 11)).bind (mt And.left)
        fun a' t one same ahead => ?_
      rw [ahead.eat_bind]
      refine (argumentRounds_answers (b :: rest) others (Nat.le_of_succ_le_succ le)
        ahead.advance).bind (mt And.right) fun as t more all ahead => ?_
      exact .on ⟨one, more⟩ (by rw [bareArguments, bareArguments, same, all]) ahead

theorem length_le_commas {w : α → List Kind} (h : ∀ a, w a ≠ []) (as : List α) :
    as.length ≤ (commas (as.map w)).length := by
  have follow (as : List α) : as.length ≤ ((as.map w).flatMap (.symbol .comma :: ·)).length := by
    induction as with
    | nil => exact Nat.le_refl 0
    | cons a as ih =>
      simp only [List.map_cons, List.flatMap_cons, List.length_append, List.length_cons]
      omega
  cases as with
  | nil => exact Nat.zero_le _
  | cons a as =>
    have := List.length_pos_iff.2 (h a)
    have := follow as
    simp only [List.map_cons, commas, List.length_append, List.length_cons]
    omega

theorem arguments_answers (back : ∀ a ∈ args, Back a)
    (ahead : Ahead line (commas (argumentWritings args) ++ .symbol .closeParen :: ks) s)
    (opened : Span) :
    Answers line (argumentsOpen args ≤ room) (fun as => bareArguments as = bareArguments args)
      ks pure (arguments (expression room) opened s) := by
  have enough : args.length ≤ s.rest.length + 1 := by
    have := length_le_commas Expr.writing_ne_nil args
    rw [ahead.rest_length, argumentWritings_eq, List.length_append]
    omega
  rw [arguments, tokensLeft_bind]
  refine (argumentRounds_answers args back enough ahead).bind id fun as t fits same ahead => ?_
  rw [ahead.expectClosing_bind]
  exact .on fits same ahead.advance

theorem Back.call (hf : Back f) (ha : ∀ a ∈ args, Back a) (loose : f.looseness = 0)
    (ranked : (Expr.call here f args).isRanked = true) : Back (.call here f args) := by
  refine of_called rfl ranked ⟨fun {line room ks s} ahead => ?_⟩
  have ahead : Ahead line (f.writing ++ .symbol .openParen :: (commas (argumentWritings args) ++
      .symbol .closeParen :: ks)) s := by simpa [Expr.writing] using ahead
  have spine : (Expr.call here f args).callSpine = f.callSpine + 1 := rfl
  have opens : (Expr.call here f args).opens =
    max f.opens (f.callSpine + 1 + argumentsOpen args) := rfl
  rw [opens, spine]
  refine ((hf.called loose).run ahead).onto (by omega) fun f' t fitsF sameF ahead => ?_
  rw [calls.eq_def, kind_bind, ahead.kind_eq, next_cons]
  rcases hleft : room - f.callSpine with _ | left
  · exact .tooDeep ahead (by omega)
  · simp only [span_bind, advance_bind]
    have inner (opened : Span) : Answers line (argumentsOpen args ≤ left) _ ks pure
        (arguments (Parse.expression left) opened t.advance) :=
      arguments_answers ha ahead.advance opened
    refine (inner _).bind (by omega) fun as t fits same ahead => ?_
    rw [previousSpan_bind, show left = room - (f.callSpine + 1) by omega]
    exact .on (by omega) (by rw [Expr.bare, Expr.bare, sameF, same]) ahead

mutual

theorem back : (e : Expr) → e.isRanked = true → Back e
  | .number .., _ => .literal rfl (fun _ => ⟨_, rfl, rfl⟩) rfl rfl rfl rfl
  | .text .., _ => .literal rfl (fun _ => ⟨_, rfl, rfl⟩) rfl rfl rfl rfl
  | .bool _ true, _ => .literal rfl (fun _ => ⟨_, rfl, rfl⟩) rfl rfl rfl rfl
  | .bool _ false, _ => .literal rfl (fun _ => ⟨_, rfl, rfl⟩) rfl rfl rfl rfl
  | .null _, _ => .literal rfl (fun _ => ⟨_, rfl, rfl⟩) rfl rfl rfl rfl
  | .name here n, _ => .name here n
  | .call _ f args, ranked => by
    have parts := ranked
    simp only [Expr.isRanked, Bool.and_eq_true, decide_eq_true_eq] at parts
    exact .call (back f parts.1.2) (backs args parts.2) parts.1.1 ranked
  | .unary _ op e, ranked => by
    simp only [Expr.isRanked, Bool.and_eq_true, decide_eq_true_eq] at ranked
    exact .unary (back e ranked.2) ranked.1
  | .binary _ op a b, ranked => by
    simp only [Expr.isRanked, Operator.ranks, Bool.and_eq_true, decide_eq_true_eq] at ranked
    exact .node (.binary op) (back a ranked.1.2) (back b ranked.2) ranked.1.1.1 ranked.1.1.2
  | .logical _ op a b, ranked => by
    simp only [Expr.isRanked, Operator.ranks, Bool.and_eq_true, decide_eq_true_eq] at ranked
    exact .node (.logical op) (back a ranked.1.2) (back b ranked.2) ranked.1.1.1 ranked.1.1.2
  | .conditional _ c a b, ranked => by
    simp only [Expr.isRanked, Bool.and_eq_true, decide_eq_true_eq] at ranked
    exact .conditional_of (back c ranked.1.1.2) (back a ranked.1.2) (back b ranked.2) ranked.1.1.1
  | .assign _ _ _ e, ranked => .assign (back e ranked)
  | .update _ _ true _, _ => .updateBefore
  | .update _ _ false _, _ => .updateBehind
  | .paren _ e, ranked => .paren (back e ranked) ranked

theorem backs : (es : List Expr) → areRanked es = true → ∀ e ∈ es, Back e
  | [], _ => List.forall_mem_nil _
  | e :: es, ranked => by
    simp only [areRanked, Bool.and_eq_true] at ranked
    exact List.forall_mem_cons.2 ⟨back e ranked.1, backs es ranked.2⟩

end

end Parse

end Spellcraft
