import Spellcraft.Proofs.Language.ReadBackExpr

namespace Spellcraft

def standsApart : List Kind → Bool
  | .name _ :: .symbol _ :: _ | [.name _] => true
  | .name _ :: _ => false
  | _ => true

theorem standsApart_append (h : standsApart ks = true) (ne : ks ≠ []) (m : Symbol)
    (ls : List Kind) : standsApart (ks ++ .symbol m :: ls) = true := by
  rcases ks with _ | ⟨k, _ | ⟨k', ks⟩⟩
  · exact absurd rfl ne
  · cases k <;> rfl
  · cases k <;> first | rfl | (cases k' <;> first | rfl | cases h)

theorem Expr.standsApart : (e : Expr) → Spellcraft.standsApart e.writing = true
  | .number .. | .text .. | .bool .. | .null _ | .name .. | .assign .. | .unary .. | .paren ..
  | .update _ _ true _ | .update _ _ false _ => rfl
  | .call _ f _ => by
    rw [writing, List.append_assoc]
    exact standsApart_append f.standsApart f.writing_ne_nil _ _
  | .binary _ _ a _ | .logical _ _ a _ => standsApart_append a.standsApart a.writing_ne_nil _ _
  | .conditional _ c _ _ => by
    simp only [writing, List.append_assoc, List.cons_append]
    exact standsApart_append c.standsApart c.writing_ne_nil _ _

theorem Declaration.standsApart (d : Declaration) (ls : List Kind) :
    Spellcraft.standsApart (commas (d.declarators.map Declarator.writing) ++
      .symbol .semicolon :: ls) = true := by
  rcases d.declarators with _ | ⟨⟨n, _ | e⟩, _ | ⟨v, vs⟩⟩ <;> rfl

namespace Parse

theorem looksForEach_of_name (ahead : Ahead line ks s) (other : DeclKind.ofKind? (next ks) = none)
    (h : standsApart ks = true) : looksForEach s = false := by
  simp only [looksForEach, ahead.kind_eq, ahead.kindAt_eq, other, Option.isSome_none,
    Bool.false_eq_true, if_false]
  rcases ks with _ | ⟨k, _ | ⟨k', ks⟩⟩
  · rfl
  · cases k <;> rfl
  · cases k <;> first | rfl | (cases k' <;> first | rfl | cases h)

theorem looksForEach_of_keyword (ahead : Ahead line (.keyword d :: ks) s)
    (declares : (DeclKind.ofKind? (.keyword d)).isSome = true) (h : standsApart ks = true) :
    looksForEach s = false := by
  simp only [looksForEach, ahead.kind_eq, next_cons, ahead.kindAt_eq, declares, if_true]
  rcases ks with _ | ⟨k, _ | ⟨k', ks⟩⟩
  · rfl
  · cases k <;> rfl
  · cases k <;> first | rfl | (cases k' <;> first | rfl | cases h)

variable {line room : Nat} {ks : List Kind} {s : Stream}

theorem commaRounds_answers {item : Parse α} {w : α → List Kind} {bare : α → β} {fits : α → Prop} :
    ∀ (as : List α) (n : Nat), as ≠ [] → as.length ≤ n + 1 →
    (∀ a ∈ as, ∀ {ks s}, Ahead line (w a ++ ks) s → 10 < (next ks).reach →
      Answers line (fits a) (bare · = bare a) ks pure (item s)) →
    ∀ {ks s}, 10 < (next ks).reach → (next ks).isSymbol .comma = false →
    Ahead line (commas (as.map w) ++ ks) s →
    Answers line (∀ a ∈ as, fits a) (·.map bare = as.map bare) ks pure (commaRounds item n s)
  | [], _, ne, _, _, _, _, _, _, _ => absurd rfl ne
  | [a], n, _, _, items, ks, s, stop, ends, ahead => by
    have ahead : Ahead line (w a ++ ks) s := by simpa [commas] using ahead
    have one := items a (.head _) ahead stop
    cases n with
    | zero =>
      rw [commaRounds]
      refine one.bind (by simp) fun a t fits same ahead => ?_
      exact .on (by simpa using fits) (by simpa using same) ahead
    | succ n =>
      rw [commaRounds]
      refine one.bind (by simp) fun a t fits same ahead => ?_
      rw [ahead.pass_bind ends]
      exact .on (by simpa using fits) (by simpa using same) ahead
  | a :: b :: as, 0, _, le, _, _, _, _, _, _ => absurd le (by simp)
  | a :: b :: as, n + 1, _, le, items, ks, s, stop, ends, ahead => by
    have ahead : Ahead line (w a ++ .symbol .comma :: (commas ((b :: as).map w) ++ ks)) s := by
      simpa [commas] using ahead
    obtain ⟨first, others⟩ := List.forall_mem_cons.1 items
    rw [commaRounds]
    refine (first ahead (Nat.le_refl 11)).bind (fun short all => short (all a (.head _)))
      fun a' t one same ahead => ?_
    rw [ahead.eat_bind]
    refine (commaRounds_answers (b :: as) n (List.cons_ne_nil b as) (Nat.le_of_succ_le_succ le) others stop ends
      ahead.advance).bind (fun short all => short fun c hc => all c (.tail _ hc))
      fun as t more all ahead => ?_
    exact .on (List.forall_mem_cons.2 ⟨one, more⟩) (by rw [List.map_cons, same, all]; rfl) ahead

theorem commaList_answers {item : Parse α} {w : α → List Kind} {bare : α → β} {fits : α → Prop}
    {as : List α} (ne : as ≠ []) (written : ∀ a, w a ≠ [])
    (items : ∀ a ∈ as, ∀ {ks s}, Ahead line (w a ++ ks) s → 10 < (next ks).reach →
      Answers line (fits a) (bare · = bare a) ks pure (item s))
    (ahead : Ahead line (commas (as.map w) ++ ks) s) (stop : 10 < (next ks).reach)
    (ends : (next ks).isSymbol .comma = false) :
    Answers line (∀ a ∈ as, fits a) (·.map bare = as.map bare) ks pure (commaList item s) := by
  have := length_le_commas written as
  rw [commaList, tokensLeft_bind]
  refine commaRounds_answers as _ ne ?_ items stop ends ahead
  rw [ahead.rest_length, List.length_append]
  omega

theorem params_answers {params : List Ident} (ne : params ≠ [])
    (ahead : Ahead line (commas (params.map fun p => [.name p.name]) ++
      .symbol .closeParen :: ks) s) :
    Answers line True (·.map Ident.bare = params.map Ident.bare) (.symbol .closeParen :: ks) pure
      (commaList name s) := by
  have one (p : Ident) {ks : List Kind} {s : Stream} (ahead : Ahead line ([.name p.name] ++ ks) s) :
      Answers line True (Ident.bare · = p.bare) ks pure (name s) := by
    rw [← bind_pure name, ahead.name_bind]
    exact .on trivial rfl ahead.advance
  refine (commaList_answers ne (fun _ => List.cons_ne_nil _ _) (fun p _ _ _ ahead _ => one p ahead)
    ahead (Nat.le_refl 11) rfl).onto (absurd fun _ _ => trivial) fun as t _ same ahead => ?_
  exact .on trivial same ahead

theorem declarator_answers {kind : DeclKind} (v : Declarator)
    (ranked : ∀ e ∈ v.init, e.isRanked = true) (given : kind = .const → v.init.isSome = true)
    (ahead : Ahead line (v.writing ++ ks) s) (stop : 10 < (next ks).reach) :
    Answers line (∀ e ∈ v.init, e.opens + 1 ≤ room) (Declarator.bare · = v.bare) ks pure
      (declarator kind room s) := by
  obtain ⟨n, init⟩ := v
  cases init with
  | none =>
    have ahead : Ahead line (.name n.name :: ks) s := ahead
    have loose : kind ≠ .const := fun h => nomatch given h
    have closed : (next ks).isSymbol .assign = false := Kind.isSymbol_of_reach stop (Nat.le_refl 10)
    rw [declarator, ahead.name_bind, ahead.advance.pass_bind closed]
    simp only [Bool.false_eq_true, if_false, loose]
    exact .on nofun rfl ahead.advance
  | some e =>
    have ahead : Ahead line (.name n.name :: .symbol .assign :: (e.writing ++ ks)) s := ahead
    rw [declarator, ahead.name_bind, ahead.advance.eat_bind]
    simp only [if_true]
    refine ((back e (ranked e rfl)).expression ahead.advance.advance stop).bind
      (fun short all => short (all e rfl)) fun e' t fits same ahead => ?_
    refine .on (fun _ h => by cases h; exact fits) ?_ ahead
    simp only [Declarator.bare, Option.map_some, same, Ident.bare]

theorem declaration_answers (d : Declaration) (ranked : areRanked d.values = true)
    (complete : d.isComplete = true) (ahead : Ahead line (d.writing ++ ks) s)
    (stop : 10 < (next ks).reach) (ends : (next ks).isSymbol .comma = false) :
    Answers line (argumentsOpen d.values ≤ room) (Declaration.bare · = d.bare) ks pure
      (declaration d.kind room s) := by
  obtain ⟨some_, given⟩ : d.declarators ≠ [] ∧
      ∀ v ∈ d.declarators, d.kind = .const → v.init.isSome = true := by
    simp only [Declaration.isComplete, Bool.and_eq_true, Bool.not_eq_true',
      List.isEmpty_eq_false_iff, Bool.or_eq_true, decide_eq_true_eq, List.all_eq_true] at complete
    exact ⟨complete.1, fun v hv const => complete.2.resolve_left (· const) v hv⟩
  have fits : argumentsOpen d.values ≤ room ↔
      ∀ v ∈ d.declarators, ∀ e ∈ v.init, e.opens + 1 ≤ room := by
    rw [argumentsOpen_le, Declaration.forall_mem_values]
  have ahead : Ahead line (.keyword d.kind.keyword ::
      (commas (d.declarators.map Declarator.writing) ++ ks)) s := ahead
  rw [fits, declaration, span_bind, advance_bind]
  have ranked := Declaration.forall_mem_values.1 (areRanked_iff.1 ranked)
  refine (commaList_answers some_ (fun v => by simp [Declarator.writing])
    (fun v hv => declarator_answers v (ranked v hv) (given v hv)) ahead.advance stop ends).bind id
    fun ds t fits same ahead => ?_
  rw [previousSpan_bind]
  exact .on fits (by simp only [Declaration.bare, same]) ahead

theorem parenCondition_answers (ranked : c.isRanked = true)
    (ahead : Ahead line (parenthesised c ++ ks) s) :
    Answers line (c.opens + 1 ≤ room) (·.bare = c.bare) ks pure (parenCondition room s) := by
  have ahead : Ahead line (.symbol .openParen :: (c.writing ++ .symbol .closeParen :: ks)) s := by
    simpa [parenthesised] using ahead
  rw [parenCondition, ahead.expect_bind]
  refine ((back c ranked).expression ahead.advance (Nat.le_refl 11)).bind id
    fun c' t fits same ahead => ?_
  rw [ahead.expectClosing_bind]
  exact .on fits same ahead.advance

theorem expressionUnless_answers {m : Symbol} (o : Option Expr) (ranked : areRanked o.toList = true)
    (ahead : Ahead line (optionWriting o ++ .symbol m :: ks) s)
    (ends : (Kind.symbol m).begins = false) (stop : 10 < (Kind.symbol m).reach) :
    Answers line (argumentsOpen o.toList ≤ room) (·.map Expr.bare = o.map Expr.bare)
      (.symbol m :: ks) pure (expressionUnless m room s) := by
  rw [expressionUnless, sees_bind, ahead.kind_eq]
  cases o with
  | none =>
    have ends : (next (optionWriting none ++ .symbol m :: ks)).isSymbol m = true :=
      decide_eq_true rfl
    rw [ends]
    exact .on (Nat.zero_le _) rfl ahead
  | some e =>
    have opens : (next (e.writing ++ .symbol m :: ks)).isSymbol m = false := by
      rw [next_append e.writing_ne_nil]
      exact Kind.isSymbol_of_begins e.begins ends
    have ranked : e.isRanked = true := by simpa [areRanked] using ranked
    have fits : argumentsOpen (some e).toList ≤ room ↔ e.opens + 1 ≤ room := by
      simp [argumentsOpen]
    simp only [optionWriting, opens, fits, map_eq_pure_bind] at ahead ⊢
    refine ((back e ranked).expression ahead stop).bind id fun e' t fits same ahead => ?_
    exact .on fits (congrArg some same) ahead

theorem DeclKind.ofKind_keyword (k : DeclKind) :
    DeclKind.ofKind? (.keyword k.keyword) = some k := by
  cases k <;> rfl

theorem DeclKind.ofKind_none {k : Kind} (h : k.begins = true) : DeclKind.ofKind? k = none := by
  unfold DeclKind.ofKind?
  split <;> first | rfl | cases h

theorem forInit_answers (init : ForInit) (ranked : areRanked init.values = true)
    (complete : init.isComplete = true) (ahead : Ahead line (init.writing ++ semicolon ++ ks) s) :
    Answers line (argumentsOpen init.values ≤ room) (ForInit.bare · = init.bare) ks pure
      (forInit room s) := by
  cases init with
  | absent =>
    have ahead : Ahead line (.symbol .semicolon :: ks) s := ahead
    rw [forInit, ahead.eat_bind]
    exact .on (Nat.zero_le _) rfl ahead.advance
  | declare d =>
    have ahead : Ahead line (d.writing ++ .symbol .semicolon :: ks) s := by
      simpa [ForInit.writing, semicolon] using ahead
    rw [forInit, ahead.pass_bind rfl]
    simp only [Bool.false_eq_true, if_false]
    rw [kind_bind, ahead.kind_eq, show next (d.writing ++ _) = .keyword d.kind.keyword from rfl,
      DeclKind.ofKind_keyword]
    simp only [map_eq_pure_bind, bind_assoc, pure_bind]
    refine (declaration_answers d ranked complete ahead (Nat.le_refl 11) rfl).bind id
      fun d' t fits same ahead => ?_
    rw [ahead.expect_bind]
    exact .on fits (congrArg ForInit.declare same) ahead.advance
  | expr e =>
    have ahead : Ahead line (e.writing ++ .symbol .semicolon :: ks) s := by
      simpa [ForInit.writing, semicolon] using ahead
    have begins : (next (e.writing ++ .symbol .semicolon :: ks)).begins = true := by
      rw [next_append e.writing_ne_nil]
      exact e.begins
    have ranked : e.isRanked = true := by simpa [ForInit.values, areRanked] using ranked
    have fits : argumentsOpen (ForInit.expr e).values ≤ room ↔ e.opens + 1 ≤ room := by
      simp [ForInit.values, argumentsOpen]
    rw [fits, forInit, ahead.pass_bind (Kind.isSymbol_of_begins begins rfl)]
    simp only [Bool.false_eq_true, if_false]
    rw [kind_bind, ahead.kind_eq, DeclKind.ofKind_none begins]
    simp only [map_eq_pure_bind, bind_assoc, pure_bind]
    refine ((back e ranked).expression ahead (Nat.le_refl 11)).bind id
      fun e' t fits same ahead => ?_
    rw [ahead.expect_bind]
    exact .on fits (congrArg ForInit.expr same) ahead.advance

theorem looksForEach_eq_false (init : ForInit)
    (ahead : Ahead line (init.writing ++ semicolon ++ ks) s) : looksForEach s = false := by
  cases init with
  | absent =>
    have ahead : Ahead line (.symbol .semicolon :: ks) s := ahead
    exact looksForEach_of_name ahead rfl rfl
  | declare d =>
    have ahead : Ahead line (.keyword d.kind.keyword ::
        (commas (d.declarators.map Declarator.writing) ++ .symbol .semicolon :: ks)) s := by
      simpa [ForInit.writing, Declaration.writing, semicolon] using ahead
    exact looksForEach_of_keyword ahead (by rw [DeclKind.ofKind_keyword]; rfl) (d.standsApart ks)
  | expr e =>
    have ahead : Ahead line (e.writing ++ .symbol .semicolon :: ks) s := by
      simpa [ForInit.writing, semicolon] using ahead
    refine looksForEach_of_name ahead ?_ (standsApart_append e.standsApart e.writing_ne_nil _ _)
    rw [next_append e.writing_ne_nil]
    exact DeclKind.ofKind_none e.begins

end Parse

end Spellcraft
