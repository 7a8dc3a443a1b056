import Spellcraft.Proofs.Language.ReadBackHead
import Spellcraft.Proofs.Language.ReadsStmt

/-!
A spell in shape is read back from its writing. A statement that gives up at the nesting limit may
be passed over, and what stands around it then comes to something all the same; but the report of
it stays.
-/

namespace Spellcraft

def elseAhead (ks : List Kind) : Bool := (next ks).isKeyword .else_

theorem Stmt.begins (st : Stmt) :
    (next st.writing).isKeyword .else_ = false ∧
      (next st.writing).isSymbol .closeBrace = false := by
  cases st with
  | expr _ e =>
    rw [writing, next_append e.writing_ne_nil]
    have := e.begins
    generalize next e.writing = k at this
    refine ⟨?_, Kind.isSymbol_of_begins this rfl⟩
    cases hk : k.isKeyword .else_ with
    | false => rfl
    | true =>
      rw [Kind.eq_of_isKeyword hk] at this
      cases this
  | declare d => rcases d with ⟨kind, _, _⟩; cases kind <;> exact ⟨rfl, rfl⟩
  | _ => exact ⟨rfl, rfl⟩

namespace Parse

variable {line room : Nat} {ks : List Kind} {s : Stream}

/-- Where there is room, a tree was read; otherwise the nesting limit was reported and whatever came
of it came of passing over. -/
inductive Ends (line : Nat) (room : Prop) (good : α → Prop) (ks : List Kind) :
    Option α × Stream → Prop
  | on : room → good a → Ahead line ks t → Ends line room good ks (some a, t)
  | deep : ¬ room → Deep t → Ends line room good ks (o, t)

section

variable {m n : Prop} {good : α → Prop} {good' : β → Prop} {ls : List Kind} {p : Parse α}
variable {f : α → Parse β}

theorem Answers.thence (h : Answers line m good ks pure (p s)) (short : ¬ m → ¬ n)
    (hf : ∀ a t, m → good a → Ahead line ks t → Ends line n good' ls (f a t)) :
    Ends line n good' ls ((p >>= f) s) := by
  rw [bind_apply]
  generalize p s = r at h
  cases h with
  | on room ha ht => exact hf _ _ room ha ht
  | deep room ht => exact .deep (short room) ht

namespace Ends

theorem tooDeep (h : Ahead line ls s) (short : ¬ m) : Ends line m good ks (tooDeep s) := by
  obtain ⟨t, ht, deep⟩ := h.tooDeep
  exact ht ▸ .deep short deep

protected theorem bind (h : Ends line m good ks (p s)) (short : ¬ m → ¬ n)
    (honest : ∀ a, Honest (f a))
    (hf : ∀ a t, m → good a → Ahead line ks t → Ends line n good' ls (f a t)) :
    Ends line n good' ls ((p >>= f) s) := by
  rw [bind_apply]
  generalize p s = r at h
  rcases r with ⟨_ | a, t⟩
  · cases h with
    | deep room ht => exact .deep (short room) ht
  · cases h with
    | on room ha ht => exact hf _ _ room ha ht
    | deep room ht => exact .deep (short room) (ht.grows ((honest a).grows t))

protected theorem attempt (h : Ends line m good ks (p s)) :
    Ends line m (fun o => ∃ a, o = some a ∧ good a) ks (attempt p s) := by
  simp only [Parse.attempt]
  generalize p s = r at h
  rcases r with ⟨_ | a, t⟩
  · cases h with
    | deep room ht =>
      refine .deep room ?_
      rwa [Deep, Stream.report_recover]
  · cases h with
    | on room ha ht => exact .on room ⟨a, rfl, ha⟩ ht
    | deep room ht => exact .deep room ht

end Ends

end

structure BackStmt (st : Stmt) : Prop where
  run {line room : Nat} {inLoop : Bool} {ks : List Kind} {s : Stream}
    (jumps : st.jumpsInLoops inLoop = true) (closed : st.endsOpen = true → elseAhead ks = false)
    (ahead : Ahead line (st.writing ++ ks) s) :
    Ends line (st.opens ≤ room) (·.bare = st.bare) ks (statement room inLoop s)

theorem statement_honest (room : Nat) (inLoop : Bool) : Honest (statement room inLoop) :=
  (statement_reads room inLoop).toHonest

namespace BackStmt

theorem of_room (h : ∀ {line room : Nat} {inLoop : Bool} {ks : List Kind} {s : Stream},
    st.jumpsInLoops inLoop = true → (st.endsOpen = true → elseAhead ks = false) →
    Ahead line (st.writing ++ ks) s →
    Ends line (st.opens ≤ room + 1) (·.bare = st.bare) ks (statement (room + 1) inLoop s)) :
    BackStmt st := by
  refine ⟨fun {line room inLoop ks s} jumps closed ahead => ?_⟩
  cases room with
  | zero =>
    have opens : ¬ st.opens ≤ 0 := by cases st <;> simp only [Stmt.opens] <;> omega
    exact .tooDeep ahead opens
  | succ room => exact h jumps closed ahead

theorem empty : BackStmt (.empty here) := of_room fun {line room inLoop ks s} _ _ ahead => by
  have ahead : Ahead line (.symbol .semicolon :: ks) s := ahead
  rw [statement, kind_bind, ahead.kind_eq]
  exact .on (Nat.le_add_left 1 room) rfl ahead.advance

theorem jump {build : Span → Stmt} {word : Keyword}
    (ahead : Ahead line (.keyword word :: .symbol .semicolon :: ks) s)
    (same : (build s.span).bare = bare) :
    Ends line (1 ≤ room + 1) (·.bare = bare) ks (jumpStatement word true build s) := by
  simp only [jumpStatement, span_bind, advance_bind, Bool.not_true, Bool.false_eq_true, if_false]
  rw [ahead.advance.endStatement_bind]
  exact .on (Nat.le_add_left 1 room) same ahead.advance.advance

theorem break_ : BackStmt (.break_ here) := of_room fun {line room inLoop ks s} jumps _ ahead => by
  have ahead : Ahead line (.keyword .break_ :: .symbol .semicolon :: ks) s := ahead
  obtain rfl : inLoop = true := jumps
  rw [statement, kind_bind, ahead.kind_eq]
  exact jump ahead rfl

theorem continue_ : BackStmt (.continue_ here) :=
  of_room fun {line room inLoop ks s} jumps _ ahead => by
  have ahead : Ahead line (.keyword .continue_ :: .symbol .semicolon :: ks) s := ahead
  obtain rfl : inLoop = true := jumps
  rw [statement, kind_bind, ahead.kind_eq]
  exact jump ahead rfl

theorem declare (ranked : areRanked d.values = true) (complete : d.isComplete = true) :
    BackStmt (.declare d) := of_room fun {line room inLoop ks s} _ _ ahead => by
  have ahead : Ahead line (d.writing ++ .symbol .semicolon :: ks) s := by
    simpa [Stmt.writing, semicolon] using ahead
  have dispatch : statement (room + 1) inLoop s =
      (do
        let d ← declaration d.kind room
        endStatement
        return .declare d : Parse Stmt) s := by
    have first : next (d.writing ++ .symbol .semicolon :: ks) = .keyword d.kind.keyword := rfl
    rw [statement, kind_bind, ahead.kind_eq, first]
    cases d.kind <;> rfl
  rw [dispatch, Stmt.opens, Nat.add_le_add_iff_right]
  refine (declaration_answers d ranked complete ahead (Nat.le_refl 11) rfl).thence id
    fun d' t fits same ahead => ?_
  rw [ahead.endStatement_bind]
  exact .on fits (congrArg Stmt.declare same) ahead.advance

theorem expr (ranked : e.isRanked = true) : BackStmt (.expr here e) :=
  of_room fun {line room inLoop ks s} _ _ ahead => by
  have ahead : Ahead line (e.writing ++ .symbol .semicolon :: ks) s := by
    simpa [Stmt.writing, semicolon] using ahead
  have begins := e.begins
  have dispatch : statement (room + 1) inLoop s = expressionStatement room s := by
    rw [statement, kind_bind, ahead.kind_eq, next_append e.writing_ne_nil]
    generalize next e.writing = k at begins
    split <;> first | cases begins | rw [DeclKind.ofKind_none begins]
  have fits : (Stmt.expr here e).opens ≤ room + 1 ↔ e.opens + 1 ≤ room := by
    simp only [Stmt.opens]
    omega
  rw [dispatch, fits]
  refine ((back e ranked).expression ahead (Nat.le_refl 11)).thence id
    fun e' t fits same ahead => ?_
  rw [ahead.endStatement_bind]
  exact .on fits (congrArg (Stmt.expr _) same) ahead.advance

theorem return_ (ranked : areRanked value.toList = true) : BackStmt (.return_ here value) :=
  of_room fun {line room inLoop ks s} _ _ ahead => by
  have fits : (Stmt.return_ here value).opens ≤ room + 1 ↔ argumentsOpen value.toList ≤ room :=
    Nat.add_le_add_iff_right
  have ahead : Ahead line (.keyword .return_ :: (optionWriting value ++ .symbol .semicolon :: ks))
    s := by simpa [Stmt.writing, semicolon] using ahead
  rw [fits, statement, kind_bind, ahead.kind_eq, next_cons]
  simp only [returnStatement, span_bind, advance_bind, get_bind]
  have ahead := ahead.advance
  cases value with
  | none =>
    have ahead : Ahead line (.symbol .semicolon :: ks) s.advance := ahead
    simp only [ahead.kind_eq, next_cons, Kind.isSymbol, decide_true, Bool.true_or, if_true,
      pure_bind]
    rw [previousSpan_bind, ahead.endStatement_bind]
    exact .on (Nat.zero_le _) rfl ahead.advance
  | some e =>
    have ahead : Ahead line (e.writing ++ .symbol .semicolon :: ks) s.advance := ahead
    have begins : (next (e.writing ++ .symbol .semicolon :: ks)).begins = true := by
      rw [next_append e.writing_ne_nil]
      exact e.begins
    have ranked : e.isRanked = true := by simpa [areRanked] using ranked
    have fits : argumentsOpen (some e).toList ≤ room ↔ e.opens + 1 ≤ room := by
      simp [argumentsOpen]
    have other {m : Symbol} (hm : (Kind.symbol m).begins = false) :=
      Kind.isSymbol_of_begins begins hm
    obtain ⟨goesOn, sameLine⟩ := ahead.goes (by simp)
    simp only [fits, ahead.kind_eq, other (m := .semicolon) rfl, other (m := .closeBrace) rfl,
      goesOn, sameLine, Bool.or_false, Bool.false_eq_true, if_false, map_eq_pure_bind, bind_assoc,
      pure_bind]
    refine ((back e ranked).expression ahead (Nat.le_refl 11)).thence id
      fun e' t fits same ahead => ?_
    rw [previousSpan_bind, ahead.endStatement_bind]
    exact .on fits (congrArg (Stmt.return_ _ ∘ some) same) ahead.advance

end BackStmt

theorem blockRounds_honest (room : Nat) (inLoop : Bool) (n : Nat) :
    Honest (blockRounds (statement room inLoop) n) :=
  ((statement_reads room inLoop).blockRounds n).toHonest

theorem round_ends {rounds : Parse (List Stmt)} {ls : List Kind} (first : BackStmt a)
    (jump : a.jumpsInLoops inLoop = true) (closed : elseAhead ls = false)
    (honest : Honest rounds) (ahead : Ahead line (a.writing ++ ls) s)
    (others : ∀ t, Ahead line ls t →
      Ends line (bodyOpens rest ≤ room) (fun as => bareBody as = bareBody rest) ks (rounds t)) :
    Ends line (bodyOpens (a :: rest) ≤ room) (fun as => bareBody as = bareBody (a :: rest)) ks
      ((do
        match ← attempt (statement room inLoop) with
        | some stmt => return stmt :: (← rounds)
        | none => rounds : Parse (List Stmt)) s) := by
  have fits : bodyOpens (a :: rest) ≤ room ↔ a.opens ≤ room ∧ bodyOpens rest ≤ room := Nat.max_le
  rw [fits]
  refine (first.run jump (fun _ => closed) ahead).attempt.bind (mt And.left) (fun o => ?_)
    fun o t one same ahead => ?_
  · cases o with
    | some a => exact honest.bind fun _ => .pure _
    | none => exact honest
  · obtain ⟨a', rfl, same⟩ := same
    refine (others t ahead).bind (mt And.right) (fun _ => .pure _) fun as t more all ahead => ?_
    exact .on ⟨one, more⟩ (by rw [bareBody, bareBody, same, all]) ahead

theorem elseAhead_body (body : List Stmt) (h : elseAhead ks = false) :
    elseAhead (bodyWriting body ++ ks) = false := by
  cases body with
  | nil => exact h
  | cons a rest =>
    rw [elseAhead, bodyWriting, List.append_assoc, next_append a.writing_ne_nil]
    exact a.begins.1

theorem blockRounds_ends : ∀ (body : List Stmt), (∀ st ∈ body, BackStmt st) →
    ∀ {line room inLoop ks s n}, bodyJumpsInLoops inLoop body = true → body.length ≤ n →
    Ahead line (bodyWriting body ++ .symbol .closeBrace :: ks) s →
    Ends line (bodyOpens body ≤ room) (fun as => bareBody as = bareBody body)
      (.symbol .closeBrace :: ks) (blockRounds (statement room inLoop) n s)
  | [], _, line, room, inLoop, ks, s, n, _, _, ahead => by
    have ahead : Ahead line (.symbol .closeBrace :: ks) s := ahead
    cases n with
    | zero => exact .on (Nat.zero_le _) rfl ahead
    | succ n =>
      rw [blockRounds, get_bind, ahead.kind_eq]
      exact .on (Nat.zero_le _) rfl ahead
  | a :: rest, _, line, room, inLoop, ks, s, 0, _, le, _ => absurd le (Nat.not_succ_le_zero _)
  | a :: rest, back, line, room, inLoop, ks, s, n + 1, jumps, le, ahead => by
    obtain ⟨first, others⟩ := List.forall_mem_cons.1 back
    obtain ⟨jump, jumps⟩ := Bool.and_eq_true_iff.1 jumps
    have ahead : Ahead line (a.writing ++ (bodyWriting rest ++ .symbol .closeBrace :: ks)) s := by
      simpa only [bodyWriting, List.append_assoc] using ahead
    have goes := (ahead.goes (by simp)).1
    rw [blockRounds, get_bind, ahead.kind_eq, next_append a.writing_ne_nil, a.begins.2, goes,
      ahead.isFull_eq]
    exact round_ends first jump (elseAhead_body rest rfl) (blockRounds_honest room inLoop n) ahead
      fun t ahead => blockRounds_ends rest others jumps (Nat.le_of_succ_le_succ le) ahead

theorem length_le_bodyWriting (body : List Stmt) : body.length ≤ (bodyWriting body).length := by
  induction body with
  | nil => exact Nat.le_refl 0
  | cons a rest ih =>
    have := List.length_pos_iff.2 a.writing_ne_nil
    simp only [bodyWriting, List.length_append, List.length_cons]
    omega

theorem block_ends {body : List Stmt} (back : ∀ st ∈ body, BackStmt st)
    (jumps : bodyJumpsInLoops inLoop body = true)
    (ahead : Ahead line (.symbol .openBrace :: (bodyWriting body ++ .symbol .closeBrace :: ks)) s) :
    Ends line (bodyOpens body ≤ room) (fun b => bareBody b.2 = bareBody body) ks
      (block (statement room inLoop) s) := by
  have enough : body.length ≤ s.advance.rest.length := by
    have := length_le_bodyWriting body
    rw [ahead.advance.rest_length, List.length_append]
    omega
  rw [block, span_bind, ahead.expect_bind, tokensLeft_bind]
  refine (blockRounds_ends body back jumps enough ahead.advance).bind id (fun _ => ?_)
    fun as t fits same ahead => ?_
  · exact .bind (.of_triple fun _ => .expectClosing _ _) fun _ => .bind (.look _) fun _ => .pure _
  · rw [ahead.expectClosing_bind, previousSpan_bind]
    exact .on fits same ahead.advance

namespace BackStmt

theorem block (back : ∀ st ∈ body, BackStmt st) : BackStmt (.block here body) :=
  of_room fun {line room inLoop ks s} jumps _ ahead => by
  have ahead : Ahead line (.symbol .openBrace ::
      (bodyWriting body ++ .symbol .closeBrace :: ks)) s := by simpa [Stmt.writing] using ahead
  rw [statement, kind_bind, ahead.kind_eq, Stmt.opens, Nat.add_le_add_iff_right]
  refine (block_ends back jumps ahead).bind id (fun _ => .pure _) fun b t fits same ahead => ?_
  exact .on fits (by rw [Stmt.bare, Stmt.bare, same]) ahead

theorem function (back : ∀ st ∈ body, BackStmt st) :
    BackStmt (.function here i params bodySpan body) :=
  of_room fun {line room inLoop ks s} jumps _ ahead => by
  have ahead : Ahead line (.keyword .function :: .name i.name :: .symbol .openParen ::
      (commas (params.map fun p => [.name p.name]) ++ .symbol .closeParen :: .symbol .openBrace ::
        (bodyWriting body ++ .symbol .closeBrace :: ks))) s := by
    simpa [Stmt.writing] using ahead
  rw [statement, kind_bind, ahead.kind_eq, Stmt.opens, Nat.add_le_add_iff_right]
  have ahead := ahead.advance
  simp only [next_cons, functionStatement, span_bind, advance_bind, sees_bind, ahead.kind_eq,
    Kind.isSymbol, Bool.false_eq_true, if_false]
  rw [ahead.name_bind, ahead.advance.expect_bind, sees_bind]
  have ahead := ahead.advance.advance
  have closed (start nameSpan opened : Span) (ps : List Ident) (t : Stream)
      (same : ps.map Ident.bare = params.map Ident.bare) (ahead : Ahead line (.symbol .closeParen ::
        .symbol .openBrace :: (bodyWriting body ++ .symbol .closeBrace :: ks)) t) :
      Ends line (bodyOpens body ≤ room)
        (·.bare = (Stmt.function here i params bodySpan body).bare) ks
        ((do
          expectClosing .closeParen opened
          let b ← Parse.block (statement room false)
          return .function (start.merge b.1) ⟨i.name, nameSpan⟩ ps b.1 b.2 : Parse Stmt) t) := by
    rw [ahead.expectClosing_bind]
    refine (block_ends back jumps ahead.advance).bind id (fun _ => .pure _)
      fun b t fits body ahead => ?_
    exact .on fits (by simp only [Stmt.bare, same, body, Ident.bare]) ahead
  cases params with
  | nil =>
    have ahead : Ahead line (.symbol .closeParen :: .symbol .openBrace ::
        (bodyWriting body ++ .symbol .closeBrace :: ks)) s.advance.advance.advance := ahead
    simp only [ahead.kind_eq, next_cons, Kind.isSymbol, decide_true, if_true, pure_bind]
    exact closed _ _ _ [] _ rfl ahead
  | cons p ps =>
    have other : (next (commas ((p :: ps).map fun p => [.name p.name]) ++ .symbol .closeParen ::
        .symbol .openBrace :: (bodyWriting body ++ .symbol .closeBrace :: ks))).isSymbol
          .closeParen = false := rfl
    simp only [ahead.kind_eq, other, Bool.false_eq_true, if_false]
    refine (params_answers (List.cons_ne_nil p ps) ahead).thence (absurd trivial)
      fun as t _ same ahead => ?_
    exact closed _ _ _ as _ same ahead

theorem branch (hc : c.isRanked = true) (hy : BackStmt yes) (hn : ∀ st ∈ no, BackStmt st)
    (open_ : ¬ (no.isSome = true ∧ yes.endsOpen = true)) : BackStmt (.branch here c yes no) :=
  of_room fun {line room inLoop ks s} jumps closed ahead => by
  have ahead : Ahead line (.keyword .if_ :: (parenthesised c ++ (yes.writing ++ (elseWriting no ++
      ks)))) s := by simpa [Stmt.writing] using ahead
  have fits : (Stmt.branch here c yes no).opens ≤ room + 1 ↔
      c.opens + 1 ≤ room ∧ yes.opens ≤ room ∧ elseOpens no ≤ room := by
    simp only [Stmt.opens]
    omega
  obtain ⟨jumpsYes, jumpsNo⟩ := Bool.and_eq_true_iff.1 jumps
  rw [fits, statement, kind_bind, ahead.kind_eq, next_cons]
  simp only [branchStatement, span_bind, advance_bind]
  refine (parenCondition_answers hc ahead.advance).thence (mt And.left)
    fun c' t head sameC ahead => ?_
  have tight : yes.endsOpen = true → elseAhead (elseWriting no ++ ks) = false := by
    cases no with
    | none => exact fun _ => closed rfl
    | some other => exact fun h => absurd ⟨rfl, h⟩ open_
  refine (hy.run jumpsYes tight ahead).bind (mt (·.2.1)) (fun _ => ?_)
    fun yes' t one same ahead => ?_
  · refine .bind (.look _) fun k => ?_
    split
    · exact .bind .advance fun _ => .bind (statement_honest room inLoop).map fun _ =>
        .bind (.look _) fun _ => .pure _
    · exact .bind (.pure _) fun _ => .bind (.look _) fun _ => .pure _
  cases no with
  | none =>
    have alone : (next ks).isKeyword .else_ = false := closed rfl
    have ahead : Ahead line ks t := ahead
    simp only [kind_bind, ahead.kind_eq, alone, Bool.false_eq_true, if_false, pure_bind]
    rw [previousSpan_bind]
    exact .on ⟨head, one, Nat.zero_le _⟩ (by simp only [Stmt.bare, sameC, same, bareElse]) ahead
  | some other =>
    have ahead : Ahead line (.keyword .else_ :: (other.writing ++ ks)) t := ahead
    simp only [kind_bind, ahead.kind_eq, next_cons, Kind.isKeyword, decide_true, if_true,
      advance_bind, map_eq_pure_bind, bind_assoc, pure_bind]
    refine ((hn other rfl).run jumpsNo closed ahead.advance).bind (mt (·.2.2))
      (fun _ => .bind (.look _) fun _ => .pure _) fun no' t two same' ahead => ?_
    rw [previousSpan_bind]
    exact .on ⟨head, one, two⟩ (by simp only [Stmt.bare, sameC, same, bareElse, same']) ahead

theorem while_ (hc : c.isRanked = true) (hb : BackStmt body) : BackStmt (.while_ here c body) :=
  of_room fun {line room inLoop ks s} jumps closed ahead => by
  have ahead : Ahead line (.keyword .while_ :: (parenthesised c ++ (body.writing ++ ks))) s := by
    simpa [Stmt.writing] using ahead
  have fits : (Stmt.while_ here c body).opens ≤ room + 1 ↔
      c.opens + 1 ≤ room ∧ body.opens ≤ room := by
    simp only [Stmt.opens]
    omega
  rw [fits, statement, kind_bind, ahead.kind_eq, next_cons]
  simp only [whileStatement, span_bind, advance_bind]
  refine (parenCondition_answers hc ahead.advance).thence (mt And.left)
    fun c' t head sameC ahead => ?_
  refine (hb.run jumps closed ahead).bind (mt And.right) (fun _ => .bind (.look _) fun _ => .pure _)
    fun body' t rest same ahead => ?_
  rw [previousSpan_bind]
  exact .on ⟨head, rest⟩ (by simp only [Stmt.bare, sameC, same]) ahead

theorem doWhile (hc : c.isRanked = true) (hb : BackStmt body) : BackStmt (.doWhile here body c) :=
  of_room fun {line room inLoop ks s} jumps _ ahead => by
  have ahead : Ahead line (.keyword .do_ :: (body.writing ++ .keyword .while_ :: (parenthesised c ++
      .symbol .semicolon :: ks))) s := by simpa [Stmt.writing, semicolon] using ahead
  have fits : (Stmt.doWhile here body c).opens ≤ room + 1 ↔
      body.opens ≤ room ∧ c.opens + 1 ≤ room := by
    simp only [Stmt.opens]
    omega
  rw [fits, statement, kind_bind, ahead.kind_eq, next_cons]
  simp only [doWhileStatement, span_bind, advance_bind]
  refine (hb.run jumps (fun _ => rfl) ahead.advance).bind (mt And.left) (fun _ => ?_)
    fun body' t rest same ahead => ?_
  · exact .bind (.of_triple fun _ => .expectKeyword _) fun _ =>
      .bind parenCondition_reads.toHonest fun _ => .bind (.of_triple fun _ => .eat _) fun _ =>
      .bind (.look _) fun _ => .pure _
  rw [ahead.expectKeyword_bind]
  refine (parenCondition_answers hc ahead.advance).thence (mt And.right)
    fun c' t head sameC ahead => ?_
  rw [ahead.eat_bind, previousSpan_bind]
  exact .on ⟨rest, head⟩ (by simp only [Stmt.bare, sameC, same]) ahead.advance

theorem for_ (hi : areRanked init.values = true) (complete : init.isComplete = true)
    (hc : areRanked c.toList = true) (hu : areRanked update.toList = true) (hb : BackStmt body) :
    BackStmt (.for_ here init c update body) :=
  of_room fun {line room inLoop ks s} jumps closed ahead => by
  have ahead : Ahead line (.keyword .for_ :: .symbol .openParen :: (init.writing ++ semicolon ++
      (optionWriting c ++ .symbol .semicolon :: (optionWriting update ++ .symbol .closeParen ::
        (body.writing ++ ks))))) s := by simpa [Stmt.writing, semicolon] using ahead
  have fits : (Stmt.for_ here init c update body).opens ≤ room + 1 ↔
      argumentsOpen init.values ≤ room ∧ argumentsOpen c.toList ≤ room ∧
        argumentsOpen update.toList ≤ room ∧ body.opens ≤ room := by
    simp only [Stmt.opens, Nat.add_le_add_iff_right, Nat.max_le, argumentsOpen_le,
      List.forall_mem_append, and_assoc]
  rw [fits, statement, kind_bind, ahead.kind_eq, next_cons]
  simp only [forStatement, span_bind, advance_bind]
  rw [ahead.advance.expect_bind, get_bind]
  have ahead := ahead.advance.advance
  simp only [looksForEach_eq_false init ahead, Bool.false_eq_true, if_false]
  refine (forInit_answers init hi complete ahead).thence (mt And.left) fun i t one sameI ahead => ?_
  refine (expressionUnless_answers c hc ahead rfl (Nat.le_refl 11)).thence (mt (·.2.1))
    fun c' t two sameC ahead => ?_
  rw [ahead.expect_bind]
  refine (expressionUnless_answers update hu ahead.advance rfl (Nat.le_refl 11)).thence
    (mt (·.2.2.1)) fun u t three sameU ahead => ?_
  rw [ahead.expectClosing_bind]
  refine (hb.run jumps closed ahead.advance).bind (mt (·.2.2.2))
    (fun _ => .bind (.look _) fun _ => .pure _) fun body' t four same ahead => ?_
  rw [previousSpan_bind]
  exact .on ⟨one, two, three, four⟩ (by simp only [Stmt.bare, sameI, sameC, sameU, same]) ahead

end BackStmt

mutual

theorem backStmt : (st : Stmt) → st.isRanked = true → st.isComplete = true → BackStmt st
  | .declare _, ranked, complete => .declare ranked complete
  | .function _ _ _ _ body, ranked, complete => .function (backBody body ranked complete)
  | .block _ body, ranked, complete => .block (backBody body ranked complete)
  | .branch _ c yes no, ranked, complete => by
    simp only [Stmt.isRanked, Bool.and_eq_true] at ranked
    simp only [Stmt.isComplete, Bool.and_eq_true, Bool.not_eq_true', Bool.and_eq_false_iff]
      at complete
    refine .branch ranked.1.1 (backStmt yes ranked.1.2 complete.1.2)
      (backElse no ranked.2 complete.2) ?_
    rintro ⟨some_, open_⟩
    simp [some_, open_] at complete
  | .while_ _ c body, ranked, complete => by
    simp only [Stmt.isRanked, Bool.and_eq_true] at ranked
    exact .while_ ranked.1 (backStmt body ranked.2 complete)
  | .doWhile _ body c, ranked, complete => by
    simp only [Stmt.isRanked, Bool.and_eq_true] at ranked
    exact .doWhile ranked.1 (backStmt body ranked.2 complete)
  | .for_ _ init c update body, ranked, complete => by
    simp only [Stmt.isRanked, areRanked_append, Bool.and_eq_true] at ranked
    simp only [Stmt.isComplete, Bool.and_eq_true] at complete
    exact .for_ ranked.1.1.1 complete.1 ranked.1.1.2 ranked.1.2 (backStmt body ranked.2 complete.2)
  | .return_ .., ranked, _ => .return_ ranked
  | .break_ _, _, _ => .break_
  | .continue_ _, _, _ => .continue_
  | .expr .., ranked, _ => .expr ranked
  | .empty _, _, _ => .empty

theorem backElse : (no : Option Stmt) → elseIsRanked no = true → elseIsComplete no = true →
    ∀ st ∈ no, BackStmt st
  | none, _, _ => nofun
  | some other, ranked, complete => fun st h => by
    cases h
    exact backStmt other ranked complete

theorem backBody : (body : List Stmt) → bodyIsRanked body = true → bodyIsComplete body = true →
    ∀ st ∈ body, BackStmt st
  | [], _, _ => List.forall_mem_nil _
  | st :: rest, ranked, complete => by
    simp only [bodyIsRanked, Bool.and_eq_true] at ranked
    simp only [bodyIsComplete, Bool.and_eq_true] at complete
    exact List.forall_mem_cons.2
      ⟨backStmt st ranked.1 complete.1, backBody rest ranked.2 complete.2⟩

end

theorem programRounds_ends : ∀ (body : List Stmt), (∀ st ∈ body, BackStmt st) →
    ∀ {line s n}, bodyJumpsInLoops false body = true → body.length ≤ n →
    Ahead line (bodyWriting body) s →
    Ends line (bodyOpens body ≤ nestingLimit) (fun as => bareBody as = bareBody body) []
      (programRounds n s)
  | [], _, line, s, n, _, _, ahead => by
    have ahead : Ahead line [] s := ahead
    cases n with
    | zero => exact .on (Nat.zero_le _) rfl ahead
    | succ n =>
      rw [programRounds, get_bind, ahead.ended]
      exact .on (Nat.zero_le _) rfl ahead
  | a :: rest, _, line, s, 0, _, le, _ => absurd le (Nat.not_succ_le_zero _)
  | a :: rest, back, line, s, n + 1, jumps, le, ahead => by
    obtain ⟨first, others⟩ := List.forall_mem_cons.1 back
    obtain ⟨jump, jumps⟩ := Bool.and_eq_true_iff.1 jumps
    have ahead : Ahead line (a.writing ++ bodyWriting rest) s := ahead
    have goes := (ahead.goes (by simp [a.writing_ne_nil])).1
    have closed := elseAhead_body rest (show elseAhead [] = false from rfl)
    rw [List.append_nil] at closed
    rw [programRounds, get_bind, ahead.kind_eq, next_append a.writing_ne_nil, a.begins.2, goes,
      ahead.isFull_eq]
    exact round_ends first jump closed (programRounds_honest n) ahead
      fun t ahead => programRounds_ends rest others jumps (Nat.le_of_succ_le_succ le) ahead

theorem program_ends {p : Program} (wf : p.WellFormed) (ahead : Ahead line p.writing s) :
    Ends line (p.opens ≤ nestingLimit) (·.bare = p.bare) [] (program s) := by
  have enough : p.body.length ≤ s.rest.length := by
    rw [ahead.rest_length]
    exact length_le_bodyWriting p.body
  rw [program, span_bind, tokensLeft_bind]
  refine (programRounds_ends p.body (backBody p.body wf.ranked wf.complete) wf.jumps enough
    ahead).bind id (fun _ => .bind (.look _) fun _ => .pure _) fun body t fits same ahead => ?_
  rw [previousSpan_bind]
  exact .on fits (congrArg (Program.mk · _) same) ahead

end Parse

/-- A well-formed spell, written on one line, is read back. Its tree comes out again, up to spans,
exactly where its writing opens no more levels than the nesting limit allows; beyond it the limit
is reported. -/
theorem parseTokens_complete {p : Program} (wf : p.WellFormed)
    (written : (ts.takeWhile (!·.kind.isEof)).map Token.kind = p.writing)
    (oneLine : ∀ t ∈ ts.takeWhile (!·.kind.isEof),
      t.span.first.line = line ∧ t.span.last.line = line) :
    p.opens ≤ nestingLimit ∧ (parseTokens ts).2 = .empty ∧ (parseTokens ts).1.bare = p.bare ∨
      nestingLimit < p.opens ∧ ∃ d ∈ (parseTokens ts).2.kept, d.code = .nestingLimit := by
  have ahead : Ahead line p.writing (Stream.ofTokens ts) := ⟨written, oneLine, nofun, rfl⟩
  have ends := Parse.program_ends wf ahead
  unfold parseTokens
  rcases hp : Parse.program (Stream.ofTokens ts) with ⟨_ | q, t⟩ <;> rw [hp] at ends <;>
    simp only [hp]
  · cases ends with
    | deep room deep => exact .inr ⟨Nat.lt_of_not_le room, deep⟩
  · cases ends with
    | on room same ahead => exact .inl ⟨room, ahead.clean, same⟩
    | deep room deep => exact .inr ⟨Nat.lt_of_not_le room, deep⟩

namespace Spell

def inPlace (ks : List Kind) : List Token := ks.map fun k => ⟨k, .point .origin⟩

/-- `while (a < b) if (!c) { break; } else f(a, b);` -/
def stairs : Program :=
  let here := Span.point .origin
  let name (n : String) : Expr := .name here n
  ⟨[.while_ here (.binary here .less (name "a") (name "b"))
    (.branch here (.unary here .not (name "c")) (.block here [.break_ here])
      (some (.expr here (.call here (name "f") [name "a", name "b"]))))], here⟩

end Spell

theorem parseTokens_complete_stairs : Spell.stairs.WellFormed ∧
    Spell.stairs.opens ≤ nestingLimit ∧
    (parseTokens (Spell.inPlace Spell.stairs.writing)).2 = .empty ∧
    (parseTokens (Spell.inPlace Spell.stairs.writing)).1.bare = Spell.stairs.bare := by
  have wf : Spell.stairs.WellFormed := ⟨by decide, by decide, by decide⟩
  have oneLine : ∀ t ∈ (Spell.inPlace Spell.stairs.writing).takeWhile (!·.kind.isEof),
      t.span.first.line = 1 ∧ t.span.last.line = 1 := by decide
  exact ⟨wf, (parseTokens_complete wf rfl oneLine).resolve_right fun h => absurd h.1 (by decide)⟩

end Spellcraft
