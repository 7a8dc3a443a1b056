import Spellcraft.Proofs.Language.ReadsExpr

namespace Spellcraft

theorem areRanked_append (as bs : List Expr) :
    areRanked (as ++ bs) = (areRanked as && areRanked bs) := by
  induction as with
  | nil => rfl
  | cons a as ih => simp [areRanked, ih, Bool.and_assoc]

theorem bodyIsRanked_iff : bodyIsRanked body = true ↔ ∀ s ∈ body, s.isRanked = true := by
  induction body with
  | nil => simp [bodyIsRanked]
  | cons s rest ih => simp [bodyIsRanked, ih]

theorem bodyJumpsInLoops_iff :
    bodyJumpsInLoops b body = true ↔ ∀ s ∈ body, s.jumpsInLoops b = true := by
  induction body with
  | nil => simp [bodyJumpsInLoops]
  | cons s rest ih => simp [bodyJumpsInLoops, ih]

namespace Parse

variable {C : Prop} {s₀ : Stream} {v : List Kind} {room : Nat} {inLoop : Bool}

theorem name_reads : Reads name (fun i => [.name i.name]) fun _ => True := by
  refine .of_triple fun s₀ => .bind (.sight Stream.kind) fun k => ?_
  split
  case h_1 n =>
    refine .bind (.glance Stream.span) fun _ => (Triple.take (.name n) (by simp)).bind fun _ =>
      .pure fun s h => h
  all_goals exact .refuse _

theorem declarator_reads {d : DeclKind} : Reads (declarator d room) Declarator.writing
    fun v => ∀ e ∈ v.init, e.isRanked = true := by
  refine .of_triple fun s₀ => name_reads.triple.bind fun n => .ifEaten ?_ ?_
  · refine (expression_reads room).triple.bind fun e => .pure fun s h => ?_
    exact ⟨by simpa [Declarator.writing] using h.1, by simpa using h.2.1⟩
  · have unset : Triple (fun s => Took ([] ++ [.name n.name]) s₀ s ∧ True ∧ True)
        (pure ⟨n, none⟩ : Parse Declarator)
        fun v s => Took v.writing s₀ s ∧ ∀ e ∈ v.init, e.isRanked = true :=
      .pure fun s h => ⟨h.1, nofun⟩
    dsimp only
    split
    · exact .bind (.complain _ _) fun _ => unset
    · exact unset

theorem declaration_reads {d : DeclKind} :
    Triple (fun s => .keyword d.keyword = s.kind ∧ Took v s₀ s ∧ C) (declaration d room)
      fun a s => Took (v ++ a.writing) s₀ s ∧ areRanked a.values = true ∧ C := by
  refine .bind (.glance Stream.span) fun start =>
    (Triple.takeKeyword d.keyword).bind fun _ =>
    (Triple.commaList declarator_reads (by simp)).bind fun ds =>
    .bind (.glance Stream.previousSpan) fun _ => .pure fun s h => ?_
  exact ⟨by simpa [Declaration.writing] using h.1,
    areRanked_iff.2 (Declaration.forall_mem_values.2 h.2.1), h.2.2⟩

theorem parenCondition_reads :
    Reads (parenCondition room) parenthesised fun e => e.isRanked = true :=
  .of_triple fun _ => (Triple.expect .openParen).bind fun _ => (expression_reads room).triple.bind
    fun _ => (Triple.expectClosing _ _).bind fun _ => .pure fun _ h =>
    ⟨by simpa [parenthesised] using h.1, h.2.1⟩

theorem forInit_reads :
    Reads (forInit room) (fun i => i.writing ++ semicolon) fun i => areRanked i.values = true := by
  refine .of_triple fun s₀ => .ifEaten (.pure fun s h => ⟨h.1, rfl⟩) ?_
  refine .bind (.sight Stream.kind) fun k => ?_
  have ended : ∀ i : ForInit, Triple
      (fun s => Took i.writing s₀ s ∧ areRanked i.values = true)
      (do let _ ← expect .semicolon; return i)
      fun i s => Took (i.writing ++ semicolon) s₀ s ∧ areRanked i.values = true := fun i =>
    (Triple.expect .semicolon).bind fun _ => .pure fun s h => h
  dsimp only
  split
  case h_1 d hd =>
    obtain rfl := DeclKind.eq_keyword hd
    refine .bind (declaration_reads.map fun a s h => ?_) ended
    exact ⟨h.1, h.2.1⟩
  · refine .bind (.map ((expression_reads room).triple.pre fun s h => h.2) fun e s h => ?_) ended
    exact ⟨h.1, by simp [ForInit.values, areRanked, h.2.1]⟩

theorem expressionUnless_reads {m : Symbol} :
    Reads (expressionUnless m room) optionWriting fun o => areRanked o.toList = true := by
  refine .of_triple fun s₀ => .bind (.glance fun s => s.kind.isSymbol m) fun absent => ?_
  split
  · exact .pure fun s h => ⟨h.1, rfl⟩
  · exact (expression_reads room).triple.map fun e s h => ⟨h.1, by simp [areRanked, h.2.1]⟩

def InShape (inLoop : Bool) (s : Stmt) : Prop :=
  s.isRanked = true ∧ s.jumpsInLoops inLoop = true

def ReadsFrom (k : Kind) (inLoop : Bool) (p : Parse Stmt) : Prop :=
  ∀ s₀, Triple (fun s => k = s.kind ∧ Took [] s₀ s ∧ True) p
    fun st s => Took st.writing s₀ s ∧ InShape inLoop st

theorem returnStatement_reads :
    ReadsFrom (.keyword .return_) inLoop (returnStatement room) := fun s₀ => by
  refine .bind (.glance Stream.span) fun start =>
    (Triple.takeKeyword .return_).bind fun _ => .bind (.glance id) fun s => ?_
  have ended (value : Option Expr) : Triple
      (fun s => Took (.keyword .return_ :: optionWriting value) s₀ s ∧
        areRanked value.toList = true)
      (do
        let stop ← previousSpan
        endStatement
        return .return_ (start.merge stop) value)
      fun st s => Took st.writing s₀ s ∧ InShape inLoop st :=
    .bind (.glance Stream.previousSpan) fun _ => (Triple.endStatement (by simp)).bind fun _ =>
    .pure fun s h => ⟨by simpa [Stmt.writing] using h.1, h.2, rfl⟩
  dsimp only
  split
  · exact .bind (.pure fun s h => ⟨h.1, rfl⟩) ended
  · refine .bind ((expression_reads room).triple.map fun e s h => ?_) ended
    exact ⟨h.1, by simp [areRanked, h.2.1]⟩

theorem jumpStatement_reads {word : Keyword} {build : Span → Stmt}
    (writing : ∀ here, (build here).writing = .keyword word :: semicolon)
    (shape : inLoop = true → ∀ here, InShape inLoop (build here)) :
    ReadsFrom (.keyword word) inLoop (jumpStatement word inLoop build) := fun s₀ => by
  refine .bind (.glance Stream.span) fun here =>
    (Triple.takeKeyword word).bind fun _ => ?_
  have ended : Triple (fun s => Took [.keyword word] s₀ s ∧ inLoop = true)
      (do
        endStatement
        return build here)
      fun st s => Took st.writing s₀ s ∧ InShape inLoop st :=
    (Triple.endStatement (by simp)).bind fun _ => .pure fun s h =>
      ⟨by simpa [writing] using h.1, shape h.2 here⟩
  dsimp only
  split
  · exact .bind (.complain _ _) fun _ => ended
  · next stands => exact ended.pre fun s h => ⟨h.1, by simpa using stands⟩

section

variable {st : Parse Stmt} (hst : Reads st Stmt.writing (InShape inLoop))
include hst

theorem block_reads : Reads (block st)
    (fun b => .symbol .openBrace :: bodyWriting b.2 ++ [.symbol .closeBrace])
    fun b => bodyIsRanked b.2 = true ∧ bodyJumpsInLoops inLoop b.2 = true :=
  .of_triple fun s₀ => .bind (.glance Stream.span) fun start => (Triple.expect .openBrace).bind
    fun _ => .bind (.glance fun s => s.rest.length) fun n => (hst.blockRounds n).triple.bind
    fun body => (Triple.expectClosing _ _).bind fun _ =>
    .bind (.glance Stream.previousSpan) fun _ => .pure fun _ h =>
    ⟨by simpa [bodyWriting_eq] using h.1,
      bodyIsRanked_iff.2 fun s hs => (h.2.1 s hs).1,
      bodyJumpsInLoops_iff.2 fun s hs => (h.2.1 s hs).2⟩

theorem branchStatement_reads :
    ReadsFrom (.keyword .if_) inLoop (branchStatement room st) := fun s₀ => by
  refine .bind (.glance Stream.span) fun start => (Triple.takeKeyword .if_).bind fun _ =>
    parenCondition_reads.triple.bind fun c => hst.triple.bind fun yes =>
    .bind (.sight Stream.kind) fun k => ?_
  have ended (no : Option Stmt) : Triple
      (fun s => Took (.keyword .if_ :: parenthesised c ++ yes.writing ++ elseWriting no) s₀ s ∧
        (elseIsRanked no = true ∧ elseJumpsInLoops inLoop no = true) ∧ InShape inLoop yes ∧
        c.isRanked = true)
      (do return .branch (start.merge (← previousSpan)) c yes no)
      fun st s => Took st.writing s₀ s ∧ InShape inLoop st :=
    .bind (.glance Stream.previousSpan) fun _ => .pure fun s h => by
      obtain ⟨took, no, yes, head⟩ := h
      exact ⟨by simpa [Stmt.writing] using took, by simp [Stmt.isRanked, head, yes.1, no.1],
        by simp [Stmt.jumpsInLoops, yes.2, no.2]⟩
  dsimp only
  split
  · next there =>
    obtain rfl := Kind.eq_of_isKeyword there
    refine (Triple.takeKeyword .else_).bind fun _ =>
      .bind (hst.triple.map fun no s h => ?_) ended
    obtain ⟨took, other, good, head, _⟩ := h
    exact ⟨by simpa [elseWriting] using took, other, good, head⟩
  · refine .bind (.pure fun s h => ?_) ended
    obtain ⟨_, took, good, head, _⟩ := h
    exact ⟨by simpa [elseWriting] using took, ⟨rfl, rfl⟩, good, head⟩

end

section

variable {st : Parse Stmt}

theorem functionStatement_reads (hst : Reads st Stmt.writing (InShape false)) :
    ReadsFrom (.keyword .function) inLoop (functionStatement st) := fun s₀ => by
  refine .bind (.glance Stream.span) fun start =>
    (Triple.takeKeyword .function).bind fun _ =>
    .bind (.glance fun s => s.kind.isSymbol .openParen) fun nameless => ?_
  have named : Triple (fun s => Took [.keyword .function] s₀ s ∧ True)
      (do
        let n ← name
        let opened ← expect .openParen
        let params ← if ← sees .closeParen then pure [] else commaList name
        expectClosing .closeParen opened
        let b ← block st
        return .function (start.merge b.1) n params b.1 b.2)
      fun st s => Took st.writing s₀ s ∧ InShape inLoop st := by
    refine name_reads.triple.bind fun n => (Triple.expect .openParen).bind fun opened =>
      .bind (.glance fun s => s.kind.isSymbol .closeParen) fun closes => ?_
    have closed (params : List Ident) : Triple
        (fun s => Took ([.keyword .function] ++ [.name n.name] ++ [.symbol .openParen] ++
          commas (params.map fun p => [.name p.name])) s₀ s ∧ True)
        (do
          expectClosing .closeParen opened
          let b ← block st
          return .function (start.merge b.1) n params b.1 b.2)
        fun st s => Took st.writing s₀ s ∧ InShape inLoop st :=
      (Triple.expectClosing _ _).bind fun _ => (block_reads hst).triple.bind fun b =>
        .pure fun s h => ⟨by simpa [Stmt.writing] using h.1, h.2.1.1, h.2.1.2⟩
    dsimp only
    split
    · exact .bind (.pure fun s h => ⟨by simpa [commas] using h.1, trivial⟩) closed
    · exact .bind ((Triple.commaList name_reads (by simp)).post fun _ s h => ⟨h.1, trivial⟩) closed
  dsimp only
  split
  · exact .bind (.refuse _) fun _ => named
  · exact named

variable (hst : Reads st Stmt.writing (InShape true))
include hst

theorem whileStatement_reads :
    ReadsFrom (.keyword .while_) inLoop (whileStatement room st) := fun s₀ =>
  .bind (.glance Stream.span) fun _ => (Triple.takeKeyword .while_).bind fun _ =>
    parenCondition_reads.triple.bind fun c => hst.triple.bind fun body =>
    .bind (.glance Stream.previousSpan) fun _ => .pure fun s h => by
      obtain ⟨took, good, head, _⟩ := h
      exact ⟨by simpa [Stmt.writing] using took, by simp [Stmt.isRanked, head, good.1],
        by simp [Stmt.jumpsInLoops, good.2]⟩

theorem doWhileStatement_reads :
    ReadsFrom (.keyword .do_) inLoop (doWhileStatement room st) := fun s₀ => by
  refine .bind (.glance Stream.span) fun _ => (Triple.takeKeyword .do_).bind fun _ =>
    hst.triple.bind fun body => (Triple.expectKeyword .while_).bind fun _ =>
    parenCondition_reads.triple.bind fun c => (Triple.eat .semicolon).bind fun closed =>
    .bind (.glance Stream.previousSpan) fun _ => .pure fun s h => ?_
  obtain ⟨took, head, good, _⟩ := h
  refine ⟨?_, by simp [Stmt.isRanked, head, good.1], by simp [Stmt.jumpsInLoops, good.2]⟩
  cases closed with
  | true => simpa [Stmt.writing, semicolon] using took
  | false =>
    have spared := Triple.spared (by simp) took
    simpa [Stmt.writing, semicolon] using spared

theorem forStatement_reads :
    ReadsFrom (.keyword .for_) inLoop (forStatement room st) := fun s₀ => by
  refine .bind (.glance Stream.span) fun start =>
    (Triple.takeKeyword .for_).bind fun _ => (Triple.expect .openParen).bind fun opened =>
    .bind (.glance id) fun s => ?_
  have headed : Triple
      (fun s => Took ([] ++ [.keyword .for_] ++ [.symbol .openParen]) s₀ s ∧ True)
      (do
        let init ← forInit room
        let condition ← expressionUnless .semicolon room
        let _ ← expect .semicolon
        let update ← expressionUnless .closeParen room
        expectClosing .closeParen opened
        let body ← st
        return .for_ (start.merge (← previousSpan)) init condition update body)
      fun st s => Took st.writing s₀ s ∧ InShape inLoop st :=
    forInit_reads.triple.bind fun init => expressionUnless_reads.triple.bind fun c =>
    (Triple.expect .semicolon).bind fun _ => expressionUnless_reads.triple.bind fun u =>
    (Triple.expectClosing _ _).bind fun _ => hst.triple.bind fun body =>
    .bind (.glance Stream.previousSpan) fun _ => .pure fun s h => by
      obtain ⟨took, good, update, condition, init, _⟩ := h
      exact ⟨by simpa [Stmt.writing, semicolon] using took,
        by simp [Stmt.isRanked, areRanked_append, init, condition, update, good.1],
        by simp [Stmt.jumpsInLoops, good.2]⟩
  dsimp only
  split
  · exact .bind (.glance Stream.span) fun _ => .refusal _ _
  · exact headed

end

theorem statement_reads :
    ∀ room inLoop, Reads (statement room inLoop) Stmt.writing (InShape inLoop)
  | 0, _ => .of_triple fun _ => .refuse _
  | room + 1, inLoop => .of_triple fun s₀ => by
    refine .bind (.sight Stream.kind) fun k => ?_
    dsimp only
    split
    · exact (block_reads (statement_reads room inLoop)).triple.pre (fun s h => h.2) |>.bind
        fun b => .pure fun s h => ⟨by simpa [Stmt.writing] using h.1, h.2.1⟩
    · exact .bind (.glance Stream.span) fun _ => (Triple.takeSymbol .semicolon).bind
        fun _ => .pure fun s h => ⟨h.1, rfl, rfl⟩
    · exact functionStatement_reads (statement_reads room false) s₀
    · exact branchStatement_reads (statement_reads room inLoop) s₀
    · exact whileStatement_reads (statement_reads room true) s₀
    · exact doWhileStatement_reads (statement_reads room true) s₀
    · exact forStatement_reads (statement_reads room true) s₀
    · exact returnStatement_reads s₀
    · exact jumpStatement_reads (fun _ => rfl) (fun h _ => ⟨rfl, h⟩) s₀
    · exact jumpStatement_reads (fun _ => rfl) (fun h _ => ⟨rfl, h⟩) s₀
    · exact .refuse _
    · split
      case h_1 d hd =>
        obtain rfl := DeclKind.eq_keyword hd
        exact declaration_reads.bind fun a =>
          (Triple.endStatement (by simp [Declaration.writing])).bind fun _ =>
          .pure fun s h => ⟨h.1, h.2.1, rfl⟩
      · refine ((expression_reads room).triple.pre fun s h => h.2).bind fun e => ?_
        refine (Triple.endStatement (by simp [e.writing_ne_nil])).bind fun _ => .pure fun s h => ?_
        exact ⟨h.1, h.2.1, rfl⟩

theorem programRounds_triple (s₀ : Stream) (v : List Kind) (C : Prop) : ∀ n, Triple
    (fun s => (Took v s₀ s ∧ s.rest.length ≤ n ∧ C) ∧ s.report.total = 0) (programRounds n)
    fun body s =>
      Took (v ++ bodyWriting body) s₀ s ∧ s.rest = [] ∧ (∀ a ∈ body, InShape false a) ∧ C
  | 0 => .pure fun s h => by
    obtain ⟨⟨took, within, h⟩, _⟩ := h
    exact ⟨by simpa [bodyWriting] using took,
      List.eq_nil_of_length_eq_zero (Nat.le_zero.1 within), List.forall_mem_nil _, h⟩
  | n + 1 => by
    refine .bind (.sight id) fun s => ?_
    split
    · next stops =>
      refine .pure fun t h => ?_
      obtain ⟨rfl, ⟨took, _, h⟩, clean⟩ := h
      have ended : s.rest = [] := by
        simpa [Stream.atEnd, Report.isFull, Report.capacity, clean] using stops
      exact ⟨by simpa [bodyWriting] using took, ended, List.forall_mem_nil _, h⟩
    split
    · exact .bind (.complain _ _) fun _ => .bind (.never .advance fun _ => id) fun _ =>
        .never (programRounds_triple s₀ v C n).toHonest fun _ => id
    have first : Triple (fun t => Took [] s t ∧ Took v s₀ s ∧ s.rest.length ≤ n + 1 ∧ C)
        (statement nestingLimit false) _ := (statement_reads nestingLimit false).triple
    refine ((first.attempt.counted 0).pre fun t h => ?_).bind fun o => ?_
    · obtain ⟨rfl, within, clean⟩ := h
      exact ⟨⟨.refl s, within⟩, clean⟩
    cases o with
    | none => exact .never (programRounds_triple s₀ v C n).toHonest fun _ h => by simp at h
    | some a =>
      have rest := programRounds_triple s₀ (v ++ a.writing) (InShape false a ∧ C) n
      refine (rest.pre fun t h => ?_).bind fun body => .pure fun t h => ?_
      · obtain ⟨⟨_, ⟨⟩, took, shape, before, within, h⟩, clean⟩ := h
        have := took.lt a.writing_ne_nil
        exact ⟨⟨before.trans took, by omega, shape, h⟩, clean⟩
      · obtain ⟨took, ended, shapes, shape, h⟩ := h
        exact ⟨by simpa [bodyWriting] using took, ended, List.forall_mem_cons.2 ⟨shape, shapes⟩, h⟩

theorem programRounds_honest (n : Nat) : Honest (programRounds n) :=
  (programRounds_triple (.ofTokens []) [] True n).toHonest

theorem program_triple (s₀ : Stream) : Triple (fun s => s = s₀ ∧ s.report.total = 0) program
    fun p _ => skeleton s₀.kinds = skeleton p.writing ∧ ∀ a ∈ p.body, InShape false a := by
  refine .bind (.glance Stream.span) fun start => .bind (.sight fun s => s.rest.length) fun n => ?_
  refine ((programRounds_triple s₀ [] True n).pre fun _ h => ?_).bind fun body =>
    .bind (.glance Stream.previousSpan) fun _ => .pure fun s h => ?_
  · obtain ⟨rfl, rfl, clean⟩ := h
    exact ⟨⟨.refl _, Nat.le_refl _, trivial⟩, clean⟩
  · obtain ⟨took, ended, shapes, _⟩ := h
    exact ⟨by simpa [Stream.kinds, ended, Program.writing] using took.left, shapes⟩

end Parse

theorem parseTokens_reads (h : (parseTokens ts).2.isClean = true) :
    skeleton ((Stream.ofTokens ts).kinds) = skeleton (parseTokens ts).1.writing ∧
      ∀ a ∈ (parseTokens ts).1.body, Parse.InShape false a := by
  have reads := Parse.program_triple (Stream.ofTokens ts)
  have speaks := reads.speaks (Stream.ofTokens ts)
  unfold parseTokens at h ⊢
  rcases hp : Parse.program (Stream.ofTokens ts) with ⟨_ | p, t⟩ <;>
    simp only [hp, Report.isClean, decide_eq_true_eq] at h ⊢
  · rw [hp] at speaks
    exact absurd (speaks rfl) (by simp [h])
  · exact reads.gives ⟨rfl, rfl⟩ hp h

/-- No token is lost, made up, moved or grouped anew: a list of tokens that is read without a
complaint is the writing of the tree up to marks, and the tree is in shape. -/
theorem parseTokens_faithful (h : (parseTokens ts).2.isClean = true) :
    skeleton ((ts.takeWhile (!·.kind.isEof)).map Token.kind) = skeleton (parseTokens ts).1.writing ∧
      (parseTokens ts).1.isRanked = true :=
  have ⟨took, shapes⟩ := parseTokens_reads h
  ⟨took, bodyIsRanked_iff.2 fun a ha => (shapes a ha).1⟩

def Spell.ascent : List Token := (scan "while (a < b) a = (f(a)) + b").1

theorem parseTokens_faithful_ascent : (parseTokens Spell.ascent).2.isClean = true ∧
    skeleton ((Spell.ascent.takeWhile (!·.kind.isEof)).map Token.kind) =
      skeleton (parseTokens Spell.ascent).1.writing ∧
    (parseTokens Spell.ascent).1.isRanked = true := by
  have clean : (parseTokens Spell.ascent).2.isClean = true := by decide +kernel
  exact ⟨clean, parseTokens_faithful clean⟩

end Spellcraft
