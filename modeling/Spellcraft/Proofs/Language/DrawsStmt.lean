import Spellcraft.Proofs.Language.DrawsExpr

namespace Spellcraft

namespace Parse

variable {G : Span → Prop} {s₀ : Stream} {room : Nat} {inLoop : Bool}

theorem name_draws : Draws G name fun i => [i.outline] := by
  refine fun s₀ => .bind (.sight Stream.kind) fun k => ?_
  split
  case h_1 n => exact .opening (k := .name n) (by simp) fun here => .pure fun s h => h
  all_goals exact (Drawing.refuse _).pre fun s h => h.2

abbrev DrawsStmt (G : Span → Prop) (p : Parse Stmt) : Prop := Draws G p fun a => [a.outline]

def DrawsFrom (G : Span → Prop) (k : Kind) (p : Parse Stmt) : Prop :=
  ∀ s₀, Drawing G s₀ (fun s => k = s.kind ∧ Drawn G [] s₀ s) p fun a => Drawn G [a.outline] s₀

variable (closed : Span.Closed G)
include closed

theorem declarator_draws {d : DeclKind} : Draws G (declarator d room) Declarator.outlines := by
  refine fun s₀ => (name_draws s₀).bind fun n => .ifEaten ?_ ?_
  · exact (expression_draws closed room).drawing.bind fun e => .pure fun s h => h
  · have unset : Drawing G s₀ (Drawn G [n.outline] s₀) (pure ⟨n, none⟩ : Parse Declarator)
        fun v => Drawn G v.outlines s₀ := .pure fun s h => h
    dsimp only
    split
    · exact ((Drawing.complain _).pre fun s h => ⟨h, (h.orderly List.mem_cons_self).sort⟩).bind
        fun _ => unset
    · exact unset

theorem declaration_drawing {k : Kind} {d : DeclKind} (hne : k ≠ .eof) :
    Drawing G s₀ (fun s => k = s.kind ∧ Drawn G [] s₀ s) (declaration d room)
      fun a => Drawn G [a.outline] s₀ :=
  .opening hne fun start => (declarator_draws closed).commaList.drawing.bind fun ds =>
    .bind (.sight Stream.previousSpan) fun stop => .pure fun s h => by
      obtain ⟨rfl, drawn⟩ := h
      exact drawn.enclosed closed (List.sublist_cons_self _ _)

theorem parenCondition_draws : DrawsExpr G (parenCondition room) := fun _ =>
  (Drawing.expect .openParen).bind fun _ => (expression_draws closed room _).bind fun _ =>
    (Drawing.expectClosing _ _).bind fun _ => .pure fun _ h => h

theorem forInit_draws : Draws G (forInit room) ForInit.outlines := by
  refine fun s₀ => .ifEaten (.pure fun s h => h) (.bind (.sight Stream.kind) fun k => ?_)
  have ended : ∀ i : ForInit, Drawing G s₀ (Drawn G i.outlines s₀)
      (do let _ ← expect .semicolon; return i) fun i => Drawn G i.outlines s₀ := fun i =>
    (Drawing.expect .semicolon).bind fun _ => .pure fun s h => h
  dsimp only
  split
  case h_1 d hd =>
    have hne : k ≠ .eof := by
      rintro rfl
      cases hd
    exact .bind ((declaration_drawing closed hne).map fun a s h => h) ended
  · refine .bind (.map ((expression_draws closed room s₀).pre fun s h => h.2) fun e s h => ?_) ended
    exact h

theorem expressionUnless_draws {m : Symbol} :
    Draws G (expressionUnless m room) fun o => o.toList.map Expr.outline := by
  refine fun s₀ => .bind (.glance fun s => s.kind.isSymbol m) fun absent => ?_
  split
  · exact .pure fun s h => h
  · exact (expression_draws closed room s₀).map fun e s h => h

theorem returnStatement_draws : DrawsFrom G (.keyword .return_) (returnStatement room) := fun s₀ => by
  refine .opening (by simp) fun start => .bind (.glance id) fun s => ?_
  have ended (value : Option Expr) : Drawing G s₀
      (Drawn G (.leaf start :: value.toList.map Expr.outline) s₀)
      (do
        let stop ← previousSpan
        endStatement
        return Stmt.return_ (start.merge stop) value)
      fun a : Stmt => Drawn G [a.outline] s₀ :=
    .bind (.sight Stream.previousSpan) fun stop => by
      refine (Drawing.endStatement.pre fun s h => ?_).bind fun _ => .pure fun s h => h
      obtain ⟨rfl, drawn⟩ := h
      exact drawn.enclosed closed (List.sublist_cons_self _ _)
  dsimp only
  split
  · exact .bind (.pure fun s h => h) ended
  · exact .bind ((expression_draws closed room).drawing.map fun e s h => h) ended

omit closed in
theorem jumpStatement_draws {word : Keyword} {build : Span → Stmt}
    (outline : ∀ here, (build here).outline = .leaf here) :
    DrawsFrom G (.keyword word) (jumpStatement word inLoop build) := fun s₀ => by
  refine .opening (by simp) fun here => ?_
  have ended : Drawing G s₀ (Drawn G [.leaf here] s₀)
      (do
        endStatement
        return build here)
      fun a : Stmt => Drawn G [a.outline] s₀ :=
    Drawing.endStatement.bind fun _ => .pure fun s h => by rwa [outline]
  dsimp only
  split
  · exact ((Drawing.complain _).pre fun s h => ⟨h, (h.orderly List.mem_cons_self).sort⟩).bind
      fun _ => ended
  · exact ended

section

variable {st : Parse Stmt} (hst : DrawsStmt G st)
include hst

theorem block_draws : Draws G (block st) fun b => [⟨b.1, bodyOutlines b.2⟩] := fun s₀ =>
  .bind (.sight Stream.span) fun start => (Drawing.expectKindAt rfl _).bind fun _ =>
    .bind (.glance fun s => s.rest.length) fun n => (hst.blockRounds n).drawing.bind fun body =>
    (Drawing.expectClosing _ _).bind fun _ => .bind (.sight Stream.previousSpan) fun stop =>
    .pure fun s h => by
      obtain ⟨rfl, drawn⟩ := h
      have node := drawn.enclosed closed (List.sublist_cons_self _ _)
      simpa [bodyOutlines_eq, List.map_eq_flatMap, Outline.leaf] using node

theorem functionStatement_draws :
    DrawsFrom G (.keyword .function) (functionStatement st) := fun s₀ => by
  refine .opening (by simp) fun start =>
    .bind (.glance fun s => s.kind.isSymbol .openParen) fun nameless => ?_
  have named : Drawing G s₀ (Drawn G [.leaf start] s₀)
      (do
        let n ← name
        let opened ← expect .openParen
        let params ← if ← sees .closeParen then pure [] else commaList name
        expectClosing .closeParen opened
        let b ← block st
        return Stmt.function (start.merge b.1) n params b.1 b.2)
      fun a : Stmt => Drawn G [a.outline] s₀ := by
    refine name_draws.drawing.bind fun n => (Drawing.expect .openParen).bind fun opened =>
      .bind (.glance fun s => s.kind.isSymbol .closeParen) fun closes => ?_
    have finished (params : List Ident) : Drawing G s₀
        (Drawn G (.leaf start :: n.outline :: params.map Ident.outline) s₀)
        (do
          expectClosing .closeParen opened
          let b ← block st
          return Stmt.function (start.merge b.1) n params b.1 b.2)
        fun a : Stmt => Drawn G [a.outline] s₀ :=
      (Drawing.expectClosing _ _).bind fun _ => (block_draws closed hst).drawing.bind fun b =>
        .pure fun s h => by
          have node := h.joined closed (h.sublist (List.sublist_cons_self _ _)) fun p hp =>
            ⟨p, List.mem_cons_of_mem _ hp, .refl _⟩
          simpa [Stmt.outline, Outline.leaf] using node
    dsimp only
    split
    · exact .bind (.pure fun s h => h) finished
    · refine .bind (name_draws.commaList.drawing.post fun params s h => ?_) finished
      simpa [List.map_eq_flatMap] using h
  dsimp only
  split
  · exact .bind (.refuse _) fun _ => named
  · exact named

theorem branchStatement_draws :
    DrawsFrom G (.keyword .if_) (branchStatement room st) := fun s₀ => by
  refine .opening (by simp) fun start => (parenCondition_draws closed).drawing.bind fun c =>
    hst.drawing.bind fun yes => .bind (.glance Stream.kind) fun k => ?_
  have ended (no : Option Stmt) : Drawing G s₀
      (Drawn G (.leaf start :: c.outline :: yes.outline :: elseOutlines no) s₀)
      (do return Stmt.branch (start.merge (← previousSpan)) c yes no)
      fun a : Stmt => Drawn G [a.outline] s₀ :=
    .bind (.sight Stream.previousSpan) fun stop => .pure fun s h => by
      obtain ⟨rfl, drawn⟩ := h
      exact drawn.enclosed closed (List.sublist_cons_self _ _)
  dsimp only
  split
  · exact Drawing.advance.bind fun _ => .bind (hst.drawing.map fun no s h => h) ended
  · exact .bind (.pure fun s h => h) ended

theorem whileStatement_draws : DrawsFrom G (.keyword .while_) (whileStatement room st) := fun s₀ =>
  .opening (by simp) fun start => (parenCondition_draws closed).drawing.bind fun c =>
    hst.drawing.bind fun body => .bind (.sight Stream.previousSpan) fun stop => .pure fun s h => by
      obtain ⟨rfl, drawn⟩ := h
      exact drawn.enclosed closed (List.sublist_cons_self _ _)

theorem doWhileStatement_draws :
    DrawsFrom G (.keyword .do_) (doWhileStatement room st) := fun s₀ =>
  .opening (by simp) fun start => hst.drawing.bind fun body => (Drawing.expectKind _ _).bind fun _ =>
    (parenCondition_draws closed).drawing.bind fun c => (Drawing.eat .semicolon).bind fun _ =>
    .bind (.sight Stream.previousSpan) fun stop => .pure fun s h => by
      obtain ⟨rfl, drawn⟩ := h
      exact drawn.enclosed closed (List.sublist_cons_self _ _)

theorem forStatement_draws : DrawsFrom G (.keyword .for_) (forStatement room st) := fun s₀ => by
  refine .opening (by simp) fun start => (Drawing.expect .openParen).bind fun opened =>
    .bind (.glance id) fun s => ?_
  have headed : Drawing G s₀ (Drawn G [.leaf start] s₀)
      (do
        let init ← forInit room
        let condition ← expressionUnless .semicolon room
        let _ ← expect .semicolon
        let update ← expressionUnless .closeParen room
        expectClosing .closeParen opened
        let body ← st
        return Stmt.for_ (start.merge (← previousSpan)) init condition update body)
      fun a : Stmt => Drawn G [a.outline] s₀ :=
    (forInit_draws closed).drawing.bind fun init =>
    (expressionUnless_draws closed).drawing.bind fun c => (Drawing.expect .semicolon).bind fun _ =>
    (expressionUnless_draws closed).drawing.bind fun u => (Drawing.expectClosing _ _).bind fun _ =>
    hst.drawing.bind fun body => .bind (.sight Stream.previousSpan) fun stop => .pure fun s h => by
      obtain ⟨rfl, drawn⟩ := h
      exact drawn.enclosed closed (List.sublist_cons_self _ _)
  dsimp only
  split
  · refine .bind (.sight Stream.span) fun here => .refusal _ fun s h => ?_
    obtain ⟨rfl, drawn⟩ := h
    exact ⟨drawn.drop, closed.merge (drawn.orderly List.mem_cons_self).sort drawn.sound.span⟩
  · exact headed

end

theorem statement_draws : ∀ room inLoop, DrawsStmt G (statement room inLoop)
  | 0, _ => fun s₀ => .refuse _
  | room + 1, inLoop => fun s₀ => by
    refine .bind (.sight Stream.kind) fun k => ?_
    dsimp only
    split
    · refine ((block_draws closed (statement_draws room inLoop) s₀).pre fun s h => h.2).bind
        fun b => .pure fun s h => h
    · exact .opening (k := .symbol .semicolon) (by simp) fun here => .pure fun s h => h
    · exact functionStatement_draws closed (statement_draws room false) s₀
    · exact branchStatement_draws closed (statement_draws room inLoop) s₀
    · exact whileStatement_draws closed (statement_draws room true) s₀
    · exact doWhileStatement_draws closed (statement_draws room true) s₀
    · exact forStatement_draws closed (statement_draws room true) s₀
    · exact returnStatement_draws closed s₀
    · exact jumpStatement_draws (fun _ => rfl) s₀
    · exact jumpStatement_draws (fun _ => rfl) s₀
    · exact (Drawing.refuse _).pre fun s h => h.2
    · split
      case h_1 d hd =>
        have hne : k ≠ .eof := by
          rintro rfl
          cases hd
        exact (declaration_drawing closed hne).bind fun a => Drawing.endStatement.bind fun _ =>
          .pure fun s h => h
      · refine ((expression_draws closed room s₀).pre fun s h => h.2).bind fun e =>
          Drawing.endStatement.bind fun _ => .pure fun s h => ?_
        have node := h.nest
        rwa [Expr.outline_span] at node

theorem programRounds_draws : ∀ n, Draws G (programRounds n) (·.map Stmt.outline)
  | 0 => fun s₀ => .pure fun s h => h
  | n + 1 => fun s₀ => by
    refine .bind (.sight id) fun s => ?_
    split
    · exact .pure fun t h => h.2
    split
    · refine ((Drawing.complain _).pre fun t h => ?_).bind fun _ => Drawing.advance.bind fun _ =>
        programRounds_draws n s₀
      obtain ⟨rfl, drawn⟩ := h
      exact ⟨drawn, drawn.sound.span⟩
    refine (((statement_draws closed nestingLimit false).attempt s₀).pre fun t h => h.2).bind
      fun o => ?_
    cases o with
    | none => exact programRounds_draws n s₀
    | some a => exact (programRounds_draws n).drawing.bind fun body => .pure fun t h => h

theorem program_drawing : Drawing G s₀ (fun s => s = s₀ ∧ s₀.Sound G) program
    fun p s => p.outline.Orderly G ∧ s.Sound G := by
  refine .bind (.sight Stream.span) fun start => .bind (.glance fun s => s.rest.length) fun n => ?_
  refine ((((programRounds_draws closed n) s₀).keep (start = s₀.span)).pre fun s h => ?_).bind
    fun body => .bind (.sight Stream.previousSpan) fun stop => .pure fun s h => ?_
  · obtain ⟨rfl, rfl, sound⟩ := h
    exact ⟨.refl sound, rfl⟩
  · obtain ⟨rfl, drawn, rfl⟩ := h
    have whole := drawn.whole closed
    refine ⟨?_, drawn.sound⟩
    rwa [Program.outline, bodyOutlines_eq]

end Parse

theorem parseTokens_drawn (closed : Span.Closed G) (h : (Stream.ofTokens ts).Sound G) :
    (parseTokens ts).1.outline.Orderly G ∧ (parseTokens ts).2.Tells G := by
  have drawing : Parse.Drawing G (Stream.ofTokens ts) _ _ _ := Parse.program_drawing closed
  simp only [parseTokens]
  rcases hp : Parse.program (Stream.ofTokens ts) with ⟨_ | p, t⟩
  · have drawn := drawing.fails ⟨rfl, h⟩ hp
    exact ⟨.mk h.span (List.forall_mem_nil _) (List.forall_mem_nil _) .nil, drawn.sound.told⟩
  · have drawn := drawing.gives ⟨rfl, h⟩ hp
    exact ⟨drawn.1, drawn.2.told⟩

end Spellcraft
