import Spellcraft.Proofs.Language.Calls
import Spellcraft.Proofs.Language.ReadsStmt

namespace Spellcraft

namespace Parse

variable {v : List Mention} {s₀ : Stream} {room : Nat}

theorem name_names : Triple (Named v s₀) name
    fun i s => Named (v ++ s.pending [.call i.name]) s₀ s := by
  refine .bind (.sight Stream.kind) fun k => ?_
  split
  case h_1 n =>
    have step : Moves (.name n) (Named v s₀) fun s => Named (v ++ s.pending [.call n]) s₀ s :=
      fun s hk hs => hs.name hk
    exact .bind (.glance Stream.span) fun _ => (Triple.move step).bind fun _ => .pure fun s hs => hs
  all_goals exact .refuse _

def Settled (v : List Mention) (s₀ s : Stream) : Prop :=
  s.kind.isSymbol .openParen = false → Named v s₀ s

theorem name_settled : Triple (Named v s₀) name fun _ => Settled v s₀ :=
  name_names.post fun _ s hs closed => by
    rwa [Stream.pending_other closed, List.append_nil] at hs

theorem Moves.settled {m : Symbol} (hm : m ≠ .openParen) :
    Moves (.symbol m) (Settled v s₀) (Named v s₀) := fun s hk hs => by
  have closed : s.kind.isSymbol .openParen = false := by
    rw [← hk]
    exact decide_eq_false hm
  exact (hs closed).advance (hk ▸ rfl)

theorem nameRounds_settled : ∀ n, Triple (Named v s₀) (commaRounds name n) fun _ => Settled v s₀
  | 0 => name_settled.bind fun _ => .pure fun _ h => h
  | n + 1 => name_settled.bind fun _ =>
    .ifMoved (.settled (by decide)) ((nameRounds_settled n).bind fun _ => .pure fun _ h => h)
      (.pure fun _ h => h)

theorem declarator_names {d : DeclKind} : Names (declarator d room) Declarator.mentions := by
  refine fun v s₀ => name_names.bind fun n => ?_
  have step : Moves (.symbol .assign) (fun s => Named (v ++ s.pending [.call n.name]) s₀ s)
      (Named v s₀) := fun s hk hs => by
    dsimp only at hs
    rw [Stream.pending_other (hk ▸ rfl), List.append_nil] at hs
    exact hs.advance (hk ▸ rfl)
  refine .ifMoved step ((expression_names room v s₀).bind fun e => .pure fun s hs => hs) ?_
  have unset : Triple (fun s => Named (v ++ s.pending [.call n.name]) s₀ s)
      (pure ⟨n, none⟩ : Parse Declarator) fun a => Named (v ++ a.mentions) s₀ :=
    .pure fun s hs => hs.declare
  dsimp only
  split
  · exact .bind (.complain _ _) fun _ => unset
  · exact unset

theorem declaration_names {d : DeclKind} :
    Triple (fun s => .keyword d.keyword = s.kind ∧ Named v s₀ s) (declaration d room)
      fun a => Named (v ++ a.mentions) s₀ :=
  .bind (.glance Stream.span) fun _ => (Triple.move (.named rfl)).bind fun _ =>
    .bind (.bind (.glance fun s => s.rest.length) fun n => declarator_names.commaRounds n v s₀)
      fun _ => .bind (.glance Stream.previousSpan) fun _ => .pure fun _ h => h

theorem parenCondition_names : Names (parenCondition room) Expr.mentions := fun v s₀ =>
  (Triple.moveSymbol (.named rfl)).bind fun _ => (expression_names room v s₀).bind fun _ =>
    (Triple.moveClosing (.named rfl) _).bind fun _ => .pure fun _ h => h

theorem forInit_names : Names (forInit room) ForInit.mentions := fun v s₀ => by
  refine .ifMoved (.named rfl) (.pure fun s h => by simpa [ForInit.mentions] using h) ?_
  refine .bind (.sight Stream.kind) fun k => ?_
  have ended : ∀ i : ForInit, Triple (Named (v ++ i.mentions) s₀)
      (do let _ ← expect .semicolon; return i) fun i => Named (v ++ i.mentions) s₀ := fun i =>
    (Triple.moveSymbol (.named rfl)).bind fun _ => .pure fun _ h => h
  dsimp only
  split
  case h_1 d hd =>
    obtain rfl := DeclKind.eq_keyword hd
    exact .bind (declaration_names.map fun _ _ h => h) ended
  · exact .bind (.map ((expression_names room v s₀).pre fun s h => h.2) fun _ _ h => h) ended

theorem expressionUnless_names {m : Symbol} : Names (expressionUnless m room) optionMentions :=
  fun v s₀ => by
  refine .bind (.glance fun s => s.kind.isSymbol m) fun absent => ?_
  split
  · exact .pure fun s h => by simpa [optionMentions] using h
  · exact (expression_names room v s₀).map fun _ _ h => h

def NamesFrom (k : Kind) (p : Parse Stmt) : Prop :=
  ∀ v s₀, Triple (fun s => k = s.kind ∧ Named v s₀ s) p fun st => Named (v ++ st.mentions) s₀

theorem returnStatement_names : NamesFrom (.keyword .return_) (returnStatement room) :=
  fun v s₀ => by
  refine .bind (.glance Stream.span) fun start => (Triple.move (.named rfl)).bind fun _ =>
    .bind (.glance id) fun s => ?_
  have ended (value : Option Expr) : Triple (Named (v ++ optionMentions value) s₀)
      (do
        let stop ← previousSpan
        endStatement
        return .return_ (start.merge stop) value)
      fun st : Stmt => Named (v ++ st.mentions) s₀ :=
    .bind (.glance Stream.previousSpan) fun _ => Triple.moveEnd.bind fun _ => .pure fun _ h => h
  dsimp only
  split
  · exact .bind (.pure fun s h => by simpa [optionMentions] using h) ended
  · exact .bind ((expression_names room v s₀).map fun _ _ h => h) ended

theorem jumpStatement_names {word : Keyword} {inLoop : Bool} {build : Span → Stmt}
    (silent : ∀ here, (build here).mentions = []) :
    NamesFrom (.keyword word) (jumpStatement word inLoop build) := fun v s₀ => by
  refine .bind (.glance Stream.span) fun here => (Triple.move (.named rfl)).bind fun _ => ?_
  have ended : Triple (Named v s₀)
      (do
        endStatement
        return build here)
      fun st : Stmt => Named (v ++ st.mentions) s₀ :=
    Triple.moveEnd.bind fun _ => .pure fun s h => by simpa [silent] using h
  dsimp only
  split
  · exact .bind (.complain _ _) fun _ => ended
  · exact ended

section

variable {st : Parse Stmt} (hst : Names st Stmt.mentions)
include hst

theorem blockRounds_names : ∀ n, Names (blockRounds st n) bodyMentions
  | 0 => fun v s₀ => .pure fun s h => by simpa [bodyMentions] using h
  | n + 1 => fun v s₀ => by
    refine .bind (.glance id) fun _ => ?_
    split
    · exact .pure fun s h => by simpa [bodyMentions] using h
    refine (hst v s₀).attempt.bind fun o => ?_
    cases o with
    | none => exact .never (blockRounds_names n).honest fun _ h => by simp at h
    | some a =>
      refine ((blockRounds_names n (v ++ a.mentions) s₀).pre fun s h => ?_).bind fun as =>
        .pure fun s h => by simpa [bodyMentions] using h
      obtain ⟨_, ⟨⟩, named⟩ := h
      exact named

theorem block_names : Names (block st) fun b => bodyMentions b.2 := fun v s₀ =>
  .bind (.glance Stream.span) fun _ => (Triple.moveSymbol (.named rfl)).bind fun _ =>
    .bind (.glance fun s => s.rest.length) fun n => (blockRounds_names hst n v s₀).bind fun _ =>
    (Triple.moveClosing (.named rfl) _).bind fun _ => .bind (.glance Stream.previousSpan) fun _ =>
    .pure fun _ h => h

theorem functionStatement_names : NamesFrom (.keyword .function) (functionStatement st) :=
  fun v s₀ => by
  refine .bind (.glance Stream.span) fun start => (Triple.move (.named rfl)).bind fun _ =>
    .bind (.glance fun s => s.kind.isSymbol .openParen) fun nameless => ?_
  have named : Triple (Named v s₀)
      (do
        let n ← name
        let opened ← expect .openParen
        let params ← if ← sees .closeParen then pure [] else commaList name
        expectClosing .closeParen opened
        let b ← block st
        return .function (start.merge b.1) n params b.1 b.2)
      fun st : Stmt => Named (v ++ st.mentions) s₀ := by
    refine (name_names.post fun _ _ h => h.declare).bind fun n =>
      (Triple.moveSymbol (.named rfl)).bind fun opened =>
      .bind (.glance fun s => s.kind.isSymbol .closeParen) fun closes => ?_
    have closed (params : List Ident) : Triple (Settled (v ++ [.declared n.name]) s₀)
        (do
          expectClosing .closeParen opened
          let b ← block st
          return .function (start.merge b.1) n params b.1 b.2)
        fun st : Stmt => Named (v ++ st.mentions) s₀ :=
      (Triple.moveClosing (.settled (by decide)) _).bind fun _ => (block_names hst _ s₀).bind
        fun b => .pure fun s h => by simpa [Stmt.mentions] using h
    dsimp only
    split
    · exact .bind (.pure fun s h _ => h) closed
    · exact .bind (.bind (.glance fun s => s.rest.length) fun n => nameRounds_settled n) closed
  dsimp only
  split
  · exact .bind (.refuse _) fun _ => named
  · exact named

theorem branchStatement_names : NamesFrom (.keyword .if_) (branchStatement room st) :=
  fun v s₀ => by
  refine .bind (.glance Stream.span) fun start => (Triple.move (.named rfl)).bind fun _ =>
    (parenCondition_names v s₀).bind fun c => (hst _ s₀).bind fun yes =>
    .bind (.sight Stream.kind) fun k => ?_
  have ended (no : Option Stmt) : Triple
      (Named (v ++ c.mentions ++ yes.mentions ++ elseMentions no) s₀)
      (do return .branch (start.merge (← previousSpan)) c yes no)
      fun st : Stmt => Named (v ++ st.mentions) s₀ :=
    .bind (.glance Stream.previousSpan) fun _ => .pure fun s h => by
      simpa [Stmt.mentions] using h
  dsimp only
  split
  · next there =>
    obtain rfl := Kind.eq_of_isKeyword there
    refine (Triple.move (.named rfl)).bind fun _ => .bind ((hst _ s₀).map fun no s h => ?_) ended
    simpa [elseMentions] using h
  · exact .bind (.pure fun s h => by simpa [elseMentions] using h.2) ended

theorem whileStatement_names : NamesFrom (.keyword .while_) (whileStatement room st) :=
  fun v s₀ => .bind (.glance Stream.span) fun _ => (Triple.move (.named rfl)).bind fun _ =>
    (parenCondition_names v s₀).bind fun c => (hst _ s₀).bind fun body =>
    .bind (.glance Stream.previousSpan) fun _ => .pure fun s h => by
      simpa [Stmt.mentions] using h

theorem doWhileStatement_names : NamesFrom (.keyword .do_) (doWhileStatement room st) :=
  fun v s₀ => .bind (.glance Stream.span) fun _ => (Triple.move (.named rfl)).bind fun _ =>
    (hst v s₀).bind fun body =>
    (Triple.moveKind (fun _ => Kind.eq_of_isKeyword) (.named rfl) _).bind fun _ =>
    (parenCondition_names _ s₀).bind fun c => (Triple.moveIf (.named rfl)).bind fun _ =>
    .bind (.glance Stream.previousSpan) fun _ => .pure fun s h => by
      simpa [Stmt.mentions] using h

theorem forStatement_names : NamesFrom (.keyword .for_) (forStatement room st) := fun v s₀ => by
  refine .bind (.glance Stream.span) fun start => (Triple.move (.named rfl)).bind fun _ =>
    (Triple.moveSymbol (.named rfl)).bind fun opened => .bind (.glance id) fun s => ?_
  have headed : Triple (Named v s₀)
      (do
        let init ← forInit room
        let condition ← expressionUnless .semicolon room
        let _ ← expect .semicolon
        let update ← expressionUnless .closeParen room
        expectClosing .closeParen opened
        let body ← st
        return .for_ (start.merge (← previousSpan)) init condition update body)
      fun st : Stmt => Named (v ++ st.mentions) s₀ :=
    (forInit_names v s₀).bind fun init => (expressionUnless_names _ s₀).bind fun c =>
    (Triple.moveSymbol (.named rfl)).bind fun _ => (expressionUnless_names _ s₀).bind fun u =>
    (Triple.moveClosing (.named rfl) _).bind fun _ => (hst _ s₀).bind fun body =>
    .bind (.glance Stream.previousSpan) fun _ => .pure fun s h => by
      simpa [Stmt.mentions] using h
  dsimp only
  split
  · exact .bind (.glance Stream.span) fun _ => .refusal _ _
  · exact headed

end

theorem statement_names : ∀ room inLoop, Names (statement room inLoop) Stmt.mentions
  | 0, _ => fun _ _ => .refuse _
  | room + 1, inLoop => fun v s₀ => by
    refine .bind (.sight Stream.kind) fun k => ?_
    dsimp only
    split
    · exact ((block_names (statement_names room inLoop) v s₀).pre fun s h => h.2).bind fun b =>
        .pure fun s h => h
    · exact .bind (.glance Stream.span) fun _ => (Triple.move (.named rfl)).bind fun _ =>
        .pure fun s h => by simpa [Stmt.mentions] using h
    · exact functionStatement_names (statement_names room false) v s₀
    · exact branchStatement_names (statement_names room inLoop) v s₀
    · exact whileStatement_names (statement_names room true) v s₀
    · exact doWhileStatement_names (statement_names room true) v s₀
    · exact forStatement_names (statement_names room true) v s₀
    · exact returnStatement_names v s₀
    · exact jumpStatement_names (fun _ => rfl) v s₀
    · exact jumpStatement_names (fun _ => rfl) v s₀
    · exact .refuse _
    · split
      case h_1 d hd =>
        obtain rfl := DeclKind.eq_keyword hd
        exact declaration_names.bind fun a => Triple.moveEnd.bind fun _ => .pure fun s h => h
      · exact ((expression_names room v s₀).pre fun s h => h.2).bind fun e =>
          Triple.moveEnd.bind fun _ => .pure fun s h => h

theorem programRounds_names : ∀ n, Names (programRounds n) bodyMentions
  | 0 => fun v s₀ => .pure fun s h => by simpa [bodyMentions] using h
  | n + 1 => fun v s₀ => by
    refine .bind (.glance id) fun s => ?_
    split
    · exact .pure fun s h => by simpa [bodyMentions] using h
    split
    · exact .bind (.complain _ _) fun _ => .bind (.never .advance fun _ => id) fun _ =>
        .never (programRounds_names n).honest fun _ => id
    refine (statement_names nestingLimit false v s₀).attempt.bind fun o => ?_
    cases o with
    | none => exact .never (programRounds_names n).honest fun _ h => by simp at h
    | some a =>
      refine ((programRounds_names n (v ++ a.mentions) s₀).pre fun s h => ?_).bind fun as =>
        .pure fun s h => by simpa [bodyMentions] using h
      obtain ⟨_, ⟨⟩, named⟩ := h
      exact named

theorem Triple.both {P P' : Stream → Prop} {p : Parse α} {Q Q' : α → Stream → Prop}
    (h : Triple P p Q) (h' : Triple P' p Q') :
    Triple (fun s => P s ∧ P' s) p fun a s => Q a s ∧ Q' a s where
  toHonest := h.toHonest
  gives hs he clean := ⟨h.gives hs.1 he clean, h'.gives hs.2 he clean⟩

theorem program_names (s₀ : Stream) : Triple (fun s => s = s₀ ∧ s.report.total = 0) program
    fun p s => Named (bodyMentions p.body) s₀ s ∧ s.rest = [] := by
  refine .bind (.glance Stream.span) fun start => .bind (.sight fun s => s.rest.length) fun n => ?_
  refine (((programRounds_names n [] s₀).both (programRounds_triple s₀ [] True n)).pre
    fun _ h => ?_).bind fun body => .bind (.glance Stream.previousSpan) fun _ => .pure fun s h => ?_
  · obtain ⟨rfl, rfl, clean⟩ := h
    exact ⟨.refl _, ⟨.refl _, Nat.le_refl _, trivial⟩, clean⟩
  · exact ⟨h.1, h.2.2.1⟩

end Parse

theorem parseTokens_names (h : (parseTokens ts).2.isClean = true) :
    (∀ n, .call n ∈ bodyMentions (parseTokens ts).1.body → n ∈ (Stream.ofTokens ts).called) ∧
      ∀ n ∈ (Stream.ofTokens ts).called, .call n ∈ bodyMentions (parseTokens ts).1.body ∨
        .declared n ∈ bodyMentions (parseTokens ts).1.body := by
  have names := Parse.program_names (Stream.ofTokens ts)
  have speaks := names.speaks (Stream.ofTokens ts)
  unfold parseTokens at h ⊢
  rcases hp : Parse.program (Stream.ofTokens ts) with ⟨_ | p, t⟩ <;>
    simp only [hp, Report.isClean, decide_eq_true_eq] at h ⊢
  · rw [hp] at speaks
    exact absurd (speaks rfl) (by simp [h])
  · obtain ⟨⟨used, called, calls, only⟩, ended⟩ := names.gives ⟨rfl, rfl⟩ hp h
    have : (Stream.ofTokens ts).called = used := by
      simpa [Stream.called, ended, Usage.calledNames] using called
    rw [this]
    exact ⟨calls, only⟩

end Spellcraft
