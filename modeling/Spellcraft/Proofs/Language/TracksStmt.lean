import Spellcraft.Language.ParseStmt
import Spellcraft.Proofs.Language.TracksExpr

namespace Spellcraft

namespace Counted

variable {c : Cursor}

theorem looksForEach_apply (hc : c.Closed) :
    looksForEach c = some (some (Parse.looksForEach c.stream), c) := by
  simp only [looksForEach, Parse.looksForEach, bind_apply, kind_apply hc]
  generalize hn : (if (DeclKind.ofKind? c.stream.kind).isSome then 1 else 0) = n
  have within : n ≤ c.left := by
    subst hn
    split
    next declares =>
      refine Cursor.lt_left fun eof => ?_
      have first : c.stream.kind = .eof := by
        rw [← eof, Stream.kind, List.head?_eq_getElem?]
        rfl
      rw [first] at declares
      cases declares
    · exact Nat.zero_le _
  cases named : (c.stream.kindAt n).isName with
  | false => simp only [kindAt_apply hc within, named, Bool.false_and]; rfl
  | true =>
    have further : n + 1 ≤ c.left := by
      refine Cursor.lt_left fun eof => ?_
      rw [eof] at named
      cases named
    simp only [kindAt_apply hc within, named, if_true, bind_apply, kindAt_apply hc further,
      Bool.true_and]
    cases c.stream.kindAt (n + 1) <;> rfl

theorem blockRounds_apply (q : Counted Stmt) (clock n : Nat) (hc : c.Closed) :
    blockRounds clock q (n + 1) c =
      (if c.stream.kind.isSymbol .closeBrace || c.stream.atEnd || c.stream.report.isFull then
          pure []
        else do
          match ← attempt clock q with
          | some stmt => return stmt :: (← blockRounds clock q n)
          | none => blockRounds clock q n) c := by
  simp only [blockRounds, bind_apply, sees_apply hc,
    atEnd_apply hc]
  cases c.stream.kind.isSymbol .closeBrace || c.stream.atEnd with
  | true => rfl
  | false => rfl

end Counted

namespace Tracks

variable {clock room : Nat} {b : Bool} {w : Leeway}

theorem name : Tracks 1 w Parse.name Counted.name := by
  refine .kind fun k => ?_
  cases k with
  | name n => exact .takeSpan (fun u => .pure _) (by simp)
  | keyword w => exact .of (.refuse (.reservedName w.text))
  | _ => exact .of (.refuse (.missingName _))

theorem declarator {d : DeclKind} :
    Tracks 1 ⟨clock, room, b⟩ (Parse.declarator d room) (Counted.declarator clock d) := by
  refine name.bind fun n => .ifEaten ?_ ?_ (Nat.zero_le 1)
  · exact (expression clock room b).mono.bind fun e => .pure _
  · dsimp only
    split
    · exact (complain _ _).bind fun _ => .pure _
    · exact .pure _

theorem declaration {d : DeclKind} (h : DeclKind.ofKind? k = some d) :
    TracksFrom k 1 ⟨clock, room, b⟩ (Parse.declaration d room) (Counted.declaration clock d) := by
  have hne : k ≠ .eof := by simp [DeclKind.eq_keyword h]
  refine .span fun start => .take ?_ hne
  exact declarator.commaList.mono.bind fun ds => .previousSpan fun _ => .pure _

theorem parenCondition : Tracks 1 ⟨clock, room, b⟩ (Parse.parenCondition room)
    (Counted.parenCondition clock) :=
  (expect .openParen).bind fun opened => (expression clock room b).mono.bind fun condition =>
    (expectClosing .closeParen opened).mono.bind fun _ => .pure condition

theorem forInit :
    Tracks 1 ⟨clock, room, b⟩ (Parse.forInit room) (Counted.forInit clock) := by
  refine .ifEaten (.pure ForInit.absent) (.kind fun k => ?_) (Nat.le_refl 1)
  have ended (init : ForInit) : Tracks 0 ⟨clock, room, b⟩
      (do let _ ← Parse.expect .semicolon; return init)
      (do let _ ← Counted.expect .semicolon; return init) :=
    (expect .semicolon).mono.bind fun _ => .pure init
  cases hd : DeclKind.ofKind? k with
  | some d => exact ((declaration hd).map ForInit.declare).bind ended
  | none => exact .of (((expression clock room b).map ForInit.expr).bind ended)

theorem expressionUnless (s : Symbol) : Tracks 0 ⟨clock, room, b⟩
    (Parse.expressionUnless s room) (Counted.expressionUnless clock s) := by
  refine .sees s fun absent => ?_
  split
  · exact .pure none
  · exact ((expression clock room b).map some).mono

theorem returnStatement : TracksFrom (.keyword .return_) 1 ⟨clock, room, b⟩
    (Parse.returnStatement room) (Counted.returnStatement clock) := by
  refine .takeSpan (fun start c hc => ?_) (by simp)
  let ended (value : Option Expr) : Parse Stmt := do
    let stop ← Parse.previousSpan
    Parse.endStatement
    return .return_ (start.span.merge stop) value
  let endedCounted (value : Option Expr) : Counted Stmt := do
    let stop ← Counted.previousSpan
    Counted.endStatement
    return .return_ (start.span.merge stop) value
  have tail (value : Option Expr) :
      Tracks 0 ⟨clock, room, b⟩ (ended value) (endedCounted value) :=
    .previousSpan fun stop => endStatement.bind fun _ => .pure _
  let s := c.stream
  let bare := s.kind.isSymbol .semicolon || s.kind.isSymbol .closeBrace || s.atEnd || s.onNewLine
  have branches : Follows 0 c
      (if bare then pure none >>= ended else (some <$> Parse.expression room) >>= ended)
      (if bare then pure none >>= endedCounted
        else (some <$> Counted.expression clock) >>= endedCounted) := by
    split
    · exact ((Tracks.pure none).bind tail) c hc
    · exact (((expression clock room b).map some).mono.bind tail) c hc
  refine .of_eq ?_ ?_ branches
  · rfl
  · simp only [Counted.bind_apply, Counted.atEnd_apply hc.closed, Counted.sees_apply hc.closed,
      Counted.onNewLine_apply hc.closed]
    rfl

theorem jumpStatement {word : Keyword} {build : Span → Stmt} :
    TracksFrom (.keyword word) 1 ⟨clock, room, b⟩ (Parse.jumpStatement word b build)
      (Counted.jumpStatement word build) := by
  refine .takeSpan (fun here c hc => ?_) (by simp)
  have ended : Tracks 0 ⟨clock, room, b⟩ (do Parse.endStatement; return build here.span)
      (do Counted.endStatement; return build here.span) :=
    endStatement.bind fun _ => .pure _
  have loops : b = decide (0 < c.loops) := hc.loops
  cases b with
  | true =>
    have inside : c.loops ≠ 0 := Nat.ne_of_gt (of_decide_eq_true loops.symm)
    refine .of_eq rfl ?_ (ended c hc)
    simp only [Counted.bind_apply, Counted.get_apply, if_neg inside]
  | false =>
    have outside : c.loops = 0 := Nat.eq_zero_of_not_pos (of_decide_eq_false loops.symm)
    refine .of_eq rfl ?_ (((complain (.jumpOutsideLoop word.text) here.span).bind
      fun _ => ended) c hc)
    simp only [Counted.bind_apply, Counted.get_apply, if_pos outside]

theorem expressionStatement : Tracks 1 ⟨clock, room, b⟩ (Parse.expressionStatement room)
    (Counted.expressionStatement clock) :=
  (expression clock room b).bind fun _ => endStatement.bind fun _ => .pure _

section

variable {st : Parse Stmt} {q : Counted Stmt}

theorem blockRounds (h : Tracks 1 w st q) (bound n : Nat) (c : Cursor) (hc : c.At w)
    (enough : c.left ≤ bound) (time : c.left < n) :
    Follows 0 c (Parse.blockRounds st bound) (Counted.blockRounds w.clock q n) := by
  -- Every statement that is attempted takes a token, and so does going on behind one that
  -- fails.
  induction n generalizing bound c with
  | zero => cases time
  | succ n ih =>
    refine .of_eq rfl (Counted.blockRounds_apply q w.clock n hc.closed) ?_
    cases stops : c.stream.kind.isSymbol .closeBrace || c.stream.atEnd ||
        c.stream.report.isFull with
    | true =>
      have ended : Follows 0 c (pure [] : Parse (List Stmt)) (pure []) := .pure hc.closed []
      refine .of_eq ?_ rfl ended
      cases bound with
      | zero => rfl
      | succ bound => exact congrFun (if_pos stops) c.stream
    | false =>
      have heads := stops
      simp only [Bool.or_eq_false_iff] at heads
      obtain ⟨⟨inside, going⟩, -⟩ := heads
      cases bound with
      | zero =>
        -- A bound of no rounds means that no token is left, but there is one.
        have still := Cursor.left_eq_zero_iff.1 (Nat.le_zero.1 enough)
        rw [going] at still
        cases still
      | succ bound =>
        refine .of_eq (congrFun (if_neg (Bool.eq_false_iff.1 stops)) c.stream) rfl ?_
        refine (((h c hc).attempt hc.left_lt going inside).bind fun r d goes takes => ?_).mono
          (Nat.zero_le 1)
        have rest := ih bound d (goes.at hc) (by omega) (by omega)
        cases r with
        | some stmt => exact rest.bind fun body e goes' _ => .pure goes'.closed (stmt :: body)
        | none => exact rest

theorem block (h : Tracks 1 w st q) :
    Tracks 1 w (Parse.block st) (Counted.block w.clock q) := by
  refine .span fun start => (expect .openBrace).bind fun _ c hc => ?_
  have rounds := h.blockRounds c.left w.clock c hc (Nat.le_refl _) hc.left_lt
  refine .of_eq ?_ rfl (rounds.bind fun body d goes _ =>
    ((expectClosing .closeBrace start).mono.bind fun _ => .previousSpan fun _ => .pure _)
      d (goes.at hc))
  rfl

theorem functionStatement (h : Tracks 1 ⟨clock, room, false⟩ st q) :
    TracksFrom (.keyword .function) 1 ⟨clock, room, b⟩ (Parse.functionStatement st)
      (Counted.functionStatement clock q) := by
  refine .span fun start => .take (.sees _ fun nameless => ?_) (by simp)
  have named : Tracks 0 ⟨clock, room, b⟩
      (do
        let n ← Parse.name
        let opened ← Parse.expect .openParen
        let params ← if ← Parse.sees .closeParen then pure [] else Parse.commaList Parse.name
        Parse.expectClosing .closeParen opened
        let body ← Parse.block st
        return Stmt.function (start.merge body.1) n params body.1 body.2)
      (do
        let n ← Counted.name
        let opened ← Counted.expect .openParen
        let params ← if ← Counted.sees .closeParen then pure []
          else Counted.commaRounds Counted.name clock
        Counted.expectClosing .closeParen opened
        let body ← Counted.inFunction (Counted.block clock q)
        return Stmt.function (start.merge body.1) n params body.1 body.2) := by
    refine name.mono.bind fun n => (expect .openParen).mono.bind fun opened =>
      .sees _ fun closes => ?_
    have closed (params : List Ident) : Tracks 0 ⟨clock, room, b⟩
        (do
          Parse.expectClosing .closeParen opened
          let body ← Parse.block st
          return Stmt.function (start.merge body.1) n params body.1 body.2)
        (do
          Counted.expectClosing .closeParen opened
          let body ← Counted.inFunction (Counted.block clock q)
          return Stmt.function (start.merge body.1) n params body.1 body.2) :=
      (expectClosing .closeParen opened).mono.bind fun _ => h.block.inFunction.mono.bind
        fun _ => .pure _
    dsimp only
    split
    · exact (Tracks.pure []).bind closed
    · exact name.commaList.mono.bind closed
  dsimp only
  split
  · exact (refuse .namelessFunction).bind fun _ => named
  · exact named

theorem branchStatement (h : Tracks 1 ⟨clock, room, b⟩ st q) :
    TracksFrom (.keyword .if_) 1 ⟨clock, room, b⟩ (Parse.branchStatement room st)
      (Counted.branchStatement clock q) := by
  refine .span fun start => .take (parenCondition.mono.bind fun condition =>
    h.mono.bind fun yes => .kind fun k => ?_) (by simp)
  have ended (no : Option Stmt) : Tracks 0 ⟨clock, room, b⟩
      (do return Stmt.branch (start.merge (← Parse.previousSpan)) condition yes no)
      (do return Stmt.branch (start.merge (← Counted.previousSpan)) condition yes no) :=
    .previousSpan fun stop => .pure _
  dsimp only
  split
  next there =>
    obtain rfl := Kind.eq_of_isKeyword there
    exact .mono (.take ((h.map some).mono.bind ended) (by simp))
  · exact .of ((Tracks.pure none).bind ended)

theorem whileStatement (h : Tracks 1 ⟨clock, room, true⟩ st q) :
    TracksFrom (.keyword .while_) 1 ⟨clock, room, b⟩ (Parse.whileStatement room st)
      (Counted.whileStatement clock q) :=
  .span fun _ => .take (parenCondition.mono.bind fun _ => h.inLoop.mono.bind fun _ =>
    .previousSpan fun _ => .pure _) (by simp)

theorem doWhileStatement (h : Tracks 1 ⟨clock, room, true⟩ st q) :
    TracksFrom (.keyword .do_) 1 ⟨clock, room, b⟩ (Parse.doWhileStatement room st)
      (Counted.doWhileStatement clock q) :=
  .span fun _ => .take (h.inLoop.mono.bind fun _ => (expectKeyword .while_).mono.bind fun _ =>
    parenCondition.mono.bind fun _ => (eat .semicolon).bind fun _ =>
    .previousSpan fun _ => .pure _) (by simp)

theorem forStatement (h : Tracks 1 ⟨clock, room, true⟩ st q) :
    TracksFrom (.keyword .for_) 1 ⟨clock, room, b⟩ (Parse.forStatement room st)
      (Counted.forStatement clock q) := by
  refine .span fun start => .take ((expect .openParen).mono.bind fun opened c hc => ?_) (by simp)
  have headed : Tracks 0 ⟨clock, room, b⟩
      (do
        let init ← Parse.forInit room
        let condition ← Parse.expressionUnless .semicolon room
        let _ ← Parse.expect .semicolon
        let update ← Parse.expressionUnless .closeParen room
        Parse.expectClosing .closeParen opened
        let body ← st
        return Stmt.for_ (start.merge (← Parse.previousSpan)) init condition update body)
      (do
        let init ← Counted.forInit clock
        let condition ← Counted.expressionUnless clock .semicolon
        let _ ← Counted.expect .semicolon
        let update ← Counted.expressionUnless clock .closeParen
        Counted.expectClosing .closeParen opened
        let body ← Counted.inLoop q
        return Stmt.for_ (start.merge (← Counted.previousSpan)) init condition update body) :=
    forInit.mono.bind fun _ => (expressionUnless .semicolon).bind fun _ =>
      (expect .semicolon).mono.bind fun _ => (expressionUnless .closeParen).bind fun _ =>
      (expectClosing .closeParen opened).mono.bind fun _ => h.inLoop.mono.bind fun _ =>
      .previousSpan fun _ => .pure _
  cases each : Parse.looksForEach c.stream with
  | true =>
    have refused : Tracks 0 ⟨clock, room, b⟩
        (Parse.span >>= fun here => Parse.complain .forEach (start.merge here) >>= fun _ =>
          (failure : Parse Stmt))
        (Counted.span >>= fun here => Counted.complain .forEach (start.merge here) >>= fun _ =>
          (failure : Counted Stmt)) := .span fun here => refusal .forEach (start.merge here)
    refine .of_eq (congrFun (if_pos each) c.stream) ?_ (refused c hc)
    rw [Counted.bind_apply, Counted.looksForEach_apply hc.closed, each]
    rfl
  | false =>
    refine .of_eq (congrFun (if_neg (Bool.eq_false_iff.1 each)) c.stream) ?_ (headed c hc)
    rw [Counted.bind_apply, Counted.looksForEach_apply hc.closed, each]
    rfl

end

theorem statementForm {q : Counted Stmt}
    (h : ∀ b', Tracks 1 ⟨clock, room, b'⟩ (Parse.statement room b') q) :
    Tracks 1 ⟨clock, room, b⟩ (Parse.statement (room + 1) b) (Counted.statementForm clock q) := by
  rw [Parse.statement]
  have declared {k : Kind} {d : DeclKind} (hd : DeclKind.ofKind? k = some d) :
      TracksFrom k 1 ⟨clock, room, b⟩
        (Parse.declaration d room >>= fun d => Parse.endStatement >>= fun _ =>
          pure (Stmt.declare d))
        (Counted.declaration clock d >>= fun d => Counted.endStatement >>= fun _ =>
          pure (Stmt.declare d)) :=
    (declaration hd).bind fun d => endStatement.bind fun _ => .pure (Stmt.declare d)
  refine .kind fun k => ?_
  cases k with
  | symbol s =>
    cases s with
    | openBrace => exact .of ((h b).block.bind fun _ => .pure _)
    | semicolon => exact .takeSpan (fun here => .pure _) (by simp)
    | _ => exact .of expressionStatement
  | keyword w =>
    -- Where a statement needs its first word, the word is what it was come to at.
    cases w with
    | function => exact functionStatement (h false)
    | if_ => exact branchStatement (h b)
    | while_ => exact whileStatement (h true)
    | do_ => exact doWhileStatement (h true)
    | for_ => exact forStatement (h true)
    | return_ => exact returnStatement
    | break_ | continue_ => exact jumpStatement
    | else_ => exact .of (.refuse .strayElse)
    | let_ | const | var => exact declared rfl
    | _ => exact .of expressionStatement
  | _ => exact .of expressionStatement

theorem statement (clock room : Nat) (b : Bool) :
    Tracks 1 ⟨clock, room, b⟩ (Parse.statement room b) (Counted.statement clock) := by
  induction clock generalizing room b with
  | zero => exact fun c hc => absurd hc.time (Nat.not_lt_zero _)
  | succ n ih =>
    cases room with
    | zero => exact .tooDeep rfl
    | succ room => exact .levelled (statementForm fun b' => ih room b') (Nat.le_refl _)

end Tracks

end Spellcraft
