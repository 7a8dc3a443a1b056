import Mathlib.Data.List.TakeWhile
import Spellcraft.Proofs.Language.TracksStmt

namespace Spellcraft

theorem Stream.ofTokens_close (ts : List Token) : (Stream.ofTokens ts).close =
    ((ts.find? (·.kind.isEof)).map Token.span).getD
      ((ts.getLast?.map Token.span).getD (.point .origin)) := by
  rw [List.find?_eq_head?_dropWhile_not, ofTokens]
  cases ts.dropWhile (!·.kind.isEof) <;> rfl

namespace Cursor

theorem ofTokens_tokens (ts : List Token) :
    (∃ t ∈ ts, t.kind.isEof = true) ∧ (ofTokens ts).tokens = ts ∨
      (ofTokens ts).tokens =
        ts ++ [⟨.eof, (ts.getLast?.map Token.span).getD (.point .origin)⟩] := by
  simp only [ofTokens]
  cases last : ts.getLast? with
  | none =>
    rw [List.getLast?_eq_none_iff.1 last]
    exact .inr rfl
  | some t =>
    dsimp only
    split
    next eof => exact .inl ⟨⟨t, List.mem_of_getLast? last, eof⟩, rfl⟩
    · exact .inr rfl

theorem ofTokens_ahead (ts : List Token) : (ofTokens ts).ahead = (ofTokens ts).tokens := rfl

theorem ofTokens_closed (ts : List Token) : (ofTokens ts).Closed := by
  rw [Closed, ofTokens_ahead]
  rcases ofTokens_tokens ts with ⟨closed, same⟩ | added
  · rwa [same]
  · rw [added]
    exact ⟨_, List.mem_concat_self, rfl⟩

theorem ofTokens_stream (ts : List Token) : (ofTokens ts).stream = Stream.ofTokens ts := by
  have rest : (ofTokens ts).tokens.takeWhile (!·.kind.isEof) = ts.takeWhile (!·.kind.isEof) := by
    rcases ofTokens_tokens ts with ⟨-, same⟩ | added
    · rw [same]
    · rw [added, List.takeWhile_append]
      split
      next whole =>
        rw [(List.takeWhile_prefix _).eq_of_length whole]
        exact List.append_nil ts
      · rfl
  have close : (((ofTokens ts).tokens.find? (·.kind.isEof)).map Token.span).getD (.point .origin) =
      (Stream.ofTokens ts).close := by
    rw [Stream.ofTokens_close]
    rcases ofTokens_tokens ts with ⟨closed, same⟩ | added
    · obtain ⟨t, first⟩ := Option.isSome_iff_exists.1 (List.find?_isSome.2 closed)
      simp only [same, first, Option.map_some, Option.getD_some]
    · rw [added, List.find?_append]
      cases ts.find? (·.kind.isEof) <;> rfl
  rw [stream, ofTokens_ahead, rest, close]
  rfl

theorem ofTokens_left (ts : List Token) : (ofTokens ts).left ≤ ts.length := by
  rw [left, ofTokens_stream]
  exact (List.takeWhile_sublist _).length_le

theorem ofTokens_at (ts : List Token) (enough : nestingLimit + ts.length < clock) :
    (ofTokens ts).At ⟨clock, nestingLimit, false⟩ := by
  refine ⟨ofTokens_closed ts, Nat.zero_add _, ?_, rfl⟩
  exact Nat.lt_of_le_of_lt (Nat.add_le_add_left (ofTokens_left ts) nestingLimit) enough

def Shows (c : Cursor) (k : Kind) : Prop := ∃ t, c.tokens[c.pos]? = some t ∧ t.kind = k

def Ends (c : Cursor) : Prop := c.Shows .eof ∨ Report.capacity ≤ c.report.total

def Outermost (c : Cursor) : Prop := c.depth = 0 ∧ c.loops = 0

/-- Where a rule may begin: an `eof` is still to come, no more levels are open than there may be,
and there is time for those that are left and for the tokens. -/
structure Ready (clock : Nat) (c : Cursor) : Prop where
  closed : c.Closed
  depth : c.depth ≤ nestingLimit
  time : nestingLimit - c.depth + c.left < clock

section

variable {c d : Cursor}

theorem Ready.at (hc : c.Ready clock) :
    c.At ⟨clock, nestingLimit - c.depth, decide (0 < c.loops)⟩ :=
  ⟨hc.closed, Nat.add_sub_cancel' hc.depth, hc.time, rfl⟩

theorem Goes.ready (h : c.Goes d) (hc : c.Ready clock) : d.Ready clock where
  closed := h.closed
  depth := h.depth ▸ hc.depth
  time := h.depth ▸ Nat.lt_of_le_of_lt (Nat.add_le_add_left h.left _) hc.time

theorem shows_iff (hc : c.Closed) : c.Shows k ↔ c.stream.kind = k := by
  obtain ⟨t, ts, ahead⟩ := hc.exists_ahead
  rw [Shows, getElem?_pos ahead, stream_kind ahead]
  simp only [Option.some.injEq, exists_eq_left']

theorem ends_iff (hc : c.Closed) :
    c.Ends ↔ (c.stream.atEnd || c.stream.report.isFull) = true := by
  obtain ⟨t, ts, ahead⟩ := hc.exists_ahead
  rw [Ends, shows_iff hc, stream_kind ahead, stream_atEnd ahead, Bool.or_eq_true, Kind.isEof_iff]
  exact or_congr_right decide_eq_true_iff.symm

theorem At.outermost (hc : c.At ⟨clock, nestingLimit, false⟩) : c.Outermost := by
  have depth : c.depth + nestingLimit = nestingLimit := hc.depth
  have loops : false = decide (0 < c.loops) := hc.loops
  exact ⟨by omega, Nat.eq_zero_of_not_pos (of_decide_eq_false loops.symm)⟩

theorem Goes.pos_lt (h : c.Goes d) (fewer : d.left < c.left) : c.pos < d.pos := by
  have := h.aim
  omega

end

end Cursor

namespace Counted

/-- A round at the top level of a spell, with the statement that it reads. No level and no loop is
left open behind a statement, whether it was read or given up. -/
inductive Round (clock : Nat) (c : Cursor) : Option Stmt → Cursor → Prop
  | brace : c.Shows (.symbol .closeBrace) →
    Round clock c none (c.complain .unmatchedBrace c.stream.span).next
  | read {s : Stmt} {d : Cursor} : ¬ c.Shows (.symbol .closeBrace) →
    statement clock c = some (some s, d) → d.Outermost → Round clock c (some s) d
  | givenUp {d e : Cursor} : ¬ c.Shows (.symbol .closeBrace) →
    statement clock c = some (none, d) → d.Outermost → c.report.total < d.report.total →
    recoverFrom clock c.pos d = some (some (), e) → Round clock c none e

/-- Rounds go on at a later token each, up to where they end. -/
inductive Rounds (clock : Nat) : Cursor → List Stmt → Cursor → Prop
  | ended {c : Cursor} : c.Ends → Rounds clock c [] c
  | goOn {c d e : Cursor} {s : Option Stmt} {body : List Stmt} : ¬ c.Ends → Round clock c s d →
    c.pos < d.pos → Rounds clock d body e → Rounds clock c (s.toList ++ body) e

theorem Rounds.ends (h : Rounds clock c body d) : d.Ends := by
  induction h with
  | ended ends => exact ends
  | goOn _ _ _ _ ih => exact ih

section

variable {c : Cursor}

theorem programRounds_apply (clock n : Nat) (hc : c.Closed) : programRounds clock (n + 1) c =
    (if c.stream.atEnd || c.stream.report.isFull then pure []
      else if c.stream.kind.isSymbol .closeBrace then do
        complain .unmatchedBrace c.stream.span
        let _ ← advance
        programRounds clock n
      else do
        match ← attempt clock (statement clock) with
        | some stmt => return stmt :: (← programRounds clock n)
        | none => programRounds clock n) c := by
  simp only [programRounds, bind_apply, atEnd_apply hc]
  cases c.stream.atEnd with
  | true => rfl
  | false =>
    simp only [Bool.false_eq_true, if_false, bind_apply, isFull_apply, Bool.false_or]
    cases c.stream.report.isFull with
    | true => rfl
    | false =>
      simp only [Bool.false_eq_true, if_false, bind_apply, sees_apply hc]
      cases c.stream.kind.isSymbol .closeBrace with
      | true => simp only [if_true, bind_apply, span_apply hc]
      | false => rfl

theorem atEnd_of_not_ends (hc : c.Closed) (h : ¬ c.Ends) : c.stream.atEnd = false := by
  have goesOn := mt (Cursor.ends_iff hc).2 h
  simp only [Bool.or_eq_true, not_or, Bool.not_eq_true] at goesOn
  exact goesOn.1

structure Takes (clock : Nat) (c : Cursor) (s : Option Stmt) (d : Cursor) : Prop where
  round : Round clock c s d
  goes : c.Goes d
  fewer : d.left < c.left
  run (n : Nat) : programRounds clock (n + 1) c =
    (programRounds clock n >>= fun body => pure (s.toList ++ body)) d
  parsed (bound : Nat) : Parse.programRounds (bound + 1) c.stream =
    (Parse.programRounds bound >>= fun body => pure (s.toList ++ body)) d.stream

theorem takes_brace (hc : c.Closed) (h : ¬ c.Ends)
    (seen : c.stream.kind.isSymbol .closeBrace = true) :
    Takes clock c none (c.complain .unmatchedBrace c.stream.span).next := by
  let e := c.complain .unmatchedBrace c.stream.span
  have goesOn := mt (Cursor.ends_iff hc).2 h
  obtain ⟨t, ts, ahead⟩ := hc.exists_ahead
  have still : e.ahead = t :: ts := ahead
  have ht : t.kind.isEof = false := by
    rw [← Cursor.stream_atEnd ahead, atEnd_of_not_ends hc h]
  refine ⟨.brace ((Cursor.shows_iff hc).2 (Kind.eq_of_isSymbol seen)),
    (Cursor.Goes.complain hc _ _).trans (.next hc still ht),
    Nat.lt_of_succ_le (Nat.le_of_eq (Cursor.left_next still ht)), fun n => ?_, fun bound => ?_⟩
  · have step : (advance >>= fun _ => programRounds clock n) e = programRounds clock n e.next :=
      bind_gives (advance_apply still)
    rw [programRounds_apply clock n hc, if_neg goesOn, if_pos seen]
    simp only [Option.toList_none, List.nil_append, bind_pure]
    exact (bind_gives rfl).trans step
  · have step : Parse.programRounds (bound + 1) c.stream =
        Parse.programRounds bound e.stream.advance :=
      (congrFun (if_neg goesOn) c.stream).trans (congrFun (if_pos seen) c.stream)
    rw [step, ← Cursor.stream_next still ht]
    simp only [Option.toList_none, List.nil_append, bind_pure, e]

theorem exists_takes (hc : c.At ⟨clock, nestingLimit, false⟩) (h : ¬ c.Ends)
    (seen : c.stream.kind.isSymbol .closeBrace = false) : ∃ s d, Takes clock c s d := by
  have goesOn := mt (Cursor.ends_iff hc.closed).2 h
  have shows : ¬ c.Shows (.symbol .closeBrace) := by
    intro shows
    rw [(Cursor.shows_iff hc.closed).1 shows] at seen
    cases seen
  have apart : ¬ c.stream.kind.isSymbol .closeBrace = true := Bool.eq_false_iff.1 seen
  have run (n : Nat) : programRounds clock (n + 1) c = (do
      match ← attempt clock (statement clock) with
      | some stmt => return stmt :: (← programRounds clock n)
      | none => programRounds clock n) c := by
    rw [programRounds_apply clock n hc.closed, if_neg goesOn, if_neg apart]
  have parsed (bound : Nat) : Parse.programRounds (bound + 1) c.stream = (do
      match ← Parse.attempt (Parse.statement nestingLimit false) with
      | some stmt => return stmt :: (← Parse.programRounds bound)
      | none => Parse.programRounds bound) c.stream :=
    (congrFun (if_neg goesOn) c.stream).trans (congrFun (if_neg apart) c.stream)
  cases Tracks.statement clock nestingLimit false c hc with
  | gives stmt d ran gave goes fewer =>
    refine ⟨some stmt, d, .read shows ran (goes.at hc).outermost, goes, fewer, fun n => ?_,
      fun bound => ?_⟩
    · exact (run n).trans (bind_gives (attempt_of_some ran))
    · rw [parsed, Parse.bind_apply, Parse.attempt, gave]
      rfl
  | fails d ran gave goes tells =>
    obtain ⟨e, recovered, stream, goes', fewer⟩ :=
      recoverFrom_apply goes hc.left_lt (atEnd_of_not_ends hc.closed h) seen
    refine ⟨none, e, .givenUp shows ran (goes.at hc).outermost tells recovered, goes.trans goes',
      fewer, fun n => ?_, fun bound => ?_⟩
    · simp only [Option.toList_none, List.nil_append, bind_pure]
      exact (run n).trans (bind_gives (attempt_of_none ran recovered))
    · simp only [Option.toList_none, List.nil_append, bind_pure]
      rw [parsed, Parse.bind_apply, Parse.attempt, gave, stream]
      rfl

theorem programRounds_rounds (bound n : Nat) (hc : c.At ⟨clock, nestingLimit, false⟩)
    (enough : c.left ≤ bound) (time : c.left < n) :
    ∃ body d, programRounds clock n c = some (some body, d) ∧
      Parse.programRounds bound c.stream = (some body, d.stream) ∧ c.Goes d ∧
      Rounds clock c body d := by
  -- By induction on the clock, which no round can run down: each takes one of the tokens left.
  induction n generalizing bound c with
  | zero => cases time
  | succ n ih =>
    by_cases ends : c.Ends
    · have stops := (Cursor.ends_iff hc.closed).1 ends
      refine ⟨[], c, ?_, ?_, .refl hc.closed, .ended ends⟩
      · rw [programRounds_apply clock n hc.closed, if_pos stops, pure_apply]
      · cases bound with
        | zero => rfl
        | succ bound => exact congrFun (if_pos stops) c.stream
    have takes : ∃ s d, Takes clock c s d := by
      cases seen : c.stream.kind.isSymbol .closeBrace with
      | true => exact ⟨none, _, takes_brace hc.closed ends seen⟩
      | false => exact exists_takes hc ends seen
    obtain ⟨s, d, takes⟩ := takes
    have fewer := takes.fewer
    cases bound with
    | zero => omega
    | succ bound =>
      obtain ⟨body, e, run, parsed, goes, rounds⟩ :=
        ih bound (takes.goes.at hc) (by omega) (by omega)
      refine ⟨s.toList ++ body, e, ?_, ?_, takes.goes.trans goes,
        .goOn ends takes.round (takes.goes.pos_lt fewer) rounds⟩
      · rw [takes.run, bind_gives run, pure_apply]
      · rw [takes.parsed, Parse.bind_apply, parsed]
        rfl

end

theorem program_run (ts : List Token) (enough : nestingLimit + ts.length < clock) :
    ∃ p d, program clock (.ofTokens ts) = some (some p, d) ∧ parseTokens ts = (p, d.report) ∧
      Rounds clock (.ofTokens ts) p.body d := by
  let c := Cursor.ofTokens ts
  have closed : c.Closed := Cursor.ofTokens_closed ts
  have start : c.At ⟨clock, nestingLimit, false⟩ := Cursor.ofTokens_at ts enough
  obtain ⟨body, d, run, parsed, goes, rounds⟩ :=
    programRounds_rounds c.left clock start (Nat.le_refl _) start.left_lt
  let p : Program := ⟨body, c.stream.span.merge d.stream.previousSpan⟩
  refine ⟨p, d, ?_, ?_, rounds⟩
  · simp only [program, bind_apply, span_apply closed, run, previousSpan_apply goes.closed,
      pure_apply, c, p]
  · have whole : Parse.program c.stream = (some p, d.stream) := by
      have step : Parse.program c.stream = (Parse.programRounds c.left >>= fun body => do
        return ⟨body, c.stream.span.merge (← Parse.previousSpan)⟩) c.stream := rfl
      rw [step, Parse.bind_apply, parsed]
      rfl
    rw [parseTokens, ← Cursor.ofTokens_stream]
    simp only [whole, c]
    rfl

/-- The rules of the grammar that may give nothing, each with the token that it is come to at. -/
inductive Rule (n : Nat) (k : Kind) : {α : Type} → Counted α → Prop
  | expect (s : Symbol) : Rule n k (expect s)
  | expectKeyword (w : Keyword) : Rule n k (expectKeyword w)
  | expectClosing (s : Symbol) (opened : Span) : Rule n k (expectClosing s opened)
  | name : Rule n k name
  | expression : Rule n k (expression n)
  | assignment : Rule n k (assignment n (expression n))
  | target (p : Problem) (e : Expr) : Rule n k (target p e)
  | conditional : Rule n k (conditional n (expression n))
  | tier (tightness : Nat) : Rule n k (tier n (expression n) tightness)
  | unary : Rule n k (unary n (expression n) n)
  | nested : Rule n k (levelled (unary n (expression n) n))
  | suffixed : Rule n k (suffixed n (expression n))
  | calls : Rule n k (calls n (expression n))
  | arguments (opened : Span) : Rule n k (arguments n (expression n) opened)
  | primary : Rule n k (primary (expression n))
  | statement : Rule n k (statement n)
  | statementForm : Rule n k (statementForm n (statement n))
  | loopBody : Rule n k (inLoop (statement n))
  | block : Rule n k (block n (statement n))
  | declaration {d : DeclKind} : DeclKind.ofKind? k = some d → Rule n k (declaration n d)
  | parenCondition : Rule n k (parenCondition n)
  | function : k = .keyword .function → Rule n k (functionStatement n (statement n))
  | branch : k = .keyword .if_ → Rule n k (branchStatement n (statement n))
  | whileLoop : k = .keyword .while_ → Rule n k (whileStatement n (statement n))
  | doWhile : k = .keyword .do_ → Rule n k (doWhileStatement n (statement n))
  | forLoop : k = .keyword .for_ → Rule n k (forStatement n (statement n))
  | returns : k = .keyword .return_ → Rule n k (returnStatement n)
  | jump {w : Keyword} {build : Span → Stmt} : k = .keyword w → Rule n k (jumpStatement w build)

theorem Rule.follows {q : Counted α} (h : Rule n k q) {c : Cursor} (hc : c.At ⟨n, room, b⟩)
    (hk : c.stream.kind = k) : ∃ p : Parse α, Follows 0 c p q := by
  have nested : ∀ r ≤ room, Tracks 1 ⟨n, r, b⟩ (Parse.expression r) (Counted.expression n) :=
    fun r _ => .expression n r b
  have inner (b' : Bool) := Tracks.statement n room b'
  cases h with
  | expect s => exact ⟨_, (Tracks.expect s).mono c hc⟩
  | expectKeyword w => exact ⟨_, (Tracks.expectKeyword w).mono c hc⟩
  | expectClosing s opened => exact ⟨_, (Tracks.expectClosing s opened).mono c hc⟩
  | name => exact ⟨_, Tracks.name.mono c hc⟩
  | expression => exact ⟨_, (Tracks.expression n room b).mono c hc⟩
  | assignment => exact ⟨_, (Tracks.assignment nested).mono c hc⟩
  | target p e => exact ⟨_, Tracks.target e c hc⟩
  | conditional => exact ⟨_, (Tracks.conditional nested).mono c hc⟩
  | tier tightness => exact ⟨_, (Tracks.tier nested).mono c hc⟩
  | unary => exact ⟨_, (Tracks.unary nested hc.room_lt).mono c hc⟩
  | nested =>
    refine ⟨_, (Tracks.nested (Nat.lt_succ_of_lt hc.room_lt) fun r hr time => ?_).mono c hc⟩
    exact .unary (fun q _ => .expression n q b) time
  | suffixed => exact ⟨_, (Tracks.suffixed nested).mono c hc⟩
  | calls => exact ⟨_, (Tracks.calls nested).mono c hc⟩
  | arguments opened => exact ⟨_, (nested room (Nat.le_refl _)).arguments opened c hc⟩
  | primary => exact ⟨_, (Tracks.primary (nested room (Nat.le_refl _))).mono c hc⟩
  | statement => exact ⟨_, (inner b).mono c hc⟩
  | statementForm => exact ⟨_, (Tracks.statementForm inner).mono c hc⟩
  | loopBody => exact ⟨_, (inner true).inLoop.mono c hc⟩
  | block => exact ⟨_, (inner b).block.mono c hc⟩
  | declaration hd => exact ⟨_, (Tracks.declaration hd).mono c hc hk⟩
  | parenCondition => exact ⟨_, Tracks.parenCondition.mono c hc⟩
  | function h => exact ⟨_, (Tracks.functionStatement (inner false)).mono c hc (h ▸ hk)⟩
  | branch h => exact ⟨_, (Tracks.branchStatement (inner b)).mono c hc (h ▸ hk)⟩
  | whileLoop h => exact ⟨_, (Tracks.whileStatement (inner true)).mono c hc (h ▸ hk)⟩
  | doWhile h => exact ⟨_, (Tracks.doWhileStatement (inner true)).mono c hc (h ▸ hk)⟩
  | forLoop h => exact ⟨_, (Tracks.forStatement (inner true)).mono c hc (h ▸ hk)⟩
  | returns h => exact ⟨_, Tracks.returnStatement.mono c hc (h ▸ hk)⟩
  | jump h => exact ⟨_, Tracks.jumpStatement.mono c hc (h ▸ hk)⟩

theorem Rule.ends {q : Counted α} (h : Rule n k q) {c : Cursor} (hc : c.Ready n)
    (shows : c.Shows k) : ∃ r d, q c = some (r, d) ∧ d.Ready n ∧ d.depth = c.depth ∧
      d.loops = c.loops ∧ (r = none → c.report.total < d.report.total) := by
  obtain ⟨p, follows⟩ := h.follows hc.at ((Cursor.shows_iff hc.closed).1 shows)
  cases follows with
  | gives a d run _ goes _ =>
    exact ⟨some a, d, run, goes.ready hc, goes.depth, goes.loops, nofun⟩
  | fails d run _ goes tells =>
    exact ⟨none, d, run, goes.ready hc, goes.depth, goes.loops, fun _ => tells⟩

/-- Parsing is total and goes on: every list of tokens is read until an `eof` is at the cursor or
the report is full, and nothing is asked for that is not there. -/
theorem program_total (ts : List Token) (clock : Nat) (enough : nestingLimit + ts.length < clock) :
    (∃ p d, program clock (.ofTokens ts) = some (some p, d) ∧ parseTokens ts = (p, d.report) ∧
      Rounds clock (.ofTokens ts) p.body d ∧ d.Ends) ∧
    ∀ {n : Nat} {k : Kind} {α : Type} {q : Counted α}, Rule n k q → ∀ c : Cursor, c.Ready n →
      c.Shows k → ∃ r d, q c = some (r, d) ∧ d.Ready n ∧ d.depth = c.depth ∧ d.loops = c.loops ∧
        (r = none → c.report.total < d.report.total) := by
  obtain ⟨p, d, run, parsed, rounds⟩ := program_run ts enough
  exact ⟨⟨p, d, run, parsed, rounds, rounds.ends⟩, fun h c hc shows => h.ends hc shows⟩

def unmatched : List Token :=
  [.symbol .closeBrace, .symbol .closeParen, .eof, .keyword .if_].map (⟨·, .point .origin⟩)

theorem program_total_unmatched :
    nestingLimit + unmatched.length < 70 ∧
    (∃ p d, program 70 (.ofTokens unmatched) = some (some p, d) ∧
      parseTokens unmatched = (p, d.report) ∧ Rounds 70 (.ofTokens unmatched) p.body d ∧ d.Ends) ∧
    (parseTokens unmatched).2.total = 2 ∧
    ∃ r d, statement 70 (.ofTokens unmatched) = some (r, d) ∧ d.Ready 70 ∧ d.depth = 0 ∧
      d.loops = 0 ∧ (r = none → 0 < d.report.total) := by
  have enough : nestingLimit + unmatched.length < 70 := by decide
  obtain ⟨run, rules⟩ := program_total unmatched 70 enough
  refine ⟨enough, run, by decide +kernel, ?_⟩
  exact rules (k := .symbol .closeBrace) .statement (.ofTokens unmatched)
    ⟨Cursor.ofTokens_closed _, by decide, by decide⟩ ⟨_, rfl, rfl⟩

end Counted

end Spellcraft
