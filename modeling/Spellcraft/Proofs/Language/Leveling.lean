import Spellcraft.Proofs.Language.Tracking

namespace Spellcraft

namespace Counted

def recount (m : Cursor → Cursor) (x : Option (Option α × Cursor)) : Option (Option α × Cursor) :=
  x.map fun (r, d) => (r, m d)

theorem give_apply (r : Option α) (c : Cursor) : give r c = some (r, c) := by
  cases r <;> rfl

theorem result_apply (q : Counted α) (c : Cursor) :
    result q c = (q c).map fun (r, d) => (some r, d) := by
  simp only [result]
  rcases q c with _ | ⟨r, d⟩ <;> rfl

theorem enter_of_full (hc : c.Closed) (h : nestingLimit ≤ c.depth) :
    enter c = some (some false, c.complain (.tooDeep nestingLimit) c.stream.span) := by
  simp only [enter, bind_apply, get_apply, if_pos h, span_apply hc, complain, modify_apply,
    pure_apply]
  rfl

theorem enter_of_room (h : c.depth < nestingLimit) :
    enter c = some (some true, { c with depth := c.depth + 1 }) := by
  simp only [enter, bind_apply, get_apply, if_neg (Nat.not_le_of_lt h), modify_apply, pure_apply]

theorem levelled_apply (q : Counted α) (h : c.depth < nestingLimit) :
    levelled q c = recount (fun d => { d with depth := d.depth - 1 })
      (q { c with depth := c.depth + 1 }) := by
  simp only [levelled, bind_apply, enter_of_room h, if_true, result_apply, leave,
    modify_apply, give_apply, recount]
  rcases q { c with depth := c.depth + 1 } with _ | ⟨r, d⟩ <;> rfl

theorem inLoop_apply (q : Counted α) (c : Cursor) :
    inLoop q c = recount (fun d => { d with loops := d.loops - 1 })
      (q { c with loops := c.loops + 1 }) := by
  simp only [inLoop, bind_apply, modify_apply, result_apply, give_apply, recount]
  rcases q { c with loops := c.loops + 1 } with _ | ⟨r, d⟩ <;> rfl

theorem inFunction_apply (q : Counted α) (c : Cursor) :
    inFunction q c = recount (fun d => { d with loops := c.loops }) (q { c with loops := 0 }) := by
  simp only [inFunction, bind_apply, get_apply, modify_apply, result_apply, give_apply, recount]
  rcases q { c with loops := 0 } with _ | ⟨r, d⟩ <;> rfl

end Counted

theorem Follows.recount {depth loops : Nat} {m : Cursor → Cursor} {p : Parse α} {q q' : Counted α}
    (h : Follows k { c with depth, loops } p q)
    (hq : q' c = Counted.recount m (q { c with depth, loops }))
    (hm : ∀ d, d.depth = depth → d.loops = loops →
      m d = { d with depth := c.depth, loops := c.loops }) : Follows k c p q' := by
  cases h with
  | gives a d hd hp goes takes =>
    have back := hm d goes.depth goes.loops
    refine .gives a { d with depth := c.depth, loops := c.loops } ?_ hp
      ⟨goes.tokens, goes.closed, goes.aim, goes.left, rfl, rfl, goes.told⟩ takes
    rw [hq, hd, ← back]
    rfl
  | fails d hd hp goes tells =>
    have back := hm d goes.depth goes.loops
    refine .fails { d with depth := c.depth, loops := c.loops } ?_ hp
      ⟨goes.tokens, goes.closed, goes.aim, goes.left, rfl, rfl, goes.told⟩ tells
    rw [hq, hd, ← back]
    rfl

namespace Tracks

variable {k clock room : Nat} {b : Bool} {w : Leeway} {p : Parse α} {q : Counted α}

theorem tooDeep (h : w.room = 0) : Tracks k w (Parse.tooDeep : Parse α) (Counted.levelled q) := by
  intro c hc
  have full : nestingLimit ≤ c.depth := by
    have := hc.depth
    omega
  refine .fails (c.complain (.tooDeep nestingLimit) c.stream.span) ?_ rfl
    (.complain hc.closed _ _) (Nat.lt_succ_self _)
  simp only [Counted.levelled, Counted.bind_apply, Counted.enter_of_full hc.closed full,
    Bool.false_eq_true, if_false, Counted.failure_apply]

theorem levelled {n : Nat} (h : Tracks k ⟨clock, room, b⟩ p q) (hn : n ≤ clock + 1) :
    Tracks k ⟨n, room + 1, b⟩ p (Counted.levelled q) := by
  intro c hc
  refine (h _ (hc.deeper hn)).recount (Counted.levelled_apply q hc.depth_lt) ?_
  intro d hd hl
  simp only [hd, hl, Nat.add_sub_cancel]

theorem inLoop (h : Tracks k ⟨clock, room, true⟩ p q) :
    Tracks k ⟨clock, room, b⟩ p (Counted.inLoop q) := by
  intro c hc
  refine (h { c with loops := c.loops + 1 } ⟨hc.closed, hc.depth, hc.time, ?_⟩).recount
    (Counted.inLoop_apply q c) fun d hd hl => ?_
  · exact (decide_eq_true (Nat.succ_pos _)).symm
  · simp only [hd, hl, Nat.add_sub_cancel]

theorem inFunction (h : Tracks k ⟨clock, room, false⟩ p q) :
    Tracks k ⟨clock, room, b⟩ p (Counted.inFunction q) := by
  intro c hc
  refine (h { c with loops := 0 } ⟨hc.closed, hc.depth, hc.time, rfl⟩).recount
    (Counted.inFunction_apply q c) fun d hd hl => ?_
  simp only [hd]

end Tracks

namespace Counted

variable {c : Cursor}

theorem resync_of_nil {s : Stream} (h : s.rest = []) : s.resync = s := by
  rw [Stream.resync.eq_def]
  split
  · rfl
  next t ts hs => rw [h] at hs; cases hs

theorem resync_of_cons {s : Stream} (h : s.rest = t :: ts) : s.resync =
    if t.kind.isSymbol .semicolon then s.advance
    else if Stream.resumes t.kind then s
    else s.advance.resync := by
  rw [Stream.resync.eq_def]
  split
  next hs => rw [h] at hs; cases hs
  next u us hs =>
    rw [h] at hs
    obtain ⟨rfl, -⟩ := List.cons.inj hs
    rfl

theorem synchronize_apply (n : Nat) (hc : c.Closed) (hn : c.left < n) :
    ∃ d, synchronize n c = some (some (), d) ∧ d.stream = c.stream.resync ∧ c.Goes d := by
  induction n generalizing c with
  | zero => cases hn
  | succ n ih =>
    obtain ⟨t, ts, ahead⟩ := hc.exists_ahead
    have rest := Cursor.stream_rest ahead
    simp only [synchronize, bind_apply, atEnd_apply hc, Cursor.stream_atEnd ahead]
    cases ht : t.kind.isEof with
    | true =>
      rw [ht, if_pos rfl] at rest
      exact ⟨c, rfl, (resync_of_nil rest).symm, .refl hc⟩
    | false =>
      rw [ht, if_neg Bool.false_ne_true] at rest
      have goes : c.Goes c.next := .next hc ahead ht
      have fewer := Cursor.left_next ahead ht
      rw [resync_of_cons rest, ← Cursor.stream_next ahead ht]
      simp only [Bool.false_eq_true, if_false, bind_apply, kind_apply hc, Cursor.stream_kind ahead]
      split
      · exact ⟨c.next, by simp only [bind_apply, advance_apply ahead, pure_apply], rfl, goes⟩
      · split
        · exact ⟨c, rfl, rfl, .refl hc⟩
        · obtain ⟨d, hd, stream, further⟩ := ih goes.closed (by omega)
          exact ⟨d, by simp only [bind_apply, advance_apply ahead, hd], stream, goes.trans further⟩

theorem ahead_of_left {c d : Cursor} (h : c.Goes d) (same : d.left = c.left) :
    d.ahead = c.ahead := by
  have pos : d.pos = c.pos := by
    have := h.aim
    omega
  rw [Cursor.ahead, h.tokens, pos, Cursor.ahead]

theorem recoverFrom_apply {c d : Cursor} (h : c.Goes d) (time : c.left < clock)
    (going : c.stream.atEnd = false) (inside : c.stream.kind.isSymbol .closeBrace = false) :
    ∃ e, recoverFrom clock c.pos d = some (some (), e) ∧ e.stream = d.stream.recover c.left ∧
      d.Goes e ∧ e.left < c.left := by
  -- From a token that is no closing brace the cursor moves on.
  obtain ⟨e, he, stream, goes⟩ := synchronize_apply clock h.closed
    (Nat.lt_of_le_of_lt h.left time)
  have here : e.pos = c.pos ↔ e.left = c.left := by
    have := (h.trans goes).aim
    omega
  simp only [recoverFrom, bind_apply, he, get_apply, atEnd_apply goes.closed,
    sees_apply goes.closed]
  simp only [Stream.recover, ← stream]
  by_cases same : e.left = c.left
  · obtain ⟨t, ts, ahead⟩ := (h.trans goes).closed.exists_ahead
    have before := ahead_of_left (h.trans goes) same ▸ ahead
    rw [Cursor.stream_atEnd before] at going
    rw [Cursor.stream_kind before] at inside
    have fewer := Cursor.left_next ahead going
    refine ⟨e.next, ?_, ?_, goes.trans (.next goes.closed ahead going), by omega⟩
    · simp [here.2 same, Cursor.stream_atEnd ahead, Cursor.stream_kind ahead, going, inside,
        bind_apply, advance_apply ahead]
    · have rest : e.stream.rest.length = c.left := same
      simp [rest, Cursor.stream_atEnd ahead, Cursor.stream_kind ahead, going, inside,
        Cursor.stream_next ahead going]
  · have fewer : e.left < c.left := Nat.lt_of_le_of_ne (h.trans goes).left same
    have rest : e.stream.rest.length ≠ c.left := same
    refine ⟨e, ?_, ?_, goes, fewer⟩
    · simp [here, same]
    · simp [rest]

theorem attempt_of_some {q : Counted α} (h : q c = some (some a, d)) :
    attempt clock q c = some (some (some a), d) := by
  simp only [attempt, bind_apply, get_apply, result_apply, h, Option.map_some, pure_apply]

theorem attempt_of_none {q : Counted α} (h : q c = some (none, d))
    (he : recoverFrom clock c.pos d = some (some (), e)) :
    attempt clock q c = some (some none, e) := by
  simp only [attempt, bind_apply, get_apply, result_apply, h, Option.map_some, he, pure_apply]

end Counted

theorem Follows.attempt {p : Parse α} {q : Counted α} (h : Follows 1 c p q)
    (time : c.left < clock) (going : c.stream.atEnd = false)
    (inside : c.stream.kind.isSymbol .closeBrace = false) :
    Follows 1 c (Parse.attempt p) (Counted.attempt clock q) := by
  cases h with
  | gives a d hq hp goes takes =>
    exact .gives (some a) d (Counted.attempt_of_some hq) (by rw [Parse.attempt, hp]) goes takes
  | fails d hq hp goes tells =>
    obtain ⟨e, he, stream, goes', fewer⟩ := Counted.recoverFrom_apply goes time going inside
    refine .gives none e (Counted.attempt_of_none hq he) ?_ (goes.trans goes') fewer
    rw [Parse.attempt, hp, stream]
    rfl

namespace Tracks

variable {k : Nat} {w : Leeway} {p : Parse α} {q : Counted α}

theorem expectClosing (s : Symbol) (opened : Span) :
    Tracks 1 w (Parse.expectClosing s opened) (Counted.expectClosing s opened) := by
  refine .ifEaten (.pure ()) (.kind fun t => .of fun c hc => ?_) (Nat.le_refl 1)
  refine .of_eq ?_ ?_
    (.refuse hc.closed (.unclosed s.text t.shown opened.first.line c.stream.atEnd))
  · rfl
  · rw [Counted.bind_apply, Counted.atEnd_apply hc.closed]

theorem endStatement : Tracks 0 w Parse.endStatement Counted.endStatement := by
  refine .ifEaten (.pure ()) (fun c hc => ?_) (Nat.zero_le 1)
  let s := c.stream
  have branches : Follows 0 c
      (if s.atEnd || s.kind.isSymbol .closeBrace || s.onNewLine then pure ()
        else Parse.complain (.missingSemicolon s.kind.shown) s.span)
      (if s.atEnd || s.kind.isSymbol .closeBrace || s.onNewLine then pure ()
        else Counted.complain (.missingSemicolon s.kind.shown) s.span) := by
    split
    · exact .pure hc.closed ()
    · exact .complain hc.closed _ _
  refine .of_eq ?_ ?_ branches
  · rfl
  simp only [Counted.bind_apply, Counted.atEnd_apply hc.closed, Counted.sees_apply hc.closed,
    Counted.onNewLine_apply hc.closed]
  split
  · rfl
  · simp only [Counted.bind_apply, Counted.kind_apply hc.closed, Counted.span_apply hc.closed]
    rfl

theorem commaRounds (h : Tracks 1 w p q) (bound n : Nat) (c : Cursor) (hc : c.At w)
    (enough : c.left ≤ bound) (time : c.left < n) :
    Follows 1 c (Parse.commaRounds p bound) (Counted.commaRounds q n) := by
  -- Every comma takes one of the tokens that are left, so that the clock does not run down.
  induction n generalizing bound c with
  | zero => cases time
  | succ n ih =>
    cases bound with
    | zero =>
      refine (h c hc).bind fun a d goes takes => ?_
      omega
    | succ bound =>
      refine (h c hc).bind fun a d goes takes => ?_
      refine .ifEaten goes.closed (fun onward fewer => ?_) (fun _ => .pure goes.closed [a])
        (Nat.zero_le 1)
      have rest := ih bound d.next (onward.at (goes.at hc)) (by omega) (by omega)
      exact (rest.mono (Nat.zero_le 1)).bind fun as e goes' _ => .pure goes'.closed (a :: as)

theorem commaList (h : Tracks 1 w p q) :
    Tracks 1 w (Parse.commaList p) (Counted.commaRounds q w.clock) := by
  intro c hc
  refine .of_eq ?_ rfl (h.commaRounds c.left w.clock c hc (Nat.le_refl _) hc.left_lt)
  rfl

end Tracks

end Spellcraft
