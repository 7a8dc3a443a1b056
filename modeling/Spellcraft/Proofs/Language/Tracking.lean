import Spellcraft.Proofs.Language.Ahead
import Spellcraft.Proofs.Language.Counted

/-!
The cursor keeps track of the stream. What stands between it and the next `eof` is what the stream
still has to give, so a step of one is a step of the other. A rule that is followed on both sides
reads no token that is not there, comes to an end in time, and leaves the counters as they were.
-/

namespace Spellcraft

theorem Kind.isEof_iff {k : Kind} : k.isEof = true ↔ k = .eof := by
  cases k <;> simp [isEof]

namespace Cursor

def ahead (c : Cursor) : List Token := c.tokens.drop c.pos

def stream (c : Cursor) : Stream where
  previous := (c.tokens.take c.pos).getLast?.map Token.span
  rest := c.ahead.takeWhile (!·.kind.isEof)
  close := ((c.ahead.find? (·.kind.isEof)).map Token.span).getD (.point .origin)
  report := c.report

def left (c : Cursor) : Nat := c.stream.rest.length

def Closed (c : Cursor) : Prop := ∃ t ∈ c.ahead, t.kind.isEof = true

def next (c : Cursor) : Cursor := { c with pos := c.pos + 1 }

section

variable {c : Cursor} {t : Token} {ts : List Token}

theorem Closed.exists_ahead (h : c.Closed) : ∃ t ts, c.ahead = t :: ts := by
  obtain ⟨t, ht, -⟩ := h
  exact List.exists_cons_of_ne_nil (List.ne_nil_of_mem ht)

theorem getElem?_pos (h : c.ahead = t :: ts) : c.tokens[c.pos]? = some t := by
  have head := congrArg List.head? h
  rwa [ahead, List.head?_drop] at head

theorem pos_lt (h : c.ahead = t :: ts) : c.pos < c.tokens.length :=
  (List.getElem?_eq_some_iff.1 (getElem?_pos h)).1

theorem ahead_next (h : c.ahead = t :: ts) : c.next.ahead = ts := by
  have tail := congrArg List.tail h
  rwa [ahead, List.tail_drop] at tail

theorem stream_rest (h : c.ahead = t :: ts) : c.stream.rest =
    if t.kind.isEof then [] else t :: ts.takeWhile (!·.kind.isEof) := by
  simp only [stream, h, List.takeWhile_cons]
  cases t.kind.isEof <;> rfl

theorem stream_kind (h : c.ahead = t :: ts) : c.stream.kind = t.kind := by
  rw [Stream.kind, stream_rest h]
  split
  next eof => exact (Kind.isEof_iff.1 eof).symm
  · rfl

theorem stream_span (h : c.ahead = t :: ts) : c.stream.span = t.span := by
  rw [Stream.span, stream_rest h]
  split
  next eof => simp [stream, h, eof]
  · rfl

theorem stream_next (h : c.ahead = t :: ts) (ht : t.kind.isEof = false) :
    c.next.stream = c.stream.advance := by
  have rest : c.stream.rest = t :: ts.takeWhile (!·.kind.isEof) := by
    rw [stream_rest h, ht, if_neg Bool.false_ne_true]
  have previous : c.tokens.take (c.pos + 1) = c.tokens.take c.pos ++ [t] := by
    rw [List.take_add_one, getElem?_pos h, Option.toList_some]
  have next := ahead_next h
  simp only [Stream.advance, rest]
  simp only [stream, h, next, List.find?_cons, ht]
  simp only [Cursor.next, previous, List.getLast?_append, List.getLast?_singleton,
    Option.some_or, Option.map_some]

theorem left_next (h : c.ahead = t :: ts) (ht : t.kind.isEof = false) :
    c.next.left + 1 = c.left := by
  simp [left, stream, h, ahead_next h, ht]

theorem Closed.next (hc : c.Closed) (h : c.ahead = t :: ts) (ht : t.kind.isEof = false) :
    c.next.Closed := by
  obtain ⟨u, hu, eof⟩ := hc
  rw [h] at hu
  rcases List.mem_cons.1 hu with rfl | hu
  · rw [eof] at ht
    cases ht
  · exact ⟨u, (ahead_next h).symm ▸ hu, eof⟩

theorem stream_previous_of_zero (h : c.pos = 0) : c.stream.previous = none := by
  simp [stream, h]

theorem Closed.previous (hc : c.Closed) (h : 0 < c.pos) :
    ∃ t, c.tokens[c.pos - 1]? = some t ∧ c.stream.previous = some t.span := by
  obtain ⟨u, us, hu⟩ := hc.exists_ahead
  have inside : c.pos - 1 < c.tokens.length := by
    have := pos_lt hu
    omega
  refine ⟨c.tokens[c.pos - 1], List.getElem?_eq_getElem inside, ?_⟩
  simp only [stream, List.getLast?_take, if_neg (Nat.ne_of_gt h),
    List.getElem?_eq_getElem inside, Option.some_or, Option.map_some]

theorem Closed.kindAt (hc : c.Closed) {n : Nat} (hn : n ≤ c.left) :
    (c.tokens[c.pos + n]?.map Token.kind).getD .eof = c.stream.kindAt n := by
  obtain ⟨u, hu, eof⟩ := hc
  rw [← List.getElem?_drop]
  change (c.ahead[n]?.map Token.kind).getD .eof = (c.stream.rest[n]?.map Token.kind).getD .eof
  simp only [left, stream] at hn ⊢
  generalize c.ahead = ts at hu hn
  induction ts generalizing n with
  | nil => cases hu
  | cons t ts ih =>
    rw [List.takeWhile_cons] at hn ⊢
    cases ht : t.kind.isEof with
    | true =>
      simp only [ht, Bool.not_true, Bool.false_eq_true, if_false, List.length_nil,
        Nat.le_zero] at hn ⊢
      subst hn
      exact Kind.isEof_iff.1 ht
    | false =>
      simp only [ht, Bool.not_false, if_true, List.length_cons] at hn ⊢
      rcases List.mem_cons.1 hu with rfl | hu
      · rw [eof] at ht
        cases ht
      · cases n with
        | zero => rfl
        | succ n => exact ih hu (Nat.le_of_succ_le_succ hn)

theorem lt_left {n : Nat} (h : c.stream.kindAt n ≠ .eof) : n < c.left := by
  refine Nat.lt_of_not_le fun beyond => h ?_
  rw [Stream.kindAt, List.getElem?_eq_none beyond]
  rfl

theorem stream_atEnd (h : c.ahead = t :: ts) : c.stream.atEnd = t.kind.isEof := by
  rw [Stream.atEnd, stream_rest h]
  cases t.kind.isEof <;> rfl

theorem left_eq_zero_iff : c.left = 0 ↔ c.stream.atEnd = true := by
  rw [left, Stream.atEnd, List.length_eq_zero_iff, List.isEmpty_iff]

end

end Cursor

namespace Counted

variable {c : Cursor}

theorem bind_apply (q : Counted α) (f : α → Counted β) (c : Cursor) :
    (q >>= f) c = match q c with
      | some (some a, d) => f a d
      | some (none, d) => some (none, d)
      | none => none := by
  simp only [bind, OptionT.bind, OptionT.mk, StateT.bind]
  rcases q c with _ | ⟨_ | a, d⟩ <;> rfl

theorem bind_gives {q : Counted α} {f : α → Counted β} (h : q c = some (some a, d)) :
    (q >>= f) c = f a d := by
  rw [bind_apply, h]

@[simp] theorem pure_apply (a : α) (c : Cursor) : (pure a : Counted α) c = some (some a, c) := rfl

@[simp] theorem get_apply (c : Cursor) : (get : Counted Cursor) c = some (some c, c) := rfl

@[simp] theorem failure_apply (c : Cursor) : (failure : Counted α) c = some (none, c) := rfl

@[simp] theorem modify_apply (f : Cursor → Cursor) (c : Cursor) :
    (modify f : Counted Unit) c = some (some (), f c) := rfl

theorem peek_apply (h : c.ahead = t :: ts) : peek c = some (some t, c) := by
  have inside := Cursor.pos_lt h
  have here : min c.pos (c.tokens.length - 1) = c.pos := by omega
  simp only [peek, bind_apply, get_apply, token, here, Cursor.getElem?_pos h, Option.map_some]

theorem kind_apply (hc : c.Closed) : kind c = some (some c.stream.kind, c) := by
  obtain ⟨t, ts, h⟩ := hc.exists_ahead
  simp only [kind, bind_apply, peek_apply h, pure_apply, Cursor.stream_kind h]

theorem span_apply (hc : c.Closed) : span c = some (some c.stream.span, c) := by
  obtain ⟨t, ts, h⟩ := hc.exists_ahead
  simp only [span, bind_apply, peek_apply h, pure_apply, Cursor.stream_span h]

theorem advance_apply (h : c.ahead = t :: ts) : advance c = some (some t, c.next) := by
  simp only [advance, bind_apply, peek_apply h, modify_apply, if_pos (Cursor.pos_lt h), pure_apply]
  rfl

theorem previousSpan_apply (hc : c.Closed) :
    previousSpan c = some (some c.stream.previousSpan, c) := by
  simp only [previousSpan, bind_apply, get_apply]
  by_cases h : 0 < c.pos
  · obtain ⟨t, ht, previous⟩ := hc.previous h
    simp only [if_pos h, bind_apply, token, ht, Option.map_some, pure_apply, Stream.previousSpan,
      previous, Option.getD_some]
  · simp only [if_neg h, pure_apply, Stream.previousSpan,
      Cursor.stream_previous_of_zero (Nat.eq_zero_of_not_pos h), Option.getD_none]

theorem atEnd_apply (hc : c.Closed) : atEnd c = some (some c.stream.atEnd, c) := by
  obtain ⟨t, ts, h⟩ := hc.exists_ahead
  simp only [atEnd, bind_apply, kind_apply hc, pure_apply, Cursor.stream_kind h,
    Cursor.stream_atEnd h]

theorem sees_apply (hc : c.Closed) (s : Symbol) :
    sees s c = some (some (c.stream.kind.isSymbol s), c) := by
  simp only [sees, bind_apply, kind_apply hc, pure_apply]

theorem onNewLine_apply (hc : c.Closed) : onNewLine c = some (some c.stream.onNewLine, c) := by
  simp only [onNewLine, bind_apply, get_apply]
  by_cases h : 0 < c.pos
  · obtain ⟨t, ht, previous⟩ := hc.previous h
    simp only [if_pos h, bind_apply, previousSpan_apply hc, span_apply hc, pure_apply,
      Stream.onNewLine, Stream.previousSpan, previous, Option.getD_some, Option.any_some]
  · simp only [if_neg h, pure_apply, Stream.onNewLine,
      Cursor.stream_previous_of_zero (Nat.eq_zero_of_not_pos h), Option.any_none]

theorem isFull_apply (c : Cursor) : isFull c = some (some c.stream.report.isFull, c) := rfl

theorem kindAt_apply (hc : c.Closed) (hn : n ≤ c.left) :
    kindAt n c = some (some (c.stream.kindAt n), c) := by
  simp only [kindAt, bind_apply, get_apply, pure_apply, hc.kindAt hn]

end Counted

/-- What a rule may count on: so much time, so much room, and whether a loop is open. -/
structure Leeway where
  clock : Nat
  room : Nat
  inLoop : Bool

namespace Cursor

/-- From `c` to `d` no `eof` was passed, the counters are back where they were, and nothing that was
told is taken back. -/
structure Goes (c d : Cursor) : Prop where
  tokens : d.tokens = c.tokens
  closed : d.Closed
  aim : d.pos + d.left = c.pos + c.left
  left : d.left ≤ c.left
  depth : d.depth = c.depth
  loops : d.loops = c.loops
  told : c.report.total ≤ d.report.total

theorem Goes.refl {c : Cursor} (h : c.Closed) : c.Goes c :=
  ⟨rfl, h, rfl, Nat.le_refl _, rfl, rfl, Nat.le_refl _⟩

theorem Goes.trans {c d e : Cursor} (h : c.Goes d) (h' : d.Goes e) : c.Goes e where
  tokens := h'.tokens.trans h.tokens
  closed := h'.closed
  aim := h'.aim.trans h.aim
  left := Nat.le_trans h'.left h.left
  depth := h'.depth.trans h.depth
  loops := h'.loops.trans h.loops
  told := Nat.le_trans h.told h'.told

theorem Goes.next {c : Cursor} (hc : c.Closed) (h : c.ahead = t :: ts)
    (ht : t.kind.isEof = false) : c.Goes c.next where
  tokens := rfl
  closed := hc.next h ht
  aim := by
    have := left_next h ht
    simp only [Cursor.next] at this ⊢
    omega
  left := Nat.le_of_succ_le (Nat.le_of_eq (left_next h ht))
  depth := rfl
  loops := rfl
  told := Nat.le_refl _

def complain (c : Cursor) (p : Problem) (here : Span) : Cursor :=
  { c with report := c.report.push (p.located here) }

theorem Goes.complain {c : Cursor} (h : c.Closed) (p : Problem) (here : Span) :
    c.Goes (c.complain p here) :=
  ⟨rfl, h, rfl, Nat.le_refl _, rfl, rfl, Nat.le_succ _⟩

structure At (w : Leeway) (c : Cursor) : Prop where
  closed : c.Closed
  depth : c.depth + w.room = nestingLimit
  time : w.room + c.left < w.clock
  loops : w.inLoop = decide (0 < c.loops)

theorem At.left_lt {c : Cursor} (hc : c.At w) : c.left < w.clock :=
  Nat.lt_of_le_of_lt (Nat.le_add_left ..) hc.time

theorem At.room_lt {c : Cursor} (hc : c.At w) : w.room < w.clock :=
  Nat.lt_of_le_of_lt (Nat.le_add_right ..) hc.time

theorem At.depth_lt {c : Cursor} (hc : c.At ⟨clock, room + 1, b⟩) : c.depth < nestingLimit := by
  have depth : c.depth + (room + 1) = nestingLimit := hc.depth
  omega

theorem At.deeper {c : Cursor} (hc : c.At ⟨n, room + 1, b⟩) (hn : n ≤ clock + 1) :
    Cursor.At ⟨clock, room, b⟩ { c with depth := c.depth + 1 } := by
  have depth : c.depth + (room + 1) = nestingLimit := hc.depth
  have time : room + 1 + c.left < n := hc.time
  refine ⟨hc.closed, ?_, ?_, hc.loops⟩
  · show c.depth + 1 + room = nestingLimit
    omega
  · show room + c.left < clock
    omega

theorem Goes.at {c d : Cursor} (h : c.Goes d) (hc : c.At w) : d.At w where
  closed := h.closed
  depth := h.depth ▸ hc.depth
  time := Nat.lt_of_le_of_lt (Nat.add_le_add_left h.left w.room) hc.time
  loops := h.loops ▸ hc.loops

end Cursor

theorem Cursor.not_isEof {c : Cursor} (h : c.ahead = t :: ts) (hk : c.stream.kind ≠ .eof) :
    t.kind.isEof = false := by
  rw [stream_kind h] at hk
  exact Bool.eq_false_iff.2 (hk ∘ Kind.isEof_iff.1)

theorem Counted.eat_cases {c : Cursor} (hc : c.Closed) (s : Symbol) :
    (c.stream.kind.isSymbol s = true ∧ eat s c = some (some true, c.next) ∧
      Parse.eat s c.stream = (some true, c.next.stream) ∧ c.Goes c.next ∧ c.next.left < c.left) ∨
    (c.stream.kind.isSymbol s = false ∧ eat s c = some (some false, c) ∧
      Parse.eat s c.stream = (some false, c.stream)) := by
  obtain ⟨t, ts, ahead⟩ := hc.exists_ahead
  cases seen : c.stream.kind.isSymbol s with
  | true =>
    have ht : t.kind.isEof = false := by
      refine Cursor.not_isEof ahead ?_
      rw [Kind.eq_of_isSymbol seen]
      simp
    refine .inl ⟨rfl, ?_, ?_, .next hc ahead ht, Nat.lt_of_succ_le (Nat.le_of_eq
      (Cursor.left_next ahead ht))⟩
    · simp only [eat, bind_apply, sees_apply hc, seen, if_true, advance_apply ahead, pure_apply]
    · rw [Cursor.stream_next ahead ht]
      rw [Parse.eat_apply, if_pos seen]
  | false =>
    refine .inr ⟨rfl, ?_, ?_⟩
    · simp only [eat, bind_apply, sees_apply hc, seen, Bool.false_eq_true, if_false, pure_apply]
    · rw [Parse.eat_apply, if_neg (Bool.eq_false_iff.1 seen)]

/-- From the cursor `c` the rule `q` does what `p` does on the stream. It takes at least `k` tokens
when it gives something, and has told why when it gives nothing. -/
inductive Follows (k : Nat) (c : Cursor) (p : Parse α) (q : Counted α) : Prop
  | gives (a : α) (d : Cursor) : q c = some (some a, d) → p c.stream = (some a, d.stream) →
    c.Goes d → d.left + k ≤ c.left → Follows k c p q
  | fails (d : Cursor) : q c = some (none, d) → p c.stream = (none, d.stream) → c.Goes d →
    c.report.total < d.report.total → Follows k c p q

namespace Follows

variable {k l : Nat} {c d : Cursor} {p : Parse α} {q : Counted α} {f : α → Parse β}
variable {g : α → Counted β}

protected theorem pure (hc : c.Closed) (a : α) : Follows 0 c (pure a) (pure a) :=
  .gives a c rfl rfl (.refl hc) (Nat.le_refl _)

theorem after {p' : Parse α} {q' : Counted α} (goes : c.Goes d) (takes : d.left + k ≤ c.left)
    (hp : p c.stream = p' d.stream) (hq : q c = q' d) (h : Follows l d p' q') :
    Follows (k + l) c p q := by
  cases h with
  | gives a e hq' hp' goes' takes' =>
    exact .gives a e (hq.trans hq') (hp.trans hp') (goes.trans goes') (by omega)
  | fails e hq' hp' goes' tells =>
    exact .fails e (hq.trans hq') (hp.trans hp') (goes.trans goes')
      (Nat.lt_of_le_of_lt goes.told tells)

protected theorem bind (h : Follows k c p q) (hf : ∀ a d, c.Goes d → d.left + k ≤ c.left →
    Follows 0 d (f a) (g a)) : Follows k c (p >>= f) (q >>= g) := by
  cases h with
  | gives a d hq hp goes takes =>
    refine (hf a d goes takes).after goes takes ?_ (Counted.bind_gives hq)
    rw [Parse.bind_apply, hp]
  | fails d hq hp goes tells =>
    refine .fails d ?_ ?_ goes tells
    · rw [Counted.bind_apply, hq]
    · rw [Parse.bind_apply, hp]

theorem mono (h : Follows k c p q) (hk : l ≤ k) : Follows l c p q := by
  cases h with
  | gives a d hq hp goes takes => exact .gives a d hq hp goes (by omega)
  | fails d hq hp goes tells => exact .fails d hq hp goes tells

theorem refuse (hc : c.Closed) (problem : Problem) :
    Follows k c (Parse.refuse problem : Parse α) (Counted.refuse problem) := by
  refine .fails (c.complain problem c.stream.span) ?_ rfl (.complain hc _ _) (Nat.lt_succ_self _)
  simp only [Counted.refuse, Counted.bind_apply, Counted.span_apply hc, Counted.complain,
    Counted.modify_apply, Counted.failure_apply]
  rfl

theorem refusal (hc : c.Closed) (problem : Problem) (here : Span) :
    Follows k c (do Parse.complain problem here; failure : Parse α)
      (do Counted.complain problem here; failure) :=
  .fails (c.complain problem here) rfl rfl (.complain hc _ _) (Nat.lt_succ_self _)

theorem complain (hc : c.Closed) (problem : Problem) (here : Span) :
    Follows 0 c (Parse.complain problem here) (Counted.complain problem here) :=
  .gives () (c.complain problem here) rfl rfl (.complain hc _ _) (Nat.le_refl _)

theorem of_eq {p' : Parse α} {q' : Counted α} (hp : p c.stream = p' c.stream) (hq : q c = q' c)
    (h : Follows k c p' q') : Follows k c p q := by
  cases h with
  | gives a d hq' hp' goes takes => exact .gives a d (hq.trans hq') (hp.trans hp') goes takes
  | fails d hq' hp' goes tells => exact .fails d (hq.trans hq') (hp.trans hp') goes tells

theorem look {r : Stream → α} {q : Counted α} (hq : q c = some (some (r c.stream), c))
    (h : Follows k c (f (r c.stream)) (g (r c.stream))) :
    Follows k c ((fun s => (some (r s), s) : Parse α) >>= f) (q >>= g) := by
  have step : ((fun s => (some (r s), s) : Parse α) >>= f) c.stream = f (r c.stream) c.stream := rfl
  exact of_eq step (Counted.bind_gives hq) h

theorem ifEaten {s : Symbol} {p p' : Parse β} {q q' : Counted β} (hc : c.Closed)
    (h : c.Goes c.next → c.next.left < c.left → Follows k c.next p q)
    (h' : c.stream.kind.isSymbol s = false → Follows l c p' q') (hl : l ≤ k + 1) :
    Follows l c (do if ← Parse.eat s then p else p') (do if ← Counted.eat s then q else q') := by
  rcases Counted.eat_cases hc s with ⟨-, hq, hp, goes, fewer⟩ | ⟨unseen, hq, hp⟩
  · have step : (do if ← Parse.eat s then p else p') c.stream = p c.next.stream := by
      rw [Parse.bind_apply, hp]
      rfl
    have stepped : (do if ← Counted.eat s then q else q') c = q c.next := Counted.bind_gives hq
    exact ((h goes fewer).after goes fewer step stepped).mono (Nat.add_comm k 1 ▸ hl)
  · have step : (do if ← Parse.eat s then p else p') c.stream = p' c.stream := by
      rw [Parse.bind_apply, hp]
      rfl
    have stepped : (do if ← Counted.eat s then q else q') c = q' c := Counted.bind_gives hq
    exact of_eq step stepped (h' unseen)

theorem take {p : Parse β} {g : Token → Counted β} (hc : c.Closed) (hk : c.stream.kind ≠ .eof)
    (h : ∀ t : Token, t.span = c.stream.span → c.Goes c.next → c.next.left < c.left →
      Follows k c.next p (g t)) :
    Follows (k + 1) c (Parse.advance >>= fun _ => p) (Counted.advance >>= g) := by
  obtain ⟨t, ts, ahead⟩ := hc.exists_ahead
  have ht := Cursor.not_isEof ahead hk
  have goes : c.Goes c.next := .next hc ahead ht
  have fewer : c.next.left + 1 = c.left := Cursor.left_next ahead ht
  have step : (Parse.advance >>= fun _ => p) c.stream = p c.next.stream := by
    rw [Cursor.stream_next ahead ht]
    rfl
  have stepped : (Counted.advance >>= g) c = g t c.next :=
    Counted.bind_gives (Counted.advance_apply ahead)
  have rest := h t (Cursor.stream_span ahead).symm goes (Nat.lt_of_succ_le (Nat.le_of_eq fewer))
  exact (rest.after goes (Nat.le_of_eq fewer) step stepped).mono (Nat.le_of_eq (Nat.add_comm k 1))

end Follows

def Tracks (k : Nat) (w : Leeway) (p : Parse α) (q : Counted α) : Prop :=
  ∀ c : Cursor, c.At w → Follows k c p q

def TracksFrom (t : Kind) (k : Nat) (w : Leeway) (p : Parse α) (q : Counted α) : Prop :=
  ∀ c : Cursor, c.At w → c.stream.kind = t → Follows k c p q

namespace Tracks

variable {k : Nat} {t : Kind} {w : Leeway} {p : Parse α} {q : Counted α} {f : α → Parse β}
variable {g : α → Counted β}

protected theorem pure (a : α) : Tracks 0 w (pure a) (pure a) := fun _ hc => .pure hc.closed a

protected theorem bind (h : Tracks k w p q) (hf : ∀ a, Tracks 0 w (f a) (g a)) :
    Tracks k w (p >>= f) (q >>= g) :=
  fun c hc => (h c hc).bind fun a d goes _ => hf a d (goes.at hc)

theorem mono (h : Tracks k w p q) : Tracks 0 w p q := fun c hc => (h c hc).mono (Nat.zero_le k)

protected theorem map (h : Tracks k w p q) (m : α → β) : Tracks k w (m <$> p) (m <$> q) := by
  rw [map_eq_pure_bind, map_eq_pure_bind]
  exact h.bind fun a => .pure (m a)

theorem refuse (problem : Problem) :
    Tracks k w (Parse.refuse problem : Parse α) (Counted.refuse problem) :=
  fun _ hc => .refuse hc.closed problem

theorem refusal (problem : Problem) (here : Span) :
    Tracks k w (do Parse.complain problem here; failure : Parse α)
      (do Counted.complain problem here; failure) :=
  fun _ hc => .refusal hc.closed problem here

theorem complain (problem : Problem) (here : Span) :
    Tracks 0 w (Parse.complain problem here) (Counted.complain problem here) :=
  fun _ hc => .complain hc.closed problem here

theorem kind {f : Kind → Parse β} {g : Kind → Counted β}
    (h : ∀ t, TracksFrom t k w (f t) (g t)) :
    Tracks k w (Parse.kind >>= f) (Counted.kind >>= g) :=
  fun c hc => .look (Counted.kind_apply hc.closed) (h _ c hc rfl)

theorem span {f : Span → Parse β} {g : Span → Counted β}
    (h : ∀ here, Tracks k w (f here) (g here)) :
    Tracks k w (Parse.span >>= f) (Counted.span >>= g) :=
  fun c hc => .look (Counted.span_apply hc.closed) (h _ c hc)

theorem previousSpan {f : Span → Parse β} {g : Span → Counted β}
    (h : ∀ here, Tracks k w (f here) (g here)) :
    Tracks k w (Parse.previousSpan >>= f) (Counted.previousSpan >>= g) :=
  fun c hc => .look (Counted.previousSpan_apply hc.closed) (h _ c hc)

theorem sees {f : Bool → Parse β} {g : Bool → Counted β} (s : Symbol)
    (h : ∀ b, Tracks k w (f b) (g b)) :
    Tracks k w (Parse.sees s >>= f) (Counted.sees s >>= g) :=
  fun c hc => .look (Counted.sees_apply hc.closed s) (h _ c hc)

end Tracks

namespace TracksFrom

variable {k : Nat} {t : Kind} {w : Leeway}

theorem of {p : Parse α} {q : Counted α} (h : Tracks k w p q) : TracksFrom t k w p q :=
  fun c hc _ => h c hc

theorem span {f : Span → Parse β} {g : Span → Counted β}
    (h : ∀ here, TracksFrom t k w (f here) (g here)) :
    TracksFrom t k w (Parse.span >>= f) (Counted.span >>= g) :=
  fun c hc hk => .look (Counted.span_apply hc.closed) (h _ c hc hk)

theorem mono {p : Parse α} {q : Counted α} (h : TracksFrom t k w p q) : TracksFrom t 0 w p q :=
  fun c hc hk => (h c hc hk).mono (Nat.zero_le k)

protected theorem bind {p : Parse α} {q : Counted α} {f : α → Parse β} {g : α → Counted β}
    (h : TracksFrom t k w p q) (hf : ∀ a, Tracks 0 w (f a) (g a)) :
    TracksFrom t k w (p >>= f) (q >>= g) :=
  fun c hc hk => (h c hc hk).bind fun a d goes _ => hf a d (goes.at hc)

protected theorem map {p : Parse α} {q : Counted α} (h : TracksFrom t k w p q) (m : α → β) :
    TracksFrom t k w (m <$> p) (m <$> q) := by
  rw [map_eq_pure_bind, map_eq_pure_bind]
  exact h.bind fun a => .pure (m a)

theorem take {p : Parse β} {q : Counted β} (h : Tracks 0 w p q) (hne : t ≠ .eof) :
    TracksFrom t 1 w (do Parse.advance; p) (do let _ ← Counted.advance; q) := fun _ hc hk =>
  .take hc.closed (hk ▸ hne) fun _ _ goes _ => h _ (goes.at hc)

theorem takeSpan {f : Span → Parse β} {g : Token → Counted β}
    (h : ∀ u : Token, Tracks 0 w (f u.span) (g u)) (hne : t ≠ .eof) :
    TracksFrom t 1 w (do let here ← Parse.span; Parse.advance; f here)
      (Counted.advance >>= g) := by
  intro c hc hk
  have step : (do let here ← Parse.span; Parse.advance; f here : Parse β) c.stream =
    (Parse.advance >>= fun _ => f c.stream.span) c.stream := rfl
  exact .of_eq step rfl (.take hc.closed (hk ▸ hne) fun u hu goes _ => hu ▸ h u _ (goes.at hc))

end TracksFrom

namespace Tracks

variable {k : Nat} {w : Leeway}

theorem ifEaten {s : Symbol} {p p' : Parse β} {q q' : Counted β} (h : Tracks 0 w p q)
    (h' : Tracks k w p' q') (hk : k ≤ 1) : Tracks k w (do if ← Parse.eat s then p else p')
      (do if ← Counted.eat s then q else q') := fun c hc =>
  .ifEaten hc.closed (fun goes _ => (h _ (goes.at hc)).mono (Nat.le_refl 0)) (fun _ => h' c hc) hk

theorem eat (s : Symbol) : Tracks 0 w (Parse.eat s) (Counted.eat s) := by
  intro c hc
  rcases Counted.eat_cases hc.closed s with ⟨-, hq, hp, goes, _⟩ | ⟨-, hq, hp⟩
  · exact .gives true c.next hq hp goes goes.left
  · exact .gives false c hq hp (.refl hc.closed) (Nat.le_refl _)

theorem expectKind (present : Kind → Bool) (absent : present .eof = false) (wanted : String) :
    Tracks 1 w (Parse.expectKind present wanted) (Counted.expectKind present wanted) := by
  refine .kind fun t => ?_
  split
  next there =>
    refine .takeSpan (fun u => .pure u.span) ?_
    rintro rfl
    rw [absent] at there
    cases there
  · exact .of (refuse _)

theorem expect (s : Symbol) : Tracks 1 w (Parse.expect s) (Counted.expect s) :=
  expectKind (·.isSymbol s) rfl s.text

theorem expectKeyword (v : Keyword) :
    Tracks 1 w (Parse.expectKeyword v) (Counted.expectKeyword v) :=
  expectKind (·.isKeyword v) rfl v.text

end Tracks

end Spellcraft
