import Spellcraft.Proofs.Language.Leveling

namespace Spellcraft

/-- From the cursor `c`, with so many levels of the chain open, `q` does what `p` does; by the end it
has opened more levels. -/
inductive Climbs (levels : Nat) (c : Cursor) (p : Parse α) (q : Counted (Option α × Nat)) : Prop
  | ends (r : Option α) (m : Nat) (d : Cursor) :
    q c = some (some (r, levels + m), { d with depth := d.depth + m }) →
    p c.stream = (r, d.stream) → c.Goes d → (r = none → c.report.total < d.report.total) →
    Climbs levels c p q

namespace Climbs

variable {levels : Nat} {c : Cursor} {p : Parse α} {q : Counted (Option α × Nat)}

theorem stop (hc : c.Closed) (a : α) : Climbs levels c (pure a) (pure (some a, levels)) :=
  .ends (some a) 0 c rfl rfl (.refl hc) nofun

theorem refusal (hc : c.Closed) (problem : Problem) (here : Span) :
    Climbs levels c (do Parse.complain problem here; failure : Parse α)
      (do Counted.complain problem here; return (none, levels)) :=
  .ends none 0 (c.complain problem here) rfl rfl (.complain hc _ _) fun _ => Nat.lt_succ_self _

theorem of_eq {p' : Parse α} {q' : Counted (Option α × Nat)} (hp : p c.stream = p' c.stream)
    (hq : q c = q' c) (h : Climbs levels c p' q') : Climbs levels c p q := by
  cases h with
  | ends r m d hd hs goes tells => exact .ends r m d (hq.trans hd) (hp.trans hs) goes tells

theorem after {d : Cursor} {p' : Parse α} {q' : Counted (Option α × Nat)} (goes : c.Goes d)
    (hp : p c.stream = p' d.stream) (hq : q c = q' d) (h : Climbs levels d p' q') :
    Climbs levels c p q := by
  cases h with
  | ends r m e he hs goes' tells =>
    exact .ends r m e (hq.trans he) (hp.trans hs) (goes.trans goes')
      fun hr => Nat.lt_of_le_of_lt goes.told (tells hr)

theorem look {r : Stream → β} {s : Counted β} {f : β → Parse α}
    {g : β → Counted (Option α × Nat)} (hs : s c = some (some (r c.stream), c))
    (h : Climbs levels c (f (r c.stream)) (g (r c.stream))) :
    Climbs levels c ((fun s => (some (r s), s) : Parse β) >>= f) (s >>= g) := by
  refine of_eq (by rfl) ?_ h
  rw [Counted.bind_apply, hs]

theorem take {p : Parse α} {g : Token → Counted (Option α × Nat)} (hc : c.Closed)
    (hk : c.stream.kind ≠ .eof) (h : ∀ t : Token, t.span = c.stream.span → c.Goes c.next →
      c.next.left < c.left → Climbs levels c.next p (g t)) :
    Climbs levels c (Parse.advance >>= fun _ => p) (Counted.advance >>= g) := by
  obtain ⟨t, ts, ahead⟩ := hc.exists_ahead
  have ht := Cursor.not_isEof ahead hk
  have goes : c.Goes c.next := .next hc ahead ht
  have fewer : c.next.left + 1 = c.left := Cursor.left_next ahead ht
  refine (h t (Cursor.stream_span ahead).symm goes (by omega)).after goes ?_ ?_
  · rw [Cursor.stream_next ahead ht]
    rfl
  · rw [Counted.bind_apply, Counted.advance_apply ahead]

theorem takeSpan {f : Span → Parse α} {g : Token → Counted (Option α × Nat)} (hc : c.Closed)
    (hk : c.stream.kind ≠ .eof) (h : ∀ t : Token, t.span = c.stream.span → c.Goes c.next →
      c.next.left < c.left → Climbs levels c.next (f t.span) (g t)) :
    Climbs levels c (do let here ← Parse.span; Parse.advance; f here) (Counted.advance >>= g) := by
  have step : (do let here ← Parse.span; Parse.advance; f here : Parse α) c.stream =
    (Parse.advance >>= fun _ => f c.stream.span) c.stream := rfl
  exact .of_eq step rfl (.take hc hk fun t ht goes fewer => ht ▸ h t ht goes fewer)

theorem full (hc : c.Closed) (h : nestingLimit ≤ c.depth) :
    Climbs levels c (Parse.tooDeep : Parse α)
      (do if ← Counted.enter then q else return (none, levels)) := by
  refine .ends none 0 (c.complain (.tooDeep nestingLimit) c.stream.span) ?_ rfl
    (.complain hc _ _) fun _ => Nat.lt_succ_self _
  rw [Counted.bind_apply, Counted.enter_of_full hc h]
  rfl

theorem deeper (room : c.depth < nestingLimit)
    (h : Climbs (levels + 1) { c with depth := c.depth + 1 } p q) :
    Climbs levels c p (do if ← Counted.enter then q else return (none, levels)) := by
  cases h with
  | ends r m d hd hs goes tells =>
    have depth : d.depth = c.depth + 1 := goes.depth
    refine .ends r (m + 1) { d with depth := c.depth } ?_ hs
      ⟨goes.tokens, goes.closed, goes.aim, goes.left, rfl, goes.loops, goes.told⟩ tells
    rw [Counted.bind_apply, Counted.enter_of_room room]
    refine hd.trans ?_
    simp only [depth, Nat.add_assoc, Nat.add_comm 1 m]

theorem bind {p : Parse β} {q : Counted β} {f : β → Parse α}
    {g : β → Counted (Option α × Nat)} (h : Follows k c p q)
    (hf : ∀ a d, c.Goes d → d.left + k ≤ c.left → Climbs levels d (f a) (g a)) :
    Climbs levels c (p >>= f) (Counted.linked levels q g) := by
  rw [Counted.linked]
  cases h with
  | gives a d hq hp goes takes =>
    refine (hf a d goes takes).after goes ?_ ?_
    · rw [Parse.bind_apply, hp]
    · rw [Counted.bind_apply, Counted.result_apply, hq]
      rfl
  | fails d hq hp goes tells =>
    refine .ends none 0 d ?_ ?_ goes fun _ => tells
    · rw [Counted.bind_apply, Counted.result_apply, hq]
      rfl
    · rw [Parse.bind_apply, hp]

theorem leaveAll_apply (m : Nat) (c : Cursor) :
    Counted.leaveAll m c = some (some (), { c with depth := c.depth - m }) := by
  induction m generalizing c with
  | zero => rfl
  | succ m ih =>
    rw [Counted.leaveAll, Counted.bind_apply, Counted.leave, Counted.modify_apply]
    simp only [ih, Nat.sub_sub, Nat.add_comm 1 m]

theorem left (h : Climbs 0 c p q) : Follows 0 c p (do
    let (r, levels) ← q
    Counted.leaveAll levels
    Counted.give r) := by
  cases h with
  | ends r m d hd hs goes tells =>
    have back : (do
        let (r, levels) ← q
        Counted.leaveAll levels
        Counted.give r) c = some (r, d) := by
      rw [Counted.bind_apply, hd]
      simp only [Nat.zero_add, Counted.bind_apply, leaveAll_apply, Nat.add_sub_cancel,
        Counted.give_apply]
    cases r with
    | some a => exact .gives a d back hs goes goes.left
    | none => exact .fails d back hs goes (tells rfl)

end Climbs

end Spellcraft
