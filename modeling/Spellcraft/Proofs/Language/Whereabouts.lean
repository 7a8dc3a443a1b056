import Spellcraft.Proofs.Language.DrawsStmt

/-!
Where tokens and complaints stand, whatever the text is. Each begins behind a part of the text and
runs forward, and tokens follow each other without touching. A text that is cut off at the end of a
line with an escaped newline ends where it stopped, and only there it takes the newline that
follows to set the next token apart.
-/

namespace Spellcraft

namespace Place

theorem back_behind_concat (cs : List Char) (hc : c ≠ '\n') :
    (behind (cs ++ [c])).back = behind cs := by
  rw [← next_behind, next, if_neg hc, back]
  simp [behind]

theorem back_le (cs : List Char) : (behind cs).back ≤ behind cs := by
  refine .inr ⟨rfl, ?_⟩
  simp only [back, behind]
  omega

theorem le_back (cs : List Char) (hw : w ≠ []) : behind cs ≤ (behind (cs ++ w)).back := by
  obtain ⟨v, c, rfl⟩ : ∃ v c, w = v ++ [c] := ⟨_, _, (List.dropLast_concat_getLast hw).symm⟩
  rw [← List.append_assoc]
  by_cases hc : c = '\n'
  · have col : (behind (cs ++ v ++ [c])).back = behind (cs ++ v ++ [c]) := by
      rw [← next_behind, next, if_pos hc]
      rfl
    rw [col, List.append_assoc]
    exact behind_le cs _
  · rw [back_behind_concat _ hc]
    exact behind_le cs v

end Place

/-- It begins behind a part of the text, runs forward and goes no further than a text of this length
may reach. -/
structure Span.Inside (text : List Char) (s : Span) : Prop where
  first : ∃ cs, cs <+: text ∧ s.first = .behind cs
  forward : s.first ≤ s.last
  last : s.last.line ≤ text.length + 1 ∧ s.last.col ≤ text.length + 1

theorem Span.closed_inside (text : List Char) : Span.Closed (Span.Inside text) where
  origin := ⟨⟨[], List.nil_prefix, rfl⟩, Place.le_refl _, Nat.le_add_left .., Nat.le_add_left ..⟩
  forward h := h.forward
  merge {s t} h k := by
    refine ⟨?_, Span.forward_merge h.forward, ?_⟩
    · rcases Place.earlier_cases s.first t.first with first | first
      · exact (congrArg (fun p => ∃ cs, cs <+: text ∧ p = Place.behind cs) first).mpr h.first
      · exact (congrArg (fun p => ∃ cs, cs <+: text ∧ p = Place.behind cs) first).mpr k.first
    · unfold Span.merge
      rcases Place.later_cases s.last t.last with last | last <;> rw [last]
      · exact h.last
      · exact k.last

def Span.Fits (s : Span) : Prop :=
  (s.first.line < UInt32.size ∧ s.first.col < UInt32.size) ∧
    s.last.line < UInt32.size ∧ s.last.col < UInt32.size

/-- Coordinates are never cut off in a text with fewer characters than 32 bits can count. -/
theorem Span.Inside.fits {text : List Char} {s : Span} (h : s.Inside text)
    (short : text.length + 1 < UInt32.size) : s.Fits := by
  obtain ⟨⟨cs, before, first⟩, -, line, col⟩ := h
  obtain ⟨line', col'⟩ := Place.behind_bounded cs
  have shorter := before.length_le
  rw [Span.Fits, first]
  omega

namespace Scanner

variable {text read before : List Char} {s : Scanner}

/-- The scanner stands behind what it has read, and its complaints stand in the text. -/
structure Stands (text read : List Char) (s : Scanner) : Prop where
  whole : text = read ++ s.rest
  place : s.place = .behind read
  told : s.report.Tells (Span.Inside text)

def Parted (s : Scanner) : Prop := ∀ c ∈ s.rest.head?, c ≠ '\n' → s.place.back < s.place

namespace Stands

theorem skip (h : Stands text read s) (n : Nat) :
    Stands text (read ++ s.rest.take n) (s.skip n) where
  whole := by rw [List.append_assoc, Scanner.skip, List.take_append_drop, h.whole]
  place := by rw [Scanner.skip, h.place, Place.after_behind]
  told := h.told

theorem bounded (h : Stands text read s) :
    s.place.line ≤ text.length + 1 ∧ s.place.col ≤ text.length + 1 := by
  obtain ⟨line, col⟩ := Place.behind_bounded read
  rw [h.place, h.whole, List.length_append]
  omega

theorem spanFrom (h : Stands text (before ++ w) s) (hw : w ≠ []) :
    (s.spanFrom (.behind before)).Inside text where
  first := ⟨before, ⟨w ++ s.rest, by rw [← List.append_assoc, h.whole]⟩, rfl⟩
  forward := by
    rw [Scanner.spanFrom, h.place]
    exact Place.le_back before hw
  last := by
    obtain ⟨line, col⟩ := h.bounded
    exact ⟨line, by simp only [Scanner.spanFrom, Place.back]; omega⟩

theorem complain (h : Stands text (before ++ w) s) (hw : w ≠ []) (p : Problem) :
    Stands text (before ++ w) (s.complain p (.behind before)) where
  whole := h.whole
  place := h.place
  told := h.told.push p (h.spanFrom hw)

theorem eof (h : Stands text read s) : s.eof.span.Inside text where
  first := ⟨read, ⟨s.rest, h.whole.symm⟩, h.place⟩
  forward := Place.le_refl _
  last := h.bounded

theorem skipGaps (s : Scanner) :
    ∀ read, Stands text read s → ∃ g, Stands text (read ++ g) s.skipGaps := by
  fun_induction Scanner.skipGaps s with
  | case1 s => exact fun read h => ⟨[], by rwa [List.append_nil]⟩
  | case2 s g hg t ih =>
    intro read h
    have hw : s.rest.take g.length ≠ [] := by
      simp [gap?_ne_nil hg, Nat.ne_of_gt (gap?_length_pos hg)]
    have skipped := h.skip g.length
    have next : Stands text (read ++ s.rest.take g.length)
        (if g.closed then t else t.complain .openComment s.place) := by
      split
      · exact skipped
      · rw [h.place]
        exact skipped.complain hw _
    obtain ⟨v, hv⟩ := ih _ next
    exact ⟨_, List.append_assoc .. ▸ hv⟩

theorem next {p : Place} {report : Report Diagnostic} (h : Stands text read ⟨c :: cs, p, report⟩) :
    Stands text (read ++ [c]) ⟨cs, p.next c, report⟩ := h.skip 1

theorem parted (h : Stands text (read ++ [c]) s) (hc : c ≠ '\n') : s.Parted := fun _ _ _ => by
  rw [h.place, Place.back_behind_concat _ hc]
  exact Place.behind_lt _ _

end Stands

theorem text_stands {quote : Char} (hq : quote ≠ '\n') (cs : List Char) (p : Place)
    (report : Report Diagnostic) (taken : List Char) :
    ∀ w, w ≠ [] → Stands text (before ++ w) ⟨cs, p, report⟩ →
      (Scanner.text quote (.behind before) cs p report taken).2.Parted ∧ ∃ v, v ≠ [] ∧
        Stands text (before ++ v) (Scanner.text quote (.behind before) cs p report taken).2 := by
  fun_induction Scanner.text quote (.behind before) cs p report taken with
  | case1 p report =>
    intro w hw h
    exact ⟨(fun c hc => by cases hc), w, hw, h.complain hw _⟩
  | case2 p report _ s =>
    intro w hw h
    obtain rfl := h.place
    have cut := h.next.complain (by simp) .cutEscape
    rw [List.append_assoc] at cut
    exact ⟨(fun c hc => by cases hc), _, by simp, cut.complain (by simp) _⟩
  | case3 c cs p report _ q d _ ih =>
    intro w hw h
    have := h.next.next
    rw [List.append_assoc, List.append_assoc] at this
    exact ih _ (by simp) this
  | case4 c cs p report _ q _ s ih =>
    intro w hw h
    obtain rfl := h.place
    have strange := h.next.next
    rw [List.append_assoc] at strange
    have strange := strange.complain (by simp) (.strangeEscape c)
    rw [List.append_assoc] at strange
    exact ih _ (by simp) strange
  | case5 cs p report =>
    intro w hw h
    exact ⟨(fun c hc hn => absurd (Option.some.inj hc).symm hn), w, hw, h.complain hw _⟩
  | case6 cs p report =>
    intro w hw h
    exact ⟨h.next.parted hq, _, by simp, List.append_assoc .. ▸ h.next⟩
  | case7 c cs p report _ _ _ _ _ ih =>
    intro w hw h
    exact ih _ (by simp) (List.append_assoc .. ▸ h.next)

def Tells (text read : List Char) (t : Token) (u : Scanner) : Prop :=
  ∃ g w, Stands text (read ++ g ++ w) u ∧ t.span.first = .behind (read ++ g) ∧
    t.span.Inside text ∧ (t.kind.isEof = false → t.span.last = u.place.back ∧ u.Parted)

theorem Stands.ends (h : Stands text (read ++ g) s) : Tells text read s.eof s :=
  ⟨g, [], by rwa [List.append_nil], h.place, h.eof, fun he => by cases he⟩

theorem token_tells (s : Scanner) :
    ∀ read, Stands text read s → Tells text read s.token.1 s.token.2 := by
  fun_induction token s with
  | case1 s t full =>
    intro read h
    obtain ⟨g, hg⟩ := Stands.skipGaps s read h
    exact hg.ends
  | case2 s t full hrest =>
    intro read h
    obtain ⟨g, hg⟩ := Stands.skipGaps s read h
    exact hg.ends
  | case3 s t full c cs hrest quote taken u hu =>
    intro read h
    obtain ⟨g, hg⟩ := Stands.skipGaps s read h
    have hc : c ≠ '\n' := by rcases quote with rfl | rfl <;> decide
    have place : t.place = .behind (read ++ g) := hg.place
    have opened : Stands text (read ++ g ++ [c]) ⟨cs, t.place.next c, t.report⟩ :=
      Stands.next (hrest ▸ hg : Stands text (read ++ g) ⟨c :: cs, t.place, t.report⟩)
    obtain ⟨parted, w, hw, closed⟩ := text_stands hc _ _ _ [] [c] (by simp) opened
    rw [← place, hu] at parted closed
    exact ⟨g, w, closed, place, place ▸ closed.spanFrom hw, fun _ => ⟨rfl, parted⟩⟩
  | case4 s t full c cs hrest plain k n hn u =>
    intro read h
    obtain ⟨g, hg⟩ := Stands.skipGaps s read h
    have place : t.place = .behind (read ++ g) := hg.place
    obtain ⟨w, rest, hcs, rfl, lexeme, -⟩ := lexeme?_eq_some hn
    have behind := hg.skip w.length
    have taken : s.skipGaps.rest.take w.length = w := by
      have : s.skipGaps.rest = w ++ rest := hrest.trans hcs
      rw [this, List.take_left]
    rw [taken] at behind
    have parted : u.Parted := by
      obtain ⟨v, d, rfl⟩ : ∃ v d, w = v ++ [d] :=
        ⟨_, _, (List.dropLast_concat_getLast lexeme.ne_nil).symm⟩
      have hd : d ≠ '\n' := by
        rintro rfl
        exact lexeme.newline_not_mem (by simp)
      rw [← List.append_assoc] at behind
      exact behind.parted hd
    exact ⟨g, w, behind, place, place ▸ behind.spanFrom lexeme.ne_nil, fun _ => ⟨rfl, parted⟩⟩
  | case5 s t full c cs hrest plain hn problem n hp ih =>
    intro read h
    obtain ⟨g, hg⟩ := Stands.skipGaps s read h
    have place : t.place = .behind (read ++ g) := hg.place
    have passed := hg.skip (n + 1)
    have hw : s.skipGaps.rest.take (n + 1) ≠ [] := by
      have : s.skipGaps.rest = c :: cs := hrest
      simp [this]
    have told := passed.complain hw problem
    rw [← place] at told
    obtain ⟨f, w, tells⟩ := ih _ told
    refine ⟨g ++ s.skipGaps.rest.take (n + 1) ++ f, w, ?_⟩
    simpa only [List.append_assoc] using tells

theorem skipGaps_newline (hs : s.rest = '\n' :: cs) : s.skipGaps = (s.skip 1).skipGaps := by
  have gap : gap? s.rest = some ⟨1, true⟩ := hs ▸ gap?_space rfl cs
  rw [skipGaps]
  split
  · next none => rw [gap] at none; cases none
  · next g some =>
    rw [gap] at some
    cases some
    rfl

theorem tokens_newline (room : s.report.isFull = false) (hs : s.rest = '\n' :: cs) :
    s.tokens = (s.skip 1).tokens := by
  have token : s.token = (s.skip 1).token := by rw [Scanner.token, skipGaps_newline hs, Scanner.token]
  have room' : (s.skip 1).report.isFull = false := room
  rw [tokens_eq room, tokens_eq room', token]

theorem tokens_inside (s : Scanner) : ∀ read, Stands text read s →
    (∀ t ∈ s.tokens.1, t.span.Inside text ∧ .behind read ≤ t.span.first) ∧
      s.tokens.2.Tells (Span.Inside text) := by
  fun_induction tokens s with
  | case1 s full =>
    intro read h
    refine ⟨List.forall_mem_singleton.2 ⟨h.eof, ?_⟩, h.told⟩
    rw [eof, h.place]
    exact Place.le_refl _
  | case2 s room t u hu ends =>
    intro read h
    obtain ⟨g, w, stands, first, inside, -⟩ := hu ▸ token_tells s read h
    refine ⟨List.forall_mem_singleton.2 ⟨inside, ?_⟩, stands.told⟩
    rw [first]
    exact Place.behind_le _ _
  | case3 s room t u hu goes ts report hts ih =>
    intro read h
    obtain ⟨g, w, stands, first, inside, -⟩ := hu ▸ token_tells s read h
    obtain ⟨tail, told⟩ := hts ▸ ih _ stands
    refine ⟨List.forall_mem_cons.2 ⟨⟨inside, ?_⟩, fun v hv => ⟨(tail v hv).1, ?_⟩⟩, told⟩
    · rw [first]
      exact Place.behind_le _ _
    · have := Place.behind_le read (g ++ w)
      rw [← List.append_assoc] at this
      exact Place.le_trans this (tail v hv).2

theorem tokens_nil (hs : s.rest = []) : s.tokens.1.takeWhile (!·.kind.isEof) = [] := by
  cases full : s.report.isFull with
  | true =>
    rw [tokens, if_pos full]
    rfl
  | false =>
    cases ends : s.token.1.kind.isEof with
    | true =>
      rw [tokens_eq full, if_pos ends]
      simp [ends]
    | false =>
      have := token_rest_lt s ends
      rw [hs] at this
      exact absurd this (Nat.not_lt_zero _)

theorem Parted.lt (parted : s.Parted) (h : Stands text read s) :
    ∀ t ∈ s.tokens.1.takeWhile (!·.kind.isEof), s.place.back < t.span.first := by
  intro t ht
  rcases hs : s.rest with _ | ⟨c, cs⟩
  · rw [tokens_nil hs] at ht
    cases ht
  have member := List.takeWhile_subset _ ht
  by_cases hc : c = '\n'
  · have room : s.report.isFull = false := by
      cases full : s.report.isFull with
      | false => rfl
      | true =>
        rw [tokens, if_pos full] at ht
        cases ht
    rw [tokens_newline room (hc ▸ hs)] at member
    have skipped := h.skip 1
    rw [hs, hc] at skipped
    have le := ((tokens_inside _ _ skipped).1 t member).2
    have lt := Place.lt_of_le_of_lt (Place.back_le read) (Place.behind_lt read '\n')
    rw [h.place]
    exact Place.lt_of_lt_of_le lt le
  · have lt := parted c (by rw [hs]; rfl) hc
    have le := ((tokens_inside s read h).1 t member).2
    exact Place.lt_of_lt_of_le (h.place ▸ lt) le

theorem tokens_ascending (s : Scanner) : ∀ read, Stands text read s →
    (s.tokens.1.takeWhile (!·.kind.isEof)).Pairwise fun t u => t.span.last < u.span.first := by
  fun_induction tokens s with
  | case1 s full => exact fun _ _ => .nil
  | case2 s room t u hu ends =>
    intro _ _
    simp [ends]
  | case3 s room t u hu goes ts report hts ih =>
    intro read h
    obtain ⟨g, w, stands, -, -, ended⟩ := hu ▸ token_tells s read h
    have goes : t.kind.isEof = false := by simpa using goes
    obtain ⟨last, parted⟩ := ended goes
    have apart := parted.lt stands
    have tail := ih _ stands
    rw [hts] at apart tail
    rw [List.takeWhile_cons_of_pos (by simp [goes])]
    exact List.pairwise_cons.2 ⟨fun v hv => last ▸ apart v hv, tail⟩

end Scanner

theorem scan_stands (source : String) :
    Scanner.Stands source.toList [] (.ofText source) := ⟨rfl, rfl, .empty⟩

theorem scan_sound (source : String) :
    (Stream.ofTokens (scan source).1).Sound (Span.Inside source.toList) ∧
      (scan source).2.Tells (Span.Inside source.toList) := by
  have stands := scan_stands source
  obtain ⟨inside, told⟩ := Scanner.tokens_inside _ _ stands
  have inside : ∀ t ∈ (scan source).1, t.span.Inside source.toList := fun t ht => (inside t ht).1
  refine ⟨?_, told⟩
  constructor
  · exact fun t ht => inside t (List.takeWhile_subset _ ht)
  · exact Scanner.tokens_ascending _ _ stands
  · exact fun p hp => by cases hp
  · simp only [Stream.ofTokens]
    split
    · next t _ ht => exact inside t (List.dropWhile_subset _ (ht ▸ List.mem_cons_self))
    · rcases hl : (scan source).1.getLast? with _ | t
      · exact (Span.closed_inside _).origin
      · exact inside t (List.mem_of_getLast? hl)
  · exact .empty

theorem parseText_drawn (source : String) :
    (parseText source).1.outline.Orderly (Span.Inside source.toList) ∧
    (parseText source).2.1.Tells (Span.Inside source.toList) ∧
      (parseText source).2.2.Tells (Span.Inside source.toList) := by
  obtain ⟨sound, told⟩ := scan_sound source
  have drawn := parseTokens_drawn (Span.closed_inside _) sound
  exact ⟨drawn.1, told, drawn.2⟩

theorem Spell.parse_drawn (h : Spell.parse source = .ok p) :
    p.outline.Orderly (Span.Inside source.toList) := by
  simp only [Spell.parse] at h
  split at h
  · cases h
    exact (parseText_drawn source).1
  · cases h

theorem Spell.parse_fits (h : Spell.parse source = .ok p)
    (short : source.length + 1 < UInt32.size) : ∀ n ∈ p.outline.nodes, n.span.Fits :=
  fun _ hn => ((Spell.parse_drawn h).of_mem hn).sort.fits short

open Outline in
/-- In the tree of a spell every node covers all that is in it, and the parts of a node follow each
other in the text without touching. Coordinates have no bound here; see `parse_fits`. -/
theorem Spell.parse_nests (h : Spell.parse source = .ok p) : ∀ n ∈ p.outline.nodes,
    n.span.first ≤ n.span.last ∧ (∀ d ∈ n.nodes, n.span.Covers d.span) ∧
      n.children.Pairwise Before := by
  intro n hn
  have orderly := (Spell.parse_drawn h).of_mem hn
  exact ⟨orderly.sort.forward, fun d hd => orderly.covers hd, orderly.apart⟩

open Outline in
theorem Spell.parse_nests_turns : ∃ p, Spell.parse "do\n (a) = f(b, c); while (a < b)" = .ok p ∧
    p.outline.nodes.length = 12 ∧ ∀ n ∈ p.outline.nodes, n.span.first ≤ n.span.last ∧
      (∀ d ∈ n.nodes, n.span.Covers d.span) ∧ n.children.Pairwise Before := by
  have computed : (Spell.parse "do\n (a) = f(b, c); while (a < b)").toOption.map
      (fun p => p.outline.nodes.length) = some 12 := by decide +kernel
  rcases h : Spell.parse "do\n (a) = f(b, c); while (a < b)" with e | p <;> rw [h] at computed
  · cases computed
  · exact ⟨p, rfl, Option.some.inj computed, parse_nests h⟩

end Spellcraft
