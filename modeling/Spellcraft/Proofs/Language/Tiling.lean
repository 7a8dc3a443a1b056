import Spellcraft.Proofs.Language.Fillers

namespace Spellcraft

namespace Place

def behind (cs : List Char) : Place :=
  ⟨cs.count '\n' + 1, (cs.reverse.takeWhile (· ≠ '\n')).length + 1⟩

protected def Lt (p q : Place) : Prop := p.line < q.line ∨ p.line = q.line ∧ p.col < q.col

instance : LT Place := ⟨Place.Lt⟩

theorem lt_def {p q : Place} :
    p < q ↔ p.line < q.line ∨ p.line = q.line ∧ p.col < q.col := Iff.rfl

theorem le_refl (p : Place) : p ≤ p := .inr ⟨rfl, Nat.le_refl _⟩

theorem le_of_lt {p q : Place} (h : p < q) : p ≤ q := by
  rw [lt_def] at h
  rw [le_def]
  omega

theorem lt_of_lt_of_le {p q r : Place} (h : p < q) (h' : q ≤ r) : p < r := by
  rw [le_def] at h'
  rw [lt_def] at h ⊢
  omega

theorem le_trans {p q r : Place} (h : p ≤ q) (h' : q ≤ r) : p ≤ r := by
  rw [le_def] at h h' ⊢
  omega

@[simp] theorem next_behind (cs : List Char) (c : Char) :
    (behind cs).next c = behind (cs ++ [c]) := by
  simp only [next, behind, List.count_append, List.reverse_append, List.reverse_singleton,
    List.singleton_append, List.takeWhile_cons]
  split
  · next h => simp [h]
  · next h => simp [h]

@[simp] theorem after_behind (cs ds : List Char) : (behind cs).after ds = behind (cs ++ ds) := by
  induction ds generalizing cs with
  | nil => rw [after_nil, List.append_nil]
  | cons d ds ih => rw [after_cons, next_behind, ih, List.append_assoc, List.singleton_append]

theorem behind_lt (cs : List Char) (c : Char) : behind cs < behind (cs ++ [c]) := by
  rw [← next_behind, next, lt_def]
  split
  · exact .inl (Nat.lt_succ_self _)
  · exact .inr ⟨rfl, Nat.lt_succ_self _⟩

theorem behind_le (cs ds : List Char) : behind cs ≤ behind (cs ++ ds) := by
  induction ds generalizing cs with
  | nil => exact (List.append_nil cs).symm ▸ le_refl _
  | cons d ds ih =>
    have := ih (cs ++ [d])
    rw [List.append_assoc] at this
    exact le_trans (le_of_lt (behind_lt cs d)) this

theorem back_behind (cs : List Char) (hw : w ≠ []) (newline : '\n' ∉ w) :
    (behind (cs ++ w)).back = behind (cs ++ w.dropLast) := by
  have last : w.getLast hw ≠ '\n' := fun h => newline (h ▸ List.getLast_mem hw)
  have step := next_behind (cs ++ w.dropLast) (w.getLast hw)
  rw [List.append_assoc, List.dropLast_concat_getLast hw, next, if_neg last] at step
  rw [← step, back]
  simp [behind]

theorem behind_bounded (cs : List Char) :
    (behind cs).line ≤ cs.length + 1 ∧ (behind cs).col ≤ cs.length + 1 := by
  have := (List.takeWhile_sublist (l := cs.reverse) (· ≠ '\n')).length_le
  rw [List.length_reverse] at this
  exact ⟨Nat.succ_le_succ List.count_le_length, Nat.succ_le_succ this⟩

theorem behind_line (cs : List Char) (newline : '\n' ∉ w) :
    (behind (cs ++ w)).line = (behind cs).line := by
  simp [behind, List.count_eq_zero.2 newline]

end Place

/-- The tokens of a text behind the text `before`. -/
inductive Tiled : List Char → List Char → List Token → Prop
  | last : Filler true g → Tiled before g [⟨.eof, .point (.behind (before ++ g))⟩]
  | next : Filler false g → Lexeme k w → gap? (w ++ rest) = none → Longest w rest →
    Tiled (before ++ g ++ w) rest ts →
    Tiled before (g ++ w ++ rest)
      (⟨k, .behind (before ++ g), .behind (before ++ g ++ w.dropLast)⟩ :: ts)

theorem Lexeme.isEof (h : Lexeme k w) : k.isEof = false := by
  cases h with
  | number | symbol | text => rfl
  | word =>
    unfold Kind.ofWord
    split <;> rfl

namespace Scanner

variable {g w rest before : List Char} {k : Kind} {report : Report Diagnostic} {ts : List Token}

theorem token_filler (h : Filler true g) (p : Place) (report : Report Diagnostic) :
    token ⟨g, p, report⟩ = (⟨.eof, .point (p.after g)⟩, ⟨[], p.after g, report⟩) := by
  have skipped : skipGaps ⟨g ++ [], p, report⟩ = _ := skipGaps_append h (fun _ => rfl) rfl p report
  rw [List.append_nil] at skipped
  rw [token, skipped]
  split <;> rfl

theorem token_lexeme (hg : Filler false g) (hw : Lexeme k w) (stop : gap? (w ++ rest) = none)
    (longest : Longest w rest) (room : report.isFull = false) (before : List Char) :
    token ⟨g ++ w ++ rest, .behind before, report⟩ =
      (⟨k, .behind (before ++ g), .behind (before ++ g ++ w.dropLast)⟩,
        ⟨rest, .behind (before ++ g ++ w), report⟩) := by
  have skipped := skipGaps_append hg (fun h => by cases h) stop (.behind before) report
  rw [Place.after_behind, ← List.append_assoc] at skipped
  have last := Place.back_behind (before ++ g) hw.ne_nil hw.newline_not_mem
  rw [token, skipped]
  dsimp only
  rw [if_neg (by simp [room])]
  obtain ⟨c, v, rfl⟩ := List.exists_cons_of_ne_nil hw.ne_nil
  cases hc : isQuote c with
  | true =>
    obtain ⟨cs, ds, rfl, quoted, rfl⟩ := hw.isText hc
    have quote : c = '"' ∨ c = '\'' := by simpa [isQuote] using hc
    rw [List.append_assoc before, List.append_assoc before] at last
    simp only [List.cons_append, List.append_assoc, List.nil_append, if_pos quote,
      text_quoted quoted hc, Place.next_behind, Place.after_behind, spanFrom, last]
    rfl
  | false =>
    have plain : ¬(c = '"' ∨ c = '\'') := by simpa [isQuote] using hc
    have read := lexeme?_append hw (by simpa using hc) longest
    have skip := skip_append (c :: v) rest (.behind (before ++ g)) report
    rw [List.cons_append] at read skip
    rw [Place.after_behind] at skip
    simp only [List.cons_append, if_neg plain, read, skip, spanFrom, last]

theorem tokens_eq {s : Scanner} (room : s.report.isFull = false) : s.tokens =
    if s.token.1.kind.isEof then ([s.token.1], s.token.2.report)
    else (s.token.1 :: s.token.2.tokens.1, s.token.2.tokens.2) := by
  rw [tokens, if_neg (by simp [room])]
  split
  next t u h => rw [h]; rfl

theorem tokens_tiled (h : Tiled before cs ts) (room : report.isFull = false) :
    tokens ⟨cs, .behind before, report⟩ = (ts, report) := by
  induction h with
  | last h =>
    rw [tokens_eq room, token_filler h, Place.after_behind]
    rfl
  | next hg hw stop longest _ ih =>
    rw [tokens_eq room, token_lexeme hg hw stop longest room, if_neg (by simp [hw.isEof]), ih]

theorem skipGaps_total_le_token (s : Scanner) :
    s.skipGaps.report.total ≤ s.token.2.report.total := by
  fun_induction token s with
  | case1 | case2 | case4 => exact Nat.le_refl _
  | case3 s t _ c cs _ _ read u hu =>
    have := text_total_le c t.place cs (t.place.next c) t.report []
    rwa [hu] at this
  | case5 s t _ c cs _ _ _ problem n hp ih =>
    have := Nat.le_trans (skipGaps_total_le ((t.skip (n + 1)).complain problem t.place)) ih
    exact Nat.le_of_succ_le this

theorem token_total_le (s : Scanner) : s.report.total ≤ s.token.2.report.total :=
  Nat.le_trans (skipGaps_total_le s) (skipGaps_total_le_token s)

theorem tokens_total_le (s : Scanner) : s.report.total ≤ s.tokens.2.total := by
  fun_induction tokens s with
  | case1 => exact Nat.le_refl _
  | case2 s _ t u h =>
    have := token_total_le s
    rwa [h] at this
  | case3 s _ t u h _ ts report hts ih =>
    have := token_total_le s
    rw [h] at this
    rw [hts] at ih
    exact Nat.le_trans this ih

theorem exists_lexeme (s : Scanner) (room : s.report.isFull = false)
    (quiet : s.token.2.report.total = s.report.total) :
    Filler true s.rest ∨ ∃ g k w rest, s.rest = g ++ w ++ rest ∧ Filler false g ∧ Lexeme k w ∧
      gap? (w ++ rest) = none ∧ Longest w rest := by
  have gaps : s.skipGaps.report.total = s.report.total :=
    Nat.le_antisymm (quiet ▸ skipGaps_total_le_token s) (skipGaps_total_le s)
  obtain ⟨g, rest, hs, filler, stop, skipped⟩ := exists_filler s gaps
  cases rest with
  | nil =>
    left
    rwa [hs, List.append_nil]
  | cons c cs =>
    right
    suffices lexeme : ∃ k w rest, c :: cs = w ++ rest ∧ Lexeme k w ∧ Longest w rest by
      obtain ⟨k, w, rest, hcs, lexeme, longest⟩ := lexeme
      rw [hcs] at hs stop
      exact ⟨g, k, w, rest, by rw [hs, List.append_assoc], filler, lexeme, stop, longest⟩
    rw [token, skipped] at quiet
    dsimp only at quiet
    rw [if_neg (by simp [room])] at quiet
    split at quiet
    · next quote =>
      have hc : isQuote c = true := by simpa [isQuote] using quote
      obtain ⟨body, ds, rest, rfl, quoted⟩ := exists_quoted c _ cs _ s.report [] quiet
      exact ⟨_, c :: (body ++ [c]), rest, by simp, .text hc quoted, longest_text hc quoted rest⟩
    · split at quiet
      · next k n read =>
        obtain ⟨w, rest, hcs, -, lexeme, longest⟩ := lexeme?_eq_some read
        exact ⟨k, w, rest, hcs, lexeme, longest⟩
      · have := token_total_le (complain (skip ⟨c :: cs, s.place.after g, s.report⟩
          ((stray c cs).2 + 1)) (stray c cs).1 (s.place.after g))
        rw [quiet] at this
        exact absurd this (Nat.not_succ_le_self _)

theorem exists_tiled (before cs : List Char) (room : report.isFull = false)
    (quiet : (tokens ⟨cs, .behind before, report⟩).2.total = report.total) :
    ∃ ts, Tiled before cs ts := by
  have one : (token ⟨cs, .behind before, report⟩).2.report.total = report.total := by
    refine Nat.le_antisymm ?_ (token_total_le ⟨cs, .behind before, report⟩)
    rw [tokens_eq room] at quiet
    split at quiet
    · exact Nat.le_of_eq quiet
    · exact quiet ▸ tokens_total_le _
  rcases exists_lexeme ⟨cs, .behind before, report⟩ room one with filler | lexeme
  · exact ⟨_, .last filler⟩
  · obtain ⟨g, k, w, rest, hcs, hg, hw, stop, longest⟩ := lexeme
    dsimp only at hcs
    have shorter : rest.length < cs.length := by
      have := List.length_pos_iff.2 hw.ne_nil
      simp only [hcs, List.length_append]
      omega
    rw [hcs, tokens_eq room, token_lexeme hg hw stop longest room,
      if_neg (by simp [hw.isEof])] at quiet
    obtain ⟨ts, tiled⟩ := exists_tiled (before ++ g ++ w) rest room quiet
    rw [hcs]
    exact ⟨_, .next hg hw stop longest tiled⟩
termination_by cs.length

theorem tokens_eq_iff (room : report.isFull = false) :
    tokens ⟨cs, .behind before, report⟩ = (ts, report) ↔ Tiled before cs ts := by
  refine ⟨fun h => ?_, fun h => tokens_tiled h room⟩
  obtain ⟨ts', tiled⟩ := exists_tiled before cs room (by rw [h])
  cases h.symm.trans (tokens_tiled tiled room)
  exact tiled

end Scanner

namespace Tiled

theorem behind_le (h : Tiled before cs ts) : ∀ t ∈ ts, .behind before ≤ t.span.first := by
  induction h with
  | @last g before _ => exact List.forall_mem_singleton.2 (Place.behind_le before g)
  | @next g k w rest before ts _ _ _ _ _ ih =>
    refine List.forall_mem_cons.2 ⟨Place.behind_le before g, fun t ht => ?_⟩
    have := Place.behind_le before (g ++ w)
    rw [← List.append_assoc] at this
    exact Place.le_trans this (ih t ht)

theorem ascending (h : Tiled before cs ts) :
    ts.Pairwise fun t u => t.span.last < u.span.first := by
  induction h with
  | last => exact List.pairwise_singleton _ _
  | @next g k w rest before ts _ hw _ _ tiled ih =>
    refine List.pairwise_cons.2 ⟨fun u hu => ?_, ih⟩
    have := Place.behind_lt (before ++ g ++ w.dropLast) (w.getLast hw.ne_nil)
    rw [List.append_assoc _ _ [_], List.dropLast_concat_getLast] at this
    exact Place.lt_of_lt_of_le this (tiled.behind_le u hu)

theorem onLine (h : Tiled before cs ts) :
    ∀ t ∈ ts, t.span.first ≤ t.span.last ∧ t.span.first.line = t.span.last.line := by
  induction h with
  | last => exact List.forall_mem_singleton.2 ⟨Place.le_refl _, rfl⟩
  | @next g k w rest before ts _ hw _ _ _ ih =>
    refine List.forall_mem_cons.2 ⟨⟨Place.behind_le _ _, (Place.behind_line _ ?_).symm⟩, ih⟩
    exact fun hn => hw.newline_not_mem (List.dropLast_subset w hn)

theorem bounded (h : Tiled before cs ts) : ∀ t ∈ ts,
    t.span.last.line ≤ (before ++ cs).length + 1 ∧ t.span.last.col ≤ (before ++ cs).length + 1 := by
  induction h with
  | last => exact List.forall_mem_singleton.2 (Place.behind_bounded _)
  | @next g k w rest before ts _ hw _ _ _ ih =>
    refine List.forall_mem_cons.2 ⟨?_, by simpa only [List.append_assoc] using ih⟩
    have := Place.behind_bounded (before ++ g ++ w.dropLast)
    simp only [List.length_append, List.length_dropLast] at this ⊢
    omega

theorem exists_eof (h : Tiled before cs ts) :
    ∃ us, ts = us ++ [⟨.eof, .point (.behind (before ++ cs))⟩] ∧
      ∀ u ∈ us, u.kind.isEof = false := by
  induction h with
  | last => exact ⟨[], rfl, fun u hu => by cases hu⟩
  | @next g k w rest before ts _ hw _ _ _ ih =>
    obtain ⟨us, rfl, hus⟩ := ih
    refine ⟨⟨k, .behind (before ++ g), .behind (before ++ g ++ w.dropLast)⟩ :: us, ?_,
      List.forall_mem_cons.2 ⟨hw.isEof, hus⟩⟩
    simp only [List.cons_append, List.append_assoc]

theorem one (h : Lexeme k w) : Tiled [] w
    [⟨k, .behind [], .behind w.dropLast⟩, ⟨.eof, .point (.behind w)⟩] := by
  have nothing : ∀ c ∈ ([] : List Char).head?, isSpace c = true := by simp
  have tiled : Tiled [] ([] ++ w ++ []) _ :=
    .next .nil h (h.gap?_eq_none nothing) (h.longest_of_space nothing) (.last .nil)
  simpa using tiled

end Tiled

theorem scan_eq_tokens (source : String) :
    scan source = Scanner.tokens ⟨source.toList, .behind [], .empty⟩ := rfl

theorem scan_eq_iff {source : String} :
    scan source = (ts, .empty) ↔ Tiled [] source.toList ts := by
  rw [scan_eq_tokens]
  exact Scanner.tokens_eq_iff rfl

theorem tiled_of_isClean {source : String} (clean : (scan source).2.isClean = true) :
    Tiled [] source.toList (scan source).1 := by
  rw [scan_eq_tokens] at clean
  obtain ⟨ts, tiled⟩ := Scanner.exists_tiled [] source.toList rfl (of_decide_eq_true clean)
  rwa [scan_eq_iff.2 tiled]

end Spellcraft
