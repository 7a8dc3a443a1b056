import Spellcraft.Proofs.Language.Lexemes

namespace Spellcraft

/-- Spaces and comments. At the end of a text, where `last` holds, a comment to the end of its line
needs no line break. -/
inductive Filler (last : Bool) : List Char → Prop
  | nil : Filler last []
  | space : isSpace c = true → Filler last cs → Filler last (c :: cs)
  | line : '\n' ∉ body → Filler last cs → Filler last ('/' :: '/' :: (body ++ '\n' :: cs))
  | block : ¬['*', '/'] <:+: body → Filler last cs →
    Filler last ('/' :: '*' :: (body ++ '*' :: '/' :: cs))
  | tail : last = true → '\n' ∉ body → Filler last ('/' :: '/' :: body)

theorem commentBody_append (h : ¬['*', '/'] <:+: body) (cs : List Char) :
    commentBody (body ++ '*' :: '/' :: cs) = ⟨body.length + 2, true⟩ := by
  induction body with
  | nil => rfl
  | cons c body ih =>
    have early : ∀ tail, c = '*' → body ++ '*' :: '/' :: cs = '/' :: tail → False := by
      rintro tail rfl ht
      cases body with
      | nil => cases ht
      | cons d body =>
        cases ht
        exact h ⟨[], body, rfl⟩
    rw [List.cons_append, commentBody.eq_3 _ _ early, ih fun hi => h (List.infix_cons hi)]
    rfl

theorem exists_commentBody (h : (commentBody cs).closed = true) :
    ∃ body rest, cs = body ++ '*' :: '/' :: rest ∧ ¬['*', '/'] <:+: body := by
  fun_induction commentBody cs with
  | case1 => cases h
  | case2 cs => exact ⟨[], cs, rfl, by simp⟩
  | case3 c cs early g ih =>
    obtain ⟨body, rest, rfl, hb⟩ := ih h
    refine ⟨c :: body, rest, rfl, fun hi => ?_⟩
    rcases List.infix_cons_iff.1 hi with hp | hi
    · obtain ⟨rfl, t, rfl⟩ := List.cons_prefix_cons.1 hp
      exact early _ rfl rfl
    · exact hb hi

theorem takeWhile_line {body rest : List Char} (h : '\n' ∉ body)
    (hrest : ∀ c ∈ rest.head?, c = '\n') :
    (body ++ rest).takeWhile (· ≠ '\n') = body := by
  rw [List.takeWhile_append_of_pos fun c hc => by simpa using fun hn : c = '\n' => h (hn ▸ hc)]
  cases rest with
  | nil => rw [List.takeWhile_nil, List.append_nil]
  | cons c rest =>
    obtain rfl := hrest c rfl
    simp

inductive Fills : List Char → List Char → Prop
  | space : isSpace c = true → Fills [c] rest
  | line : '\n' ∉ body → (∀ c ∈ rest.head?, c = '\n') → Fills ('/' :: '/' :: body) rest
  | block : ¬['*', '/'] <:+: body → Fills ('/' :: '*' :: (body ++ ['*', '/'])) rest

theorem gap?_space (h : isSpace c = true) (cs : List Char) : gap? (c :: cs) = some ⟨1, true⟩ := by
  simp only [isSpace, Bool.or_eq_true, decide_eq_true_eq] at h
  rcases h with ((rfl | rfl) | rfl) | rfl <;> rfl

theorem Fills.gap? (h : Fills g rest) : gap? (g ++ rest) = some ⟨g.length, true⟩ := by
  cases h with
  | space h => exact gap?_space h rest
  | @line body _ h hrest =>
    rw [List.cons_append, List.cons_append, Spellcraft.gap?, takeWhile_line h hrest, Nat.add_comm]
    rfl
  | @block body _ h =>
    simp only [List.cons_append, List.append_assoc, List.nil_append, Spellcraft.gap?,
      commentBody_append h, List.length_cons, List.length_append, List.length_nil]
    congr 2
    omega

theorem exists_fills {cs : List Char} {g : Gap} (h : gap? cs = some g) (closed : g.closed = true) :
    ∃ f rest, cs = f ++ rest ∧ g.length = f.length ∧ Fills f rest := by
  have result {f : List Char} (rest : List Char) (hf : Fills f rest) (hcs : cs = f ++ rest) :
      ∃ f rest, cs = f ++ rest ∧ g.length = f.length ∧ Fills f rest := by
    rw [hcs, hf.gap?] at h
    exact ⟨f, rest, hcs, congrArg Gap.length (Option.some.inj h).symm, hf⟩
  fun_cases gap? cs with
  | case1 cs =>
    refine result (cs.dropWhile (· ≠ '\n')) (.line (fun hn => by simpa using mem_takeWhile hn) ?_)
      (congrArg ('/' :: '/' :: ·) List.takeWhile_append_dropWhile.symm)
    intro c hc
    have stop := List.head?_dropWhile_not (· ≠ '\n') cs
    rw [Option.mem_def.1 hc] at stop
    simpa using stop
  | case2 cs body =>
    rw [gap?] at h
    obtain rfl := Option.some.inj h
    obtain ⟨body, rest, hcs, hb⟩ := exists_commentBody closed
    exact result rest (.block hb) (by simp [hcs])
  | case3 c cs _ _ space =>
    exact result cs (.space (by simpa [isSpace, or_assoc] using space)) rfl
  | case4 c cs line block space =>
    rw [gap?.eq_3 c cs line block, if_neg space] at h
    cases h
  | case5 => cases h

theorem gap?_eq_none {c : Char} {cs : List Char} (space : isSpace c = false)
    (slash : c = '/' → ∀ d ∈ cs.head?, d ≠ '/' ∧ d ≠ '*') : gap? (c :: cs) = none := by
  rw [gap?.eq_3 c cs, if_neg (by simpa [isSpace, and_assoc] using space)]
  · rintro tail rfl rfl
    exact absurd rfl (slash rfl _ rfl).1
  · rintro tail rfl rfl
    exact absurd rfl (slash rfl _ rfl).2

theorem Symbol.behind_slash (s : Symbol) (h : s.text.toList.head? = some '/') :
    s.text.toList.tail = [] ∨ s.text.toList.tail = ['='] := by
  revert h
  cases s <;> decide

theorem Lexeme.gap?_eq_none (h : Lexeme k w) (hrest : ∀ c ∈ rest.head?, isSpace c = true) :
    gap? (w ++ rest) = none := by
  cases h with
  | number h =>
    obtain ⟨c, tail, rfl, digit⟩ := h.head
    have part := isWordPart_of_isDigit digit
    exact Spellcraft.gap?_eq_none (isSpace_of_isWordPart part) (by rintro rfl; cases part)
  | word start =>
    have part := isWordPart_of_isWordStart start
    exact Spellcraft.gap?_eq_none (isSpace_of_isWordPart part) (by rintro rfl; cases part)
  | symbol s =>
    obtain ⟨c, tail, hc⟩ := List.exists_cons_of_ne_nil s.text_ne_nil
    have behind := s.behind_slash
    have space := (s.apart c (hc ▸ List.mem_cons_self)).2.2
    rw [hc] at behind ⊢
    refine Spellcraft.gap?_eq_none space fun slash d hd => ?_
    rcases behind (congrArg some slash) with (rfl : tail = []) | (rfl : tail = ['='])
    · have := hrest d hd
      constructor <;> rintro rfl <;> cases this
    · obtain rfl : '=' = d := Option.some.inj hd
      decide
  | @text q cs ds quote =>
    simp only [isQuote, Bool.or_eq_true, decide_eq_true_eq] at quote
    rcases quote with rfl | rfl <;> exact Spellcraft.gap?_eq_none rfl (by rintro ⟨⟩)

theorem Fills.filler (h : Fills f (g ++ rest)) (hg : Filler rest.isEmpty g)
    (stop : Spellcraft.gap? rest = none) : Filler rest.isEmpty (f ++ g) := by
  cases h with
  | space h => exact .space h hg
  | block h => simpa using hg.block h
  | @line body _ h behind =>
    cases hg with
    | nil =>
      cases rest with
      | nil => simpa using Filler.tail rfl h
      | cons c rest =>
        obtain rfl := behind c rfl
        cases stop.symm.trans (gap?_space rfl rest)
    | space _ hg =>
      obtain rfl := behind _ rfl
      exact .line h hg
    | line | block | tail => cases behind _ rfl

namespace Scanner

variable {f g rest : List Char} {last : Bool}

theorem skipGaps_eq_self {s : Scanner} (h : gap? s.rest = none) : s.skipGaps = s := by
  rw [skipGaps]
  split
  · rfl
  · next h' => cases h.symm.trans h'

theorem skip_append (f rest : List Char) (p : Place) (report : Report Diagnostic) :
    skip ⟨f ++ rest, p, report⟩ f.length = ⟨rest, p.after f, report⟩ := by
  simp [skip]

theorem skipGaps_fills (h : Fills f rest) (p : Place) (report : Report Diagnostic) :
    skipGaps ⟨f ++ rest, p, report⟩ = skipGaps ⟨rest, p.after f, report⟩ := by
  rw [skipGaps]
  split
  · next h' => cases h.gap?.symm.trans h'
  · next g h' =>
    cases h.gap?.symm.trans h'
    simp [skip_append]

theorem skipGaps_append (h : Filler last g) (hlast : last = true → rest = [])
    (stop : gap? rest = none) (p : Place) (report : Report Diagnostic) :
    skipGaps ⟨g ++ rest, p, report⟩ = ⟨rest, p.after g, report⟩ := by
  induction h generalizing p with
  | nil => exact skipGaps_eq_self stop
  | space h _ ih => exact (skipGaps_fills (.space h) p report).trans (ih _)
  | @line body cs h _ ih =>
    have fills : Fills ('/' :: '/' :: body) ('\n' :: (cs ++ rest)) := .line h (by simp)
    have newline : Fills ['\n'] (cs ++ rest) := .space rfl
    calc skipGaps ⟨'/' :: '/' :: (body ++ '\n' :: cs) ++ rest, p, report⟩
      _ = skipGaps ⟨'/' :: '/' :: body ++ '\n' :: (cs ++ rest), p, report⟩ := by simp
      _ = skipGaps ⟨cs ++ rest, (p.after ('/' :: '/' :: body)).after ['\n'], report⟩ :=
        (skipGaps_fills fills p report).trans (skipGaps_fills newline _ report)
      _ = _ := by rw [ih]; simp [Place.after_append]
  | @block body cs h _ ih =>
    have fills : Fills ('/' :: '*' :: (body ++ ['*', '/'])) (cs ++ rest) := .block h
    calc skipGaps ⟨'/' :: '*' :: (body ++ '*' :: '/' :: cs) ++ rest, p, report⟩
      _ = skipGaps ⟨'/' :: '*' :: (body ++ ['*', '/']) ++ (cs ++ rest), p, report⟩ := by simp
      _ = _ := by rw [skipGaps_fills fills, ih]; simp [Place.after_append]
  | @tail body hl h =>
    obtain rfl := hlast hl
    have fills : Fills ('/' :: '/' :: body) [] := .line h (by simp)
    exact (skipGaps_fills fills p report).trans (skipGaps_eq_self stop)

theorem skipGaps_total_le (s : Scanner) : s.report.total ≤ s.skipGaps.report.total := by
  fun_induction skipGaps s with
  | case1 => exact Nat.le_refl _
  | case2 s g h t ih =>
    refine Nat.le_trans ?_ ih
    split
    · exact Nat.le_refl _
    · exact Nat.le_succ _

theorem exists_filler (s : Scanner) (quiet : s.skipGaps.report.total = s.report.total) :
    ∃ g rest, s.rest = g ++ rest ∧ Filler rest.isEmpty g ∧ gap? rest = none ∧
      s.skipGaps = ⟨rest, s.place.after g, s.report⟩ := by
  fun_induction skipGaps s with
  | case1 s h => exact ⟨[], s.rest, rfl, .nil, h, rfl⟩
  | case2 s g h t ih =>
    cases hclosed : g.closed with
    | false =>
      rw [if_neg (by simp [hclosed])] at quiet
      have := skipGaps_total_le (t.complain .openComment s.place)
      rw [total_complain, quiet] at this
      exact absurd this (Nat.not_succ_le_self _)
    | true =>
      obtain ⟨f, behind, hs, length, fills⟩ := exists_fills h hclosed
      have ht : t = ⟨behind, s.place.after f, s.report⟩ := by
        rw [← skip_append f behind s.place s.report, ← hs, ← length]
      simp only [hclosed, if_true, dite_true, ht] at ih quiet ⊢
      obtain ⟨g, rest, rfl, filler, stop, skipped⟩ := ih quiet
      refine ⟨f ++ g, rest, by rw [hs, List.append_assoc], fills.filler filler stop, stop, ?_⟩
      rw [skipped, Place.after_append]

end Scanner

end Spellcraft
