import Spellcraft.Proofs.Language.Tiling

namespace Spellcraft

def quoteChar (q c : Char) : List Char :=
  if c = '\\' ∨ c = q then ['\\', c] else if c = '\n' then ['\\', 'n'] else [c]

def quoteText (q : Char) (cs : List Char) : List Char := q :: (cs.flatMap (quoteChar q) ++ [q])

inductive Spells : Kind → List Char → Prop
  | keyword (w : Keyword) : Spells (.keyword w) w.text.toList
  | symbol (s : Symbol) : Spells (.symbol s) s.text.toList
  | name : isWordStart c = true → (∀ d ∈ cs, isWordPart d = true) →
    Keyword.ofText? (String.ofList (c :: cs)) = none →
    Spells (.name (String.ofList (c :: cs))) (c :: cs)
  | number : Numeral cs → Number.ofText? cs = some x → Spells (.number x) cs
  | text (cs : List Char) : isQuote q = true → Spells (.text (String.ofList cs)) (quoteText q cs)

/-- Words with what separates them. The last one may end the text. -/
inductive Written : List Kind → List Char → Prop
  | nil : Written [] []
  | last : Spells k w → Written [k] w
  | next : Spells k w → isSpace c = true → Filler false s → Written ks cs →
    Written (k :: ks) (w ++ c :: s ++ cs)

theorem escape?_quote {q : Char} (h : isQuote q = true) : Scanner.escape? q = some q := by
  simp only [isQuote, Bool.or_eq_true, decide_eq_true_eq] at h
  rcases h with rfl | rfl <;> rfl

theorem quoted_flatMap (h : isQuote q = true) (cs : List Char) :
    Quoted q (cs.flatMap (quoteChar q)) cs := by
  induction cs with
  | nil => exact .nil
  | cons c cs ih =>
    rw [List.flatMap_cons, quoteChar]
    split
    · next escaped =>
      refine .escape ?_ ih
      rcases escaped with rfl | rfl
      · rfl
      · exact escape?_quote h
    · next plain =>
      rw [not_or] at plain
      split
      · next newline => exact .escape (newline ▸ rfl) ih
      · next newline => exact .plain plain.2 plain.1 newline ih

theorem Keyword.word (w : Keyword) : ∃ c cs, w.text.toList = c :: cs ∧ isWordStart c = true ∧
    ∀ d ∈ cs, isWordPart d = true := by
  simp only [← List.all_eq_true]
  cases w <;> exact ⟨_, _, rfl, by decide, by decide⟩

theorem takeWhile_digits {ds rest : List Char} (h : ∀ d ∈ ds, d.isDigit = true)
    (hrest : ∀ c ∈ rest.head?, c.isDigit = false) :
    (ds ++ rest).takeWhile Char.isDigit = ds ∧ (ds ++ rest).dropWhile Char.isDigit = rest := by
  rw [List.takeWhile_append_of_pos h, List.dropWhile_append_of_pos h]
  cases rest with
  | nil => exact ⟨List.append_nil ds, rfl⟩
  | cons c rest => simp [hrest c rfl]

theorem Numeral.exists_decimal (h : Numeral cs) (negative : Bool) :
    ∃ d, Number.Decimal.unsigned? negative cs = some d := by
  have nothing : ∀ c ∈ ([] : List Char).head?, c.isDigit = false := by simp
  cases h with
  | whole hne digits =>
    obtain ⟨taken, dropped⟩ := takeWhile_digits digits nothing
    rw [List.append_nil] at taken dropped
    exact ⟨_, by simp [Number.Decimal.unsigned?, taken, dropped, hne, Number.exponent?]; rfl⟩
  | @decimal ds es hne digits _ fraction =>
    have point : ∀ c ∈ ('.' :: es).head?, c.isDigit = false := by
      rintro c ⟨⟩
      rfl
    obtain ⟨taken, dropped⟩ := takeWhile_digits digits point
    obtain ⟨taken', dropped'⟩ := takeWhile_digits fraction nothing
    rw [List.append_nil] at taken' dropped'
    exact ⟨_, by
      simp [Number.Decimal.unsigned?, taken, dropped, taken', dropped', hne, Number.exponent?]; rfl⟩

theorem toLower_of_isDigit {c : Char} (h : c.isDigit = true) : c.toLower = c := by
  refine dif_neg fun upper => ?_
  have letter : c.isAlpha = true := Bool.or_eq_true_iff.2 (.inl (decide_eq_true upper))
  have letter : isWordStart c = true := by simp [isWordStart, letter]
  rw [isWordStart_of_isDigit h] at letter
  cases letter

theorem Numeral.not_named (h : Numeral cs) : Number.named? cs = none := by
  obtain ⟨c, tail, rfl, digit⟩ := h.head
  have letters : ∀ name ∈ ["inf", "infinity", "nan"],
      name.toList.head?.any Char.isDigit = false := by decide
  have lower : ∀ name ∈ ["inf", "infinity", "nan"],
      String.ofList ((c :: tail).map Char.toLower) ≠ name := by
    intro name hname same
    have head : name.toList.head? = some c := by simp [← same, toLower_of_isDigit digit]
    have := letters name hname
    rw [head, Option.any_some, digit] at this
    cases this
  rw [Number.named?]
  split
  · next h => exact absurd h (lower _ (by simp))
  · next h => exact absurd h (lower _ (by simp))
  · next h => exact absurd h (lower _ (by simp))
  · rfl

theorem Numeral.not_signed (h : Numeral cs) : Number.takeSign cs = (false, cs) := by
  obtain ⟨c, tail, rfl, digit⟩ := h.head
  rw [Number.takeSign]
  · rintro tail ⟨⟩
    cases digit
  · rintro tail ⟨⟩
    cases digit

theorem Numeral.ofText? (h : Numeral cs) : Number.ofText? cs = some (Number.ofLiteral cs) := by
  obtain ⟨d, hd⟩ := h.exists_decimal false
  rw [Number.ofText?, h.not_signed]
  dsimp only
  rw [h.not_named, Number.ofLiteral, hd]
  rfl

theorem Spells.lexeme (h : Spells k w) : Lexeme k w := by
  cases h with
  | keyword w =>
    obtain ⟨c, cs, hw, start, parts⟩ := w.word
    have := Lexeme.word start parts
    rwa [← hw, String.ofList_toList, Kind.ofWord, Keyword.ofText?_text] at this
  | symbol s => exact .symbol s
  | name start parts free =>
    have := Lexeme.word start parts
    rwa [Kind.ofWord, free] at this
  | number numeral value =>
    cases numeral.ofText?.symm.trans value
    exact .number numeral
  | text cs quote => exact .text quote (quoted_flatMap quote cs)

theorem Filler.mono (h : Filler false g) : Filler last g := by
  induction h with
  | nil => exact .nil
  | space h _ ih => exact .space h ih
  | line h _ ih => exact .line h ih
  | block h _ ih => exact .block h ih
  | tail h => cases h

theorem Written.tiled (h : Written ks cs) (before : List Char) (hlead : Filler false lead) :
    ∃ ts, Tiled before (lead ++ cs) ts ∧ ts.map Token.kind = ks ++ [.eof] := by
  induction h generalizing before lead with
  | nil =>
    rw [List.append_nil]
    exact ⟨_, .last hlead.mono, rfl⟩
  | @last k w spelled =>
    have nothing : ∀ c ∈ ([] : List Char).head?, isSpace c = true := by simp
    have hw := spelled.lexeme
    have tiled : Tiled before (lead ++ w ++ []) _ :=
      .next hlead hw (hw.gap?_eq_none nothing) (hw.longest_of_space nothing) (.last .nil)
    rw [List.append_nil] at tiled
    exact ⟨_, tiled, rfl⟩
  | @next k w c s ks cs spelled space filler _ ih =>
    have hw := spelled.lexeme
    have separated : ∀ d ∈ (c :: s ++ cs).head?, isSpace d = true := by
      rintro d ⟨⟩
      exact space
    obtain ⟨ts, tiled, kinds⟩ := ih (before ++ lead ++ w) (.space space filler)
    have tiled :=
      Tiled.next hlead hw (hw.gap?_eq_none separated) (hw.longest_of_space separated) tiled
    rw [List.append_assoc, ← List.append_assoc w] at tiled
    exact ⟨_, tiled, by rw [List.map_cons, kinds]; rfl⟩

/-- Words that are written apart are scanned without a complaint, as the same words in order. -/
theorem scan_written (hlead : Filler false lead) (h : Written ks cs) :
    (scan (String.ofList (lead ++ cs))).2.isClean = true ∧
      (scan (String.ofList (lead ++ cs))).1.map Token.kind = ks ++ [.eof] := by
  obtain ⟨ts, tiled, kinds⟩ := h.tiled [] hlead
  rw [← String.toList_ofList (l := lead ++ cs)] at tiled
  rw [scan_eq_iff.2 tiled]
  exact ⟨rfl, kinds⟩

theorem scan_written_let :
    Filler false [' '] ∧
    Written [.keyword .let_, .name "x", .text "'\n"]
      (['l', 'e', 't'] ++ '\n' :: ['/', '/', '"', '\n'] ++
      (['x'] ++ '\t' :: ['/', '*', '*', '*', '/'] ++ quoteText '\'' ['\'', '\n'])) ∧
    (scan " let\n//\"\nx\t/***/'\\'\\n'").2.isClean = true ∧
    (scan " let\n//\"\nx\t/***/'\\'\\n'").1.map Token.kind =
      [.keyword .let_, .name "x", .text "'\n", .eof] := by
  have lead : Filler false [' '] := .space rfl .nil
  have line : Filler false ['/', '/', '"', '\n'] := Filler.line (by decide : '\n' ∉ ['"']) .nil
  have block : Filler false ['/', '*', '*', '*', '/'] :=
    Filler.block (by decide : ¬['*', '/'] <:+: ['*']) .nil
  have x : Spells (.name "x") ['x'] := .name rfl (fun _ h => nomatch h) (by decide)
  have text : Spells (.text "'\n") (quoteText '\'' ['\'', '\n']) := .text ['\'', '\n'] rfl
  have newline : isSpace '\n' = true := rfl
  have tab : isSpace '\t' = true := rfl
  have written := Written.next (.keyword .let_) newline line (.next x tab block (.last text))
  have source : String.ofList ([' '] ++ (['l', 'e', 't'] ++ '\n' :: ['/', '/', '"', '\n'] ++
      (['x'] ++ '\t' :: ['/', '*', '*', '*', '/'] ++ quoteText '\'' ['\'', '\n']))) =
      " let\n//\"\nx\t/***/'\\'\\n'" := by decide
  exact ⟨lead, written, source ▸ scan_written lead written⟩

end Spellcraft
