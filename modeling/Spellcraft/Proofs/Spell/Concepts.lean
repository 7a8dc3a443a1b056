import Spellcraft.Proofs.Language.CallsStmt
import Spellcraft.Proofs.Language.Tiling
import Spellcraft.Spell.Compile

namespace Spellcraft

theorem Spell.parse_eq_ok (h : Spell.parse source = .ok p) : (scan source).2.isClean = true ∧
    (parseTokens (scan source).1).2.isClean = true ∧ (parseTokens (scan source).1).1 = p := by
  simp only [Spell.parse] at h
  split at h
  · next clean =>
    obtain ⟨words, form⟩ := Report.isClean_of_extend clean
    exact ⟨words, form, Except.ok.inj h⟩
  · cases h

/-- Whether a statement is of the sort that the keyword stands for. -/
def Stmt.uses (s : Stmt) : Keyword → Bool
  | .if_ => (s matches .branch ..)
  | .else_ => (s matches .branch _ _ _ (some _))
  | .while_ => (s matches .while_ .. | .doWhile ..)
  | .do_ => (s matches .doWhile ..)
  | .for_ => (s matches .for_ ..)
  | .function => (s matches .function ..)
  | .return_ => (s matches .return_ ..)
  | .break_ => (s matches .break_ _)
  | .continue_ => (s matches .continue_ _)
  | .let_ => s.declarations.any (·.kind = .let_)
  | .const => s.declarations.any (·.kind = .const)
  | .var => s.declarations.any (·.kind = .var)
  | .in_ | .true_ | .false_ | .null => false

theorem DeclKind.keyword_eq {d : DeclKind} {w : Keyword} : w = d.keyword ↔
    (w = .let_ ∧ d = .let_) ∨ (w = .const ∧ d = .const) ∨ (w = .var ∧ d = .var) := by
  cases d <;> simp [keyword]

theorem Stmt.mem_words (s : Stmt) (w : Keyword) : .keyword w ∈ s.words ↔ s.uses w = true := by
  cases s with
  | branch _ _ _ no => cases no <;> cases w <;> simp [words, uses, declarations]
  | declare => cases w <;> simp [words, uses, declarations, Declaration.words, DeclKind.keyword_eq]
  | for_ => cases w <;> simp [words, uses, declarations, Declaration.words, DeclKind.keyword_eq]
  | _ => cases w <;> simp [words, uses, declarations]

theorem DeclKind.cases (k : DeclKind) : k = .let_ ∨ k = .const ∨ k = .var := by
  cases k <;> simp

theorem Stmt.uses_declaration {s : Stmt} :
    [Keyword.let_, .const, .var].any s.uses = true ↔ ∃ d, d ∈ s.declarations := by
  simp only [List.any_cons, List.any_nil, Bool.or_false, Bool.or_eq_true, uses, List.any_eq_true,
    decide_eq_true_eq, ← exists_or, ← and_or_left]
  simp only [DeclKind.cases, and_true]

namespace Usage

variable {ts us : List Token}

theorem hasAny_iff {ks : List Keyword} : (ofTokens ts).hasAny ks = true ↔
    ∃ w ∈ ks, .keyword w ∈ ts.map Token.kind := by
  have told (w : Keyword) : w ∈ (ofTokens ts).keywords ↔ .keyword w ∈ ts.map Token.kind := by
    simp only [ofTokens, List.mem_filterMap, List.mem_map]
    constructor
    · rintro ⟨t, ht, hw⟩
      refine ⟨t, ht, ?_⟩
      split at hw <;> cases hw
      assumption
    · rintro ⟨t, ht, hw⟩
      exact ⟨t, ht, by rw [hw]⟩
  simp only [hasAny, List.any_eq_true, decide_eq_true_eq, told]

theorem choice_iff : (ofTokens ts).choice = true ↔ .symbol .question ∈ ts.map Token.kind := by
  simp only [ofTokens, List.any_eq_true, List.mem_map]
  constructor
  · rintro ⟨t, ht, hk⟩
    exact ⟨t, ht, Kind.eq_of_isSymbol hk⟩
  · rintro ⟨t, ht, hk⟩
    exact ⟨t, ht, hk ▸ rfl⟩

theorem calledNames_eof (us : List Token) (span : Span) :
    calledNames (us ++ [⟨.eof, span⟩]) = calledNames us := by
  induction us with
  | nil => rfl
  | cons t us ih =>
    obtain ⟨k, here⟩ := t
    cases hk : k.isName with
    | false => rw [List.cons_append, calledNames_cons hk, calledNames_cons hk, ih]
    | true =>
      obtain ⟨n, rfl⟩ : ∃ n, k = .name n := by cases k <;> simp_all [Kind.isName]
      have next : ((us ++ [(⟨.eof, span⟩ : Token)]).head?.map Token.kind).getD .eof =
          (us.head?.map Token.kind).getD .eof := by cases us <;> rfl
      rw [List.cons_append, calledNames_name, calledNames_name, next, ih]

end Usage

theorem exists_scanned {source : String} (clean : (scan source).2.isClean = true) : ∃ span,
    (scan source).1 = (Stream.ofTokens (scan source).1).rest ++ [⟨.eof, span⟩] := by
  obtain ⟨us, hus, inner⟩ := (tiled_of_isClean clean).exists_eof
  have rest : (Stream.ofTokens (scan source).1).rest = us := by
    rw [hus, Stream.ofTokens, List.takeWhile_append_of_pos fun u hu => by simp [inner u hu]]
    simp [Kind.isEof]
  rw [rest]
  exact ⟨_, hus⟩

namespace Spell

variable {source : String} {p : Program}

theorem mem_kinds (h : parse source = .ok p) {k : Kind} (hk : k.isWord = true) :
    k ∈ (scan source).1.map Token.kind ↔
      (∃ s ∈ p.statements, k ∈ s.words) ∨ ∃ e ∈ p.expressions, k ∈ e.words := by
  obtain ⟨words, form, rfl⟩ := parse_eq_ok h
  obtain ⟨span, scanned⟩ := exists_scanned words
  have kinds := congrArg (List.map Token.kind) scanned
  have ending : k ≠ .eof := by
    rintro rfl
    cases hk
  have read := (parseTokens_reads form).1
  calc k ∈ (scan source).1.map Token.kind
    _ ↔ k ∈ (Stream.ofTokens (scan source).1).kinds := by
      rw [kinds]
      simp [Stream.kinds, ending]
    _ ↔ k ∈ (parseTokens (scan source).1).1.writing := by
      rw [← mem_skeleton hk, read, mem_skeleton hk]
    _ ↔ _ := Program.mem_writing hk _

theorem mem_keywords (h : parse source = .ok p) {w : Keyword} (hw : w ∈ Usage.conceptWords) :
    .keyword w ∈ (scan source).1.map Token.kind ↔ ∃ s ∈ p.statements, s.uses w = true := by
  have apart : ∀ w ∈ Usage.conceptWords, w ≠ .true_ ∧ w ≠ .false_ ∧ w ≠ .null := by decide
  obtain ⟨yes, no, null⟩ := apart w hw
  have none (e : Expr) : ¬.keyword w ∈ e.words := by
    cases e with
    | bool _ b => cases b <;> simp [Expr.words, yes, no]
    | _ => simp [Expr.words, null]
  rw [mem_kinds h (by rfl)]
  simp only [none, and_false, exists_false, or_false, Stmt.mem_words]

theorem mem_question (h : parse source = .ok p) :
    .symbol .question ∈ (scan source).1.map Token.kind ↔
      ∃ span c a b, .conditional span c a b ∈ p.expressions := by
  have none (s : Stmt) : ¬.symbol .question ∈ s.words := by
    cases s <;> simp [Stmt.words, Declaration.words]
  have only (e : Expr) :
      .symbol .question ∈ e.words ↔ ∃ span c a b, e = .conditional span c a b := by
    cases e <;> simp [Expr.words]
  rw [mem_kinds h (by rfl)]
  simp only [none, and_false, exists_false, false_or, only]
  constructor
  · rintro ⟨_, he, span, c, a, b, rfl⟩
    exact ⟨span, c, a, b, he⟩
  · rintro ⟨span, c, a, b, he⟩
    exact ⟨_, he, span, c, a, b, rfl⟩

theorem calls_of_parse (h : parse source = .ok p) :
    (∀ n, (∃ span here args, .call span (.name here n) args ∈ p.expressions) →
      n ∈ Usage.calledNames (scan source).1) ∧
    ∀ n ∈ Usage.calledNames (scan source).1,
      (∃ span here args, .call span (.name here n) args ∈ p.expressions) ∨
      (∃ span name params bodySpan body,
        .function span name params bodySpan body ∈ p.statements ∧ name.name = n) ∨
      ∃ d ∈ p.declarations, ∃ v ∈ d.declarators, v.name.name = n ∧ v.init = none := by
  obtain ⟨words, form, rfl⟩ := parse_eq_ok h
  obtain ⟨span, scanned⟩ := exists_scanned words
  have called : (Stream.ofTokens (scan source).1).called = Usage.calledNames (scan source).1 := by
    rw [congrArg Usage.calledNames scanned, Usage.calledNames_eof]
    rfl
  obtain ⟨calls, only⟩ := parseTokens_names form
  rw [called] at calls only
  simp only [Program.mem_mentions] at calls only
  refine ⟨fun n hn => calls n (.inr ?_), fun n hn => ?_⟩
  · obtain ⟨span, here, args, he⟩ := hn
    exact ⟨_, he, Expr.call_mem_mention.2 ⟨span, here, args, rfl⟩⟩
  · rcases only n hn with (⟨s, -, hs⟩ | ⟨e, he, hc⟩) | (⟨s, hs, hd⟩ | ⟨e, -, he⟩)
    · exact absurd hs s.call_not_mem_mention
    · obtain ⟨span, here, args, rfl⟩ := Expr.call_mem_mention.1 hc
      exact .inl ⟨span, here, args, he⟩
    · rcases Stmt.declared_mem_mention.1 hd with
        ⟨span, name, params, bodySpan, body, rfl, hn⟩ | ⟨d, hd, hv⟩
      · exact .inr (.inl ⟨span, name, params, bodySpan, body, hs, hn⟩)
      · exact .inr (.inr ⟨d, List.mem_flatMap.2 ⟨s, hs, hd⟩, hv⟩)
    · exact absurd he e.declared_not_mem_mention

def shows (source concept : String) : Bool := (Usage.ofTokens (scan source).1).meets concept

theorem shows_text {w : Keyword} (hw : w ∈ Usage.conceptWords) :
    shows source w.text = true ↔ .keyword w ∈ (scan source).1.map Token.kind := by
  have found : ∀ w ∈ Usage.conceptWords, w.text ≠ "loop" ∧ w.text ≠ "conditional" ∧
      w.text ≠ "variable" ∧ Usage.conceptWords.find? (fun k => k.text = w.text) = some w := by
    decide
  obtain ⟨loop, conditional, variable_, found⟩ := found w hw
  rw [shows, Usage.meets, if_neg loop, if_neg conditional, if_neg variable_, found]
  exact Usage.hasAny_iff.trans (by simp only [List.mem_singleton, exists_eq_left])

theorem hasAny_uses (h : parse source = .ok p) {ks : List Keyword}
    (hks : ∀ w ∈ ks, w ∈ Usage.conceptWords) :
    (Usage.ofTokens (scan source).1).hasAny ks = true ↔
      ∃ s ∈ p.statements, ks.any s.uses = true := by
  simp only [Usage.hasAny_iff, List.any_eq_true]
  constructor
  · rintro ⟨w, hw, told⟩
    obtain ⟨s, hs, uses⟩ := (mem_keywords h (hks w hw)).1 told
    exact ⟨s, hs, w, hw, uses⟩
  · rintro ⟨s, hs, w, hw, uses⟩
    exact ⟨w, hw, (mem_keywords h (hks w hw)).2 ⟨s, hs, uses⟩⟩

theorem shows_loop : shows source "loop" =
    (Usage.ofTokens (scan source).1).hasAny [.while_, .for_, .do_] := by
  rw [shows, Usage.meets, if_pos rfl]

theorem shows_conditional : shows source "conditional" =
    ((Usage.ofTokens (scan source).1).hasAny [.if_] ||
      (Usage.ofTokens (scan source).1).choice) := by
  rw [shows, Usage.meets, if_neg (by decide), if_pos rfl]

theorem shows_variable : shows source "variable" =
    (Usage.ofTokens (scan source).1).hasAny [.let_, .const, .var] := by
  rw [shows, Usage.meets, if_neg (by decide), if_neg (by decide), if_pos rfl]

theorem shows_other (other : concept ∉ ["loop", "conditional", "variable"])
    (word : ∀ w ∈ Usage.conceptWords, w.text ≠ concept) :
    shows source concept = true ↔ concept ∈ Usage.calledNames (scan source).1 := by
  simp only [List.mem_cons, List.not_mem_nil, or_false, not_or] at other
  have none : Usage.conceptWords.find? (fun k => k.text = concept) = none :=
    List.find?_eq_none.2 fun w hw => by simpa using word w hw
  rw [shows, Usage.meets, if_neg other.1, if_neg other.2.1, if_neg other.2.2, none]
  simp [Usage.ofTokens]

/-- In a text that is read without a complaint the words show the concepts of its tree. A name of
no other meaning is shown by every call of it; where it is not called it is shown at most where a
function is declared under it, or a variable without a value. -/
theorem shows_of_parse (h : parse source = .ok p) :
    (∀ required, missingConcepts source required = required.filter (!shows source ·)) ∧
    (∀ w ∈ Usage.conceptWords, shows source w.text = true ↔
      ∃ s ∈ p.statements, s.uses w = true) ∧
    (shows source "loop" = true ↔
      ∃ s ∈ p.statements, (s.uses .while_ || s.uses .do_ || s.uses .for_) = true) ∧
    (shows source "conditional" = true ↔ (∃ s ∈ p.statements, s.uses .if_ = true) ∨
      ∃ span c a b, .conditional span c a b ∈ p.expressions) ∧
    (shows source "variable" = true ↔ p.declarations ≠ []) ∧
    ∀ n, n ∉ ["loop", "conditional", "variable"] → (∀ w ∈ Usage.conceptWords, w.text ≠ n) →
      ((∃ span here args, .call span (.name here n) args ∈ p.expressions) →
        shows source n = true) ∧
      (shows source n = true →
        (∃ span here args, .call span (.name here n) args ∈ p.expressions) ∨
        (∃ span name params bodySpan body,
          .function span name params bodySpan body ∈ p.statements ∧ name.name = n) ∨
        ∃ d ∈ p.declarations, ∃ v ∈ d.declarators, v.name.name = n ∧ v.init = none) := by
  refine ⟨fun _ => rfl, fun w hw => (shows_text hw).trans (mem_keywords h hw), ?_, ?_, ?_, ?_⟩
  · rw [shows_loop, hasAny_uses h (by decide)]
    simp only [List.any_cons, List.any_nil, Bool.or_false, Bool.or_comm (Stmt.uses _ .for_),
      Bool.or_assoc]
  · rw [shows_conditional, Bool.or_eq_true, hasAny_uses h (by decide), Usage.choice_iff,
      mem_question h]
    simp
  · rw [shows_variable, hasAny_uses h (by decide)]
    simp only [Stmt.uses_declaration]
    constructor
    · rintro ⟨s, hs, d, hd⟩
      exact List.ne_nil_of_mem (List.mem_flatMap.2 ⟨s, hs, hd⟩)
    · intro some
      obtain ⟨d, hd⟩ := List.exists_mem_of_ne_nil _ some
      obtain ⟨s, hs, hd⟩ := List.mem_flatMap.1 hd
      exact ⟨s, hs, d, hd⟩
  · intro n other word
    obtain ⟨calls, only⟩ := calls_of_parse h
    rw [shows_other other word]
    exact ⟨calls n, only n⟩

def unset : String := "if (up()) move(); else var x\n(true ? up : x)"

theorem shows_of_parse_unset : ∃ p, parse unset = .ok p ∧
    missingConcepts unset ["loop", "x", "else", "loop"] = ["loop", "loop"] ∧
    (∃ s ∈ p.statements, s.uses .else_ = true) ∧ p.declarations ≠ [] := by
  have parsed : (parse unset).toOption.isSome = true := by decide +kernel
  have missing : missingConcepts unset ["loop", "x", "else", "loop"] = ["loop", "loop"] := by
    decide +kernel
  have shown : shows unset Keyword.else_.text = true ∧ shows unset "variable" = true := by
    decide +kernel
  rcases h : parse unset with e | p
  · rw [h] at parsed
    cases parsed
  · obtain ⟨-, words, -, -, declared, -⟩ := shows_of_parse h
    exact ⟨p, rfl, missing, (words .else_ (by decide)).1 shown.1, declared.1 shown.2⟩

end Spell

end Spellcraft
