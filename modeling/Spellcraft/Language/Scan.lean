import Spellcraft.Language.Problem
import Spellcraft.Language.Token

/-!
Reading a text into tokens. Between tokens stand gaps: blanks and comments. A token is the longest
word at its place; a character that begins no word is reported and skipped. Reading ends with the
text or with a full report, and always with an `eof` token.
-/

namespace Spellcraft

def isWordStart (c : Char) : Bool := c.isAlpha || c = '_' || c = '$'

def isWordPart (c : Char) : Bool := c.isAlphanum || c = '_' || c = '$'

def numberLength (cs : List Char) : Nat :=
  let whole := (cs.takeWhile Char.isDigit).length
  match cs.drop whole with
  | '.' :: tail =>
    let fraction := (tail.takeWhile Char.isDigit).length
    if fraction = 0 then whole else whole + 1 + fraction
  | _ => whole

def lexeme? : List Char → Option (Kind × Nat)
  | [] => none
  | c :: cs =>
    if c.isDigit then
      let n := numberLength (c :: cs)
      some (.number (Number.ofLiteral ((c :: cs).take n)), n)
    else if isWordStart c then
      let word := c :: cs.takeWhile isWordPart
      some (.ofWord (String.ofList word), word.length)
    else (Symbol.read? (c :: cs)).map fun s => (.symbol s, s.text.length)

theorem numberLength_pos {c : Char} {cs : List Char} (h : c.isDigit = true) :
    0 < numberLength (c :: cs) := by
  have : 0 < ((c :: cs).takeWhile Char.isDigit).length := by simp [List.takeWhile, h]
  unfold numberLength
  simp only
  split
  · split <;> omega
  · exact this

theorem Symbol.text_length_pos (s : Symbol) : 0 < s.text.length := by cases s <;> decide

theorem lexeme?_length_pos {cs : List Char} {kind : Kind} {n : Nat}
    (h : lexeme? cs = some (kind, n)) : 0 < n := by
  unfold lexeme? at h
  split at h
  · simp at h
  · split at h
    · simp only [Option.some.injEq, Prod.mk.injEq] at h
      exact h.2 ▸ numberLength_pos ‹_›
    · split at h
      · simp only [Option.some.injEq, Prod.mk.injEq] at h
        exact h.2 ▸ Nat.succ_pos _
      · obtain ⟨s, _, hs⟩ := Option.map_eq_some_iff.1 h
        simp only [Prod.mk.injEq] at hs
        exact hs.2 ▸ s.text_length_pos

structure Gap where
  length : Nat
  closed : Bool

def commentBody : List Char → Gap
  | [] => ⟨0, false⟩
  | '*' :: '/' :: _ => ⟨2, true⟩
  | _ :: cs => let g := commentBody cs; ⟨g.length + 1, g.closed⟩

def gap? : List Char → Option Gap
  | '/' :: '/' :: cs => some ⟨2 + (cs.takeWhile (· ≠ '\n')).length, true⟩
  | '/' :: '*' :: cs => let g := commentBody cs; some ⟨2 + g.length, g.closed⟩
  | c :: _ => if c = ' ' ∨ c = '\t' ∨ c = '\r' ∨ c = '\n' then some ⟨1, true⟩ else none
  | [] => none

theorem gap?_ne_nil {cs : List Char} {g : Gap} (h : gap? cs = some g) : cs ≠ [] := by
  rintro rfl
  simp [gap?] at h

theorem gap?_length_pos {cs : List Char} {g : Gap} (h : gap? cs = some g) : 0 < g.length := by
  unfold gap? at h
  split at h
  · obtain rfl := Option.some.inj h; simp only; omega
  · obtain rfl := Option.some.inj h; simp only; omega
  · split at h
    · obtain rfl := Option.some.inj h; exact Nat.one_pos
    · simp at h
  · simp at h

structure Scanner where
  rest : List Char
  place : Place
  report : Report Diagnostic

namespace Scanner

def ofText (source : String) : Scanner := ⟨source.toList, .origin, .empty⟩

def skip (s : Scanner) (n : Nat) : Scanner :=
  { s with rest := s.rest.drop n, place := s.place.after (s.rest.take n) }

def spanFrom (s : Scanner) (start : Place) : Span := ⟨start, s.place.back⟩

def complain (s : Scanner) (p : Problem) (start : Place) : Scanner :=
  { s with report := s.report.push (p.located (s.spanFrom start)) }

def eof (s : Scanner) : Token := ⟨.eof, .point s.place⟩

theorem skip_rest_lt {s : Scanner} {n : Nat} (hn : 0 < n) (hs : s.rest ≠ []) :
    (s.skip n).rest.length < s.rest.length := by
  have := List.length_pos_iff.2 hs
  simp only [skip, List.length_drop]
  omega

def skipGaps (s : Scanner) : Scanner :=
  match _h : gap? s.rest with
  | none => s
  | some g =>
    let t := s.skip g.length
    (if g.closed then t else t.complain .openComment s.place).skipGaps
termination_by s.rest.length
decreasing_by
  have := skip_rest_lt (gap?_length_pos _h) (gap?_ne_nil _h)
  split <;> exact this

def escape? : Char → Option Char
  | 'n' => some '\n'
  | 't' => some '\t'
  | 'r' => some '\r'
  | '0' => some '\x00'
  | '"' => some '"'
  | '\'' => some '\''
  | '\\' => some '\\'
  | _ => none

/-- Reads the text after an opening quote. It may not run past the end of its line, except through
an escaped newline. -/
def text (quote : Char) (start : Place) :
    List Char → Place → Report Diagnostic → List Char → String × Scanner
  | [], p, report, read =>
    (String.ofList read.reverse, complain ⟨[], p, report⟩ (.openText quote) start)
  | ['\\'], p, report, read =>
    let s := complain ⟨[], p.next '\\', report⟩ .cutEscape p
    (String.ofList read.reverse, s.complain (.openText quote) start)
  | '\\' :: c :: cs, p, report, read =>
    let q := (p.next '\\').next c
    match escape? c with
    | some d => text quote start cs q report (d :: read)
    | none =>
      let s := complain ⟨cs, q, report⟩ (.strangeEscape c) p
      text quote start cs q s.report (c :: read)
  | c :: cs, p, report, read =>
    if c = '\n' then
      (String.ofList read.reverse, complain ⟨c :: cs, p, report⟩ (.openText quote) start)
    else if c = quote then (String.ofList read.reverse, ⟨cs, p.next c, report⟩)
    else text quote start cs (p.next c) report (c :: read)

theorem text_rest_le (quote : Char) (start : Place) (cs : List Char) (p : Place)
    (report : Report Diagnostic) (read : List Char) :
    (text quote start cs p report read).2.rest.length ≤ cs.length := by
  fun_induction text quote start cs p report read with
  | case1 | case2 => exact Nat.zero_le _
  | case3 | case4 => simp only [List.length_cons]; omega
  | case5 => exact Nat.le_refl _
  | case6 => exact Nat.le_succ _
  | case7 => simp only [List.length_cons]; omega

def stray (c : Char) (cs : List Char) : Problem × Nat :=
  if c = '\x60' then
    let inner := (cs.takeWhile (· ≠ '\x60')).length
    (.templateText, if inner < cs.length then inner + 1 else inner)
  else if c = '&' ∨ c = '|' then (.halfOperator c, 0)
  else (.strangeCharacter c, 0)

theorem skipGaps_rest_le (s : Scanner) : s.skipGaps.rest.length ≤ s.rest.length := by
  fun_induction skipGaps s with
  | case1 => exact Nat.le_refl _
  | case2 s g h t ih =>
    have := skip_rest_lt (gap?_length_pos h) (gap?_ne_nil h)
    refine Nat.le_trans ih (Nat.le_of_lt ?_)
    split <;> exact this

def token (s : Scanner) : Token × Scanner :=
  let t := s.skipGaps
  if t.report.isFull then (t.eof, t)
  else match _h : t.rest with
    | [] => (t.eof, t)
    | c :: cs =>
      if c = '"' ∨ c = '\'' then
        let (read, u) := text c t.place cs (t.place.next c) t.report []
        (⟨.text read, u.spanFrom t.place⟩, u)
      else match lexeme? (c :: cs) with
        | some (kind, n) =>
          let u := t.skip n
          (⟨kind, u.spanFrom t.place⟩, u)
        | none =>
          let (problem, n) := stray c cs
          ((t.skip (n + 1)).complain problem t.place).token
termination_by s.rest.length
decreasing_by
  exact Nat.lt_of_lt_of_le (skip_rest_lt (Nat.succ_pos _) (by simp [t, _h])) (skipGaps_rest_le s)

theorem token_rest_lt (s : Scanner) (h : s.token.1.kind.isEof = false) :
    s.token.2.rest.length < s.rest.length := by
  fun_induction token s with
  | case1 => simp [eof, Kind.isEof] at h
  | case2 => simp [eof, Kind.isEof] at h
  | case3 s t hfull c cs hrest hc read u hu =>
    have hle := skipGaps_rest_le s
    have hread := text_rest_le c t.place cs (t.place.next c) t.report []
    rw [hu] at hread
    have hlen : s.skipGaps.rest.length = cs.length + 1 := congrArg List.length hrest
    change u.rest.length < s.rest.length
    change u.rest.length ≤ cs.length at hread
    omega
  | case4 s t hfull c cs hrest hc kind n hn u =>
    exact Nat.lt_of_lt_of_le (skip_rest_lt (lexeme?_length_pos hn) (by rw [hrest]; simp))
      (skipGaps_rest_le s)
  | case5 s t hfull c cs hrest hc hn problem n hp ih =>
    exact Nat.lt_trans (ih h) (Nat.lt_of_lt_of_le (skip_rest_lt (Nat.succ_pos _) (by rw [hrest]; simp))
      (skipGaps_rest_le s))

def tokens (s : Scanner) : List Token × Report Diagnostic :=
  if s.report.isFull then ([s.eof], s.report)
  else match _h : s.token with
    | (t, u) =>
      if _hk : t.kind.isEof then ([t], u.report)
      else
        let (ts, report) := u.tokens
        (t :: ts, report)
termination_by s.rest.length
decreasing_by
  have := token_rest_lt s (by rw [_h]; simpa using _hk)
  rwa [_h] at this

end Scanner

def scan (source : String) : List Token × Report Diagnostic := (Scanner.ofText source).tokens

end Spellcraft
