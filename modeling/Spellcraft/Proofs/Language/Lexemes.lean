import Spellcraft.Language.Scan

namespace Spellcraft

def isQuote (c : Char) : Bool := c = '"' || c = '\''

def isSpace (c : Char) : Bool := c = ' ' || c = '\t' || c = '\r' || c = '\n'

inductive Numeral : List Char → Prop
  | whole : ds ≠ [] → (∀ d ∈ ds, d.isDigit = true) → Numeral ds
  | decimal : ds ≠ [] → (∀ d ∈ ds, d.isDigit = true) → es ≠ [] → (∀ e ∈ es, e.isDigit = true) →
    Numeral (ds ++ '.' :: es)

inductive Quoted (quote : Char) : List Char → List Char → Prop
  | nil : Quoted quote [] []
  | plain : c ≠ quote → c ≠ '\\' → c ≠ '\n' → Quoted quote cs ds → Quoted quote (c :: cs) (c :: ds)
  | escape : Scanner.escape? c = some d → Quoted quote cs ds →
    Quoted quote ('\\' :: c :: cs) (d :: ds)

inductive Lexeme : Kind → List Char → Prop
  | number : Numeral cs → Lexeme (.number (Number.ofLiteral cs)) cs
  | word : isWordStart c = true → (∀ d ∈ cs, isWordPart d = true) →
    Lexeme (.ofWord (String.ofList (c :: cs))) (c :: cs)
  | symbol (s : Symbol) : Lexeme (.symbol s) s.text.toList
  | text : isQuote q = true → Quoted q cs ds → Lexeme (.text (String.ofList ds)) (q :: (cs ++ [q]))

/-- No lexeme at the place of `w` is longer. -/
def Longest (w rest : List Char) : Prop := ∀ k v, Lexeme k v → v <+: w ++ rest → v.length ≤ w.length

theorem isWordPart_of_isDigit {c : Char} (h : c.isDigit = true) : isWordPart c = true := by
  simp [isWordPart, Char.isAlphanum, h]

theorem isWordPart_of_isWordStart {c : Char} (h : isWordStart c = true) : isWordPart c = true := by
  simp only [isWordStart, isWordPart, Char.isAlphanum, Bool.or_eq_true] at *
  exact h.imp_left (Or.imp_left Or.inl)

theorem isWordStart_of_isDigit {c : Char} (h : c.isDigit = true) : isWordStart c = false := by
  have bounds : 48 ≤ c.val.toNat ∧ c.val.toNat ≤ 57 := by
    simp only [Char.isDigit, Bool.and_eq_true, decide_eq_true_eq, ge_iff_le,
      UInt32.le_iff_toNat_le] at h
    exact h
  rw [Bool.eq_false_iff]
  intro hw
  simp only [isWordStart, Bool.or_eq_true, decide_eq_true_eq] at hw
  rcases hw with (letter | rfl) | rfl
  · rcases Bool.or_eq_true_iff.1 letter with upper | lower
    · have upper : 65 ≤ c.val.toNat := UInt32.le_iff_toNat_le.1 (of_decide_eq_true upper).1
      omega
    · have lower : 97 ≤ c.val.toNat :=
        UInt32.le_iff_toNat_le.1 (of_decide_eq_true (Bool.and_eq_true_iff.1 lower).1)
      omega
  · exact absurd bounds (by decide)
  · exact absurd bounds (by decide)

theorem isQuote_of_isWordPart {c : Char} (h : isWordPart c = true) : isQuote c = false := by
  rw [Bool.eq_false_iff]
  intro hq
  simp only [isQuote, Bool.or_eq_true, decide_eq_true_eq] at hq
  rcases hq with rfl | rfl <;> exact absurd h (by decide)

theorem isSpace_of_isWordPart {c : Char} (h : isWordPart c = true) : isSpace c = false := by
  rw [Bool.eq_false_iff]
  intro hs
  simp only [isSpace, Bool.or_eq_true, decide_eq_true_eq] at hs
  rcases hs with ((rfl | rfl) | rfl) | rfl <;> exact absurd h (by decide)

theorem Symbol.apart (s : Symbol) : ∀ c ∈ s.text.toList,
    isWordPart c = false ∧ isQuote c = false ∧ isSpace c = false := by
  have all : (s.text.toList.all fun c => !isWordPart c && !isQuote c && !isSpace c) = true := by
    cases s <;> decide
  simpa only [List.all_eq_true, Bool.and_eq_true, Bool.not_eq_true', and_assoc] using all

section

variable {p : Char → Bool} {c : Char} {cs v : List Char}

theorem mem_takeWhile (h : c ∈ cs.takeWhile p) : p c = true :=
  List.all_eq_true.1 List.all_takeWhile c h

theorem length_le_takeWhile (h : ∀ c ∈ v, p c = true) (hv : v <+: cs) :
    v.length ≤ (cs.takeWhile p).length := by
  obtain ⟨t, rfl⟩ := hv
  rw [List.takeWhile_append_of_pos h, List.length_append]
  exact Nat.le_add_right _ _

theorem takeWhile_append_drop (p : Char → Bool) (cs : List Char) :
    cs.takeWhile p ++ cs.drop (cs.takeWhile p).length = cs := by
  have taken := List.prefix_iff_eq_take.1 (List.takeWhile_prefix (l := cs) p)
  have whole := List.take_append_drop (cs.takeWhile p).length cs
  rwa [← taken] at whole

theorem Numeral.length_le (h : Numeral v) (hv : v <+: cs) : v.length ≤ numberLength cs := by
  unfold numberLength
  cases h with
  | whole _ digits =>
    have := length_le_takeWhile digits hv
    dsimp only
    split
    · split <;> omega
    · exact this
  | @decimal ds es _ digits hne fraction =>
    obtain ⟨t, rfl⟩ := hv
    have whole : ((ds ++ '.' :: es) ++ t).takeWhile Char.isDigit = ds := by
      rw [List.append_assoc, List.takeWhile_append_of_pos digits]
      simp
    have after : ((ds ++ '.' :: es) ++ t).drop ds.length = '.' :: (es ++ t) := by simp
    have := length_le_takeWhile fraction (List.prefix_append es t)
    have := List.length_pos_iff.2 hne
    simp only [whole, after]
    rw [if_neg (by omega)]
    simp only [List.length_append, List.length_cons]
    omega

theorem exists_numeral (h : c.isDigit = true) (cs : List Char) :
    ∃ v rest, c :: cs = v ++ rest ∧ Numeral v ∧ numberLength (c :: cs) = v.length := by
  have digits : ∀ d ∈ (c :: cs).takeWhile Char.isDigit, d.isDigit = true := fun _ => mem_takeWhile
  have hne : (c :: cs).takeWhile Char.isDigit ≠ [] := by simp [h]
  have apart := takeWhile_append_drop Char.isDigit (c :: cs)
  unfold numberLength
  dsimp only
  split
  · next tail htail =>
    split
    · exact ⟨_, _, apart.symm, .whole hne digits, rfl⟩
    · next hpos =>
      rw [htail] at apart
      refine ⟨(c :: cs).takeWhile Char.isDigit ++ '.' :: tail.takeWhile Char.isDigit,
        tail.drop (tail.takeWhile Char.isDigit).length, ?_,
        .decimal hne digits ?_ fun _ => mem_takeWhile, ?_⟩
      · rw [List.append_assoc, List.cons_append, takeWhile_append_drop, apart]
      · exact fun hnil => hpos (by rw [hnil]; rfl)
      · rw [List.length_append, List.length_cons]
        omega
  · exact ⟨_, _, apart.symm, .whole hne digits, rfl⟩

end

namespace Symbol

theorem all_sorted : all.Pairwise fun s t => t.text.length ≤ s.text.length := by decide

theorem eq_of_text (h : text s = text t) : s = t := by
  have find (s : Symbol) : all.find? (fun t => t.text = s.text) = some s := by cases s <;> decide
  have := find s
  rw [h, find t] at this
  exact (Option.some.inj this).symm

theorem length_le (h : read? cs = some s) {t : Symbol} (ht : t.text.toList <+: cs) :
    t.text.length ≤ s.text.length := by
  obtain ⟨-, before, after, hall, earlier⟩ := List.find?_eq_some_iff_append.1 h
  have hmem := t.mem_all
  have sorted := all_sorted
  rw [hall] at hmem sorted
  rcases List.mem_append.1 hmem with hb | hb
  · -- an earlier one would have been found
    have missed := earlier t hb
    rw [List.isPrefixOf_iff_prefix.2 ht] at missed
    cases missed
  · rcases List.mem_cons.1 hb with rfl | ha
    · exact Nat.le_refl _
    · exact List.rel_of_pairwise_cons (List.pairwise_append.1 sorted).2.1 ha

theorem isPrefix_of_read (h : read? cs = some s) : s.text.toList <+: cs :=
  List.isPrefixOf_iff_prefix.1 (List.find?_eq_some_iff_append.1 h).1

theorem exists_read {t : Symbol} (ht : t.text.toList <+: cs) : ∃ s, read? cs = some s := by
  rw [← Option.isSome_iff_exists, read?, List.find?_isSome]
  exact ⟨t, t.mem_all, List.isPrefixOf_iff_prefix.2 ht⟩

end Symbol

theorem Numeral.head (h : Numeral cs) : ∃ c tail, cs = c :: tail ∧ c.isDigit = true := by
  cases h with
  | whole hne digits =>
    obtain ⟨c, tail, rfl⟩ := List.exists_cons_of_ne_nil hne
    exact ⟨c, tail, rfl, digits c List.mem_cons_self⟩
  | decimal hne digits =>
    obtain ⟨c, tail, rfl⟩ := List.exists_cons_of_ne_nil hne
    exact ⟨c, _, rfl, digits c List.mem_cons_self⟩

theorem Symbol.text_ne_nil (s : Symbol) : s.text.toList ≠ [] := by cases s <;> decide

namespace Lexeme

theorem ne_nil (h : Lexeme k w) : w ≠ [] := by
  cases h with
  | number h =>
    obtain ⟨c, tail, rfl, -⟩ := h.head
    exact List.cons_ne_nil c tail
  | word | text => exact List.cons_ne_nil _ _
  | symbol s => exact s.text_ne_nil

-- The first character says of which sort a lexeme is.

variable {c : Char} {v : List Char}

theorem numeral (h : Lexeme k (c :: v)) (hc : c.isDigit = true) : Numeral (c :: v) := by
  have part := isWordPart_of_isDigit hc
  generalize hw : c :: v = w at h
  cases h with
  | number h => exact h
  | word start =>
    cases hw
    rw [isWordStart_of_isDigit hc] at start
    cases start
  | symbol s =>
    have := (s.apart c (hw ▸ List.mem_cons_self)).1
    rw [part] at this
    cases this
  | text quote =>
    cases hw
    rw [isQuote_of_isWordPart part] at quote
    cases quote

theorem isWord (h : Lexeme k (c :: v)) (hc : isWordStart c = true) :
    ∀ d ∈ v, isWordPart d = true := by
  have part := isWordPart_of_isWordStart hc
  generalize hw : c :: v = w at h
  cases h with
  | number h =>
    obtain ⟨d, tail, rfl, digit⟩ := h.head
    cases hw
    rw [isWordStart_of_isDigit digit] at hc
    cases hc
  | word _ parts =>
    cases hw
    exact parts
  | symbol s =>
    have := (s.apart c (hw ▸ List.mem_cons_self)).1
    rw [part] at this
    cases this
  | text quote =>
    cases hw
    rw [isQuote_of_isWordPart part] at quote
    cases quote

theorem isSymbol (h : Lexeme k (c :: v)) (digit : c.isDigit = false) (start : isWordStart c = false)
    (quote : isQuote c = false) : ∃ s : Symbol, c :: v = s.text.toList := by
  generalize hw : c :: v = w at h
  cases h with
  | number h =>
    obtain ⟨d, tail, rfl, hd⟩ := h.head
    cases hw
    rw [digit] at hd
    cases hd
  | word hd =>
    cases hw
    rw [start] at hd
    cases hd
  | symbol s => exact ⟨s, rfl⟩
  | text hq =>
    cases hw
    rw [quote] at hq
    cases hq

theorem isText (h : Lexeme k (c :: v)) (hc : isQuote c = true) :
    ∃ cs ds, v = cs ++ [c] ∧ Quoted c cs ds ∧ k = .text (String.ofList ds) := by
  generalize hw : c :: v = w at h
  cases h with
  | number h =>
    obtain ⟨d, tail, rfl, digit⟩ := h.head
    cases hw
    rw [isQuote_of_isWordPart (isWordPart_of_isDigit digit)] at hc
    cases hc
  | word start =>
    cases hw
    rw [isQuote_of_isWordPart (isWordPart_of_isWordStart start)] at hc
    cases hc
  | symbol s =>
    have := (s.apart c (hw ▸ List.mem_cons_self)).2.1
    rw [hc] at this
    cases this
  | @text q cs ds _ quoted =>
    cases hw
    exact ⟨cs, ds, rfl, quoted, rfl⟩

end Lexeme

theorem lexeme?_eq_some (h : lexeme? cs = some (k, n)) :
    ∃ w rest, cs = w ++ rest ∧ n = w.length ∧ Lexeme k w ∧ Longest w rest := by
  unfold lexeme? at h
  split at h
  · cases h
  next c cs =>
  split at h
  · next digit =>
    cases h
    obtain ⟨w, rest, hcs, numeral, length⟩ := exists_numeral digit cs
    rw [length, hcs, List.take_left]
    refine ⟨w, rest, rfl, rfl, .number numeral, fun j v hv hp => ?_⟩
    rw [← length, hcs]
    rw [← hcs] at hp
    cases v with
    | nil => exact Nat.zero_le _
    | cons d v =>
      obtain rfl := (List.cons_prefix_cons.1 hp).1
      exact (hv.numeral digit).length_le (hcs ▸ hp)
  split at h
  · next start =>
    cases h
    refine ⟨c :: cs.takeWhile isWordPart, cs.drop (cs.takeWhile isWordPart).length, ?_, rfl,
      .word start fun _ => mem_takeWhile, fun j v hv hp => ?_⟩
    · rw [List.cons_append, takeWhile_append_drop]
    · rw [List.cons_append, takeWhile_append_drop] at hp
      cases v with
      | nil => exact Nat.zero_le _
      | cons d v =>
        obtain ⟨rfl, behind⟩ := List.cons_prefix_cons.1 hp
        exact Nat.succ_le_succ (length_le_takeWhile (hv.isWord start) behind)
  · next digit start =>
    obtain ⟨s, read, hs⟩ := Option.map_eq_some_iff.1 h
    cases hs
    obtain ⟨rest, hrest⟩ := Symbol.isPrefix_of_read read
    have length : s.text.length = s.text.toList.length := rfl
    refine ⟨s.text.toList, rest, hrest.symm, rfl, .symbol s, fun j v hv hp => ?_⟩
    rw [hrest] at hp
    cases v with
    | nil => exact Nat.zero_le _
    | cons d v =>
      obtain rfl := (List.cons_prefix_cons.1 hp).1
      have hd : d ∈ s.text.toList := by
        obtain ⟨e, tail, he⟩ := List.exists_cons_of_ne_nil s.text_ne_nil
        rw [he, List.cons_append] at hrest
        rw [he, (List.cons.inj hrest).1]
        exact List.mem_cons_self
      obtain ⟨t, ht⟩ := hv.isSymbol (Bool.eq_false_iff.2 digit) (Bool.eq_false_iff.2 start)
        (s.apart d hd).2.1
      rw [ht] at hp ⊢
      exact Symbol.length_le read hp

theorem lexeme?_append (h : Lexeme k w) (plain : ∀ c ∈ w.head?, isQuote c = false)
    (longest : Longest w rest) : lexeme? (w ++ rest) = some (k, w.length) := by
  cases h with
  | number numeral =>
    obtain ⟨c, tail, rfl, digit⟩ := numeral.head
    obtain ⟨v, rest', hcs, read, length⟩ := exists_numeral digit (tail ++ rest)
    have le := longest _ v (.number read) ⟨rest', hcs.symm⟩
    have ge := numeral.length_le (List.prefix_append _ rest)
    rw [List.cons_append] at ge ⊢
    rw [length] at ge
    have same : numberLength (c :: (tail ++ rest)) = (c :: tail).length := by omega
    rw [lexeme?, if_pos digit]
    dsimp only
    rw [same, ← List.cons_append, List.take_left]
  | @word c cs start parts =>
    have read : Lexeme _ (c :: (cs ++ rest).takeWhile isWordPart) :=
      .word start fun _ => mem_takeWhile
    have le := longest _ _ read (List.prefix_cons_inj _ |>.2 (List.takeWhile_prefix _))
    rw [List.takeWhile_append_of_pos parts] at le
    have none : rest.takeWhile isWordPart = [] := by
      apply List.eq_nil_of_length_eq_zero
      simp only [List.length_cons, List.length_append] at le
      omega
    have digit : c.isDigit = false := by
      rw [Bool.eq_false_iff]
      intro digit
      rw [isWordStart_of_isDigit digit] at start
      cases start
    rw [List.cons_append, lexeme?, if_neg (by simp [digit]), if_pos start,
      List.takeWhile_append_of_pos parts, none, List.append_nil]
  | symbol s =>
    obtain ⟨t, read⟩ := Symbol.exists_read (List.prefix_append s.text.toList rest)
    have prefixed := Symbol.isPrefix_of_read read
    have le := longest _ _ (.symbol t) prefixed
    have ge := Symbol.length_le read (List.prefix_append _ rest)
    obtain rfl : s = t := by
      apply Symbol.eq_of_text
      rw [← String.toList_inj]
      apply (List.prefix_of_prefix_length_le (List.prefix_append _ rest) prefixed ge).eq_of_length
      exact Nat.le_antisymm ge le
    obtain ⟨c, tail, hc⟩ := List.exists_cons_of_ne_nil s.text_ne_nil
    obtain ⟨part, -, -⟩ := s.apart c (hc ▸ List.mem_cons_self)
    have digit : ¬c.isDigit = true := fun h => by simp [isWordPart_of_isDigit h] at part
    have start : ¬isWordStart c = true := fun h => by simp [isWordPart_of_isWordStart h] at part
    rw [hc, List.cons_append] at read
    rw [hc, List.cons_append, lexeme?, if_neg digit, if_neg start, read, ← hc]
    rfl
  | @text q cs ds quote =>
    rw [plain q rfl] at quote
    cases quote

theorem isQuote_apart {q : Char} (h : isQuote q = true) : q ≠ '\\' ∧ q ≠ '\n' := by
  constructor <;> rintro rfl <;> exact absurd h (by decide)

namespace Scanner

theorem text_cons (hc : c ≠ '\\') (q : Char) (start : Place) (cs : List Char) (p : Place)
    (report : Report Diagnostic) (read : List Char) :
    text q start (c :: cs) p report read =
      if c = '\n' then
        (String.ofList read.reverse, complain ⟨c :: cs, p, report⟩ (.openText q) start)
      else if c = q then (String.ofList read.reverse, ⟨cs, p.next c, report⟩)
      else text q start cs (p.next c) report (c :: read) :=
  text.eq_4 q start p report read c cs (fun h => absurd h hc) fun _ _ h => absurd h hc

theorem text_quoted (h : Quoted q cs ds) (hq : isQuote q = true) (start : Place) (rest : List Char)
    (p : Place) (report : Report Diagnostic) (read : List Char) :
    text q start (cs ++ q :: rest) p report read =
      (String.ofList (read.reverse ++ ds), ⟨rest, p.after (cs ++ [q]), report⟩) := by
  induction h generalizing p read with
  | nil =>
    obtain ⟨slash, newline⟩ := isQuote_apart hq
    rw [List.nil_append, text_cons slash, if_neg newline, if_pos rfl, List.append_nil]
    rfl
  | plain quote slash newline _ ih =>
    rw [List.cons_append, text_cons slash, if_neg newline, if_neg quote, ih]
    simp
  | escape he _ ih =>
    rw [List.cons_append, List.cons_append, text, he]
    dsimp only
    rw [ih]
    simp

theorem total_complain (s : Scanner) (p : Problem) (start : Place) :
    (s.complain p start).report.total = s.report.total + 1 := rfl

theorem text_total_le (q : Char) (start : Place) (cs : List Char) (p : Place)
    (report : Report Diagnostic) (read : List Char) :
    report.total ≤ (text q start cs p report read).2.report.total := by
  fun_induction text q start cs p report read with
  | case1 | case5 => exact Nat.le_succ _
  | case2 => exact Nat.le_succ_of_le (Nat.le_succ _)
  | case3 _ _ _ _ _ _ _ _ ih | case7 _ _ _ _ _ _ _ _ _ ih => exact ih
  | case4 _ _ _ _ _ _ _ _ ih => exact Nat.le_of_succ_le ih
  | case6 => exact Nat.le_refl _

theorem exists_quoted (q : Char) (start : Place) (cs : List Char) (p : Place)
    (report : Report Diagnostic) (read : List Char)
    (quiet : (text q start cs p report read).2.report.total = report.total) :
    ∃ body ds rest, cs = body ++ q :: rest ∧ Quoted q body ds := by
  fun_induction text q start cs p report read with
  | case1 | case5 => exact absurd quiet (Nat.succ_ne_self _)
  | case2 => exact absurd quiet (Nat.ne_of_gt (Nat.lt_succ_of_lt (Nat.lt_succ_self _)))
  | case3 c cs p report read here d he ih =>
    obtain ⟨body, ds, rest, rfl, quoted⟩ := ih quiet
    exact ⟨_, _, rest, rfl, .escape he quoted⟩
  | case4 c cs p report read here he s =>
    exact absurd quiet (Nat.ne_of_gt (text_total_le q start cs here s.report (c :: read)))
  | case6 cs => exact ⟨[], [], cs, rfl, .nil⟩
  | case7 c cs p report read _ slash newline quote ih =>
    obtain ⟨body, ds, rest, rfl, quoted⟩ := ih quiet
    refine ⟨_, _, rest, rfl, .plain quote ?_ newline quoted⟩
    obtain ⟨d, tail, hd⟩ := List.exists_cons_of_ne_nil (List.append_ne_nil_of_right_ne_nil body
      (List.cons_ne_nil q rest))
    exact fun h => slash d tail h hd

end Scanner

theorem longest_text (hq : isQuote q = true) (h : Quoted q cs ds) (rest : List Char) :
    Longest (q :: (cs ++ [q])) rest := by
  intro k v hv hp
  cases v with
  | nil => exact Nat.zero_le _
  | cons c v =>
    rw [List.cons_append] at hp
    obtain ⟨rfl, t, ht⟩ := List.cons_prefix_cons.1 hp
    obtain ⟨cs', ds', rfl, h', -⟩ := hv.isText hq
    rw [List.append_assoc, List.append_assoc, List.singleton_append, List.singleton_append] at ht
    -- both readings of the one text leave the same behind
    have left := Scanner.text_quoted h' hq .origin t .origin .empty []
    rw [ht, Scanner.text_quoted h hq] at left
    obtain rfl : rest = t := congrArg (·.2.rest) left
    have := congrArg List.length ht
    simp only [List.length_append, List.length_cons] at this ⊢
    omega

theorem Numeral.not_space (h : Numeral cs) : ∀ c ∈ cs, isSpace c = false := by
  have digit {c : Char} (h : c.isDigit = true) := isSpace_of_isWordPart (isWordPart_of_isDigit h)
  intro c hc
  cases h with
  | whole _ digits => exact digit (digits c hc)
  | decimal _ digits _ fraction =>
    rcases List.mem_append.1 hc with hc | hc
    · exact digit (digits c hc)
    rcases List.mem_cons.1 hc with rfl | hc
    · rfl
    · exact digit (fraction c hc)

theorem Quoted.newline_not_mem (h : Quoted q cs ds) : '\n' ∉ cs := by
  induction h with
  | nil => exact List.not_mem_nil
  | plain _ _ newline _ ih =>
    rw [List.mem_cons]
    rintro (rfl | hc)
    · exact newline rfl
    · exact ih hc
  | escape he _ ih =>
    rw [List.mem_cons, List.mem_cons]
    rintro (hc | rfl | hc)
    · cases hc
    · cases he
    · exact ih hc

namespace Lexeme

theorem not_space (h : Lexeme k w) (plain : ∀ c ∈ w.head?, isQuote c = false) :
    ∀ c ∈ w, isSpace c = false := by
  cases h with
  | number h => exact h.not_space
  | word start parts =>
    refine List.forall_mem_cons.2 ⟨?_, fun c hc => isSpace_of_isWordPart (parts c hc)⟩
    exact isSpace_of_isWordPart (isWordPart_of_isWordStart start)
  | symbol s => exact fun c hc => (s.apart c hc).2.2
  | @text q cs ds quote =>
    rw [plain q rfl] at quote
    cases quote

theorem newline_not_mem (h : Lexeme k w) : '\n' ∉ w := by
  intro hn
  obtain ⟨c, v, rfl⟩ := List.exists_cons_of_ne_nil h.ne_nil
  cases hc : isQuote c with
  | true =>
    obtain ⟨cs, ds, rfl, quoted, -⟩ := h.isText hc
    obtain ⟨-, newline⟩ := isQuote_apart hc
    simp only [List.mem_cons, List.mem_append, List.not_mem_nil, or_false] at hn
    rcases hn with hn | hn | hn
    · exact newline hn.symm
    · exact quoted.newline_not_mem hn
    · exact newline hn.symm
  | false =>
    have := h.not_space (by simpa using hc) '\n' hn
    cases this

theorem longest_of_space (h : Lexeme k w) (hrest : ∀ c ∈ rest.head?, isSpace c = true) :
    Longest w rest := by
  obtain ⟨c, tail, rfl⟩ := List.exists_cons_of_ne_nil h.ne_nil
  cases hc : isQuote c with
  | true =>
    obtain ⟨cs, ds, rfl, quoted, -⟩ := h.isText hc
    exact longest_text hc quoted rest
  | false =>
    intro j v hv hp
    refine Nat.le_of_not_lt fun long => ?_
    obtain ⟨more, rfl⟩ := List.prefix_of_prefix_length_le (List.prefix_append _ rest) hp
      (Nat.le_of_lt long)
    obtain ⟨d, more, rfl⟩ : ∃ d more', more = d :: more' := List.exists_cons_of_ne_nil (by
      rintro rfl
      simp at long)
    obtain ⟨t, ht⟩ := (List.prefix_append_right_inj _).1 hp
    have space := hrest d (by rw [← ht]; rfl)
    have := hv.not_space (by simpa using hc) d (by simp)
    rw [space] at this
    cases this

end Lexeme

end Spellcraft
