import Spellcraft.Proofs.Casting.Blame
import Spellcraft.Proofs.Casting.Culprit
import Spellcraft.Proofs.Maze.Walk
import Spellcraft.Spell.Wire

namespace Spellcraft

theorem splitLines_ne_nil (cs : List Char) : splitLines cs ≠ [] := by
  unfold splitLines
  split
  · simp
  · split
    · simp
    · split <;> simp

theorem splitLines_cons (hc : c ≠ '\n') (cs : List Char) :
    ∃ line rest, splitLines cs = line :: rest ∧ splitLines (c :: cs) = (c :: line) :: rest := by
  obtain ⟨line, rest, h⟩ := List.exists_cons_of_ne_nil (splitLines_ne_nil cs)
  exact ⟨line, rest, h, by rw [splitLines, if_neg hc, h]⟩

theorem splitLines_newline (as bs : List Char) :
    splitLines (as ++ '\n' :: bs) = splitLines as ++ splitLines bs := by
  induction as with
  | nil => rfl
  | cons a as ih =>
    by_cases ha : a = '\n'
    · rw [List.cons_append, splitLines, if_pos ha, ih, splitLines, if_pos ha, List.cons_append]
    · obtain ⟨line, rest, h, ha⟩ := splitLines_cons ha as
      rw [ha, List.cons_append, splitLines, if_neg (by assumption), ih, h]
      rfl

theorem splitLines_length (cs : List Char) : (splitLines cs).length = cs.count '\n' + 1 := by
  induction cs with
  | nil => rfl
  | cons c cs ih =>
    by_cases hc : c = '\n'
    · subst hc
      rw [splitLines, if_pos rfl, List.length_cons, ih, List.count_cons_self]
    · obtain ⟨line, rest, h, h'⟩ := splitLines_cons hc cs
      rw [h', List.length_cons, List.count_cons_of_ne hc, ← ih, h, List.length_cons]

theorem splitLines_head (h : '\n' ∉ bs) (cs : List Char) :
    ∃ line rest, splitLines (bs ++ cs) = line :: rest ∧ bs.length ≤ line.length := by
  induction bs with
  | nil =>
    obtain ⟨line, rest, h⟩ := List.exists_cons_of_ne_nil (splitLines_ne_nil cs)
    exact ⟨line, rest, h, Nat.zero_le _⟩
  | cons b bs ih =>
    obtain ⟨hb, hbs⟩ := not_or.1 (mt List.mem_cons.2 h)
    obtain ⟨line, rest, hl, le⟩ := ih hbs
    obtain ⟨line', rest', hl', hb⟩ := splitLines_cons (Ne.symm hb) (bs ++ cs)
    rw [hl] at hl'
    cases hl'
    exact ⟨_, _, hb, Nat.succ_le_succ le⟩

theorem Place.behind_col (as : List Char) (h : '\n' ∉ bs) (tail : ∀ c ∈ as.getLast?, c = '\n') :
    (behind (as ++ bs)).col = bs.length + 1 := by
  have all : ∀ c ∈ bs.reverse, decide (c ≠ '\n') = true := fun c hc =>
    decide_eq_true fun e => h (e ▸ List.mem_reverse.1 hc)
  rw [behind, List.reverse_append, List.takeWhile_append_of_pos all]
  rcases has : as.reverse with _ | ⟨c, cs⟩
  · simp
  · have : c = '\n' := tail c (by rw [List.getLast?_eq_head?_reverse, has]; rfl)
    simp [this]

theorem Place.behind_on_line (cs ds : List Char) :
    ∃ line, (splitLines (cs ++ ds))[(behind cs).line - 1]? = some line ∧
      (behind cs).col ≤ line.length + 1 := by
  by_cases newline : '\n' ∈ cs
  · obtain ⟨bs, as, hr, hb⟩ := List.eq_append_cons_of_mem (List.mem_reverse.2 newline)
    obtain rfl : cs = as.reverse ++ '\n' :: bs.reverse := by
      rw [← List.reverse_reverse cs, hr]
      simp
    have hb : '\n' ∉ bs.reverse := mt List.mem_reverse.1 hb
    obtain ⟨line, rest, lines, le⟩ := splitLines_head hb ds
    refine ⟨line, ?_, ?_⟩
    · have count : (behind (as.reverse ++ '\n' :: bs.reverse)).line - 1 =
          (splitLines as.reverse).length := by
        rw [splitLines_length, behind, List.count_append, List.count_cons_self,
          List.count_eq_zero.2 hb]
        rfl
      rw [count, List.append_assoc, List.cons_append, splitLines_newline, lines]
      simp
    · have col := Place.behind_col (as.reverse ++ ['\n']) hb (by simp)
      rw [List.append_assoc, List.singleton_append] at col
      rw [col]
      exact Nat.succ_le_succ le
  · obtain ⟨line, rest, lines, le⟩ := splitLines_head newline ds
    refine ⟨line, ?_, ?_⟩
    · rw [behind, List.count_eq_zero.2 newline, lines]
      rfl
    · have col := Place.behind_col [] newline (by simp)
      rw [List.nil_append] at col
      rw [col]
      exact Nat.succ_le_succ le

namespace Report.Tells

variable {G : Span → Prop} {r s : Report Diagnostic}

theorem foldl {ds : List Diagnostic} (h : r.Tells G)
    (hd : ∀ d ∈ ds, G d.span ∧ d.code.category = .form) :
    (ds.foldl Report.push r).Tells G ∧ (ds.foldl Report.push r).total = r.total + ds.length := by
  induction ds generalizing r with
  | nil => exact ⟨h, rfl⟩
  | cons d ds ih =>
    obtain ⟨first, rest⟩ := List.forall_mem_cons.1 hd
    obtain ⟨tells, total⟩ := ih (h.tell first) rest
    refine ⟨tells, total.trans ?_⟩
    simp only [Report.push, List.length_cons]
    omega

theorem extend (h : r.Tells G) (k : s.Tells G) : (r.extend s).Tells G := by
  obtain ⟨tells, total⟩ := h.foldl k.fits
  refine ⟨tells.fits, ?_⟩
  have count := tells.count
  have fewer := k.count
  rw [Report.extend]
  simp only
  omega

theorem bounds (h : r.Tells G) (told : r.isClean = false) :
    1 ≤ r.kept.length ∧ r.kept.length ≤ Report.capacity := by
  have some : r.total ≠ 0 := of_decide_eq_false told
  have count := h.count
  have room : 1 ≤ Report.capacity := by decide
  omega

end Report.Tells

theorem Trap.code_category (t : Trap) : t.code.category = .trap := by cases t <;> rfl

theorem Fault.ofExit_diagnostics (e : Exit) : (ofExit e).diagnostics.length = 1 := by
  cases e <;> rfl

theorem Fault.ofExit_category (e : Exit) :
    ∀ d ∈ (ofExit e).diagnostics, d.code.category = (ofExit e).category := by
  cases e with
  | trap t => exact List.forall_mem_singleton.2 t.code_category
  | _ => exact List.forall_mem_singleton.2 rfl

theorem Program.checkNames_error {p : Program} (h : p.checkNames g = .error f) :
    ∃ r ∈ p.references, f = .unknown r.name r.span := by
  rw [checkNames] at h
  split at h
  · next r found =>
    cases h
    exact ⟨r, List.mem_of_find?_eq_some found, rfl⟩
  · cases h

theorem Program.perform_error {p : Program} (h : p.perform maze start g limits = .error f) :
    ∃ e, f = .ofExit e := by
  rw [perform] at h
  split at h
  · cases h
  · next e _ _ =>
    cases h
    exact ⟨e, rfl⟩

/-- It stands on a line of the text, or at the end of one, and runs forward. -/
structure Diagnostic.PointsInto (source : String) (d : Diagnostic) : Prop where
  line : 1 ≤ d.span.first.line ∧ d.span.first.line ≤ (splitLines source.toList).length
  column : ∃ line, (splitLines source.toList)[d.span.first.line - 1]? = some line ∧
    d.sourceLine source = String.ofList (dropReturn line) ∧
    1 ≤ d.span.first.col ∧ d.span.first.col ≤ line.length + 1
  forward : d.span.first ≤ d.span.last

theorem Diagnostic.PointsInto.of_inside {d : Diagnostic} (h : d.span.Inside source.toList) :
    d.PointsInto source := by
  obtain ⟨⟨cs, ⟨ds, hds⟩, first⟩, forward⟩ := h
  obtain ⟨line, found, le⟩ := Place.behind_on_line cs ds
  rw [hds, ← first] at found
  have pos : 1 ≤ d.span.first.line := by
    rw [first]
    exact Nat.le_add_left _ _
  obtain ⟨n, hn⟩ := Nat.exists_eq_add_of_le' pos
  refine ⟨⟨pos, ?_⟩, ⟨line, found, ?_, ?_, first ▸ le⟩, forward⟩
  · obtain ⟨lt, -⟩ := List.getElem?_eq_some_iff.1 found
    omega
  · rw [hn, Nat.add_sub_cancel] at found
    rw [sourceLine, hn, lineOf?, found]
    rfl
  · rw [first]
    exact Nat.le_add_left _ _

theorem Spell.parse_error {source : String} (h : parse source = .error f) :
    ∃ r, f = .malformed r ∧ r.isClean = false ∧ r.Tells (Span.Inside source.toList) := by
  obtain ⟨-, words, form⟩ := parseText_drawn source
  simp only [parse] at h
  split at h
  · cases h
  · next told =>
    cases h
    exact ⟨_, rfl, by simpa using told, words.extend form⟩

theorem Compilation.complaint_inside {source : String} {maze : Maze} {start : Position}
    {options : Options} {f : Fault}
    (failed : (Compilation.of source maze start options).result = .error f) :
    (1 ≤ f.complaint.diagnostics.length ∧ f.complaint.diagnostics.length ≤ Report.capacity) ∧
      ∀ d ∈ f.complaint.diagnostics,
        d.code.category = f.complaint.category ∧ d.span.Inside source.toList := by
  have failed : Spell.compile source maze start options = .error f := failed
  have one {f : Fault} (h : f.diagnostics.length = 1) :
      1 ≤ f.diagnostics.length ∧ f.diagnostics.length ≤ Report.capacity := by
    rw [h]
    decide
  rcases parsed : Spell.parse source with e | p <;> rw [Spell.compile, parsed] at failed
  · cases failed
    obtain ⟨r, rfl, told, tells⟩ := Spell.parse_error parsed
    exact ⟨tells.bounds told, fun d hd => ⟨(tells.fits d hd).2, (tells.fits d hd).1⟩⟩
  have drawn := Spell.parse_drawn parsed
  have failed : p.cast maze start options.grant options.limits = .error f := failed
  rcases checked : p.checkNames options.grant with e | _ <;> rw [Program.cast, checked] at failed
  · cases failed
    obtain ⟨r, hr, rfl⟩ := Program.checkNames_error checked
    have inside := (p.references_pairwise drawn).1 r hr
    exact ⟨one (f := .unknown r.name r.span) rfl, List.forall_mem_singleton.2 ⟨rfl, inside⟩⟩
  · have failed : p.perform maze start options.grant options.limits = .error f := failed
    have points := p.perform_blames (Span.closed_inside _) drawn.all _ _ _ _ failed
    obtain ⟨e, rfl⟩ := Program.perform_error failed
    exact ⟨one (Fault.ofExit_diagnostics e), fun d hd => ⟨Fault.ofExit_category e d hd, points d hd⟩⟩

theorem Compilation.complaint_fits {source : String} {maze : Maze} {start : Position}
    {options : Options} {f : Fault}
    (failed : (Compilation.of source maze start options).result = .error f)
    (short : source.length + 1 < UInt32.size) : ∀ d ∈ f.complaint.diagnostics, d.span.Fits :=
  fun d hd => ((complaint_inside failed).2 d hd).2.fits short

/-- Whatever a spell fails with, there is something to report on it and no more than fits, all of
one category, and each diagnostic points into the source. Coordinates have no bound here; see
`complaint_fits`. -/
theorem Compilation.complaint_complete {source : String} {maze : Maze} {start : Position}
    {options : Options} {f : Fault}
    (failed : (Compilation.of source maze start options).result = .error f) :
    1 ≤ f.complaint.diagnostics.length ∧ f.complaint.diagnostics.length ≤ Report.capacity ∧
      ∀ d ∈ f.complaint.diagnostics,
        d.code.category = f.complaint.category ∧ d.PointsInto source := by
  obtain ⟨⟨some, room⟩, told⟩ := complaint_inside failed
  exact ⟨some, room, fun d hd => ⟨(told d hd).1, .of_inside (told d hd).2⟩⟩

def Spell.litLine : String := "let a = 1;\r\n  lit(a);\r\n"

theorem Compilation.complaint_complete_litLine : ∃ f,
    (Compilation.of Spell.litLine .corridor ⟨0, 0⟩ .standard).result = .error f ∧
    f.complaint.diagnostics.map (·.sourceLine Spell.litLine) = ["  lit(a);"] ∧
      ∀ d ∈ f.complaint.diagnostics, d.code.category = .scope ∧ d.PointsInto Spell.litLine := by
  have computed : (Compilation.of Spell.litLine .corridor ⟨0, 0⟩ .standard).result =
      .error (.unknown "lit" ⟨⟨2, 3⟩, ⟨2, 5⟩⟩) := by decide +kernel
  obtain ⟨-, -, points⟩ := complaint_complete computed
  exact ⟨_, computed, by decide +kernel, points⟩

end Spellcraft
