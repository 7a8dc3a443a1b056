import Mathlib.Data.List.Induction
import Spellcraft.Proofs.Spell.Complaints

namespace Spellcraft

namespace Report

/-- A report that was put together in some way, with all that was told, in order. -/
inductive Built {α : Type u} : List α → Report α → Prop
  | empty : Built [] .empty
  | push : Built as r → (a : α) → Built (as ++ [a]) (r.push a)
  | extend : Built as r → Built bs s → Built (as ++ bs) (r.extend s)

variable {α : Type u} {r : Report α} {as bs : List α}

theorem take_take_append (as bs : List α) (n : Nat) :
    (as.take n ++ bs).take n = (as ++ bs).take n := by
  rw [List.take_append, List.take_append, List.take_take, List.length_take]
  congr 2 <;> omega

theorem take_append_take (as bs : List α) (n : Nat) :
    (as ++ bs.take n).take n = (as ++ bs).take n := by
  rw [List.take_append, List.take_append, List.take_take]
  congr 2
  omega

theorem push_eq (h : r.kept.length ≤ capacity) (a : α) :
    r.push a = ⟨(r.kept ++ [a]).take capacity, r.total + 1⟩ := by
  rw [push]
  split
  · next room => rw [List.take_of_length_le (by rw [List.length_append]; exact room)]
  · next full => rw [List.take_append_of_le_length (Nat.le_of_not_lt full), List.take_of_length_le h]

theorem foldl_push (h : r.kept.length ≤ capacity) (as : List α) :
    as.foldl push r = ⟨(r.kept ++ as).take capacity, r.total + as.length⟩ := by
  induction as generalizing r with
  | nil => rw [List.append_nil, List.take_of_length_le h]; rfl
  | cons a as ih =>
    have short : (r.push a).kept.length ≤ capacity := by
      rw [push_eq h]
      exact List.length_take_le _ _
    rw [List.foldl_cons, ih short, push_eq h, take_take_append, List.append_assoc, Nat.add_assoc,
      Nat.add_comm 1]
    rfl

theorem ofList_eq (as : List α) : ofList as = ⟨as.take capacity, as.length⟩ := by
  rw [ofList, foldl_push (Nat.zero_le _), empty, List.nil_append, Nat.zero_add]

theorem extend_ofList (as bs : List α) : (ofList as).extend (ofList bs) = ofList (as ++ bs) := by
  have short : (as.take capacity).length ≤ capacity := List.length_take_le _ _
  have dropped : (bs.take capacity).length + (bs.length - (bs.take capacity).length) = bs.length :=
    Nat.add_sub_cancel' (List.length_take_le' _ _)
  rw [extend, ofList_eq, ofList_eq, ofList_eq, foldl_push short, List.length_append]
  simp only [take_take_append, take_append_take, Nat.add_assoc, dropped]

theorem Built.eq_ofList (h : Built as r) : r = ofList as := by
  induction h with
  | empty => rfl
  | push _ a ih => rw [ih, ofList, ofList, List.foldl_append, List.foldl_cons, List.foldl_nil]
  | extend _ _ ih₁ ih₂ => rw [ih₁, ih₂, extend_ofList]

theorem Built.ofList (as : List α) : Built as (.ofList as) := by
  induction as using List.reverseRecOn with
  | nil => exact .empty
  | append_singleton as a ih =>
    rw [Report.ofList, List.foldl_append]
    exact ih.push a

theorem exists_built (h : r.kept.length = min r.total capacity) : ∃ as, Built as r := by
  obtain ⟨kept, total⟩ := r
  simp only at h
  cases kept with
  | nil =>
    obtain rfl : total = 0 := by
      simp only [List.length_nil, capacity] at h
      omega
    exact ⟨[], .empty⟩
  | cons a rest =>
    generalize a :: rest = kept at h
    have told : .ofList (kept ++ List.replicate (total - kept.length) a) = Report.mk kept total := by
      rw [ofList_eq, List.length_append, List.length_replicate, Nat.add_sub_cancel' (by omega)]
      rcases Nat.le_total total capacity with few | many
      · rw [Nat.sub_eq_zero_of_le (by omega), List.replicate_zero, List.append_nil,
          List.take_of_length_le (by omega)]
      · rw [List.take_append_of_le_length (by omega), List.take_of_length_le (by omega)]
    exact ⟨_, told ▸ Built.ofList _⟩

theorem Built.counts (h : Built as r) : r.total = as.length ∧ r.kept <+: as ∧
    r.kept.length = min r.total capacity ∧ (r.isFull = true ↔ capacity ≤ r.total) ∧
      (r.isClean = false ↔ r.kept ≠ []) := by
  rw [h.eq_ofList, ofList_eq]
  refine ⟨rfl, List.take_prefix _ _, ?_, decide_eq_true_iff, ?_⟩
  · rw [List.length_take, Nat.min_comm]
  · cases as <;> simp [isClean, capacity]

end Report

open Report in
theorem Spell.parse_of_built {source : String} {words form : List Diagnostic}
    (hw : Built words (scan source).2) (hf : Built form (parseTokens (scan source).1).2) :
    parse source = if words ++ form = [] then .ok (parseTokens (scan source).1).1
      else .error (.malformed ⟨(words ++ form).take capacity, words.length + form.length⟩) := by
  have merged : parse source =
      let report := (scan source).2.extend (parseTokens (scan source).1).2
      if report.isClean then .ok (parseTokens (scan source).1).1
      else .error (.malformed report) := rfl
  rw [merged, (hw.extend hf).eq_ofList, ofList_eq, List.length_append]
  simp only [isClean, decide_eq_true_eq, ← List.length_append, List.length_eq_zero_iff]

/-- To merge two reports is to put what they were told one behind the other. However a report was
put together, it keeps the head of what it was told, as far as that fits, and counts the rest; it is
full when nothing more would fit, and has something to show when it was told anything. A spell fails
with the report on all that is wrong with its words and then all that is wrong with its form. -/
theorem Report.extend_concatenates {α : Type u} :
    (∀ as bs : List α, (ofList as).extend (ofList bs) = ofList (as ++ bs)) ∧
    (∀ (as : List α) (r : Report α), Built as r → r = ofList as ∧ r.total = as.length ∧
      r.kept <+: as ∧ r.kept.length = min r.total capacity ∧
        (r.isFull = true ↔ capacity ≤ r.total) ∧ (r.isClean = false ↔ r.kept ≠ [])) ∧
    ∀ source : String,
      (∃ words, Built words (scan source).2) ∧
      (∃ form, Built form (parseTokens (scan source).1).2) ∧
      ∀ words form, Built words (scan source).2 → Built form (parseTokens (scan source).1).2 →
        Spell.parse source = if words ++ form = [] then .ok (parseTokens (scan source).1).1
          else .error (.malformed ⟨(words ++ form).take capacity, words.length + form.length⟩) := by
  refine ⟨extend_ofList, fun as r h => ⟨h.eq_ofList, h.counts⟩, fun source => ?_⟩
  obtain ⟨-, words, form⟩ := parseText_drawn source
  exact ⟨exists_built words.count, exists_built form.count, fun _ _ => Spell.parse_of_built⟩

def Spell.garbled : String :=
  "go(\"\\q\\w\\e\\r\\t\\y\\u\\i\\o\\p\\a\\s\\d\\f\\g\\h\\j\\k\\l\\z\\x\\c\\v\\b\\m\""

theorem Report.extend_concatenates_garbled :
    let r : Report Nat := ((ofList (.range 15)).extend (ofList (.range 8))).push 7
    (Built (.range 15 ++ .range 8 ++ [7]) r ∧ r.kept = .range 15 ++ .range 5 ∧ r.total = 24) ∧
      ∃ words form, Built words (scan Spell.garbled).2 ∧
        Built form (parseTokens (scan Spell.garbled).1).2 ∧ form.length = 1 ∧
        Spell.parse Spell.garbled = .error (.malformed ⟨words.take 20, 24⟩) := by
  intro r
  have built : Built (.range 15 ++ .range 8 ++ [7]) r := .push (.extend (.ofList _) (.ofList _)) 7
  obtain ⟨-, numbers, spells⟩ := @extend_concatenates Nat
  obtain ⟨told, total, -⟩ := numbers _ r built
  obtain ⟨⟨words, hw⟩, ⟨form, hf⟩, parsed⟩ := spells Spell.garbled
  have many : words.length = 23 := hw.counts.1.symm.trans (by decide +kernel)
  have one : form.length = 1 := hf.counts.1.symm.trans (by decide +kernel)
  have some : words ++ form ≠ [] := List.ne_nil_of_length_pos (by rw [List.length_append]; omega)
  refine ⟨⟨built, by rw [told]; decide, total⟩, words, form, hw, hf, one, ?_⟩
  rw [parsed words form hw hf, if_neg some, many, one,
    List.take_append_of_le_length (by rw [many]; decide)]
  rfl

end Spellcraft
