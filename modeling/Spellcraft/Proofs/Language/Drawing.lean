import Spellcraft.Proofs.Language.Outline
import Spellcraft.Proofs.Language.Reading

/-!
Outlines are drawn while the stream is read. Each was taken from a stretch of the stream, and they
stand in it as the tokens do; a parser that fails has drawn nothing more, and leaves a stream from
which reading may go on. Nothing here asks that there was nothing to report.
-/

namespace Spellcraft

structure Taken (us : List Token) (s t : Stream) : Prop where
  rest : s.rest = us ++ t.rest
  previous : t.previous = (us.getLast?.map Token.span).or s.previous
  close : t.close = s.close

namespace Taken

variable {us vs : List Token} {s t u : Stream}

theorem refl (s : Stream) : Taken [] s s := ⟨rfl, rfl, rfl⟩

theorem trans (h : Taken us s t) (k : Taken vs t u) : Taken (us ++ vs) s u where
  rest := by rw [h.rest, k.rest, List.append_assoc]
  previous := by
    rw [k.previous, h.previous, List.getLast?_append]
    cases vs.getLast? <;> rfl
  close := k.close.trans h.close

theorem advance (s : Stream) : Taken s.rest.head?.toList s s.advance := by
  unfold Stream.advance
  split
  · next h =>
    rw [h]
    exact refl s
  · next h =>
    rw [h]
    exact ⟨h, rfl, rfl⟩

theorem resync (s : Stream) : ∃ us, Taken us s s.resync := by
  fun_induction Stream.resync s with
  | case1 s => exact ⟨_, refl s⟩
  | case2 s => exact ⟨_, advance s⟩
  | case3 s => exact ⟨_, refl s⟩
  | case4 s _ _ _ _ _ ih =>
    obtain ⟨us, h⟩ := ih
    exact ⟨_, (advance s).trans h⟩

theorem recover (s : Stream) (n : Nat) : ∃ us, Taken us s (s.recover n) := by
  obtain ⟨us, h⟩ := resync s
  simp only [Stream.recover]
  split
  · exact ⟨_, h.trans (advance _)⟩
  · exact ⟨us, h⟩

end Taken

theorem Problem.code_category (p : Problem) : p.code.category = .form := by
  cases p with
  | unclosed _ _ _ atEnd => cases atEnd <;> rfl
  | _ => rfl

structure Report.Tells (G : Span → Prop) (r : Report Diagnostic) : Prop where
  fits : ∀ d ∈ r.kept, G d.span ∧ d.code.category = .form
  count : r.kept.length = min r.total Report.capacity

namespace Report.Tells

variable {G : Span → Prop} {r : Report Diagnostic}

theorem empty : Tells G .empty := ⟨List.forall_mem_nil _, rfl⟩

theorem tell {d : Diagnostic} (h : Tells G r) (hd : G d.span ∧ d.code.category = .form) :
    Tells G (r.push d) := by
  have room := h.count
  simp only [Report.push]
  split
  · refine ⟨List.forall_mem_append.2 ⟨h.fits, List.forall_mem_singleton.2 hd⟩, ?_⟩
    simp only [List.length_append, List.length_singleton]
    omega
  · refine ⟨h.fits, ?_⟩
    simp only
    omega

theorem push (h : Tells G r) (p : Problem) {here : Span} (hh : G here) :
    Tells G (r.push (p.located here)) := h.tell ⟨hh, p.code_category⟩

end Report.Tells

structure Stream.Sound (G : Span → Prop) (s : Stream) : Prop where
  tokens : ∀ t ∈ s.rest, G t.span
  ascending : s.rest.Pairwise fun t u => t.span.last < u.span.first
  previous : ∀ p ∈ s.previous, G p
  close : G s.close
  told : s.report.Tells G

namespace Stream.Sound

variable {G : Span → Prop} {s t : Stream} {us : List Token}

theorem span (h : s.Sound G) : G s.span := by
  unfold Stream.span
  rcases hs : s.rest with _ | ⟨t, rest⟩
  · exact h.close
  · exact h.tokens t (hs ▸ List.mem_cons_self)

theorem previousSpan (closed : Span.Closed G) (h : s.Sound G) : G s.previousSpan := by
  unfold Stream.previousSpan
  rcases hs : s.previous with _ | p
  · exact closed.origin
  · exact h.previous p hs

theorem taken (h : s.Sound G) (k : Taken us s t) (told : t.report.Tells G) :
    t.Sound G where
  tokens u hu := h.tokens u (k.rest ▸ List.mem_append_right _ hu)
  ascending := (List.pairwise_append.1 (k.rest ▸ h.ascending)).2.1
  previous p hp := by
    rw [k.previous, Option.mem_def, Option.or_eq_some_iff] at hp
    rcases hp with hp | hp
    · obtain ⟨u, hu, rfl⟩ := Option.map_eq_some_iff.1 hp
      exact h.tokens u (k.rest ▸ List.mem_append_left _ (List.mem_of_getLast? hu))
    · exact h.previous p hp.2
  close := k.close ▸ h.close
  told := told

theorem advance (h : s.Sound G) : s.advance.Sound G :=
  h.taken (.advance s) (s.report_advance ▸ h.told)

theorem recover (h : s.Sound G) (n : Nat) : (s.recover n).Sound G := by
  obtain ⟨us, k⟩ := Taken.recover s n
  exact h.taken k (s.report_recover n ▸ h.told)

theorem complain (h : s.Sound G) (p : Problem) {here : Span} (hh : G here) :
    (s.complain p here).Sound G :=
  ⟨h.tokens, h.ascending, h.previous, h.close, h.told.push p hh⟩

end Stream.Sound

def Span.Within (us : List Token) (s : Span) : Prop :=
  ∃ t ∈ us, ∃ u ∈ us, t.span.first ≤ s.first ∧ s.last ≤ u.span.last

namespace Span.Within

variable {us vs : List Token} {s t : Span}

theorem token {t : Token} (h : t ∈ us) : t.span.Within us :=
  ⟨t, h, t, h, Place.le_refl _, Place.le_refl _⟩

theorem mono (h : s.Within us) (sub : us ⊆ vs) : s.Within vs := by
  obtain ⟨t, ht, u, hu, range⟩ := h
  exact ⟨t, sub ht, u, sub hu, range⟩

theorem covered (h : s.Within us) (covers : s.Covers t) : t.Within us := by
  obtain ⟨t, ht, u, hu, ge, le⟩ := h
  exact ⟨t, ht, u, hu, Place.le_trans ge covers.1, Place.le_trans covers.2 le⟩

theorem merge (h : s.Within us) (k : t.Within us) : (s.merge t).Within us := by
  obtain ⟨a, ha, b, hb, begins, ends⟩ := h
  obtain ⟨c, hc, d, hd, starts, stops⟩ := k
  unfold Span.merge Within
  rcases Place.earlier_cases s.first t.first with first | first <;>
    rcases Place.later_cases s.last t.last with last | last <;> rw [first, last]
  · exact ⟨a, ha, b, hb, begins, ends⟩
  · exact ⟨a, ha, d, hd, begins, stops⟩
  · exact ⟨c, hc, b, hb, starts, ends⟩
  · exact ⟨c, hc, d, hd, starts, stops⟩

end Span.Within

open Outline in
structure Spread (G : Span → Prop) (us : List Token) (os : List Outline) : Prop where
  orderly : ∀ o ∈ os, Orderly G o
  apart : os.Pairwise Before
  inside : ∀ o ∈ os, o.span.Within us

namespace Spread

variable {G : Span → Prop} {us vs : List Token} {os ps qs : List Outline} {o p : Outline}

theorem nil : Spread G us [] := ⟨List.forall_mem_nil _, .nil, List.forall_mem_nil _⟩

theorem one (orderly : o.Orderly G) (inside : o.span.Within us) : Spread G us [o] :=
  ⟨List.forall_mem_singleton.2 orderly, List.pairwise_singleton _ _,
    List.forall_mem_singleton.2 inside⟩

theorem append (ascending : (us ++ vs).Pairwise fun t u => t.span.last < u.span.first)
    (h : Spread G us os) (k : Spread G vs ps) : Spread G (us ++ vs) (os ++ ps) where
  orderly o ho := (List.mem_append.1 ho).elim (h.orderly o) (k.orderly o)
  apart := by
    refine List.pairwise_append.2 ⟨h.apart, k.apart, fun o ho p hp => ?_⟩
    obtain ⟨-, -, u, hu, -, le⟩ := h.inside o ho
    obtain ⟨v, hv, -, -, ge, -⟩ := k.inside p hp
    have := (List.pairwise_append.1 ascending).2.2 u hu v hv
    exact Place.lt_of_le_of_lt le (Place.lt_of_lt_of_le this ge)
  inside o ho := (List.mem_append.1 ho).elim
    (fun ho => (h.inside o ho).mono (List.subset_append_left _ _))
    fun ho => (k.inside o ho).mono (List.subset_append_right _ _)

theorem sublist (h : Spread G us os) (sub : ps.Sublist os) : Spread G us ps :=
  ⟨fun o ho => h.orderly o (sub.subset ho), h.apart.sublist sub,
    fun o ho => h.inside o (sub.subset ho)⟩

theorem shrink (h : Spread G us (ps ++ o :: qs)) (orderly : p.Orderly G)
    (covers : o.span.Covers p.span) : Spread G us (ps ++ p :: qs) := by
  have all {P : Outline → Prop} (hP : ∀ q ∈ ps ++ o :: qs, P q) (hp : P p) :
      ∀ q ∈ ps ++ p :: qs, P q := by
    simp only [List.forall_mem_append, List.forall_mem_cons] at hP ⊢
    exact ⟨hP.1, hp, hP.2.2⟩
  refine ⟨all h.orderly orderly, ?_, all h.inside ((h.inside o (by simp)).covered covers)⟩
  obtain ⟨before, behind, across⟩ := List.pairwise_append.1 h.apart
  obtain ⟨first, behind⟩ := List.pairwise_cons.1 behind
  refine List.pairwise_append.2 ⟨before, List.pairwise_cons.2 ⟨fun q hq => ?_, behind⟩,
    fun q hq => List.forall_mem_cons.2 ⟨?_, fun r hr => ?_⟩⟩
  · exact Place.lt_of_le_of_lt covers.2 (first q hq)
  · exact Place.lt_of_lt_of_le (across q hq o List.mem_cons_self) covers.1
  · exact across q hq r (List.mem_cons_of_mem _ hr)

theorem node (h : Spread G us ps) {σ : Span} (sort : G σ) (inside : σ.Within us)
    (covers : ∀ p ∈ ps, σ.Covers p.span) : Spread G us [⟨σ, ps⟩] :=
  .one (.mk sort h.orderly covers h.apart) inside

theorem first_le (closed : Span.Closed G) (h : Spread G us (o :: os)) (hp : p ∈ o :: os) :
    o.span.first ≤ p.span.first := by
  rcases List.mem_cons.1 hp with rfl | hp
  · exact Place.le_refl _
  · have forward := closed.forward (h.orderly o List.mem_cons_self).sort
    exact Place.le_trans forward (Place.le_of_lt ((List.pairwise_cons.1 h.apart).1 p hp))

theorem le_last (closed : Span.Closed G) (h : Spread G us (os ++ [o])) (hp : p ∈ os ++ [o]) :
    p.span.last ≤ o.span.last := by
  rcases List.mem_append.1 hp with hp | hp
  · have forward := closed.forward (h.orderly o (by simp)).sort
    have := (List.pairwise_append.1 h.apart).2.2 p hp o (by simp)
    exact Place.le_trans (Place.le_of_lt this) forward
  · rw [List.mem_singleton.1 hp]
    exact Place.le_refl _

end Spread

/-- From `s₀` to `s` the outlines `os` were drawn. -/
structure Drawn (G : Span → Prop) (os : List Outline) (s₀ s : Stream) : Prop where
  source : s₀.Sound G
  sound : s.Sound G
  exists_taken : ∃ us, Taken us s₀ s ∧ Spread G us os

namespace Drawn

variable {G : Span → Prop} {os ps qs : List Outline} {o p a b : Outline} {s₀ s t : Stream}

theorem refl (h : s.Sound G) : Drawn G [] s s := ⟨h, h, [], .refl s, .nil⟩

theorem trans (h : Drawn G os s₀ s) (k : Drawn G ps s t) : Drawn G (os ++ ps) s₀ t := by
  obtain ⟨us, first, drawn⟩ := h.exists_taken
  obtain ⟨vs, second, more⟩ := k.exists_taken
  have both := first.trans second
  have ascending := h.source.ascending
  rw [both.rest] at ascending
  exact ⟨h.source, k.sound, _, both, drawn.append (List.pairwise_append.1 ascending).1 more⟩

theorem sublist (h : Drawn G os s₀ s) (sub : ps.Sublist os) : Drawn G ps s₀ s := by
  obtain ⟨us, taken, drawn⟩ := h.exists_taken
  exact ⟨h.source, h.sound, us, taken, drawn.sublist sub⟩

theorem drop (h : Drawn G os s₀ s) : Drawn G [] s₀ s := h.sublist (List.nil_sublist _)

theorem shrink (ps) (h : Drawn G (ps ++ o :: qs) s₀ s) (orderly : p.Orderly G)
    (covers : o.span.Covers p.span) : Drawn G (ps ++ p :: qs) s₀ s := by
  obtain ⟨us, taken, drawn⟩ := h.exists_taken
  exact ⟨h.source, h.sound, us, taken, drawn.shrink orderly covers⟩

theorem orderly (h : Drawn G os s₀ s) (ho : o ∈ os) : o.Orderly G := by
  obtain ⟨us, -, drawn⟩ := h.exists_taken
  exact drawn.orderly o ho

theorem apart (h : Drawn G os s₀ s) : os.Pairwise Outline.Before := by
  obtain ⟨us, -, drawn⟩ := h.exists_taken
  exact drawn.apart

theorem complain (h : Drawn G os s₀ s) (p : Problem) {here : Span} (hh : G here) :
    Drawn G os s₀ (s.complain p here) := by
  obtain ⟨us, taken, drawn⟩ := h.exists_taken
  exact ⟨h.source, h.sound.complain p hh, us, ⟨taken.rest, taken.previous, taken.close⟩, drawn⟩

theorem pass (h : Drawn G os s₀ s) (sound : t.Sound G) (taken : Taken us s t) :
    Drawn G os s₀ t := by
  have := h.trans ⟨h.sound, sound, us, taken, .nil⟩
  rwa [List.append_nil] at this

theorem advance (h : Drawn G os s₀ s) : Drawn G os s₀ s.advance := h.pass h.sound.advance (.advance s)

theorem recover (h : Drawn G os s₀ s) (n : Nat) : Drawn G os s₀ (s.recover n) := by
  obtain ⟨us, taken⟩ := Taken.recover s n
  exact h.pass (h.sound.recover n) taken

theorem advance_leaf (h : Drawn G os s₀ s) (hne : s.kind ≠ .eof) :
    Drawn G (os ++ [.leaf s.span]) s₀ s.advance := by
  refine h.trans ⟨h.sound, h.sound.advance, _, .advance s, .one (.leaf h.sound.span) ?_⟩
  unfold Stream.kind at hne
  unfold Stream.span
  rcases hs : s.rest with _ | ⟨t, rest⟩ <;> rw [hs] at hne
  · exact absurd rfl hne
  · exact Span.Within.token List.mem_cons_self

theorem le_previousSpan (closed : Span.Closed G) (source : s₀.Sound G) (taken : Taken us s₀ s)
    {σ : Span} (h : σ.Within us) : σ.last ≤ s.previousSpan.last ∧ s.previousSpan.Within us := by
  obtain ⟨-, -, t, ht, -, le⟩ := h
  obtain ⟨vs, u, rfl⟩ : ∃ vs u, us = vs ++ [u] :=
    ⟨_, _, (List.dropLast_concat_getLast (List.ne_nil_of_mem ht)).symm⟩
  have last : s.previousSpan = u.span := by simp [Stream.previousSpan, taken.previous]
  have ascending := source.ascending
  rw [taken.rest] at ascending
  rw [last]
  refine ⟨Place.le_trans le ?_, .token (by simp)⟩
  rcases List.mem_append.1 ht with ht | ht
  · have forward := closed.forward (source.tokens u (by simp [taken.rest]))
    have := (List.pairwise_append.1 (List.pairwise_append.1 ascending).1).2.2 t ht u (by simp)
    exact Place.le_trans (Place.le_of_lt this) forward
  · rw [List.mem_singleton.1 ht]
    exact Place.le_refl _

theorem enclosed (closed : Span.Closed G) (h : Drawn G (a :: os) s₀ s)
    (sub : ps.Sublist (a :: os)) : Drawn G [⟨a.span.merge s.previousSpan, ps⟩] s₀ s := by
  obtain ⟨us, taken, drawn⟩ := h.exists_taken
  have inside := drawn.inside a List.mem_cons_self
  have sort := closed.merge (drawn.orderly a List.mem_cons_self).sort (h.sound.previousSpan closed)
  have last := le_previousSpan closed h.source taken inside
  refine ⟨h.source, h.sound, us, taken, (drawn.sublist sub).node sort (inside.merge last.2) ?_⟩
  intro p hp
  have hp := sub.subset hp
  have := (le_previousSpan closed h.source taken (drawn.inside p hp)).1
  exact ⟨Place.le_trans (Place.earlier_le_left _ _) (drawn.first_le closed hp),
    Place.le_trans this (Place.le_later_right _ _)⟩

theorem joined (closed : Span.Closed G) (h : Drawn G (a :: os ++ [b]) s₀ s)
    (shrunk : Drawn G ps s₀ s) (sub : ∀ p ∈ ps, ∃ o ∈ a :: os ++ [b], o.span.Covers p.span) :
    Drawn G [⟨a.span.merge b.span, ps⟩] s₀ s := by
  obtain ⟨us, taken, drawn⟩ := h.exists_taken
  have ha : a ∈ a :: os ++ [b] := List.mem_cons_self
  have hb : b ∈ a :: os ++ [b] := List.mem_append_right _ (List.mem_singleton_self b)
  have sort := closed.merge (drawn.orderly a ha).sort (drawn.orderly b hb).sort
  have inside := (drawn.inside a ha).merge (drawn.inside b hb)
  obtain ⟨vs, taken', kept⟩ := shrunk.exists_taken
  obtain rfl : us = vs := List.append_cancel_right (taken.rest.symm.trans taken'.rest)
  refine ⟨h.source, h.sound, us, taken, kept.node sort inside fun p hp => ?_⟩
  obtain ⟨o, ho, covers⟩ := sub p hp
  refine .trans ⟨?_, ?_⟩ covers
  · exact Place.le_trans (Place.earlier_le_left _ _) (drawn.first_le closed ho)
  · exact Place.le_trans (drawn.le_last closed ho) (Place.le_later_right _ _)

theorem nest (h : Drawn G [o] s₀ s) : Drawn G [⟨o.span, [o]⟩] s₀ s := by
  obtain ⟨us, taken, drawn⟩ := h.exists_taken
  have ho := List.mem_singleton_self o
  exact ⟨h.source, h.sound, us, taken, drawn.node (drawn.orderly o ho).sort (drawn.inside o ho)
    (List.forall_mem_singleton.2 (.refl _))⟩

theorem whole (closed : Span.Closed G) (h : Drawn G os s₀ s) :
    Outline.Orderly G ⟨s₀.span.merge s.previousSpan, os⟩ := by
  obtain ⟨us, taken, drawn⟩ := h.exists_taken
  refine .mk (closed.merge h.source.span (h.sound.previousSpan closed)) drawn.orderly
    (fun o ho => ?_) drawn.apart
  have inside := drawn.inside o ho
  refine ⟨Place.le_trans (Place.earlier_le_left _ _) ?_,
    Place.le_trans (le_previousSpan closed h.source taken inside).1 (Place.le_later_right _ _)⟩
  obtain ⟨t, ht, -, -, le, -⟩ := inside
  refine Place.le_trans ?_ le
  have sorts := h.source.tokens
  have ascending := h.source.ascending
  unfold Stream.span
  rw [taken.rest] at sorts ascending ⊢
  rcases us with _ | ⟨u, us⟩
  · cases ht
  · rcases List.mem_cons.1 ht with rfl | ht
    · exact Place.le_refl _
    · have before := (List.pairwise_cons.1 ascending).1 t (List.mem_append_left _ ht)
      have forward := closed.forward (sorts u List.mem_cons_self)
      exact Place.le_trans forward (Place.le_of_lt before)

end Drawn

namespace Parse

variable {G : Span → Prop} {s₀ : Stream}

/-- From where `P` holds to where `Q` holds. Without a result nothing is drawn. -/
structure Drawing (G : Span → Prop) (s₀ : Stream) (P : Stream → Prop) (p : Parse α)
    (Q : α → Stream → Prop) : Prop where
  gives : P s → p s = (some a, t) → Q a t
  fails : P s → p s = (none, t) → Drawn G [] s₀ t

namespace Drawing

variable {os : List Outline} {P : Stream → Prop} {Q : α → Stream → Prop} {R : β → Stream → Prop}
variable {p : Parse α} {f : α → Parse β}

theorem look (g : Stream → α) (h : ∀ s, P s → Q (g s) s) :
    Drawing G s₀ P (fun s => (some (g s), s)) Q where
  gives hs he := by
    cases he
    exact h _ hs
  fails _ he := by cases he

theorem sight (g : Stream → α) :
    Drawing G s₀ P (fun s => (some (g s), s)) fun a s => a = g s ∧ P s := look g fun _ h => ⟨rfl, h⟩

theorem glance (g : Stream → α) : Drawing G s₀ P (fun s => (some (g s), s)) fun _ => P :=
  look g fun _ h => h

protected theorem pure (h : ∀ s, P s → Q a s) : Drawing G s₀ P (pure a) Q := look (fun _ => a) h

protected theorem bind (hp : Drawing G s₀ P p Q) (hf : ∀ a, Drawing G s₀ (Q a) (f a) R) :
    Drawing G s₀ P (p >>= f) R where
  gives {s _ _} hs he := by
    rw [bind_apply] at he
    rcases ht : p s with ⟨_ | a, t⟩ <;> rw [ht] at he
    · cases he
    · exact (hf a).gives (hp.gives hs ht) he
  fails {s _} hs he := by
    rw [bind_apply] at he
    rcases ht : p s with ⟨_ | a, t⟩ <;> rw [ht] at he
    · cases he
      exact hp.fails hs ht
    · exact (hf a).fails (hp.gives hs ht) he

theorem pre {P' : Stream → Prop} (h : Drawing G s₀ P p Q) (hP : ∀ s, P' s → P s) :
    Drawing G s₀ P' p Q :=
  ⟨fun hs => h.gives (hP _ hs), fun hs => h.fails (hP _ hs)⟩

theorem post {Q' : α → Stream → Prop} (h : Drawing G s₀ P p Q) (hQ : ∀ a s, Q a s → Q' a s) :
    Drawing G s₀ P p Q' :=
  ⟨fun hs he => hQ _ _ (h.gives hs he), h.fails⟩

protected theorem map {g : α → β} (hp : Drawing G s₀ P p Q) (h : ∀ a s, Q a s → R (g a) s) :
    Drawing G s₀ P (g <$> p) R := by
  rw [map_eq_pure_bind]
  exact hp.bind fun a => .pure (h a)

theorem keep (h : Drawing G s₀ P p Q) (C : Prop) :
    Drawing G s₀ (fun s => P s ∧ C) p fun a s => Q a s ∧ C :=
  ⟨fun hs he => ⟨h.gives hs.1 he, hs.2⟩, fun hs => h.fails hs.1⟩

theorem refusal (problem : Problem) {here : Span} (h : ∀ s, P s → Drawn G [] s₀ s ∧ G here) :
    Drawing G s₀ P (do complain problem here; failure) Q where
  gives _ he := by cases he
  fails hs he := by
    cases he
    exact (h _ hs).1.complain problem (h _ hs).2

theorem refuse (problem : Problem) : Drawing G s₀ (Drawn G os s₀) (refuse problem) Q :=
  .bind (.sight Stream.span) fun _ => .refusal problem fun _ h => ⟨h.2.drop, h.1 ▸ h.2.sound.span⟩

theorem complain (problem : Problem) {here : Span} :
    Drawing G s₀ (fun s => Drawn G os s₀ s ∧ G here) (complain problem here)
      fun _ => Drawn G os s₀ where
  gives hs he := by
    cases he
    exact hs.1.complain problem hs.2
  fails _ he := by cases he

theorem advance : Drawing G s₀ (Drawn G os s₀) advance fun _ => Drawn G os s₀ where
  gives hs he := by
    cases he
    exact hs.advance
  fails _ he := by cases he

theorem take {k : Kind} {here : Span} (hne : k ≠ .eof) :
    Drawing G s₀ (fun s => here = s.span ∧ k = s.kind ∧ Drawn G os s₀ s) Parse.advance
      fun _ => Drawn G (os ++ [.leaf here]) s₀ where
  gives hs he := by
    cases he
    rw [hs.1]
    exact hs.2.2.advance_leaf (hs.2.1 ▸ hne)
  fails _ he := by cases he

theorem opening {k : Kind} {f : Span → Parse β} (hne : k ≠ .eof)
    (hf : ∀ start, Drawing G s₀ (Drawn G (os ++ [.leaf start]) s₀) (f start) R) :
    Drawing G s₀ (fun s => k = s.kind ∧ Drawn G os s₀ s)
      (do
        let start ← span
        Parse.advance
        f start) R :=
  .bind (.sight Stream.span) fun start => (take hne).bind fun _ => hf start

theorem eat (s : Symbol) : Drawing G s₀ (Drawn G os s₀) (eat s) fun _ => Drawn G os s₀ := by
  refine .bind (.glance fun t => t.kind.isSymbol s) fun b => ?_
  cases b with
  | true => exact advance.bind fun _ => .pure fun _ h => h
  | false => exact .pure fun _ h => h

theorem ifEaten {s : Symbol} {A B : Parse β} (hA : Drawing G s₀ (Drawn G os s₀) A R)
    (hB : Drawing G s₀ (Drawn G os s₀) B R) :
    Drawing G s₀ (Drawn G os s₀) (do if ← Parse.eat s then A else B) R := by
  refine (eat s).bind fun b => ?_
  cases b with
  | true => exact hA
  | false => exact hB

theorem expectKind (present : Kind → Bool) (wanted : String) :
    Drawing G s₀ (Drawn G os s₀) (expectKind present wanted) fun _ => Drawn G os s₀ := by
  refine .bind (.glance Stream.kind) fun k => ?_
  split
  · exact .bind (.glance Stream.span) fun _ => advance.bind fun _ => .pure fun _ h => h
  · exact .refuse _

theorem expectKindAt {present : Kind → Bool} (absent : present .eof = false) (wanted : String)
    {here : Span} : Drawing G s₀ (fun s => here = s.span ∧ Drawn G os s₀ s)
      (Parse.expectKind present wanted) fun _ => Drawn G (os ++ [.leaf here]) s₀ := by
  refine .bind (.sight Stream.kind) fun k => ?_
  split
  · next there =>
    have hne : k ≠ .eof := by
      rintro rfl
      exact absurd there (by simp [absent])
    refine .bind (.glance Stream.span) fun _ => ((take hne).pre fun s h => ?_).bind fun _ =>
      .pure fun _ h => h
    exact ⟨h.2.1, h.1, h.2.2⟩
  · exact (refuse _).pre fun s h => h.2.2

theorem expect (s : Symbol) : Drawing G s₀ (Drawn G os s₀) (expect s) fun _ => Drawn G os s₀ :=
  expectKind _ _

theorem expectClosing (s : Symbol) (opened : Span) :
    Drawing G s₀ (Drawn G os s₀) (expectClosing s opened) fun _ => Drawn G os s₀ :=
  ifEaten (.pure fun _ h => h) <|
    .bind (.glance Stream.kind) fun _ => .bind (.glance id) fun _ => .refuse _

theorem endStatement :
    Drawing G s₀ (Drawn G os s₀) endStatement fun _ => Drawn G os s₀ := by
  refine .ifEaten (.pure fun _ h => h) (.bind (.sight id) fun s => ?_)
  split
  · exact .pure fun _ h => h.2
  · refine (complain _).pre fun t h => ?_
    obtain ⟨rfl, h⟩ := h
    exact ⟨h, h.sound.span⟩

end Drawing

def Draws (G : Span → Prop) (p : Parse α) (out : α → List Outline) : Prop :=
  ∀ s₀, Drawing G s₀ (Drawn G [] s₀) p fun a => Drawn G (out a) s₀

namespace Draws

variable {os : List Outline} {p : Parse α} {out : α → List Outline}

theorem drawing (h : Draws G p out) :
    Drawing G s₀ (Drawn G os s₀) p fun a => Drawn G (os ++ out a) s₀ where
  gives {s _ _} hs he := hs.trans ((h s).gives (.refl hs.sound) he)
  fails {s _} hs he := by simpa using hs.drop.trans ((h s).fails (.refl hs.sound) he)

protected theorem attempt (h : Draws G p out) : Draws G (attempt p) (·.elim [] out) := fun s₀ => by
  constructor
  · intro s o t hs he
    simp only [Parse.attempt] at he
    rcases hp : p s with ⟨_ | a, u⟩ <;> rw [hp] at he <;> cases he
    · exact ((h s₀).fails hs hp).recover _
    · exact (h s₀).gives hs hp
  · intro s t _ he
    simp only [Parse.attempt] at he
    rcases hp : p s with ⟨_ | a, u⟩ <;> rw [hp] at he <;> cases he

protected theorem commaRounds (h : Draws G p out) :
    ∀ n, Draws G (commaRounds p n) (·.flatMap out)
  | 0 => fun s₀ => h.drawing.bind fun a => .pure fun _ ha => by simpa using ha
  | n + 1 => fun s₀ => h.drawing.bind fun a => by
    refine .ifEaten ?_ (.pure fun _ ha => by simpa using ha)
    exact (h.commaRounds n).drawing.bind fun as => .pure fun _ has => by simpa using has

protected theorem commaList (h : Draws G p out) : Draws G (commaList p) (·.flatMap out) :=
  fun s₀ => .bind (.glance fun s => s.rest.length) fun n => h.commaRounds n s₀

protected theorem argumentRounds {p : Parse Expr} {out : Expr → List Outline} (h : Draws G p out) :
    ∀ n, Draws G (argumentRounds p n) (·.flatMap out)
  | 0 => fun s₀ => .pure fun _ h => h
  | n + 1 => fun s₀ => by
    refine .bind (.glance fun s => s.kind.isSymbol .closeParen) fun closes => ?_
    split
    · exact .pure fun _ h => h
    refine h.drawing.bind fun a => .ifEaten ?_ (.pure fun _ ha => by simpa using ha)
    exact (h.argumentRounds n).drawing.bind fun as => .pure fun _ has => by simpa using has

protected theorem arguments {p : Parse Expr} {out : Expr → List Outline} (h : Draws G p out)
    (opened : Span) : Draws G (arguments p opened) (·.flatMap out) := fun s₀ =>
  .bind (.glance fun s => s.rest.length) fun n => (h.argumentRounds (n + 1) s₀).bind fun _ =>
    (Drawing.expectClosing .closeParen opened).bind fun _ => .pure fun _ h => h

protected theorem blockRounds {p : Parse Stmt} {out : Stmt → List Outline} (h : Draws G p out) :
    ∀ n, Draws G (blockRounds p n) (·.flatMap out)
  | 0 => fun s₀ => .pure fun _ h => h
  | n + 1 => fun s₀ => by
    refine .bind (.glance id) fun _ => ?_
    split
    · exact .pure fun _ h => h
    refine h.attempt.drawing.bind fun o => ?_
    cases o with
    | none => exact h.blockRounds n s₀
    | some a =>
      exact (h.blockRounds n).drawing.bind fun as => .pure fun _ has => by simpa using has

end Draws

end Parse

end Spellcraft
