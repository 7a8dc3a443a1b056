import Spellcraft.Proofs.Language.Results
import Spellcraft.Proofs.Language.Shape

/-!
What a parser does to the stream. It only ever adds to the report, and has added to it when it gives
nothing. Where it has added nothing, it took from the stream what its result writes, up to the marks
that may be left out.
-/

namespace Spellcraft

namespace Report

structure Grows (r s : Report α) : Prop where
  kept : r.kept <+: s.kept
  total : r.total ≤ s.total

namespace Grows

theorem refl (r : Report α) : r.Grows r := ⟨List.prefix_refl _, Nat.le_refl _⟩

theorem trans {r s t : Report α} (h : r.Grows s) (k : s.Grows t) : r.Grows t :=
  ⟨h.kept.trans k.kept, Nat.le_trans h.total k.total⟩

theorem push (r : Report α) (a : α) : r.Grows (r.push a) where
  kept := by
    simp only [Report.push]
    split
    · exact List.prefix_append _ _
    · exact List.prefix_refl _
  total := Nat.le_succ _

end Grows

theorem total_foldl_push (as : List α) (r : Report α) :
    (as.foldl push r).total = r.total + as.length := by
  induction as generalizing r with
  | nil => rfl
  | cons a as ih =>
    rw [List.foldl_cons, ih, push, List.length_cons]
    simp only
    omega

theorem isClean_of_extend {r s : Report α} (h : (r.extend s).isClean = true) :
    r.isClean = true ∧ s.isClean = true := by
  simp only [isClean, extend, total_foldl_push, decide_eq_true_eq] at h ⊢
  omega

end Report

theorem Stream.report_advance (s : Stream) : s.advance.report = s.report := by
  unfold advance
  split <;> rfl

theorem Stream.report_resync (s : Stream) : s.resync.report = s.report := by
  fun_induction resync s with
  | case1 => rfl
  | case2 s => exact s.report_advance
  | case3 => rfl
  | case4 s _ _ _ _ _ ih => rw [ih, s.report_advance]

theorem Stream.report_recover (s : Stream) (n : Nat) : (s.recover n).report = s.report := by
  simp only [recover]
  split
  · rw [report_advance, report_resync]
  · exact s.report_resync

namespace Parse

/-- It has told why when it gives nothing. -/
structure Honest (p : Parse α) : Prop where
  grows (s : Stream) : s.report.Grows (p s).2.report
  speaks (s : Stream) : (p s).1 = none → s.report.total < (p s).2.report.total

namespace Honest

variable {p : Parse α} {f : α → Parse β}

theorem look (g : Stream → α) : Honest (fun s => (some (g s), s)) :=
  ⟨fun _ => .refl _, nofun⟩

protected theorem pure (a : α) : Honest (pure a : Parse α) := look fun _ => a

protected theorem bind (hp : Honest p) (hf : ∀ a, Honest (f a)) : Honest (p >>= f) := by
  constructor
  · intro s
    have := hp.grows s
    rw [bind_apply]
    rcases hs : p s with ⟨_ | a, t⟩ <;> rw [hs] at this
    · exact this
    · exact this.trans ((hf a).grows t)
  · intro s h
    have first := hp.grows s
    have spoken := hp.speaks s
    rw [bind_apply] at h ⊢
    rcases hs : p s with ⟨_ | a, t⟩ <;> rw [hs] at first spoken h
    · exact spoken rfl
    · exact Nat.lt_of_le_of_lt first.total ((hf a).speaks t h)

protected theorem map {g : α → β} (hp : Honest p) : Honest (g <$> p) := by
  rw [map_eq_pure_bind]
  exact hp.bind fun a => .pure _

theorem advance : Honest advance :=
  ⟨fun s => s.report_advance ▸ .refl _, nofun⟩

theorem complain (problem : Problem) (span : Span) : Honest (complain problem span) :=
  ⟨fun _ => .push _ _, nofun⟩

theorem refusal (problem : Problem) (span : Span) :
    Honest (do Parse.complain problem span; failure : Parse α) :=
  ⟨fun _ => .push _ _, fun _ _ => Nat.lt_succ_self _⟩

theorem refuse (problem : Problem) : Honest (refuse problem : Parse α) :=
  (look Stream.span).bind fun here => refusal problem here

protected theorem attempt (hp : Honest p) : Honest (attempt p) := by
  constructor
  · intro s
    have := hp.grows s
    simp only [Parse.attempt]
    rcases hs : p s with ⟨_ | a, t⟩ <;> rw [hs] at this
    · exact (t.report_recover _).symm ▸ this
    · exact this
  · intro s h
    simp only [Parse.attempt] at h
    rcases hs : p s with ⟨_ | a, t⟩ <;> rw [hs] at h <;> cases h

end Honest

/-- From where `P` holds to where `Q` holds, unless there was something to report. -/
structure Triple (P : Stream → Prop) (p : Parse α) (Q : α → Stream → Prop) : Prop
    extends Honest p where
  gives : P s → p s = (some a, t) → t.report.total = s.report.total → Q a t

namespace Triple

variable {P : Stream → Prop} {Q : α → Stream → Prop} {R : β → Stream → Prop}
variable {p : Parse α} {f : α → Parse β}

theorem look (g : Stream → α) (h : ∀ s, P s → Q (g s) s) :
    Triple P (fun s => (some (g s), s)) Q where
  toHonest := .look g
  gives hs he _ := by
    cases he
    exact h _ hs

theorem sight (g : Stream → α) : Triple P (fun s => (some (g s), s)) fun a s => a = g s ∧ P s :=
  look g fun _ h => ⟨rfl, h⟩

theorem glance (g : Stream → α) : Triple P (fun s => (some (g s), s)) fun _ => P :=
  look g fun _ h => h

protected theorem pure (h : ∀ s, P s → Q a s) : Triple P (pure a) Q := look (fun _ => a) h

protected theorem bind (hp : Triple P p Q) (hf : ∀ a, Triple (Q a) (f a) R) :
    Triple P (p >>= f) R where
  toHonest := hp.toHonest.bind fun a => (hf a).toHonest
  gives {s b u} hs he clean := by
    rw [bind_apply] at he
    have first := hp.grows s
    rcases ht : p s with ⟨_ | a, t⟩ <;> rw [ht] at he first
    · cases he
    · have second := (hf a).grows t
      dsimp only at he first
      rw [he] at second
      have := first.total
      have : t.report.total ≤ u.report.total := second.total
      exact (hf a).gives (hp.gives hs ht (by omega)) he (by omega)

theorem pre {P' : Stream → Prop} (h : Triple P p Q) (hP : ∀ s, P' s → P s) : Triple P' p Q where
  toHonest := h.toHonest
  gives hs := h.gives (hP _ hs)

theorem post {Q' : α → Stream → Prop} (h : Triple P p Q) (hQ : ∀ a s, Q a s → Q' a s) :
    Triple P p Q' where
  toHonest := h.toHonest
  gives hs he clean := hQ _ _ (h.gives hs he clean)

protected theorem map {g : α → β} (hp : Triple P p Q) (h : ∀ a s, Q a s → R (g a) s) :
    Triple P (g <$> p) R := by
  rw [map_eq_pure_bind]
  exact hp.bind fun a => .pure (h a)

theorem counted (h : Triple P p Q) (n : Nat) :
    Triple (fun s => P s ∧ s.report.total = n) p fun a s => Q a s ∧ s.report.total = n where
  toHonest := h.toHonest
  gives hs he clean := ⟨h.gives hs.1 he clean, clean.trans hs.2⟩

theorem never (hp : Honest p) (h : ∀ s, ¬ P s) : Triple P p Q where
  toHonest := hp
  gives hs := (h _ hs).elim

theorem refuse (problem : Problem) : Triple P (refuse problem) Q where
  toHonest := .refuse problem
  gives _ he _ := by cases he

theorem refusal (problem : Problem) (span : Span) :
    Triple P (do complain problem span; failure) Q where
  toHonest := .refusal problem span
  gives _ he _ := by cases he

theorem complain {Q : Unit → Stream → Prop} (problem : Problem) (span : Span) :
    Triple P (complain problem span) Q where
  toHonest := .complain problem span
  gives _ he clean := by
    cases he
    exact absurd clean (Nat.succ_ne_self _)

protected theorem attempt (hp : Triple P p Q) :
    Triple P (attempt p) fun o s => ∃ a, o = some a ∧ Q a s where
  toHonest := hp.toHonest.attempt
  gives {s o t} hs he clean := by
    have spoken := hp.speaks s
    simp only [Parse.attempt] at he
    rcases hp' : p s with ⟨_ | a, u⟩ <;> rw [hp'] at he spoken <;> cases he
    · rw [Stream.report_recover] at clean
      exact absurd clean (Nat.ne_of_gt (spoken rfl))
    · exact ⟨a, rfl, hp.gives hs hp' clean⟩

end Triple

end Parse

def Stream.kinds (s : Stream) : List Kind := s.rest.map Token.kind

/-- From `s` to `t` the stream gave `w`, up to marks. -/
structure Took (w : List Kind) (s t : Stream) : Prop where
  left : skeleton s.kinds = skeleton w ++ skeleton t.kinds
  le : t.rest.length ≤ s.rest.length
  lt : w ≠ [] → t.rest.length < s.rest.length

namespace Took

theorem refl (s : Stream) : Took [] s s := ⟨rfl, Nat.le_refl _, fun h => absurd rfl h⟩

theorem trans (h : Took v s t) (k : Took w t u) : Took (v ++ w) s u where
  left := by rw [h.left, k.left, skeleton_append, List.append_assoc]
  le := Nat.le_trans k.le h.le
  lt hne := by
    by_cases hv : v = []
    · exact Nat.lt_of_lt_of_le (k.lt fun hw => hne (by simp [hv, hw])) h.le
    · exact Nat.lt_of_le_of_lt k.le (h.lt hv)

theorem cast (h : Took v s t) (same : skeleton w = skeleton v) (hne : w ≠ [] → v ≠ []) :
    Took w s t :=
  ⟨same ▸ h.left, h.le, fun hw => h.lt (hne hw)⟩

theorem advance (hk : k = s.kind) (hne : k ≠ .eof) : Took [k] s s.advance := by
  subst hk
  unfold Stream.kind at hne ⊢
  rcases hs : s.rest with _ | ⟨t, rest⟩ <;> rw [hs] at hne
  · exact absurd rfl hne
  · refine ⟨?_, ?_, fun _ => ?_⟩
    · simpa [Stream.kinds, Stream.advance, hs] using skeleton_cons _ _
    · simp [Stream.advance, hs]
    · simp [Stream.advance, hs]

end Took

theorem Kind.eq_of_isSymbol {k : Kind} (h : k.isSymbol s = true) : k = .symbol s := by
  cases k <;> simp_all [isSymbol]

theorem Kind.eq_of_isKeyword {k : Kind} (h : k.isKeyword w = true) : k = .keyword w := by
  cases k <;> simp_all [isKeyword]

namespace Parse

/-- A parser takes what its result writes. -/
structure Reads (p : Parse α) (w : α → List Kind) (G : α → Prop) : Prop extends Honest p where
  takes : p s = (some a, t) → t.report.total = s.report.total → Took (w a) s t ∧ G a

variable {w : α → List Kind} {G : α → Prop} {C : Prop} {p : Parse α} {s₀ : Stream} {v : List Kind}

theorem Reads.triple (h : Reads p w G) :
    Triple (fun s => Took v s₀ s ∧ C) p fun a s => Took (v ++ w a) s₀ s ∧ G a ∧ C where
  toHonest := h.toHonest
  gives hs he clean :=
    have ⟨took, good⟩ := h.takes he clean
    ⟨hs.1.trans took, good, hs.2⟩

theorem Honest.of_triple {Q : Stream → α → Stream → Prop}
    (h : ∀ s₀, Triple (fun s => Took [] s₀ s ∧ True) p (Q s₀)) : Honest p :=
  (h (.ofTokens [])).toHonest

theorem Reads.of_triple
    (h : ∀ s₀, Triple (fun s => Took [] s₀ s ∧ True) p fun a s => Took (w a) s₀ s ∧ G a) :
    Reads p w G where
  toHonest := .of_triple h
  takes {s _ _} he clean := (h s).gives ⟨.refl s, trivial⟩ he clean

namespace Triple

variable {A B : Parse β} {Q : β → Stream → Prop}

theorem take (k : Kind) (hne : k ≠ .eof) :
    Triple (fun s => k = s.kind ∧ Took v s₀ s ∧ C) advance
      fun _ s => Took (v ++ [k]) s₀ s ∧ C where
  toHonest := .advance
  gives hs he _ := by
    cases he
    exact ⟨hs.2.1.trans (.advance hs.1 hne), hs.2.2⟩

theorem takeKeyword (w : Keyword) :
    Triple (fun s => .keyword w = s.kind ∧ Took v s₀ s ∧ C) advance
      fun _ s => Took (v ++ [.keyword w]) s₀ s ∧ C := take (.keyword w) (by simp)

theorem takeSymbol (a : Symbol) :
    Triple (fun s => .symbol a = s.kind ∧ Took v s₀ s ∧ C) advance
      fun _ s => Took (v ++ [.symbol a]) s₀ s ∧ C := take (.symbol a) (by simp)

theorem eat (s : Symbol) : Triple (fun t => Took v s₀ t ∧ C) (eat s)
    fun b t => Took (if b then v ++ [.symbol s] else v) s₀ t ∧ C := by
  refine .bind (.sight fun t => t.kind.isSymbol s) fun b => ?_
  cases b with
  | true =>
    refine .bind (.pre (.takeSymbol s) fun t h => ?_) fun _ => .pure fun t h => h
    exact ⟨(Kind.eq_of_isSymbol h.1.symm).symm, h.2⟩
  | false => exact .pure fun t h => h.2

theorem ifEaten {s : Symbol} (hA : Triple (fun t => Took (v ++ [.symbol s]) s₀ t ∧ C) A Q)
    (hB : Triple (fun t => Took v s₀ t ∧ C) B Q) :
    Triple (fun t => Took v s₀ t ∧ C) (do if ← Parse.eat s then A else B) Q := by
  refine (eat s).bind fun b => ?_
  cases b with
  | true => exact hA
  | false => exact hB

theorem expectKind (present : Kind → Bool) (absent : present .eof = false) (wanted : String) :
    Triple (fun s => Took v s₀ s ∧ C) (expectKind present wanted)
      fun _ s => ∃ k, present k = true ∧ Took (v ++ [k]) s₀ s ∧ C := by
  refine .bind (.sight Stream.kind) fun k => ?_
  split
  · next there =>
    have hne : k ≠ .eof := by
      rintro rfl
      exact absurd there (by simp [absent])
    refine .bind (.glance Stream.span) fun _ => .bind (.take k hne) fun _ => .pure fun s h => ?_
    exact ⟨k, there, h⟩
  · exact .refuse _

theorem expect (s : Symbol) :
    Triple (fun t => Took v s₀ t ∧ C) (expect s) fun _ t => Took (v ++ [.symbol s]) s₀ t ∧ C := by
  refine (expectKind (·.isSymbol s) rfl s.text).post fun _ t h => ?_
  obtain ⟨k, hk, h⟩ := h
  rwa [Kind.eq_of_isSymbol hk] at h

theorem expectKeyword (w : Keyword) :
    Triple (fun t => Took v s₀ t ∧ C) (expectKeyword w)
      fun _ t => Took (v ++ [.keyword w]) s₀ t ∧ C := by
  refine (expectKind (·.isKeyword w) rfl w.text).post fun _ t h => ?_
  obtain ⟨k, hk, h⟩ := h
  rwa [Kind.eq_of_isKeyword hk] at h

theorem expectClosing (s : Symbol) (opened : Span) :
    Triple (fun t => Took v s₀ t ∧ C) (expectClosing s opened)
      fun _ t => Took (v ++ [.symbol s]) s₀ t ∧ C :=
  ifEaten (.pure fun _ h => h) <|
    .bind (.glance Stream.kind) fun _ => .bind (.glance id) fun _ => .refuse _

theorem spared (hv : v ≠ []) (h : Took v s₀ t) : Took (v ++ semicolon) s₀ t :=
  h.cast (by simp [semicolon]) fun _ => hv

theorem endStatement (hv : v ≠ []) :
    Triple (fun t => Took v s₀ t ∧ C) endStatement fun _ t => Took (v ++ semicolon) s₀ t ∧ C := by
  refine .ifEaten (.pure fun _ h => h) (.bind (.glance id) fun s => ?_)
  split
  · exact .pure fun _ h => ⟨spared hv h.1, h.2⟩
  · exact .complain _ _

end Triple

namespace Reads

protected theorem commaRounds (hp : Reads p w G) :
    ∀ n, Reads (commaRounds p n) (·.flatMap w) (∀ a ∈ ·, G a)
  | 0 => .of_triple fun _ => hp.triple.bind fun a => .pure fun _ h => by
    simpa using ⟨h.1, h.2.1⟩
  | n + 1 => .of_triple fun _ => hp.triple.bind fun a => by
    refine .ifEaten ?_ (.pure fun _ h => by simpa using ⟨h.1, h.2.1⟩)
    refine .bind (.pre (hp.commaRounds n).triple fun _ h => ⟨h.1, h.2.1⟩) fun as =>
      .pure fun _ h => ?_
    exact ⟨h.1.cast (by simp) (by simp), List.forall_mem_cons.2 ⟨h.2.2, h.2.1⟩⟩

protected theorem argumentRounds {w : Expr → List Kind} {G : Expr → Prop} {p : Parse Expr}
    (hp : Reads p w G) : ∀ n, Reads (argumentRounds p n) (·.flatMap w) (∀ a ∈ ·, G a)
  | 0 => .of_triple fun _ => .pure fun _ h => ⟨h.1, List.forall_mem_nil _⟩
  | n + 1 => .of_triple fun _ => by
    refine .bind (.glance fun s => s.kind.isSymbol .closeParen) fun closes => ?_
    split
    · exact .pure fun _ h => ⟨h.1, List.forall_mem_nil _⟩
    refine hp.triple.bind fun a => ?_
    refine .ifEaten ?_ (.pure fun _ h => by simpa using ⟨h.1, h.2.1⟩)
    refine .bind (.pre (hp.argumentRounds n).triple fun _ h => ⟨h.1, h.2.1⟩) fun as =>
      .pure fun _ h => ?_
    exact ⟨h.1.cast (by simp) (by simp), List.forall_mem_cons.2 ⟨h.2.2, h.2.1⟩⟩

protected theorem blockRounds {w : Stmt → List Kind} {G : Stmt → Prop} {p : Parse Stmt}
    (hp : Reads p w G) : ∀ n, Reads (blockRounds p n) (·.flatMap w) (∀ a ∈ ·, G a)
  | 0 => .of_triple fun _ => .pure fun _ h => ⟨h.1, List.forall_mem_nil _⟩
  | n + 1 => .of_triple fun s₀ => by
    refine .bind (.glance id) fun _ => ?_
    split
    · exact .pure fun _ h => ⟨h.1, List.forall_mem_nil _⟩
    refine hp.triple.attempt.bind fun o => ?_
    cases o with
    | none => exact .never (hp.blockRounds n).toHonest fun _ h => nomatch h
    | some a =>
      have rest : Triple (fun s => Took (w a) s₀ s ∧ G a) (Parse.blockRounds p n) _ :=
        (hp.blockRounds n).triple
      refine (rest.pre fun s h => ?_).bind fun as => .pure fun s h => ?_
      · obtain ⟨_, ⟨⟩, took, good, _⟩ := h
        exact ⟨took, good⟩
      · exact ⟨by simpa using h.1, List.forall_mem_cons.2 ⟨h.2.2, h.2.1⟩⟩

end Reads

theorem Triple.listed {as : List α} (hv : v ≠ []) (h : Took (v ++ as.flatMap w) s₀ t) :
    Took (v ++ commas (as.map w)) s₀ t :=
  h.cast (by simp [skeleton_commas, List.flatMap]) (by simp [hv])

theorem Triple.commaList (hp : Reads p w G) (hv : v ≠ []) :
    Triple (fun s => Took v s₀ s ∧ C) (commaList p)
      fun as s => Took (v ++ commas (as.map w)) s₀ s ∧ (∀ a ∈ as, G a) ∧ C :=
  .bind (.glance fun s => s.rest.length) fun n => (hp.commaRounds n).triple.post fun _ _ h =>
    ⟨listed hv h.1, h.2⟩

theorem Triple.arguments {p : Parse Expr} {w : Expr → List Kind} {G : Expr → Prop}
    (hp : Reads p w G) (hv : v ≠ []) (opened : Span) :
    Triple (fun s => Took v s₀ s ∧ C) (arguments p opened) fun as s =>
      Took (v ++ commas (as.map w) ++ [.symbol .closeParen]) s₀ s ∧ (∀ a ∈ as, G a) ∧ C :=
  .bind (.glance fun s => s.rest.length) fun n =>
    ((hp.argumentRounds (n + 1)).triple.post fun _ _ h => ⟨listed hv h.1, h.2⟩).bind fun _ =>
    (Triple.expectClosing .closeParen opened).bind fun _ => .pure fun _ h => h

end Parse

end Spellcraft
