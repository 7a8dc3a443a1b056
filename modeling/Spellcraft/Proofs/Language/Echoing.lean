import Spellcraft.Proofs.Language.Completing
import Spellcraft.Proofs.Language.Rounds

/-!
Two runs of one parser, the second on a stream in which semicolons were put. The first decides what
is put in, since it knows where statements end; a scribe follows it. So the second run is built from
the back: each part says what it needs to find behind the tokens that it takes.
-/

namespace Spellcraft

/-- How two runs compare between two parts of a rule: what is ahead, which the later part has to see
to, and what is behind. -/
structure Point where
  heads : List Token → List Token → Prop
  behind : Stream → Stream → Prop

namespace Point

def outset : Point := ⟨fun ts us => us.head? = ts.head?, fun _ _ => True⟩

def agree (n : Nat) : Point :=
  ⟨fun ts us => us.take n = ts.take n, fun s t => t.previous = s.previous⟩

/-- Where an expression may end: the second run may find a semicolon. -/
def brink : Point :=
  ⟨fun ts us => us.head? = ts.head? ∨ us.head?.map Token.kind = some (.symbol .semicolon),
    fun s t => t.previous = s.previous⟩

/-- A part that ends at `L` may be followed by one that begins at `M`. -/
class Leads (L M : Point) : Prop where
  heads {ts us : List Token} : M.heads ts us → L.heads ts us
  behind {s t : Stream} : L.behind s t → M.behind s t

variable {L : Point} {n : Nat}

instance : L.Leads L := ⟨id, id⟩

instance : (agree 0).Leads outset := ⟨fun _ => rfl, fun _ => trivial⟩

instance : (agree 0).Leads brink := ⟨fun _ => rfl, id⟩

instance : (agree 0).Leads (agree n) := ⟨fun _ => rfl, id⟩

instance : (agree 1).Leads outset where
  heads {ts us} h := by
    have h : us.head? = ts.head? := h
    show us.take 1 = ts.take 1
    rw [List.take_one, List.take_one, h]
  behind _ := trivial

theorem head_of_take {ts us : List Token} (h : us.take (n + 1) = ts.take (n + 1)) :
    us.head? = ts.head? := by
  have := congrArg List.head? h
  rwa [List.head?_take, List.head?_take, if_neg (Nat.succ_ne_zero n)] at this

instance : brink.Leads outset := ⟨.inl, fun _ => trivial⟩

instance : brink.Leads (agree (n + 1)) := ⟨fun h => .inl (head_of_take h), id⟩

class Firm (L : Point) : Prop where
  heads {ts us : List Token} : L.heads ts us → us.head? = ts.head?

instance : outset.Firm := ⟨id⟩

instance : (agree (n + 1)).Firm := ⟨head_of_take⟩

theorem Firm.kind [L.Firm] {s t : Stream} (h : L.heads s.rest t.rest) : t.kind = s.kind := by
  rw [Stream.kind, Stream.kind, Firm.heads h]

class Next (L M : Point) : Prop where
  heads {ts us : List Token} : M.heads ts us → ∀ t, L.heads (t :: ts) (t :: us)
  behind {s t : Stream} : t.previous = s.previous → M.behind s t

instance : outset.Next (agree 0) := ⟨fun _ _ => rfl, id⟩

instance : (agree (n + 1)).Next (agree n) := ⟨fun h t => congrArg (t :: ·) h, id⟩

end Point

theorem Stream.advance_cons {s : Stream} {ts : List Token} (h : s.rest = t :: ts) :
    s.advance = { s with previous := some t.span, rest := ts } := by
  rw [advance]
  split
  · next none => cases h.symm.trans none
  · next some =>
    cases h.symm.trans some
    rfl

theorem Scribe.kind_eq {k : Scribe} {s : Stream} (h : k.rest = s.rest) : s.kind = k.kind := by
  rw [Stream.kind, Scribe.kind, h]

namespace Parse

variable {α β γ δ ε : Type}

/-- From `s` to `t` the one run gave `a`; from any stream that begins with `us` the other does so. -/
structure Echoed (L : Point) (q : Parse α) (e : α → γ) (M : Point) (s : Stream) (a : α) (t : Stream)
    (us : List Token) : Prop where
  heads {vs : List Token} : M.heads t.rest vs → L.heads s.rest (us ++ vs)
  again {s' : Stream} {vs : List Token} : s'.rest = us ++ vs → L.behind s s' →
    s'.report.total = s.report.total → M.heads t.rest vs →
    ∃ a' t', q s' = (some a', t') ∧ e a' = e a ∧ t'.rest = vs ∧ M.behind t t' ∧
      t'.report.total = t.report.total

/-- Where the one run has nothing to report, the scribe says what the other has to find, and the
other gives the same up to `e`. The scribe stands at `k`, and `A` is what is known there. -/
structure Echo (A : Prop) (k : Scribe) (L : Point) (p q : Parse α) (e : α → γ) (out : α → Scribe)
    (M : Point) : Prop extends Honest p where
  gives {s : Stream} {a : α} {t : Stream} : A → k.rest = s.rest → p s = (some a, t) →
    t.report.total = s.report.total →
    ∃ us, out a = ⟨t.rest, k.copy ++ us⟩ ∧ Echoed L q e M s a t us

namespace Echo

variable {A B : Prop} {k k' : Scribe} {K L M N P : Point} {p q : Parse α} {f g : α → Parse β}
variable {e : α → γ} {e' : β → δ} {out : α → Scribe} {out' : β → Scribe}

theorem never (honest : Honest p)
    (h : ∀ s a t, A → k.rest = s.rest → p s = (some a, t) → t.report.total ≠ s.report.total) :
    Echo A k L p q e out M :=
  ⟨honest, fun hA hk he clean => absurd clean (h _ _ _ hA hk he)⟩

theorem fruitless (honest : Honest p) (h : ∀ s, (p s).1 = none) : Echo A k L p q e out M :=
  .never honest fun s _ _ _ _ he => by
    have := h s
    rw [he] at this
    cases this

theorem void (honest : Honest p) (h : ¬ A) : Echo A k L p q e out M :=
  .never honest fun _ _ _ hA => absurd hA h

theorem given (h : Echo B k L p q e out M) (hB : A → B) : Echo A k L p q e out M :=
  ⟨h.toHonest, fun hA => h.gives (hB hA)⟩

theorem lead [leads : L.Leads K] [leads' : M.Leads N] (h : Echo A k K p q e out M) :
    Echo A k L p q e out N where
  toHonest := h.toHonest
  gives hA hk he clean := by
    obtain ⟨us, copied, echoed⟩ := h.gives hA hk he clean
    refine ⟨us, copied, fun hv => leads.heads (echoed.heads (leads'.heads hv)), ?_⟩
    intro s' vs hs behind quiet hv
    obtain ⟨a', t', he', ha, ht, behind, quiet⟩ :=
      echoed.again hs (leads.behind behind) quiet (leads'.heads hv)
    exact ⟨a', t', he', ha, ht, leads'.behind behind, quiet⟩

theorem stay [leads : L.Leads M] {g g' : Stream → α} (h : A → ∀ s s', k.rest = s.rest →
    L.behind s s' → e (g' s') = e (g s)) (copied : A → ∀ a, out a = k) :
    Echo A k L (fun s => (some (g s), s)) (fun s => (some (g' s), s)) e out M where
  toHonest := .look g
  gives {s _ _} hA hk he _ := by
    cases he
    refine ⟨[], ?_, leads.heads, fun {s' vs} hs behind quiet _ => ?_⟩
    · rw [copied hA, List.append_nil, ← hk]
    · exact ⟨_, s', rfl, h hA s s' hk behind, hs, leads.behind behind, quiet⟩

theorem pure [L.Leads M] {a a' : α} (h : A → e a' = e a ∧ out a = k) :
    Echo A k L (pure a) (pure a') e out M where
  toHonest := .pure a
  gives {s _ _} hA hk he clean := by
    cases he
    have same : Echo A k L (fun s => (some a, s)) (fun s => (some a', s)) e (fun _ => k) M :=
      .stay (fun hA _ _ _ _ => (h hA).1) fun _ _ => rfl
    obtain ⟨us, copied, echoed⟩ := same.gives hA hk rfl clean
    exact ⟨us, (h hA).2.trans copied, echoed⟩

theorem bindWith [leads : L.Leads K] {B : α → Prop} (hp : Echo A k K p q e out M)
    (know : ∀ s a t, A → k.rest = s.rest → p s = (some a, t) → t.report.total = s.report.total → B a)
    (hf : ∀ a a', e a' = e a → Echo (B a) (out a) M (f a) (g a') e' out' N) :
    Echo A k L (p >>= f) (q >>= g) e' out' N where
  toHonest := hp.toHonest.bind fun a => (hf a a rfl).toHonest
  gives {s b u} hA hk he clean := by
    rw [bind_apply] at he
    have first := (hp.grows s).total
    rcases ht : p s with ⟨_ | a, t⟩ <;> rw [ht] at he first
    · cases he
    have second := ((hf a a rfl).grows t).total
    dsimp only at he first
    rw [he] at second
    have between : t.report.total = s.report.total := Nat.le_antisymm (clean ▸ second) first
    have hB := know s a t hA hk ht between
    obtain ⟨us, copied, echoed⟩ := hp.gives hA hk ht between
    have there : (out a).rest = t.rest := by rw [copied]
    obtain ⟨vs, copied', echoed'⟩ := (hf a a rfl).gives hB there he (clean.trans between.symm)
    refine ⟨us ++ vs, ?_, fun {ws} hw => ?_, fun {s' ws} hs behind quiet hw => ?_⟩
    · rw [copied', copied, List.append_assoc]
    · rw [List.append_assoc]
      exact leads.heads (echoed.heads (echoed'.heads hw))
    · rw [List.append_assoc] at hs
      obtain ⟨a', t', ha', same, ht', behind, quiet⟩ :=
        echoed.again hs (leads.behind behind) quiet (echoed'.heads hw)
      obtain ⟨vs', copied'', echoed''⟩ := (hf a a' same).gives hB there he (clean.trans between.symm)
      -- the scribe copies the same, whatever the other run has given
      obtain rfl : vs = vs' := by
        rw [copied'] at copied''
        exact List.append_cancel_left (congrArg Scribe.copy copied'')
      rw [bind_given ha']
      exact echoed''.again ht' behind quiet hw

theorem bind [L.Leads K] (hp : Echo A k K p q e out M)
    (hf : ∀ a a', e a' = e a → Echo A (out a) M (f a) (g a') e' out' N) :
    Echo A k L (p >>= f) (q >>= g) e' out' N :=
  hp.bindWith (fun _ _ _ hA _ _ _ => hA) hf

theorem bindSpent [L.Leads K] (hp : Echo A k K p q e out M) (spends : Spends 1 p)
    (hf : ∀ a a', e a' = e a →
      Echo (A ∧ (out a).rest.length < k.rest.length) (out a) M (f a) (g a') e' out' N) :
    Echo A k L (p >>= f) (q >>= g) e' out' N := by
  refine hp.bindWith (fun s a t hA hk he clean => ⟨hA, ?_⟩) hf
  obtain ⟨us, copied, -⟩ := hp.gives hA hk he clean
  have fewer := spends s a t he clean
  rw [copied, hk]
  exact fewer

protected theorem map [L.Leads K] [M.Leads N] {h h' : α → β} (hp : Echo A k K p q e out M)
    (same : ∀ a a', e a' = e a → e' (h' a') = e' (h a)) (copied : ∀ a, out' (h a) = out a) :
    Echo A k L (h <$> p) (h' <$> q) e' out' N := by
  rw [map_eq_pure_bind, map_eq_pure_bind]
  exact hp.bind fun a a' ha => .pure fun _ => ⟨same a a' ha, copied a⟩

protected theorem attempt (hp : Echo A k L p q e out M) :
    Echo A k L (attempt p) (attempt q) (Option.map e) (·.elim k out) M where
  toHonest := hp.toHonest.attempt
  gives {s o t} hA hk he clean := by
    have spoken := hp.speaks s
    simp only [Parse.attempt] at he
    rcases hs : p s with ⟨_ | a, u⟩ <;> rw [hs] at he spoken <;> cases he
    · rw [Stream.report_recover] at clean
      exact absurd clean (Nat.ne_of_gt (spoken rfl))
    · obtain ⟨us, copied, echoed⟩ := hp.gives hA hk hs clean
      refine ⟨us, copied, echoed.heads, fun {s' vs} hs' behind quiet hv => ?_⟩
      obtain ⟨a', t', he', ha, rest⟩ := echoed.again hs' behind quiet hv
      exact ⟨some a', t', by simp only [Parse.attempt, he'], congrArg some ha, rest⟩

theorem glance {f g : ε → Parse β} (l : Stream → ε) (h : ∀ a b, Echo A k L (f a) (g b) e' out' M) :
    Echo A k L ((fun s => (some (l s), s)) >>= f) ((fun s => (some (l s), s)) >>= g) e' out' M := by
  have seen : Echo A k L (fun s => (some (l s), s)) (fun s => (some (l s), s)) (fun _ => ())
    (fun _ => k) L := .stay (fun _ _ _ _ _ => rfl) fun _ _ => rfl
  exact seen.bind fun a b _ => h a b

theorem look {f g : ε → Parse β} (l : Stream → ε) {B : ε → Prop}
    (know : ∀ s, k.rest = s.rest → B (l s))
    (h : ∀ x, ∃ K q, L.Leads K ∧ Echo (A ∧ B x) k K (f x) q e' out' M ∧
      ∀ s s', k.rest = s.rest → l s = x → L.behind s s' → s'.report.total = s.report.total →
        K.heads s.rest s'.rest → g (l s') s' = q s') :
    Echo A k L ((fun s => (some (l s), s)) >>= f) ((fun s => (some (l s), s)) >>= g) e' out' M where
  toHonest := (Honest.look l).bind fun x => by
    obtain ⟨_, _, _, echo, _⟩ := h x
    exact echo.toHonest
  gives {s b t} hA hk he clean := by
    have he : f (l s) s = (some b, t) := he
    obtain ⟨K, q, leads, echo, same⟩ := h (l s)
    obtain ⟨us, copied, echoed⟩ := echo.gives ⟨hA, know s hk⟩ hk he clean
    refine ⟨us, copied, fun hv => leads.heads (echoed.heads hv), fun {s' vs} hs behind quiet hv => ?_⟩
    have seen := same s s' hk rfl behind quiet (hs ▸ echoed.heads hv)
    obtain ⟨b', t', hq, rest⟩ := echoed.again hs (leads.behind behind) quiet hv
    exact ⟨b', t', seen.trans hq, rest⟩

theorem choose [L.Leads M] [L.Leads N] {c : Stream → Bool} {p p' q q' : Stream → Parse β}
    (hp : Echo A k M (do p (← get)) (do p' (← get)) e' out' P)
    (hq : Echo A k N (do q (← get)) (do q' (← get)) e' out' P)
    (same : ∀ s s', L.behind s s' → s'.report.total = s.report.total →
      (if c s then M else N).heads s.rest s'.rest → c s' = c s) :
    Echo A k L (do let s ← get; if c s then p s else q s)
      (do let s ← get; if c s then p' s else q' s) e' out' P := by
  have side (b : Bool) : Echo A k (if b then M else N) (do (if b then p else q) (← get))
      (do (if b then p' else q') (← get)) e' out' P := by
    cases b with
    | true => exact hp
    | false => exact hq
  have leads (b : Bool) : L.Leads (if b then M else N) := by
    cases b with
    | true => exact inferInstanceAs (L.Leads M)
    | false => exact inferInstanceAs (L.Leads N)
  have chosen (p q : Stream → Parse β) (s : Stream) :
      (do let s ← get; if c s then p s else q s : Parse β) s =
        (do (if c s then p else q) (← get) : Parse β) s := by
    rw [get_bind, get_bind]
    split <;> rfl
  refine { grows s := ?_, speaks s := ?_, gives {s a t} hA hk he clean := ?_ }
  · rw [chosen]
    exact (side (c s)).grows s
  · rw [chosen]
    exact (side (c s)).speaks s
  · rw [chosen] at he
    obtain ⟨us, copied, echoed⟩ := (side (c s)).gives hA hk he clean
    refine ⟨us, copied, fun hv => (leads _).heads (echoed.heads hv),
      fun {s' vs} hs behind quiet hv => ?_⟩
    have seen := same s s' behind quiet (hs ▸ echoed.heads hv)
    rw [chosen, seen]
    exact echoed.again hs ((leads _).behind behind) quiet hv

theorem test [L.Leads M] [L.Leads N] {c : Stream → Bool} {p p' q q' : Parse β}
    (hp : Echo A k M p p' e' out' P) (hq : Echo A k N q q' e' out' P)
    (same : ∀ s s', L.behind s s' → s'.report.total = s.report.total →
      (if c s then M else N).heads s.rest s'.rest → c s' = c s) :
    Echo A k L (do if c (← get) then p else q) (do if c (← get) then p' else q') e' out' P :=
  choose hp hq same

theorem kind [L.Firm] {f g : Kind → Parse β}
    (h : ∀ x, Echo (A ∧ k.kind = x) k L (f x) (g x) e' out' M) :
    Echo A k L (kind >>= f) (kind >>= g) e' out' M :=
  look Stream.kind (fun _ hk => (Scribe.kind_eq hk).symm) fun x =>
    ⟨L, g x, inferInstance, h x, fun s s' _ hx _ _ heads => by rw [Point.Firm.kind heads, hx]⟩

theorem kindBrink {f g : Kind → Parse β}
    (h : ∀ x, Echo (A ∧ k.kind = x) k .outset (f x) (g x) e' out' M ∨
      Echo (A ∧ k.kind = x) k .brink (f x) (g x) e' out' M ∧ g (.symbol .semicolon) = g x) :
    Echo A k .brink (Parse.kind >>= f) (Parse.kind >>= g) e' out' M := by
  refine look Stream.kind (fun _ hk => (Scribe.kind_eq hk).symm) fun x => ?_
  rcases h x with h | ⟨h, ends⟩
  · exact ⟨.outset, g x, inferInstance, h,
      fun s s' _ hx _ _ heads => by rw [Point.Firm.kind (L := .outset) heads, hx]⟩
  · refine ⟨.brink, g x, inferInstance, h, fun s s' _ hx _ _ heads => ?_⟩
    rcases heads with same | semicolon
    · rw [Point.Firm.kind (L := .outset) same, hx]
    · have : s'.kind = .symbol .semicolon := by rw [Stream.kind, semicolon]; rfl
      rw [this, ends]

theorem sees [L.Firm] {f g : Bool → Parse β} (m : Symbol)
    (h : ∀ x, Echo (A ∧ k.sees m = x) k L (f x) (g x) e' out' M) :
    Echo A k L (sees m >>= f) (sees m >>= g) e' out' M :=
  kind (f := fun x => f (x.isSymbol m)) (g := fun x => g (x.isSymbol m)) fun x =>
    (h (x.isSymbol m)).given fun hx => ⟨hx.1, by rw [Scribe.sees, hx.2]⟩

theorem take [next : L.Next M] (there : A → k.kind ≠ .eof) :
    Echo A k L advance advance (fun _ => ()) (fun _ => k.keep 1) M where
  toHonest := .advance
  gives {s _ _} hA hk he _ := by
    cases he
    rcases hs : s.rest with _ | ⟨u, rest⟩
    · exact absurd (by rw [Scribe.kind, hk, hs]; rfl) (there hA)
    refine ⟨[u], ?_, fun {vs} hv => ?_, fun {s' vs} hs' behind quiet hv => ?_⟩
    · rw [Scribe.keep, hk, hs, Stream.advance_cons hs]
      rfl
    · rw [Stream.advance_cons hs] at hv
      rw [hs]
      exact next.heads hv u
    · refine ⟨(), s'.advance, rfl, rfl, ?_⟩
      rw [Stream.advance_cons hs, Stream.advance_cons hs']
      exact ⟨rfl, next.behind rfl, quiet⟩

theorem takeKnown [L.Next M] {κ : Kind} (h : κ ≠ .eof) :
    Echo (A ∧ k.kind = κ) k L advance advance (fun _ => ()) (fun _ => k.keep 1) M :=
  take fun hk => hk.2 ▸ h

theorem ifEaten_eq (m : Symbol) (p q : Parse α) : (do if ← eat m then p else q) =
    (do if (← Parse.kind).isSymbol m then (do advance; p) else q) := by
  funext s
  rw [bind_apply, eat_apply, kind_bind]
  cases s.kind.isSymbol m <;> rfl

section

variable {p p' q q' : Parse α} {m : Symbol}

theorem ifEaten [L.Firm] [L.Next K] (hp : Echo (A ∧ k.sees m = true) (k.keep 1) K p p' e out M)
    (hq : Echo (A ∧ k.sees m = false) k L q q' e out M) :
    Echo A k L (do if ← eat m then p else q) (do if ← eat m then p' else q') e out M := by
  rw [ifEaten_eq, ifEaten_eq]
  refine kind fun x => ?_
  split
  · next there =>
    refine ((take (L := L) (M := K) ?_).bind fun _ _ _ => hp).given fun h =>
      ⟨h.1, by rw [Scribe.sees, h.2, there]⟩
    intro h none
    rw [Scribe.sees, none] at h
    cases h.2
  · next absent => exact hq.given fun h => ⟨h.1, by rw [Scribe.sees, h.2]; simpa using absent⟩

theorem ifEatenBrink (hm : m ≠ .semicolon)
    (hp : Echo (A ∧ k.sees m = true) (k.keep 1) (.agree 0) p p' e out M)
    (hq : Echo (A ∧ k.sees m = false) k .brink q q' e out M) :
    Echo A k .brink (do if ← eat m then p else q) (do if ← eat m then p' else q') e out M := by
  rw [ifEaten_eq, ifEaten_eq]
  refine kindBrink fun x => ?_
  by_cases there : x.isSymbol m = true
  · rw [if_pos there, if_pos there]
    refine .inl (((take (L := .outset) (M := .agree 0) ?_).bind fun _ _ _ => hp).given fun h =>
      ⟨h.1, by rw [Scribe.sees, h.2, there]⟩)
    intro h none
    rw [Scribe.sees, none] at h
    cases h.2
  · rw [if_neg there, if_neg there]
    refine .inr ⟨hq.given fun h => ⟨h.1, by rw [Scribe.sees, h.2]; simpa using there⟩, ?_⟩
    rw [if_neg]
    simpa [Kind.isSymbol] using hm.symm

theorem skip (h : Echo A (k.keepIf m) .outset p p' e out M) :
    Echo A k .outset (do let _ ← eat m; p) (do let _ ← eat m; p') e out M := by
  have either (p : Parse α) : (do let _ ← eat m; p) = (do if ← eat m then p else p) :=
    bind_congr fun _ => (ite_self _).symm
  rw [either, either]
  cases hm : k.sees m with
  | true =>
    rw [Scribe.keepIf, if_pos hm] at h
    have going : Echo A (k.keep 1) (.agree 0) p p' e out M := h.lead (M := M)
    exact ifEaten (going.given And.left) (void h.toHonest (by simp [hm]))
  | false =>
    rw [Scribe.keepIf, hm, if_neg Bool.false_ne_true] at h
    exact ifEaten (K := .agree 0) (void h.toHonest (by simp [hm])) (h.given And.left)

end

theorem refuse (problem : Problem) : Echo A k L (refuse problem) q e out M :=
  .fruitless (.refuse _) fun _ => rfl

theorem forbid (problem : Problem) (start : Span) :
    Echo A k L (do complain problem (start.merge (← span)); failure) q e out M :=
  .fruitless ((Honest.look Stream.span).bind fun _ => .refusal _ _) fun _ => rfl

theorem told {f : Unit → Parse α} (hf : ∀ a, Honest (f a)) (problem : Problem) (here : Span) :
    Echo A k L (do complain problem here; f ()) q e out M := by
  have covered : Covered 0 (do complain problem here; f ()) q := .told hf
  refine .never covered.toHonest fun s a t _ _ he clean => ?_
  have grows := ((hf ()).grows (s.complain problem here)).total
  have he : f () (s.complain problem here) = (some a, t) := he
  rw [he] at grows
  exact absurd clean (Nat.ne_of_gt grows)

theorem expectKind [L.Firm] [L.Next M] {present : Kind → Bool} (absent : present .eof = false)
    (wanted : String) : Echo A k L (expectKind present wanted) (expectKind present wanted)
      (fun _ => ()) (fun _ => k.keep 1) M := by
  refine kind fun x => ?_
  split
  · next there =>
    refine glance Stream.span fun _ _ => (take (L := L) (M := M) ?_).bind fun _ _ _ =>
      .pure fun _ => ⟨rfl, rfl⟩
    intro h none
    rw [← h.2, none, absent] at there
    cases there
  · exact refuse _

theorem expect [L.Firm] [L.Next M] (m : Symbol) :
    Echo A k L (expect m) (expect m) (fun _ => ()) (fun _ => k.keep 1) M := expectKind rfl _

theorem expectClosing [L.Firm] [L.Next M] (m : Symbol) (opened opened' : Span) :
    Echo A k L (expectClosing m opened) (expectClosing m opened') (fun _ => ())
      (fun _ => k.keep 1) M := by
  refine ifEaten (K := M) (.pure fun _ => ⟨rfl, rfl⟩) (.fruitless ?_ fun _ => rfl)
  exact (Honest.look Stream.kind).bind fun _ => (Honest.look id).bind fun _ => .refuse _

end Echo

theorem endStatement_cons {s : Stream} {ts : List Token} (h : s.rest = u :: ts)
    (hu : u.kind = .symbol .semicolon) :
    endStatement s = (some (), { s with previous := some u.span, rest := ts }) := by
  have there : s.kind.isSymbol .semicolon = true := by
    rw [Stream.kind, h]
    exact congrArg (·.isSymbol .semicolon) hu |>.trans rfl
  rw [endStatement, bind_apply, eat_apply, if_pos there, Stream.advance_cons h]
  rfl

theorem Honest.endStatement : Honest endStatement := by
  refine (Honest.eat .semicolon).bind fun b => ?_
  cases b with
  | true => exact .pure ()
  | false =>
    refine (Honest.look id).bind fun s => ?_
    split
    · exact .pure ()
    · exact .complain _ _

theorem Echo.endStatement {A : Prop} {k : Scribe} (mark : Span → Span) :
    Echo A k .brink endStatement endStatement (fun _ => ()) (fun _ => k.close mark) .outset where
  toHonest := .endStatement
  gives {s _ t} _ hk he clean := by
    have seen : k.sees .semicolon = s.kind.isSymbol .semicolon := by
      rw [Scribe.sees, Scribe.kind_eq hk]
    have again {u : Token} (hu : u.kind = .symbol .semicolon) {s' : Stream} {vs : List Token}
        (hs : s'.rest = [u] ++ vs) (quiet : s'.report.total = s.report.total) :
        ∃ a' t', Parse.endStatement s' = (some a', t') ∧ () = () ∧ t'.rest = vs ∧ True ∧
          t'.report.total = t.report.total :=
      ⟨(), _, endStatement_cons hs hu, rfl, rfl, trivial, quiet.trans clean.symm⟩
    rw [Parse.endStatement, bind_apply, eat_apply] at he
    cases there : s.kind.isSymbol .semicolon with
    | true =>
      rcases hs : s.rest with _ | ⟨u, rest⟩
      · rw [Stream.kind, hs] at there
        cases there
      have hu : u.kind = .symbol .semicolon := by
        rw [Stream.kind, hs] at there
        exact Kind.eq_of_isSymbol there
      rw [there, if_pos rfl, Stream.advance_cons hs] at he
      cases he
      refine ⟨[u], ?_, fun _ => .inl (by rw [hs]; rfl), fun hs' _ quiet _ => again hu hs' quiet⟩
      rw [Scribe.close, seen, if_pos there, Scribe.keep, hk, hs]
      rfl
    | false =>
      have ended : t = s := by
        rw [there, if_neg (by simp)] at he
        dsimp only at he
        rw [if_neg (by simp), get_bind] at he
        split at he
        · cases he
          rfl
        · cases he
          exact absurd clean (Nat.succ_ne_self _)
      subst ended
      let last := (k.copy.getLast?.map Token.span).getD (.point .origin)
      refine ⟨[⟨.symbol .semicolon, mark last⟩], ?_, fun _ => .inr rfl, fun hs' _ quiet _ =>
        again rfl hs' quiet⟩
      rw [Scribe.close, seen, there, if_neg (by simp), hk]

namespace Echo

variable {A : Prop} {k : Scribe} {L M N : Point} {e : α → γ}

theorem rounds {out : α → Scribe} {r : Nat → Parse α} (ample : Ample r)
    (h : ∀ n, Echo (A ∧ k.rest.length ≤ n) k L (r n) (r n) e out M) :
    Echo A k L (do r (← tokensLeft)) (do r (← tokensLeft)) e out M where
  toHonest := (Honest.look fun s => s.rest.length).bind fun n => (h n).toHonest
  gives {s a t} hA hk he clean := by
    have he : r s.rest.length s = (some a, t) := he
    obtain ⟨us, copied, echoed⟩ := (h _).gives ⟨hA, Nat.le_of_eq (hk ▸ rfl)⟩ hk he clean
    refine ⟨us, copied, echoed.heads, fun {s' vs} hs behind quiet hv => ?_⟩
    have left := Nat.le_max_left s.rest.length s'.rest.length
    have right := Nat.le_max_right s.rest.length s'.rest.length
    have more := (ample.covered (Nat.le_refl _) left).gives (Nat.le_refl _) he clean
    obtain ⟨us', copied', echoed'⟩ := (h _).gives ⟨hA, hk ▸ left⟩ hk more clean
    obtain rfl : us = us' := by
      rw [copied] at copied'
      exact List.append_cancel_left (congrArg Scribe.copy copied')
    obtain ⟨a', t', he', ha, ht, behind, silent⟩ := echoed'.again hs behind quiet hv
    have fewer := (ample.covered right (Nat.le_refl _)).gives (Nat.le_refl _) he'
      (silent.trans (clean.trans quiet.symm))
    exact ⟨a', t', fewer, ha, ht, behind, silent⟩

section

variable {w : α → Scribe → Scribe} {p : Parse α}

theorem listed [(Point.agree 0).Leads L] [Point.brink.Leads M] {rest rest' : Parse (List α)}
    (h : Echo (A ∧ (w a k).sees .comma = true) ((w a k).keep 1) L rest rest' (·.map e)
      (((w a k).keep 1).keepList w ·) M) (ha : e a' = e a) :
    Echo A (w a k) .brink (do if ← eat .comma then return a :: (← rest) else return [a])
      (do if ← eat .comma then return a' :: (← rest') else return [a']) (·.map e)
      (k.keepList w ·) M := by
  refine ifEatenBrink (by simp) (h.bind fun as as' has => .pure fun hk => ⟨?_, ?_⟩)
    (.pure fun hk => ⟨congrArg ([·]) ha, ?_⟩)
  · show e a' :: as'.map e = e a :: as.map e
    rw [ha, show as'.map e = as.map e from has]
  · rw [Scribe.keepList_cons, Scribe.keepIf, if_pos hk.2]
  · rw [Scribe.keepList_cons, Scribe.keepIf, hk.2]
    rfl

theorem commaRounds (h : ∀ A k, Echo A k .outset p p e (w · k) .brink) (spends : Spends 1 p) :
    ∀ n A k, Echo (A ∧ k.rest.length ≤ n) k .outset (commaRounds p n) (commaRounds p n) (·.map e)
      (k.keepList w ·) .brink
  | 0, A, k => (h _ k).bindSpent spends fun a a' _ => .void (.pure _) fun hk => by omega
  | n + 1, A, k => (h _ k).bindSpent spends fun a a' ha => by
    refine listed ((commaRounds h spends n A _).given fun hk => ⟨hk.1.1.1, ?_⟩) ha
    have fewer := hk.1.2
    simp only [Scribe.keep, List.length_drop]
    omega

theorem commaList (h : ∀ A k, Echo A k .outset p p e (w · k) .brink) (reads : Reads p v G)
    (hv : ∀ a, v a ≠ []) : Echo A k .outset (commaList p) (commaList p) (·.map e)
      (k.keepList w ·) .brink :=
  rounds (commaRounds_ample reads hv) fun n => commaRounds h (reads.spends hv) n A k

end

section

variable {w : Expr → Scribe → Scribe} {e : Expr → γ} {p : Parse Expr}

theorem argumentRounds (h : ∀ A k, Echo A k .outset p p e (w · k) .brink) (spends : Spends 1 p) :
    ∀ n A k, Echo (A ∧ k.rest.length < n) k (.agree 1) (argumentRounds p n) (argumentRounds p n)
      (·.map e) (k.keepList w ·) (.agree 1)
  | 0, A, k => .void (.pure _) fun hk => Nat.not_lt_zero _ hk.2
  | n + 1, A, k => by
    refine sees .closeParen fun x => ?_
    split
    · exact .pure fun _ => ⟨rfl, rfl⟩
    refine (h _ k).bindSpent spends fun a a' ha => ?_
    refine (listed (L := .agree 1) (M := .agree 1)
      ((argumentRounds h spends n A _).given fun hk => ⟨hk.1.1.1.1, ?_⟩) ha)
    have fewer := hk.1.2
    simp only [Scribe.keep, List.length_drop]
    omega

theorem arguments (h : ∀ A k, Echo A k .outset p p e (w · k) .brink) (reads : Reads p v G)
    (hv : ∀ a, v a ≠ []) (opened opened' : Span) :
    Echo A k (.agree 1) (arguments p opened) (arguments p opened') (·.map e)
      (fun as => (k.keepList w as).keep 1) (.agree 0) := by
  have listed : Echo A k (.agree 1) (do Parse.argumentRounds p ((← tokensLeft) + 1))
      (do Parse.argumentRounds p ((← tokensLeft) + 1)) (·.map e) (k.keepList w ·) (.agree 1) :=
    rounds (argumentRounds_ample reads hv) fun n =>
      (argumentRounds h (reads.spends hv) (n + 1) A k).given fun hk => ⟨hk.1, Nat.lt_succ_of_le hk.2⟩
  exact listed.bind (L := .agree 1) (g := fun as => do
      Parse.expectClosing .closeParen opened'
      return as)
    fun as as' has => (expectClosing (L := .agree 1) (M := .agree 0) .closeParen _ _).bind
      fun _ _ _ => .pure fun _ => ⟨has, rfl⟩

end

end Echo

end Parse

end Spellcraft
