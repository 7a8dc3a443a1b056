import Spellcraft.Spell.Compile

namespace Spellcraft

namespace Parse

theorem bind_apply (p : Parse α) (f : α → Parse β) (s : Stream) :
    (p >>= f) s = match p s with
      | (some a, t) => f a t
      | (none, t) => (none, t) := by
  simp only [bind, OptionT.bind, OptionT.mk, StateT.bind]
  rcases p s with ⟨_ | a, t⟩ <;> rfl

def Gives (P : α → Prop) (p : Parse α) : Prop := ∀ s a t, p s = (some a, t) → P a

namespace Gives

variable {P : α → Prop} {Q : β → Prop} {p : Parse α} {f : α → Parse β}

protected theorem pure (h : P a) : Gives P (pure a) := by
  intro s b t hb
  cases hb
  exact h

protected theorem failure : Gives P failure := by
  intro s a t h
  cases h

protected theorem bind (hp : Gives P p) (hf : ∀ a, P a → Gives Q (f a)) :
    Gives Q (p >>= f) := by
  intro s b u h
  rw [bind_apply] at h
  rcases hs : p s with ⟨_ | a, t⟩ <;> rw [hs] at h
  · cases h
  · exact hf a (hp s a t hs) t b u h

theorem after (hf : ∀ a, Gives Q (f a)) : Gives Q (p >>= f) :=
  have any : Gives (fun _ => True) p := fun _ _ _ _ => trivial
  any.bind fun a _ => hf a

theorem given (h : Gives Q (f a)) : Gives Q (pure a >>= f) :=
  (Gives.pure (P := (· = a)) rfl).bind fun _ ha => ha ▸ h

theorem never (hp : Gives (fun _ => False) p) : Gives Q (p >>= f) :=
  hp.bind fun _ h => h.elim

protected theorem map {g : α → β} (hp : Gives P p) (hg : ∀ a, P a → Q (g a)) :
    Gives Q (g <$> p) := by
  rw [map_eq_pure_bind]
  exact hp.bind fun a ha => .pure (hg a ha)

theorem mono {Q : α → Prop} (hp : Gives P p) (h : ∀ a, P a → Q a) : Gives Q p :=
  fun s a t hs => h a (hp s a t hs)

theorem refuse : Gives P (Parse.refuse problem) :=
  after fun _ => after fun _ => .failure

theorem tooDeep : Gives P Parse.tooDeep := refuse

protected theorem attempt (hp : Gives P p) : Gives (∀ a ∈ ·, P a) (attempt p) := by
  intro s o t h a ha
  cases ha
  rcases hs : p s with ⟨_ | b, u⟩ <;> simp only [attempt, hs] at h <;> cases h
  exact hp s a t hs

protected theorem commaRounds (hp : Gives P p) :
    ∀ n, Gives (∀ a ∈ ·, P a) (commaRounds p n)
  | 0 => hp.bind fun a ha => .pure (by simpa using ha)
  | n + 1 => by
    refine hp.bind fun a ha => after fun comma => ?_
    split
    · exact (hp.commaRounds n).bind fun as has => .pure (List.forall_mem_cons.2 ⟨ha, has⟩)
    · exact .pure (by simpa using ha)

protected theorem commaList (hp : Gives P p) : Gives (∀ a ∈ ·, P a) (commaList p) :=
  after hp.commaRounds

protected theorem argumentRounds {P : Expr → Prop} {p : Parse Expr} (hp : Gives P p) :
    ∀ n, Gives (∀ a ∈ ·, P a) (argumentRounds p n)
  | 0 => .pure (List.forall_mem_nil _)
  | n + 1 => by
    refine after fun closes => ?_
    split
    · exact .pure (List.forall_mem_nil _)
    · refine hp.bind fun a ha => after fun comma => ?_
      split
      · exact (hp.argumentRounds n).bind fun as has =>
          .pure (List.forall_mem_cons.2 ⟨ha, has⟩)
      · exact .pure (by simpa using ha)

protected theorem arguments {P : Expr → Prop} {p : Parse Expr} (hp : Gives P p) :
    Gives (∀ a ∈ ·, P a) (arguments p opened) :=
  after fun n => (hp.argumentRounds (n + 1)).bind fun _ has => after fun _ => .pure has

variable {P : Stmt → Prop} {p : Parse Stmt}

protected theorem blockRounds (hp : Gives P p) :
    ∀ n, Gives (∀ a ∈ ·, P a) (blockRounds p n)
  | 0 => .pure (List.forall_mem_nil _)
  | n + 1 => by
    refine after fun s => ?_
    split
    · exact .pure (List.forall_mem_nil _)
    · refine hp.attempt.bind fun o ho => ?_
      cases o with
      | none => exact hp.blockRounds n
      | some a =>
        exact (hp.blockRounds n).bind fun as has =>
          .pure (List.forall_mem_cons.2 ⟨ho a rfl, has⟩)

protected theorem block (hp : Gives P p) : Gives (∀ a ∈ ·.2, P a) (block p) :=
  after fun _ => after fun _ => after fun n => (hp.blockRounds n).bind fun _ has =>
    after fun _ => after fun _ => .pure has

protected theorem programRounds (hp : Gives P (statement nestingLimit false)) :
    ∀ n, Gives (∀ a ∈ ·, P a) (programRounds n)
  | 0 => .pure (List.forall_mem_nil _)
  | n + 1 => by
    refine after fun s => ?_
    split
    · exact .pure (List.forall_mem_nil _)
    split
    · exact after fun _ => after fun _ => .programRounds hp n
    · refine hp.attempt.bind fun o ho => ?_
      cases o with
      | none => exact .programRounds hp n
      | some a =>
        exact (Gives.programRounds hp n).bind fun as has =>
          .pure (List.forall_mem_cons.2 ⟨ho a rfl, has⟩)

protected theorem program (hp : Gives P (statement nestingLimit false)) :
    Gives (∀ a ∈ ·.body, P a) program :=
  after fun _ => after fun n => (Gives.programRounds hp n).bind fun _ has =>
    after fun _ => .pure has

end Gives

end Parse

theorem parseTokens_gives {P : Stmt → Prop}
    (hp : Parse.Gives P (Parse.statement nestingLimit false)) (ts : List Token) :
    ∀ a ∈ (parseTokens ts).1.body, P a := by
  simp only [parseTokens]
  rcases hs : Parse.program (Stream.ofTokens ts) with ⟨_ | p, t⟩
  · exact List.forall_mem_nil _
  · exact Parse.Gives.program hp _ _ _ hs

theorem Spell.parse_gives {P : Stmt → Prop}
    (hp : Parse.Gives P (Parse.statement nestingLimit false)) (h : Spell.parse source = .ok p) :
    ∀ a ∈ p.body, P a := by
  have hp : ∀ a ∈ (parseText source).1.body, P a := parseTokens_gives hp _
  simp only [Spell.parse] at h
  split at h
  · cases h
    exact hp
  · cases h

end Spellcraft
