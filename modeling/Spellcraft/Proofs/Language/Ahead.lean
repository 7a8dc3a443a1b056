import Spellcraft.Proofs.Language.Reading

/-!
Reading what was written on one line. While nothing has been reported, the kinds that are still
ahead decide what every part of a rule does; so a rule is run by equations, part by part. A part
comes to a tree, or it gives up at the nesting limit.
-/

namespace Spellcraft

def next (ks : List Kind) : Kind := ks.head?.getD .eof

@[simp] theorem next_cons (k : Kind) (ks : List Kind) : next (k :: ks) = k := rfl

theorem next_append (h : ks ≠ []) (ls : List Kind) : next (ks ++ ls) = next ks := by
  cases ks with
  | nil => exact absurd rfl h
  | cons => rfl

/-- These kinds are still ahead, all on the line of the token before them. -/
structure Ahead (line : Nat) (ks : List Kind) (s : Stream) : Prop where
  kinds : s.kinds = ks
  flat : ∀ t ∈ s.rest, t.span.first.line = line ∧ t.span.last.line = line
  before : ∀ p ∈ s.previous, p.last.line = line
  clean : s.report = .empty

def Deep (s : Stream) : Prop := ∃ d ∈ s.report.kept, d.code = .nestingLimit

theorem Deep.grows (h : Deep s) (k : s.report.Grows t.report) : Deep t :=
  have ⟨d, hd, code⟩ := h
  ⟨d, k.kept.subset hd, code⟩

namespace Ahead

variable {line : Nat} {k : Kind} {ks : List Kind} {s : Stream}

theorem kind_eq (h : Ahead line ks s) : s.kind = next ks := by
  simp only [← h.kinds, next, Stream.kinds, Stream.kind, List.head?_map]

theorem kindAt_eq (h : Ahead line ks s) (n : Nat) : s.kindAt n = ks[n]?.getD .eof := by
  simp only [← h.kinds, Stream.kinds, Stream.kindAt, List.getElem?_map]

theorem rest_length (h : Ahead line ks s) : s.rest.length = ks.length := by
  simp only [← h.kinds, Stream.kinds, List.length_map]

theorem advance (h : Ahead line (k :: ks) s) : Ahead line ks s.advance := by
  obtain ⟨kinds, flat, before, clean⟩ := h
  rcases hs : s.rest with _ | ⟨t, rest⟩ <;> simp only [Stream.kinds, hs] at kinds flat
  · cases kinds
  · simp only [Stream.advance, hs]
    refine ⟨(List.cons.inj kinds).2, fun u hu => flat u (.tail _ hu), fun p hp => ?_, clean⟩
    cases hp
    exact (flat t (.head _)).2

theorem onLine (h : Ahead line (k :: ks) s) : s.onNewLine = false := by
  obtain ⟨kinds, flat, before, -⟩ := h
  rcases hs : s.rest with _ | ⟨t, rest⟩ <;> simp only [Stream.kinds, hs] at kinds flat
  · cases kinds
  · have here := (flat t (.head _)).1
    rcases hp : s.previous with _ | p
    · simp [Stream.onNewLine, hp]
    · simp [Stream.onNewLine, Stream.span, hs, hp, here, before p hp]

theorem goes (h : Ahead line ks s) (ne : ks ≠ []) : s.atEnd = false ∧ s.onNewLine = false := by
  obtain ⟨k, ks, rfl⟩ := List.exists_cons_of_ne_nil ne
  refine ⟨?_, h.onLine⟩
  rw [Stream.atEnd, List.isEmpty_eq_false_iff, ← List.length_pos_iff, h.rest_length]
  exact Nat.succ_pos _

theorem ended (h : Ahead line [] s) : s.atEnd = true := by
  rw [Stream.atEnd, List.isEmpty_iff, ← List.length_eq_zero_iff, h.rest_length, List.length_nil]

theorem isFull_eq (h : Ahead line ks s) : s.report.isFull = false := by
  rw [h.clean]
  decide

end Ahead

namespace Parse

theorem bind_given {p : Parse α} (h : p s = (some a, t)) (f : α → Parse β) :
    (p >>= f) s = f a t := by rw [bind_apply, h]

theorem kind_bind (f : Kind → Parse β) (s : Stream) : (kind >>= f) s = f s.kind s := rfl

theorem span_bind (f : Span → Parse β) (s : Stream) : (span >>= f) s = f s.span s := rfl

theorem previousSpan_bind (f : Span → Parse β) (s : Stream) :
    (previousSpan >>= f) s = f s.previousSpan s := rfl

theorem advance_bind (f : Unit → Parse β) (s : Stream) : (advance >>= f) s = f () s.advance := rfl

theorem get_bind (f : Stream → Parse β) (s : Stream) : ((get : Parse Stream) >>= f) s = f s s := rfl

theorem tokensLeft_bind (f : Nat → Parse β) (s : Stream) :
    (tokensLeft >>= f) s = f s.rest.length s := rfl

theorem sees_bind (m : Symbol) (f : Bool → Parse β) (s : Stream) :
    (sees m >>= f) s = f (s.kind.isSymbol m) s := rfl

theorem eat_apply (m : Symbol) (s : Stream) :
    eat m s = if s.kind.isSymbol m then (some true, s.advance) else (some false, s) := by
  rw [eat, sees_bind]
  cases s.kind.isSymbol m <;> rfl

theorem expectKind_apply (present : Kind → Bool) (wanted : String)
    (there : present s.kind = true) :
    expectKind present wanted s = (some s.span, s.advance) := by
  rw [expectKind, kind_bind, if_pos there]
  rfl

end Parse

namespace Ahead

open Parse

variable {line : Nat} {ks : List Kind} {s : Stream} {m : Symbol}

theorem eat_bind (h : Ahead line (.symbol m :: ks) s) (f : Bool → Parse β) :
    (eat m >>= f) s = f true s.advance :=
  bind_given (by simp [eat_apply, h.kind_eq, Kind.isSymbol]) f

theorem pass_bind (h : Ahead line ks s) (other : (next ks).isSymbol m = false)
    (f : Bool → Parse β) : (eat m >>= f) s = f false s :=
  bind_given (by simp [eat_apply, h.kind_eq, other]) f

theorem expect_bind (h : Ahead line (.symbol m :: ks) s) (f : Span → Parse β) :
    (expect m >>= f) s = f s.span s.advance :=
  bind_given (expectKind_apply _ _ (by simp [h.kind_eq, Kind.isSymbol])) f

theorem expectKeyword_bind (h : Ahead line (.keyword w :: ks) s) (f : Span → Parse β) :
    (expectKeyword w >>= f) s = f s.span s.advance :=
  bind_given (expectKind_apply _ _ (by simp [h.kind_eq, Kind.isKeyword])) f

theorem expectClosing_bind (h : Ahead line (.symbol m :: ks) s) (opened : Span)
    (f : Unit → Parse β) : (expectClosing m opened >>= f) s = f () s.advance :=
  bind_given (by rw [expectClosing, h.eat_bind]; rfl) f

theorem endStatement_bind (h : Ahead line (.symbol .semicolon :: ks) s) (f : Unit → Parse β) :
    (endStatement >>= f) s = f () s.advance :=
  bind_given (by rw [endStatement, h.eat_bind]; rfl) f

theorem name_bind (h : Ahead line (.name n :: ks) s) (f : Ident → Parse β) :
    (Parse.name >>= f) s = f ⟨n, s.span⟩ s.advance :=
  bind_given (by rw [Parse.name, kind_bind, h.kind_eq]; rfl) f

theorem tooDeep (h : Ahead line ks s) :
    ∃ t, (Parse.tooDeep : Parse α) s = (none, t) ∧ Deep t := by
  refine ⟨_, rfl, (Problem.tooDeep nestingLimit).located s.span, ?_, rfl⟩
  simp [Stream.complain, h.clean, Report.push, Report.empty, Report.capacity]

end Ahead

namespace Parse

variable {line : Nat} {m n : Prop} {good : α → Prop} {ks : List Kind} {go : α → Parse β}

/-- Where there is room, a tree was read and reading goes on behind it; otherwise the part has given
up at the nesting limit. -/
inductive Answers (line : Nat) (room : Prop) (good : α → Prop) (ks : List Kind)
    (go : α → Parse β) : Option β × Stream → Prop
  | on : room → good a → Ahead line ks t → Answers line room good ks go (go a t)
  | deep : ¬ room → Deep t → Answers line room good ks go (none, t)

namespace Answers

theorem onto {go' : γ → Parse β} {good' : γ → Prop} (h : Answers line m good ks go r)
    (short : ¬ m → ¬ n)
    (hgo : ∀ a t, m → good a → Ahead line ks t → Answers line n good' ls go' (go a t)) :
    Answers line n good' ls go' r := by
  cases h with
  | on room ha ht => exact hgo _ _ room ha ht
  | deep room ht => exact .deep (short room) ht

protected theorem bind {p : Parse α} {f : α → Parse β} {go : γ → Parse β} {good' : γ → Prop}
    (h : Answers line m good ks pure (p s)) (short : ¬ m → ¬ n)
    (hf : ∀ a t, m → good a → Ahead line ks t → Answers line n good' ls go (f a t)) :
    Answers line n good' ls go ((p >>= f) s) := by
  rw [bind_apply]
  generalize p s = r at h
  cases h with
  | on room ha ht => exact hf _ _ room ha ht
  | deep room ht => exact .deep (short room) ht

theorem tooDeep (h : Ahead line ls s) (short : ¬ m) :
    Answers line m good ks go (Parse.tooDeep s) := by
  obtain ⟨t, ht, deep⟩ := h.tooDeep
  exact ht ▸ .deep short deep

end Answers

end Parse

end Spellcraft
