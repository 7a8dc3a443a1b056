import Spellcraft.Proofs.Language.Nodes

/-!
Optional semicolons, put in. A scribe goes along a tree and copies the tokens that it was read from;
behind each simple statement that has no semicolon it adds one. Nothing else is added and nothing is
left out.
-/

namespace Spellcraft

/-- The tokens still to be copied, and the copy. -/
structure Scribe where
  rest : List Token
  copy : List Token

namespace Scribe

def kind (c : Scribe) : Kind := (c.rest.head?.map Token.kind).getD .eof

def sees (c : Scribe) (s : Symbol) : Bool := c.kind.isSymbol s

def keep (n : Nat) (c : Scribe) : Scribe := ⟨c.rest.drop n, c.copy ++ c.rest.take n⟩

def keepIf (s : Symbol) (c : Scribe) : Scribe := if c.sees s then c.keep 1 else c

def keepTarget (c : Scribe) : Scribe :=
  c.keep (2 * (c.rest.takeWhile (·.kind.isSymbol .openParen)).length + 1)

def keepList (item : α → Scribe → Scribe) (as : List α) (c : Scribe) : Scribe :=
  as.foldl (fun c a => (item a c).keepIf .comma) c

@[simp] theorem keepList_cons (item : α → Scribe → Scribe) (a : α) (as : List α) (c : Scribe) :
    c.keepList item (a :: as) = ((item a c).keepIf .comma).keepList item as := rfl

def close (mark : Span → Span) (c : Scribe) : Scribe :=
  if c.sees .semicolon then c.keep 1
  else
    let last := (c.copy.getLast?.map Token.span).getD (.point .origin)
    { c with copy := c.copy ++ [⟨.symbol .semicolon, mark last⟩] }

end Scribe

mutual

def Expr.copied : Expr → Scribe → Scribe
  | .number .., c | .text .., c | .bool .., c | .null _, c | .name .., c => c.keep 1
  | .call _ callee args, c => (argumentsCopied args ((callee.copied c).keep 1)).keep 1
  | .unary _ _ e, c => e.copied (c.keep 1)
  | .binary _ _ a b, c | .logical _ _ a b, c => b.copied ((a.copied c).keep 1)
  | .conditional _ i a b, c => b.copied ((a.copied ((i.copied c).keep 1)).keep 1)
  | .assign _ _ _ value, c => value.copied (c.keepTarget.keep 1)
  | .update _ _ true _, c => (c.keep 1).keepTarget
  | .update _ _ false _, c => c.keepTarget.keep 1
  | .paren _ e, c => (e.copied (c.keep 1)).keep 1

def argumentsCopied : List Expr → Scribe → Scribe
  | [], c => c
  | e :: es, c => argumentsCopied es ((e.copied c).keepIf .comma)

end

theorem argumentsCopied_eq (es : List Expr) (c : Scribe) :
    argumentsCopied es c = c.keepList Expr.copied es := by
  induction es generalizing c with
  | nil => rfl
  | cons e es ih => rw [argumentsCopied, ih, Scribe.keepList_cons]

def optionCopied : Option Expr → Scribe → Scribe
  | none, c => c
  | some e, c => e.copied c

def Ident.copied (_ : Ident) (c : Scribe) : Scribe := c.keep 1

def Declarator.copied (v : Declarator) (c : Scribe) : Scribe :=
  match v.init with
  | none => c.keep 1
  | some e => e.copied (c.keep 2)

def Declaration.copied (d : Declaration) (c : Scribe) : Scribe :=
  (c.keep 1).keepList Declarator.copied d.declarators

def ForInit.copied : ForInit → Scribe → Scribe
  | .absent, c => c
  | .declare d, c => d.copied c
  | .expr e, c => e.copied c

section

variable (mark : Span → Span)

mutual

def Stmt.completed : Stmt → Scribe → Scribe
  | .declare d, c => (d.copied c).close mark
  | .function _ _ params _ body, c =>
    (bodyCompleted body (((c.keep 3).keepList Ident.copied params).keep 2)).keep 1
  | .branch _ i yes no, c => elseCompleted no (yes.completed ((i.copied (c.keep 2)).keep 1))
  | .while_ _ i body, c => body.completed ((i.copied (c.keep 2)).keep 1)
  | .doWhile _ body i, c =>
    ((i.copied ((body.completed (c.keep 1)).keep 2)).keep 1).keepIf .semicolon
  | .for_ _ init i update body, c =>
    let head := (optionCopied i ((init.copied (c.keep 2)).keep 1)).keep 1
    body.completed ((optionCopied update head).keep 1)
  | .block _ body, c => (bodyCompleted body (c.keep 1)).keep 1
  | .return_ _ value, c => (optionCopied value (c.keep 1)).close mark
  | .break_ _, c | .continue_ _, c => (c.keep 1).close mark
  | .expr _ e, c => (e.copied c).close mark
  | .empty _, c => c.keep 1

def elseCompleted : Option Stmt → Scribe → Scribe
  | none, c => c
  | some s, c => s.completed (c.keep 1)

def bodyCompleted : List Stmt → Scribe → Scribe
  | [], c => c
  | s :: rest, c => bodyCompleted rest (s.completed c)

end

/-- The tokens of a spell with a semicolon behind each simple statement. -/
def Program.completed (p : Program) (ts : List Token) : List Token :=
  (bodyCompleted mark p.body ⟨ts.takeWhile (!·.kind.isEof), []⟩).copy ++
    ts.dropWhile (!·.kind.isEof)

end

namespace Scribe

def whole (c : Scribe) : List Token := c.copy ++ c.rest

@[simp] theorem keep_keep (c : Scribe) (m n : Nat) : (c.keep m).keep n = c.keep (m + n) := by
  simp [keep, List.take_add]

def Onward (c d : Scribe) : Prop := ∃ n, d = c.keep n

namespace Onward

variable {b c d : Scribe}

theorem refl (c : Scribe) : Onward c c := ⟨0, by simp [Scribe.keep]⟩

theorem trans : Onward b c → Onward c d → Onward b d
  | ⟨m, hc⟩, ⟨n, hd⟩ => ⟨m + n, by rw [hd, hc, keep_keep]⟩

theorem keep (h : Onward c d) (n : Nat) : Onward c (d.keep n) := h.trans ⟨n, rfl⟩

theorem keepIf (h : Onward c d) (s : Symbol) : Onward c (d.keepIf s) := by
  unfold Scribe.keepIf
  split
  · exact h.keep 1
  · exact h

theorem keepTarget (h : Onward c d) : Onward c d.keepTarget := h.keep _

theorem keepList {item : α → Scribe → Scribe} {as : List α}
    (hi : ∀ a ∈ as, ∀ c, Onward c (item a c)) (h : Onward c d) : Onward c (d.keepList item as) := by
  induction as generalizing d with
  | nil => exact h
  | cons a as ih =>
    obtain ⟨first, rest⟩ := List.forall_mem_cons.1 hi
    exact ih rest ((h.trans (first d)).keepIf .comma)

theorem whole (h : Onward c d) : d.whole = c.whole := by
  obtain ⟨n, rfl⟩ := h
  simp [Scribe.whole, Scribe.keep]

end Onward

end Scribe

open Scribe (Onward)

mutual

theorem Expr.copied_onward : ∀ (e : Expr) (c : Scribe), Onward c (e.copied c)
  | .number .., _ | .text .., _ | .bool .., _ | .null _, _ | .name .., _ => ⟨1, rfl⟩
  | .call _ callee args, c =>
    (((callee.copied_onward c).keep 1).trans (argumentsCopied_onward args _)).keep 1
  | .unary _ _ e, c => ((Onward.refl c).keep 1).trans (e.copied_onward _)
  | .binary _ _ a b, c | .logical _ _ a b, c =>
    ((a.copied_onward c).keep 1).trans (b.copied_onward _)
  | .conditional _ i a b, c =>
    ((((i.copied_onward c).keep 1).trans (a.copied_onward _)).keep 1).trans (b.copied_onward _)
  | .assign _ _ _ value, c => ((Onward.refl c).keepTarget.keep 1).trans (value.copied_onward _)
  | .update _ _ true _, c => ((Onward.refl c).keep 1).keepTarget
  | .update _ _ false _, c => (Onward.refl c).keepTarget.keep 1
  | .paren _ e, c => (((Onward.refl c).keep 1).trans (e.copied_onward _)).keep 1

theorem argumentsCopied_onward : ∀ (es : List Expr) (c : Scribe), Onward c (argumentsCopied es c)
  | [], c => .refl c
  | e :: es, c => ((e.copied_onward c).keepIf .comma).trans (argumentsCopied_onward es _)

end

theorem optionCopied_onward (o : Option Expr) (c : Scribe) : Onward c (optionCopied o c) := by
  cases o with
  | none => exact .refl c
  | some e => exact e.copied_onward c

theorem Ident.copied_onward (i : Ident) (c : Scribe) : Onward c (i.copied c) := ⟨1, rfl⟩

theorem Declarator.copied_onward (v : Declarator) (c : Scribe) : Onward c (v.copied c) := by
  unfold copied
  split
  · exact ⟨1, rfl⟩
  · exact ((Onward.refl c).keep 2).trans (Expr.copied_onward _ _)

theorem Declaration.copied_onward (d : Declaration) (c : Scribe) : Onward c (d.copied c) :=
  .keepList (fun v _ => v.copied_onward) ((Onward.refl c).keep 1)

theorem ForInit.copied_onward (init : ForInit) (c : Scribe) : Onward c (init.copied c) := by
  cases init with
  | absent => exact .refl c
  | declare d => exact d.copied_onward c
  | expr e => exact e.copied_onward c

def Stmt.isSimple : Stmt → Bool
  | .declare _ | .expr .. | .return_ .. | .break_ _ | .continue_ _ => true
  | _ => false

def Token.isSemicolon (t : Token) : Bool := t.kind.isSymbol .semicolon

namespace Scribe

/-- Between the tokens of the one there are only semicolons in the other, and `n` of them or more
have been written from the one to the other. -/
structure Adds (n : Nat) (c d : Scribe) : Prop where
  kept : c.whole.Sublist d.whole
  added : ∀ t ∈ d.whole, t ∈ c.whole ∨ t.kind = .symbol .semicolon
  closed : c.copy.countP Token.isSemicolon + n ≤ d.copy.countP Token.isSemicolon

namespace Adds

variable {m n : Nat} {b c d : Scribe}

theorem of_onward (h : Onward c d) : Adds 0 c d where
  kept := h.whole ▸ .refl _
  added _ ht := .inl (h.whole ▸ ht)
  closed := by
    obtain ⟨k, rfl⟩ := h
    simp [Scribe.keep]

theorem trans (h : Adds m b c) (k : Adds n c d) : Adds (m + n) b d where
  kept := h.kept.trans k.kept
  added t ht := (k.added t ht).elim (h.added t) .inr
  closed := by
    have := h.closed
    have := k.closed
    omega

theorem behind (k : Adds n c d) (h : Onward b c) : Adds n b d := by
  simpa using (of_onward h).trans k

theorem before (h : Adds n b c) (k : Onward c d) : Adds n b d := h.trans (of_onward k)

theorem close (mark : Span → Span) (c : Scribe) : Adds 1 c (c.close mark) := by
  unfold Scribe.close
  split
  · next there =>
    have kept := of_onward ⟨1, rfl⟩ (c := c)
    refine ⟨kept.kept, kept.added, ?_⟩
    rcases c with ⟨_ | ⟨t, rest⟩, copy⟩
    · cases there
    · have semicolon : t.isSemicolon = true := there
      simp [Scribe.keep, semicolon]
  · refine ⟨(List.sublist_append_left _ _).append (.refl _), fun t ht => ?_, by
      simp [Token.isSemicolon, Kind.isSymbol]⟩
    simp only [whole, List.mem_append, List.mem_singleton] at ht ⊢
    rcases ht with (ht | rfl) | ht
    · exact .inl (.inl ht)
    · exact .inr rfl
    · exact .inl (.inr ht)

end Adds

end Scribe

section

variable (mark : Span → Span)

open Scribe (Adds)

mutual

theorem Stmt.completed_adds : ∀ (s : Stmt) (c : Scribe),
    Adds (s.nodes.countP Stmt.isSimple) c (s.completed mark c)
  | .declare d, c => (Adds.close mark _).behind (d.copied_onward c)
  | .function _ _ params _ body, c => by
    have head : Onward c (((c.keep 3).keepList Ident.copied params).keep 2) :=
      (Onward.keepList (fun i _ => i.copied_onward) ((Onward.refl c).keep 3)).keep 2
    exact ((bodyCompleted_adds body _).before ⟨1, rfl⟩).behind head
  | .branch _ i yes no, c => by
    have head := (((Onward.refl c).keep 2).trans (i.copied_onward _)).keep 1
    have parts := ((yes.completed_adds _).trans (elseCompleted_adds no _)).behind head
    rwa [← List.countP_append] at parts
  | .while_ _ i body, c =>
    (body.completed_adds _).behind ((((Onward.refl c).keep 2).trans (i.copied_onward _)).keep 1)
  | .doWhile _ body i, c => by
    have tail := (((Onward.refl (body.completed mark (c.keep 1))).keep 2).trans
      (i.copied_onward _)).keep 1
    exact ((body.completed_adds _).before (tail.keepIf .semicolon)).behind ⟨1, rfl⟩
  | .for_ _ init i update body, c => by
    have head := (((Onward.refl c).keep 2).trans (init.copied_onward _)).keep 1
    have head := ((head.trans (optionCopied_onward i _)).keep 1).trans (optionCopied_onward update _)
    exact (body.completed_adds _).behind (head.keep 1)
  | .block _ body, c => ((bodyCompleted_adds body _).before ⟨1, rfl⟩).behind ⟨1, rfl⟩
  | .return_ _ value, c =>
    (Adds.close mark _).behind (((Onward.refl c).keep 1).trans (optionCopied_onward value _))
  | .break_ _, c | .continue_ _, c => (Adds.close mark _).behind ⟨1, rfl⟩
  | .expr _ e, c => (Adds.close mark _).behind (e.copied_onward c)
  | .empty _, c => .of_onward ⟨1, rfl⟩

theorem elseCompleted_adds : ∀ (no : Option Stmt) (c : Scribe),
    Adds ((elseNodes no).countP Stmt.isSimple) c (elseCompleted mark no c)
  | none, c => .of_onward (.refl c)
  | some s, _ => (s.completed_adds _).behind ⟨1, rfl⟩

theorem bodyCompleted_adds : ∀ (body : List Stmt) (c : Scribe),
    Adds ((bodyNodes body).countP Stmt.isSimple) c (bodyCompleted mark body c)
  | [], c => .of_onward (.refl c)
  | s :: rest, c => by
    have parts := (s.completed_adds c).trans (bodyCompleted_adds rest _)
    rwa [← List.countP_append] at parts

end

section

variable {mark} {p : Program} {ts : List Token}
variable (h : (bodyCompleted mark p.body ⟨ts.takeWhile (!·.kind.isEof), []⟩).rest = [])
include h

theorem Program.completed_adds : ts.Sublist (p.completed mark ts) ∧
    (∀ t ∈ p.completed mark ts, t ∈ ts ∨ t.kind = .symbol .semicolon) ∧
    p.statements.countP Stmt.isSimple ≤ (p.completed mark ts).countP Token.isSemicolon := by
  obtain ⟨kept, added, closed⟩ := bodyCompleted_adds mark p.body ⟨ts.takeWhile (!·.kind.isEof), []⟩
  simp only [Scribe.whole, h, List.nil_append, List.append_nil] at kept added
  refine ⟨?_, fun t ht => ?_, ?_⟩
  · have := kept.append (.refl (ts.dropWhile (!·.kind.isEof)))
    rwa [List.takeWhile_append_dropWhile] at this
  · rcases List.mem_append.1 ht with ht | ht
    · exact (added t ht).imp_left fun ht => (List.takeWhile_sublist _).subset ht
    · exact .inl ((List.dropWhile_sublist _).subset ht)
  · rw [completed, List.countP_append, statements]
    exact Nat.le_add_right_of_le (by simpa using closed)

theorem Program.rest_completed : (Stream.ofTokens (p.completed mark ts)).rest =
    (bodyCompleted mark p.body ⟨ts.takeWhile (!·.kind.isEof), []⟩).copy := by
  obtain ⟨-, added, -⟩ := bodyCompleted_adds mark p.body ⟨ts.takeWhile (!·.kind.isEof), []⟩
  simp only [Scribe.whole, h, List.nil_append, List.append_nil] at added
  have none : (ts.dropWhile (!·.kind.isEof)).takeWhile (!·.kind.isEof) = [] := by
    have stop := List.head?_dropWhile_not (fun t : Token => !t.kind.isEof) ts
    rcases hd : ts.dropWhile (!·.kind.isEof) with _ | ⟨t, rest⟩ <;> rw [hd] at stop ⊢
    · rfl
    · exact List.takeWhile_cons_of_neg (by simpa using stop)
  rw [Stream.ofTokens, completed]
  dsimp only
  rw [List.takeWhile_append_of_pos, none, List.append_nil]
  intro t ht
  rcases added t ht with ht | semicolon
  · exact List.all_eq_true.1 List.all_takeWhile t ht
  · rw [semicolon]
    rfl

end

end

end Spellcraft
