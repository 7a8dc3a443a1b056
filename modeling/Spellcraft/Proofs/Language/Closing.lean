import Spellcraft.Proofs.Language.EchoesStmt

namespace Spellcraft

open Scribe (Onward)

theorem Stmt.filter_nodes {s : Stmt} (h : s.isSimple = true) : s.nodes.filter isSimple = [s] := by
  cases s with
  | declare | expr | return_ | break_ | continue_ => rfl
  | _ => cases h

/-- Without a complaint the parser reads the statement from the first tokens and leaves the second
ones. -/
def Stmt.Read (s : Stmt) (ts us : List Token) : Prop :=
  ∃ room inLoop t u, Parse.statement room inLoop t = (some s, u) ∧ u.report.total = t.report.total ∧
    t.rest = ts ∧ u.rest = us

theorem Stmt.Read.fewer {s : Stmt} (h : s.Read ts us) : us.length < ts.length := by
  obtain ⟨room, inLoop, t, u, read, clean, rfl, rfl⟩ := h
  exact ((Parse.statement_reads room inLoop).takes read clean).1.lt s.writing_ne_nil

/-- The statements are read one after another from the first tokens. In the second ones each has a
semicolon right behind it: the one that it had, or where it had none one that is marked by its last
token. -/
inductive Ended (mark : Span → Span) : List Stmt → List Token → List Token → Prop
  | rest (ts : List Token) : Ended mark [] ts ts
  | kept {s : Stmt} {ss : List Stmt} {t : Token} {before own ts us : List Token} :
    s.Read (own ++ t :: ts) ts → t.kind = .symbol .semicolon → Ended mark ss ts us →
    Ended mark (s :: ss) (before ++ (own ++ t :: ts)) (before ++ (own ++ t :: us))
  | added {s : Stmt} {ss : List Stmt} {t : Token} {before own ts us : List Token} :
    s.Read (own ++ t :: ts) ts → (∀ u ∈ ts.head?, u.kind ≠ .symbol .semicolon) →
    Ended mark ss ts us →
    Ended mark (s :: ss) (before ++ (own ++ t :: ts))
      (before ++ (own ++ t :: ⟨.symbol .semicolon, mark t.span⟩ :: us))

theorem Scribe.close_cases (mark : Span → Span) (c : Scribe) :
    (∃ t left, c.rest = t :: left ∧ t.kind = .symbol .semicolon ∧
      c.close mark = ⟨left, c.copy ++ [t]⟩) ∨
    (∀ t ∈ c.rest.head?, t.kind ≠ .symbol .semicolon) ∧ c.close mark = ⟨c.rest, c.copy ++
      [⟨.symbol .semicolon, mark ((c.copy.getLast?.map Token.span).getD (.point .origin))⟩]⟩ := by
  rcases c with ⟨_ | ⟨t, left⟩, copy⟩
  · exact .inr ⟨by simp, rfl⟩
  · cases h : t.kind.isSymbol .semicolon with
    | true =>
      refine .inl ⟨t, left, rfl, Kind.eq_of_isSymbol h, ?_⟩
      have sees : sees ⟨t :: left, copy⟩ .semicolon = true := h
      rw [close, if_pos sees]
      rfl
    | false =>
      refine .inr ⟨?_, ?_⟩
      · rintro u hu there
        cases hu
        rw [there] at h
        cases h
      · have sees : sees ⟨t :: left, copy⟩ .semicolon = false := h
        rw [close, if_neg (by simp [sees])]

inductive Placed (mark : Span → Span) : List Stmt → Scribe → Scribe → Prop
  | onward {b c : Scribe} : Onward b c → Placed mark [] b c
  | closed {s : Stmt} {ss : List Stmt} {b c d : Scribe} {n : Nat} : Onward b c →
    s.Read c.rest ((c.keep n).close mark).rest → Placed mark ss ((c.keep n).close mark) d →
    Placed mark (s :: ss) b d

namespace Placed

variable {mark : Span → Span} {ss ss' : List Stmt} {b c d : Scribe}

theorem behind (k : Placed mark ss c d) (h : Onward b c) : Placed mark ss b d := by
  cases k with
  | onward k => exact .onward (h.trans k)
  | closed k read rest => exact .closed (h.trans k) read rest

theorem append (h : Placed mark ss b c) (k : Placed mark ss' c d) :
    Placed mark (ss ++ ss') b d := by
  induction h with
  | onward h => exact k.behind h
  | closed h read _ ih => exact .closed h read (ih k)

theorem before (h : Placed mark ss b c) (k : Onward c d) : Placed mark ss b d := by
  simpa using h.append (.onward k)

theorem ended (h : Placed mark ss c d) (all : d.rest = []) :
    ∃ us, d.copy = c.copy ++ us ∧ Ended mark ss c.rest us := by
  induction h with
  | @onward b _ onward =>
    obtain ⟨n, rfl⟩ := onward
    have whole : b.rest.take n = b.rest := List.take_of_length_le (List.drop_eq_nil_iff.1 all)
    exact ⟨b.rest, congrArg (b.copy ++ ·) whole, .rest _⟩
  | @closed s ss b _ d n onward read _ ih =>
    obtain ⟨m, rfl⟩ := onward
    obtain ⟨us, copied, ended⟩ := ih all
    have fewer := read.fewer
    have there : b.rest = b.rest.take m ++ (b.keep m).rest := (List.take_append_drop m _).symm
    have stretch : (b.keep m).rest = (b.keep m).rest.take n ++ ((b.keep m).keep n).rest :=
      (List.take_append_drop n _).symm
    have copy : ((b.keep m).keep n).copy = b.copy ++ b.rest.take m ++ (b.keep m).rest.take n := rfl
    rw [there]
    rw [stretch] at read fewer ⊢
    generalize (b.keep m).rest.take n = own at *
    rcases ((b.keep m).keep n).close_cases mark with ⟨t, left, found, semicolon, closed⟩ |
      ⟨absent, closed⟩ <;> rw [closed] at copied ended read fewer
    · refine ⟨b.rest.take m ++ (own ++ t :: us), ?_, ?_⟩
      · rw [copied, copy]
        simp
      · rw [found] at read ⊢
        exact .kept read semicolon ended
    · obtain ⟨own, t, rfl⟩ : ∃ own' t, own = own' ++ [t] := by
        refine ⟨_, _, (List.dropLast_concat_getLast ?_).symm⟩
        rintro rfl
        exact Nat.lt_irrefl _ fewer
      rw [List.append_assoc] at read ⊢
      refine ⟨b.rest.take m ++ (own ++ t :: ⟨.symbol .semicolon, mark t.span⟩ :: us), ?_, ?_⟩
      · rw [copied, copy]
        simp
      · exact .added read absent ended

theorem simple {a : Stmt} (simple : a.isSimple = true) {k : Scribe}
    (read : a.Read k.rest (a.completed mark k).rest) : Placed mark [a] k (a.completed mark k) := by
  obtain ⟨d, ⟨n, rfl⟩, closes⟩ : ∃ d, Onward k d ∧ a.completed mark k = d.close mark := by
    cases a with
    | declare d => exact ⟨_, d.copied_onward k, rfl⟩
    | return_ _ value =>
      exact ⟨_, ((Onward.refl k).keep 1).trans (optionCopied_onward value _), rfl⟩
    | break_ | continue_ => exact ⟨_, ⟨1, rfl⟩, rfl⟩
    | expr _ e => exact ⟨_, e.copied_onward k, rfl⟩
    | _ => cases simple
  rw [closes] at read ⊢
  exact .closed (.refl k) read (.onward (.refl _))

end Placed

namespace Parse

variable {A : Prop} {k : Scribe} {L M : Point} {mark : Span → Span}

theorem Echo.triple {p q : Parse α} {e : α → γ} {out : α → Scribe} (h : Echo A k L p q e out M) :
    Triple (fun s => k.rest = s.rest ∧ A) p fun a s => (out a).rest = s.rest ∧ A where
  toHonest := h.toHonest
  gives hs he clean := by
    obtain ⟨us, copied, -⟩ := h.gives hs.2 hs.1 he clean
    exact ⟨by rw [copied], hs.2⟩

theorem expect_beside (m : Symbol) : Triple (fun s => k.rest = s.rest ∧ A) (expect m)
    fun _ s => (k.keep 1).rest = s.rest ∧ A :=
  (Echo.expect (L := .outset) (M := .agree 0) m).triple

theorem expectClosing_beside (m : Symbol) (opened : Span) :
    Triple (fun s => k.rest = s.rest ∧ A) (expectClosing m opened)
      fun _ s => (k.keep 1).rest = s.rest ∧ A :=
  (Echo.expectClosing (L := .outset) (M := .agree 0) m opened opened).triple

theorem advance_beside (there : A → k.kind ≠ .eof) : Triple (fun s => k.rest = s.rest ∧ A) advance
    fun _ s => (k.keep 1).rest = s.rest ∧ A :=
  (Echo.take (L := .outset) (M := .agree 0) there).triple

theorem eat_beside (m : Symbol) : Triple (fun s => k.rest = s.rest ∧ A) (eat m)
    fun _ s => (k.keepIf m).rest = s.rest ∧ A := by
  refine .bind (.sight fun s => s.kind.isSymbol m) fun b => ?_
  have sees {s : Stream} (here : k.rest = s.rest) (seen : b = s.kind.isSymbol m) :
      k.sees m = b := by
    rw [Scribe.sees, ← Scribe.kind_eq here, seen]
  cases b with
  | true =>
    refine .bind ((advance_beside (k := k) (A := k.sees m = true ∧ A) ?_).pre fun s h => ?_)
      fun _ => .pure fun s h => ?_
    · rintro ⟨seen, -⟩ none
      rw [Scribe.sees, none] at seen
      cases seen
    · exact ⟨h.2.1, sees h.2.1 h.1, h.2.2⟩
    · rw [Scribe.keepIf, if_pos h.2.1]
      exact ⟨h.1, h.2.2⟩
  | false =>
    refine .pure fun s h => ?_
    rw [Scribe.keepIf, if_neg (by simp [sees h.2.1 h.1])]
    exact h.2

variable (mark)

abbrev PlacedBy (k : Scribe) (A : Prop) (a : Stmt) (s : Stream) : Prop :=
  (a.completed mark k).rest = s.rest ∧
    Placed mark (a.nodes.filter Stmt.isSimple) k (a.completed mark k) ∧ A

def Places (p : Parse Stmt) : Prop :=
  ∀ k A, Triple (fun s => k.rest = s.rest ∧ A) p (PlacedBy mark k A)

def PlacesFrom (w : Keyword) (p : Parse Stmt) : Prop :=
  ∀ k A, Triple (fun s => k.rest = s.rest ∧ k.kind = .keyword w ∧ A) p (PlacedBy mark k A)

def PlacesBody (p : Parse (List Stmt)) : Prop :=
  ∀ k A, Triple (fun s => k.rest = s.rest ∧ A) p fun body s =>
    (bodyCompleted mark body k).rest = s.rest ∧
    Placed mark ((bodyNodes body).filter Stmt.isSimple) k (bodyCompleted mark body k) ∧ A

variable {mark}

theorem placesBody_nil : PlacesBody mark (pure []) := fun k _ =>
  .pure fun _ h => ⟨h.1, .onward (.refl k), h.2⟩

section

variable {st : Parse Stmt} (hst : Places mark st)
include hst

theorem PlacesBody.resumed {rounds : Parse (List Stmt)} {f : Option Stmt → Parse (List Stmt)}
    (others : PlacesBody mark rounds) (failed : f none = rounds)
    (read : ∀ a, f (some a) = do return a :: (← rounds)) :
    PlacesBody mark (attempt st >>= f) := fun k A => by
  refine (hst k A).attempt.bind fun o => ?_
  cases o with
  | none =>
    rw [failed]
    exact .never (others k A).toHonest fun _ h => nomatch h
  | some a =>
    rw [read]
    have rest := others (a.completed mark k)
      (Placed mark (a.nodes.filter Stmt.isSimple) k (a.completed mark k) ∧ A)
    refine (rest.pre fun s h => ?_).bind fun as => .pure fun s h => ?_
    · obtain ⟨_, ⟨⟩, h⟩ := h
      exact h
    · obtain ⟨left, placed, first, h⟩ := h
      refine ⟨left, ?_, h⟩
      rw [bodyNodes, List.filter_append]
      exact first.append placed

theorem blockRounds_places : ∀ n, PlacesBody mark (blockRounds st n)
  | 0 => placesBody_nil
  | n + 1 => fun k A => by
    refine .bind (.glance id) fun _ => ?_
    split
    · exact placesBody_nil k A
    · exact PlacesBody.resumed hst (blockRounds_places n) rfl (fun _ => rfl) k A

theorem block_places (k : Scribe) (A : Prop) :
    Triple (fun s => k.rest = s.rest ∧ A) (block st) fun b s =>
      ((bodyCompleted mark b.2 (k.keep 1)).keep 1).rest = s.rest ∧
      Placed mark ((bodyNodes b.2).filter Stmt.isSimple) k
        ((bodyCompleted mark b.2 (k.keep 1)).keep 1) ∧ A := by
  refine .bind (.glance Stream.span) fun start => (expect_beside .openBrace).bind fun _ =>
    .bind (.glance fun s => s.rest.length) fun n => (blockRounds_places hst n _ _).bind fun body =>
    (expectClosing_beside .closeBrace start).bind fun _ =>
    .bind (.glance Stream.previousSpan) fun _ => .pure fun s h => ?_
  obtain ⟨left, placed, h⟩ := h
  exact ⟨left, (placed.before ⟨1, rfl⟩).behind ⟨1, rfl⟩, h⟩

theorem functionStatement_places : PlacesFrom mark .function (functionStatement st) :=
  fun k A => by
  refine .bind (.glance Stream.span) fun start =>
    (advance_beside fun h => by simp [h.1]).bind fun _ =>
    .bind (.glance fun s => s.kind.isSymbol .openParen) fun nameless => ?_
  have named : Triple (fun s => (k.keep 1).rest = s.rest ∧ k.kind = .keyword .function ∧ A)
      (do
        let n ← name
        let opened ← expect .openParen
        let params ← if ← sees .closeParen then pure [] else commaList name
        expectClosing .closeParen opened
        let b ← block st
        return Stmt.function (start.merge b.1) n params b.1 b.2)
      (PlacedBy mark k A) := by
    refine name_echo.triple.bind fun n => (expect_beside .openParen).bind fun opened =>
      .bind (.glance fun s => s.kind.isSymbol .closeParen) fun closes => ?_
    rw [Ident.copied, Scribe.keep_keep, Scribe.keep_keep]
    have closed (params : List Ident) : Triple
        (fun s => ((k.keep 3).keepList Ident.copied params).rest = s.rest ∧
          k.kind = .keyword .function ∧ A)
        (do
          expectClosing .closeParen opened
          let b ← block st
          return Stmt.function (start.merge b.1) n params b.1 b.2)
        (PlacedBy mark k A) := by
      refine (expectClosing_beside .closeParen opened).bind fun _ => (block_places hst _ _).bind
        fun b => .pure fun s h => ?_
      obtain ⟨left, placed, -, h⟩ := h
      have head : Onward k (((k.keep 3).keepList Ident.copied params).keep 1) :=
        (Onward.keepList (fun i _ => i.copied_onward) ((Onward.refl k).keep 3)).keep 1
      rw [Scribe.keep_keep] at left placed
      exact ⟨left, placed.behind head, h⟩
    dsimp only
    split
    · exact closed []
    · exact (Echo.commaList (fun _ _ => name_echo.lead) name_reads (by simp)).triple.bind closed
  dsimp only
  split
  · exact .bind (.refuse _) fun _ => named
  · exact named

theorem branchStatement_places : PlacesFrom mark .if_ (branchStatement room st) := fun k A => by
  refine .bind (.glance Stream.span) fun start =>
    (advance_beside fun h => by simp [h.1]).bind fun _ => parenCondition_echo.triple.bind fun c =>
    (hst _ _).bind fun yes => .bind (.sight Stream.kind) fun κ => ?_
  rw [Scribe.keep_keep]
  unfold PlacedBy
  have head : Onward k ((c.copied (k.keep 2)).keep 1) :=
    (((Onward.refl k).keep 2).trans (c.copied_onward _)).keep 1
  generalize hk : yes.completed mark ((c.copied (k.keep 2)).keep 1) = behind
  have ended (no : Option Stmt) : Triple
      (fun s => (elseCompleted mark no behind).rest = s.rest ∧
        Placed mark ((elseNodes no).filter Stmt.isSimple) behind (elseCompleted mark no behind) ∧
        Placed mark (yes.nodes.filter Stmt.isSimple) ((c.copied (k.keep 2)).keep 1) behind ∧ A)
      (do return Stmt.branch (start.merge (← previousSpan)) c yes no)
      (PlacedBy mark k A) :=
    .bind (.glance Stream.previousSpan) fun _ => .pure fun s h => by
      obtain ⟨left, other, placed, h⟩ := h
      have parts := (placed.append other).behind head
      rw [← List.filter_append] at parts
      rw [PlacedBy, Stmt.completed, hk]
      exact ⟨left, parts, h⟩
  dsimp only
  split
  · next there =>
    have kind : κ ≠ .eof := by simp [Kind.eq_of_isKeyword there]
    have first : Triple _ advance fun _ s => (behind.keep 1).rest = s.rest ∧ behind.kind = κ ∧
        Placed mark (yes.nodes.filter Stmt.isSimple) ((c.copied (k.keep 2)).keep 1) behind ∧ A :=
      advance_beside fun h => h.1 ▸ kind
    refine .bind (first.pre fun s h => ?_) fun _ => .bind ((hst _ _).map fun no s h => ?_) ended
    · obtain ⟨rfl, left, placed, -, h⟩ := h
      exact ⟨left, (Scribe.kind_eq left).symm, placed, h⟩
    · obtain ⟨left, placed, -, h⟩ := h
      exact ⟨left, placed.behind ⟨1, rfl⟩, h⟩
  · refine .bind (.pure fun s h => ?_) ended
    obtain ⟨-, left, placed, -, h⟩ := h
    exact ⟨left, .onward (.refl _), placed, h⟩

theorem whileStatement_places : PlacesFrom mark .while_ (whileStatement room st) := fun k A => by
  refine .bind (.glance Stream.span) fun _ => (advance_beside fun h => by simp [h.1]).bind fun _ =>
    parenCondition_echo.triple.bind fun c => (hst _ _).bind fun body =>
    .bind (.glance Stream.previousSpan) fun _ => .pure fun s h => ?_
  obtain ⟨left, placed, -, h⟩ := h
  rw [Scribe.keep_keep] at left placed
  exact ⟨left, placed.behind ((((Onward.refl k).keep 2).trans (c.copied_onward _)).keep 1), h⟩

theorem doWhileStatement_places : PlacesFrom mark .do_ (doWhileStatement room st) := fun k A => by
  refine .bind (.glance Stream.span) fun _ => (advance_beside fun h => by simp [h.1]).bind fun _ =>
    (hst _ _).bind fun body =>
    (Echo.expectKind (L := .outset) (M := .agree 0) rfl _).triple.bind fun _ =>
    parenCondition_echo.triple.bind fun c => (eat_beside .semicolon).bind fun _ =>
    .bind (.glance Stream.previousSpan) fun _ => .pure fun s h => ?_
  obtain ⟨left, placed, -, h⟩ := h
  have tail : Onward (body.completed mark (k.keep 1)) _ :=
    ((((Onward.refl _).keep 2).trans (c.copied_onward _)).keep 1).keepIf .semicolon
  rw [Scribe.keep_keep] at left
  exact ⟨left, (placed.before tail).behind ⟨1, rfl⟩, h⟩

theorem forStatement_places : PlacesFrom mark .for_ (forStatement room st) := fun k A => by
  refine .bind (.glance Stream.span) fun start => (advance_beside fun h => by simp [h.1]).bind
    fun _ => (expect_beside .openParen).bind fun opened => .bind (.glance id) fun s => ?_
  have headed : Triple
      (fun s => ((k.keep 1).keep 1).rest = s.rest ∧ k.kind = .keyword .for_ ∧ A)
      (do
        let init ← forInit room
        let condition ← expressionUnless .semicolon room
        let _ ← expect .semicolon
        let update ← expressionUnless .closeParen room
        expectClosing .closeParen opened
        let body ← st
        return Stmt.for_ (start.merge (← previousSpan)) init condition update body)
      (PlacedBy mark k A) := by
    rw [Scribe.keep_keep]
    refine (forInit_echo 2).triple.bind fun init => (expressionUnless_echo 1).triple.bind fun c =>
      (expect_beside .semicolon).bind fun _ => (expressionUnless_echo 0).triple.bind fun u =>
      (expectClosing_beside .closeParen opened).bind fun _ => (hst _ _).bind fun body =>
      .bind (.glance Stream.previousSpan) fun _ => .pure fun s h => ?_
    obtain ⟨left, placed, -, h⟩ := h
    have head := (((Onward.refl k).keep 2).trans (init.copied_onward _)).keep 1
    have head := ((head.trans (optionCopied_onward c _)).keep 1).trans (optionCopied_onward u _)
    exact ⟨left, placed.behind (head.keep 1), h⟩
  dsimp only
  split
  · exact .bind (.glance Stream.span) fun _ => .refusal _ _
  · exact headed

end

theorem returnStatement_simple : Gives (·.isSimple = true) (returnStatement room) := by
  refine .after fun _ => .after fun _ => .after fun s => ?_
  have ended (here : Span) (value : Option Expr) : Gives (·.isSimple = true)
      (do
        let stop ← previousSpan
        endStatement
        return Stmt.return_ (here.merge stop) value) :=
    .after fun _ => .after fun _ => .pure rfl
  dsimp only
  split
  · exact .after (ended _)
  · exact .after (ended _)

theorem jumpStatement_simple {build : Span → Stmt} (h : ∀ here, (build here).isSimple = true) :
    Gives (·.isSimple = true) (jumpStatement word inLoop build) := by
  refine .after fun here => .after fun _ => ?_
  have ended : Gives (·.isSimple = true) (do endStatement; return build here) :=
    .after fun _ => .pure (h here)
  dsimp only
  split
  · exact .after fun _ => ended
  · exact ended

theorem compound_places (h : ∀ inLoop, Places mark (statement room inLoop)) (k : Scribe)
    (A : Prop) : Triple (fun s => k.rest = s.rest ∧ A) (statement (room + 1) inLoop) fun a s =>
      a.isSimple = true ∨ PlacedBy mark k A a s := by
  have form {κ : Kind} {w : Keyword} {p : Parse Stmt} (hp : PlacesFrom mark w p)
      (hw : κ = .keyword w) : Triple (fun s => κ = s.kind ∧ k.rest = s.rest ∧ A) p fun a s =>
        a.isSimple = true ∨ PlacedBy mark k A a s :=
    ((hp k A).pre fun s hs =>
      ⟨hs.2.1, (Scribe.kind_eq hs.2.1).symm.trans (hs.1.symm.trans hw), hs.2.2⟩).post
        fun _ _ => .inr
  have alone {p : Parse Stmt} {P : Stream → Prop} (honest : Honest p)
      (hp : Gives (·.isSimple = true) p) : Triple P p fun a s =>
        a.isSimple = true ∨ PlacedBy mark k A a s :=
    ⟨honest, fun _ he _ => .inl (hp _ _ _ he)⟩
  have jump {word : Keyword} {build : Span → Stmt} (hb : ∀ here, (build here).isSimple = true)
      (echo : EchoFrom mark word (jumpStatement word inLoop build)) :=
    alone (P := fun s => .keyword word = s.kind ∧ k.rest = s.rest ∧ A) (echo _ k id).toHonest
      (jumpStatement_simple hb)
  refine .bind (.sight Stream.kind) fun κ => ?_
  dsimp only
  split
  · exact ((block_places (h inLoop) k A).pre fun s hs => hs.2).bind fun b => .pure fun _ => .inr
  · refine .bind (.glance Stream.span) fun here => ?_
    have taken : Triple _ advance fun _ s => (k.keep 1).rest = s.rest ∧ k.kind = _ ∧ A :=
      advance_beside (A := k.kind = .symbol .semicolon ∧ A) fun hk => by simp [hk.1]
    refine (taken.pre fun s hs => ?_).bind fun _ => .pure fun s hs => .inr ?_
    · exact ⟨hs.2.1, (Scribe.kind_eq hs.2.1).symm.trans hs.1.symm, hs.2.2⟩
    · exact ⟨hs.1, .onward ⟨1, rfl⟩, hs.2.2⟩
  · exact form (functionStatement_places (h false)) rfl
  · exact form (branchStatement_places (h inLoop)) rfl
  · exact form (whileStatement_places (h true)) rfl
  · exact form (doWhileStatement_places (h true)) rfl
  · exact form (forStatement_places (h true)) rfl
  · have echo : EchoFrom mark .return_ (returnStatement room) := returnStatement_echo
    exact alone (echo _ k id).toHonest returnStatement_simple
  · exact jump (fun _ => rfl) (jumpStatement_echo (fun _ _ => rfl) fun _ _ => rfl)
  · exact jump (fun _ => rfl) (jumpStatement_echo (fun _ _ => rfl) fun _ _ => rfl)
  · exact .refuse _
  · split
    case h_1 d hd =>
      have declared : Echo (True ∧ k.kind = κ) k _ (declaration d room) _ _ _ _ :=
        declaration_echo hd
      exact alone (declared.toHonest.bind fun _ => Honest.endStatement.bind fun _ => .pure _)
        (.after fun _ => .after fun _ => .pure rfl)
    · have read := (expression_reads room).toHonest
      exact alone (read.bind fun _ => Honest.endStatement.bind fun _ => .pure _)
        (.after fun _ => .after fun _ => .pure rfl)

theorem statement_places : ∀ room inLoop, Places mark (statement room inLoop)
  | 0, _ => fun k A => .refuse _
  | room + 1, inLoop => fun k A => by
    refine ⟨(statement_reads _ _).toHonest, fun {s a t} hs he clean => ?_⟩
    rcases (compound_places (statement_places room) k A).gives hs he clean with simple | placed
    · obtain ⟨left, h⟩ := (statement_echo (room + 1) inLoop A k).triple.gives hs he clean
      have read : a.Read k.rest (a.completed mark k).rest :=
        ⟨_, _, s, t, he, clean, hs.1.symm, left.symm⟩
      exact ⟨left, Stmt.filter_nodes simple ▸ .simple simple read, h⟩
    · exact placed

theorem programRounds_places : ∀ n, PlacesBody mark (programRounds n)
  | 0 => placesBody_nil
  | n + 1 => fun k A => by
    refine .bind (.glance id) fun s => ?_
    split
    · exact placesBody_nil k A
    split
    · exact .bind (.complain _ _) fun _ => .bind (.never .advance fun _ => id) fun _ =>
        .never (programRounds_honest n) fun _ => id
    · exact PlacesBody.resumed (statement_places nestingLimit false) (programRounds_places n) rfl
        (fun _ => rfl) k A

theorem program_places (k : Scribe) : Triple (fun s => k.rest = s.rest ∧ True) program fun p s =>
    (bodyCompleted mark p.body k).rest = s.rest ∧
      Placed mark (p.statements.filter Stmt.isSimple) k (bodyCompleted mark p.body k) ∧ True :=
  .bind (.glance Stream.span) fun _ => .bind (.glance fun s => s.rest.length) fun n =>
    (programRounds_places n k True).bind fun _ => .bind (.glance Stream.previousSpan) fun _ =>
    .pure fun _ h => h

end Parse

theorem Program.completed_ended (mark : Span → Span) (clean : (parseTokens ts).2.isClean = true) :
    Ended mark ((parseTokens ts).1.statements.filter Stmt.isSimple) (Stream.ofTokens ts).rest
      (Stream.ofTokens ((parseTokens ts).1.completed mark ts)).rest := by
  obtain ⟨t, hp, ended, quiet⟩ := program_of_isClean clean
  have places : Parse.Triple _ Parse.program fun p s => _ ∧ Placed mark _ _ _ ∧ True :=
    Parse.program_places ⟨ts.takeWhile (!·.kind.isEof), []⟩
  obtain ⟨left, placed, -⟩ := places.gives ⟨rfl, trivial⟩ hp quiet
  have all := left.trans ended
  obtain ⟨us, copied, closed⟩ := placed.ended all
  rw [Program.rest_completed all, copied]
  exact closed

/-- Optional semicolons never change meaning. Wherever they are marked, the tokens stay as they are
but for the semicolons, of which there is one right behind each simple statement. -/
theorem parseTokens_completed (mark : Span → Span) (clean : (parseTokens ts).2.isClean = true) :
    ts.Sublist ((parseTokens ts).1.completed mark ts) ∧
      (∀ t ∈ (parseTokens ts).1.completed mark ts, t ∈ ts ∨ t.kind = .symbol .semicolon) ∧
      (parseTokens ts).1.statements.countP Stmt.isSimple ≤
        ((parseTokens ts).1.completed mark ts).countP Token.isSemicolon ∧
      Ended mark ((parseTokens ts).1.statements.filter Stmt.isSimple) (Stream.ofTokens ts).rest
        (Stream.ofTokens ((parseTokens ts).1.completed mark ts)).rest ∧
      (parseTokens ((parseTokens ts).1.completed mark ts)).2.isClean = true ∧
      (parseTokens ((parseTokens ts).1.completed mark ts)).1.bare = (parseTokens ts).1.bare := by
  obtain ⟨t, hp, ended, quiet⟩ := program_of_isClean clean
  have echo : Parse.Echo True ⟨ts.takeWhile (!·.kind.isEof), []⟩ _ _ _ _
      (fun p : Program => bodyCompleted mark p.body _) _ := Parse.program_echo
  obtain ⟨us, copied, echoed⟩ := echo.gives trivial rfl hp quiet
  have all : (bodyCompleted mark (parseTokens ts).1.body ⟨ts.takeWhile (!·.kind.isEof), []⟩).rest =
    [] := by rw [copied, ended]
  have source : (Stream.ofTokens ((parseTokens ts).1.completed mark ts)).rest = us ++ [] := by
    rw [Program.rest_completed all, copied, List.nil_append, List.append_nil]
  obtain ⟨p, u, hu, same, -, -, silent⟩ := echoed.again source trivial rfl (by rw [ended]; rfl)
  have again : parseTokens ((parseTokens ts).1.completed mark ts) = (p, u.report) := by
    rw [parseTokens, hu]
  obtain ⟨kept, added, closed⟩ := Program.completed_adds all
  refine ⟨kept, added, closed, Program.completed_ended mark clean, ?_⟩
  rw [again]
  exact ⟨by simp [Report.isClean, silent, quiet], same⟩

def Spell.breathless : List Token :=
  (scan "let a = 1\nf(a)\nwhile (a) \x7b if (a++) break\ncontinue \x7d").1

theorem parseTokens_completed_breathless : (parseTokens Spell.breathless).2.isClean = true ∧
    (parseTokens Spell.breathless).1.statements.countP Stmt.isSimple = 4 ∧
    4 ≤ ((parseTokens Spell.breathless).1.completed (.point ·.last) Spell.breathless).countP
      Token.isSemicolon ∧
    Ended (.point ·.last) ((parseTokens Spell.breathless).1.statements.filter Stmt.isSimple)
      (Stream.ofTokens Spell.breathless).rest (Stream.ofTokens
        ((parseTokens Spell.breathless).1.completed (.point ·.last) Spell.breathless)).rest ∧
    (parseTokens ((parseTokens Spell.breathless).1.completed (.point ·.last) Spell.breathless)).1.bare =
      (parseTokens Spell.breathless).1.bare := by
  have clean : (parseTokens Spell.breathless).2.isClean = true := by decide +kernel
  have simple : (parseTokens Spell.breathless).1.statements.countP Stmt.isSimple = 4 := by
    decide +kernel
  obtain ⟨-, -, closed, ended, -, same⟩ := parseTokens_completed (.point ·.last) clean
  exact ⟨clean, simple, simple ▸ closed, ended, same⟩

def Spell.punctuated (source : String) : List String :=
  let ts := (scan source).1
  ((parseTokens ts).1.completed id ts).map (·.kind.shown)

example : Spell.punctuated "let a = b\nwhile (a) \x7b if (a++) break\nf(a); continue \x7d" =
    (scan "let a = b; while (a) \x7b if (a++) break; f(a); continue; \x7d").1.map (·.kind.shown) := by
  decide +kernel

end Spellcraft
