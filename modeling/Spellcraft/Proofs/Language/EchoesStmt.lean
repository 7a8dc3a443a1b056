import Spellcraft.Proofs.Language.EchoesExpr

namespace Spellcraft

namespace Parse

variable {A : Prop} {k : Scribe} {room : Nat} {inLoop : Bool}

theorem Echo.deepen {p q : Parse α} {e : α → γ} {out : α → Scribe} (n : Nat)
    (h : Echo A k .outset p q e out .brink) (onward : ∀ a, Scribe.Onward k (out a)) :
    Echo A k (.agree (n + 1)) p q e out (.agree (n + 1)) where
  toHonest := h.toHonest
  gives {s a t} hA hk he clean := by
    obtain ⟨us, copied, echoed⟩ := h.gives hA hk he clean
    have taken : s.rest = us ++ t.rest := by
      have := (onward a).whole
      rw [copied, Scribe.whole, Scribe.whole, List.append_assoc, hk] at this
      exact (List.append_cancel_left this).symm
    refine ⟨us, copied, fun {vs} hv => ?_, fun {s' vs} hs _ quiet hv => ?_⟩
    · have hv : vs.take (n + 1) = t.rest.take (n + 1) := hv
      show (us ++ vs).take (n + 1) = s.rest.take (n + 1)
      have shorter {m : Nat} (hm : m ≤ n + 1) : vs.take m = t.rest.take m := by
        rw [← Nat.min_eq_left hm, ← List.take_take, hv, List.take_take]
      rw [taken, List.take_append, List.take_append, shorter (Nat.sub_le _ _)]
    · exact echoed.again hs trivial quiet (.inl (Point.head_of_take hv))

theorem name_echo : Echo A k .outset name name Ident.bare (·.copied k) (.agree 0) := by
  refine .kind fun κ => ?_
  split
  case h_1 n =>
    exact .glance Stream.span fun _ _ => (Echo.takeKnown (L := .outset) (M := .agree 0)
      (by simp)).bind fun _ _ _ => .pure fun _ => ⟨rfl, rfl⟩
  all_goals exact .refuse _

theorem declarator_echo {d : DeclKind} : Echo A k .outset (declarator d room) (declarator d room)
    Declarator.bare (·.copied k) .brink := by
  refine name_echo.bind fun n n' hn => .lead (K := .brink) (M := .brink) ?_
  refine .ifEatenBrink (by simp) ?_ ?_
  · refine (expression_echo room _ _).bind fun e e' he => .pure fun _ => ⟨?_, ?_⟩
    · simp [Declarator.bare, hn, he]
    · simp [Declarator.copied, Ident.copied]
  · have unset : Echo (A ∧ (n.copied k).sees .assign = false) (n.copied k) .brink
        (pure ⟨n, none⟩ : Parse Declarator) (pure ⟨n', none⟩) Declarator.bare (·.copied k) .brink :=
      .pure fun _ => ⟨by simp [Declarator.bare, hn], rfl⟩
    dsimp only
    split
    · exact .told (fun _ => .pure _) _ _
    · exact unset

theorem declaration_echo {κ : Kind} (hd : DeclKind.ofKind? κ = some d) :
    Echo (A ∧ k.kind = κ) k .outset (declaration d room) (declaration d room) Declaration.bare
      (·.copied k) .brink := by
  have there : κ ≠ .eof := by simp [DeclKind.eq_keyword hd]
  refine .glance Stream.span fun _ _ => (Echo.takeKnown (L := .outset) (M := .agree 0) there).bind
    fun _ _ _ => (Echo.commaList (fun _ _ => declarator_echo) declarator_reads fun _ => ?_).bind
    fun ds ds' hds => .glance Stream.previousSpan fun _ _ => .pure fun _ =>
    ⟨by simp_all [Declaration.bare], rfl⟩
  simp [Declarator.writing]

theorem parenCondition_echo : Echo A k .outset (parenCondition room) (parenCondition room) Expr.bare
    (fun e => (e.copied (k.keep 1)).keep 1) (.agree 0) :=
  (Echo.expect (L := .outset) (M := .agree 0) .openParen).bind fun _ _ _ =>
    (expression_echo room _ _).bind fun _ _ he =>
    (Echo.expectClosing (L := .outset) (M := .agree 0) _ _ _).bind fun _ _ _ =>
    .pure fun _ => ⟨he, rfl⟩

theorem looksForEach_eq {s t : Stream} (head : t.rest.take 3 = s.rest.take 3) :
    looksForEach t = looksForEach s := by
  have kindAt {i : Nat} (hi : i < 3) : t.kindAt i = s.kindAt i := by
    rw [Stream.kindAt, Stream.kindAt, ← List.getElem?_take_of_lt hi, head,
      List.getElem?_take_of_lt hi]
  have kind : t.kind = s.kind := by
    rw [Stream.kind, Stream.kind, Point.head_of_take head]
  simp only [looksForEach, kind]
  split <;> rw [kindAt (by simp), kindAt (by simp)]

theorem forInit_echo (n : Nat) : Echo A k (.agree (n + 1)) (forInit room) (forInit room) ForInit.bare
    (fun init => (init.copied k).keep 1) (.agree n) := by
  refine .ifEaten (K := .agree n) (.pure fun _ => ⟨rfl, rfl⟩) (.kind fun κ => ?_)
  have ended {B : Prop} (i i' : ForInit) (hi : i'.bare = i.bare) :
      Echo B (i.copied k) (.agree (n + 1)) (do let _ ← expect .semicolon; return i)
      (do let _ ← expect .semicolon; return i') ForInit.bare (fun init => (init.copied k).keep 1)
      (.agree n) :=
    (Echo.expect (L := .agree (n + 1)) (M := .agree n) .semicolon).bind fun _ _ _ =>
      .pure fun _ => ⟨hi, rfl⟩
  dsimp only
  split
  case h_1 d hd =>
    have read : Echo ((A ∧ k.sees .semicolon = false) ∧ k.kind = κ) k .outset (declaration d room)
      (declaration d room) Declaration.bare (·.copied k) .brink := declaration_echo hd
    have declared := read.deepen n (·.copied_onward k)
    have init : Echo _ k (.agree (n + 1)) (ForInit.declare <$> declaration d room)
        (ForInit.declare <$> declaration d room) ForInit.bare (·.copied k) (.agree (n + 1)) :=
      declared.map (fun _ _ same => congrArg ForInit.declare same) fun _ => rfl
    exact init.bind ended
  · have read := (expression_echo room ((A ∧ k.sees .semicolon = false) ∧ k.kind = κ) k).deepen n
      (·.copied_onward k)
    have init : Echo _ k (.agree (n + 1)) (ForInit.expr <$> expression room)
        (ForInit.expr <$> expression room) ForInit.bare (·.copied k) (.agree (n + 1)) :=
      read.map (fun _ _ same => congrArg ForInit.expr same) fun _ => rfl
    exact init.bind ended

theorem expressionUnless_echo {m : Symbol} (n : Nat) :
    Echo A k (.agree (n + 1)) (expressionUnless m room) (expressionUnless m room)
      (Option.map Expr.bare) (optionCopied · k) (.agree (n + 1)) := by
  refine .sees m fun absent => ?_
  split
  · exact .pure fun _ => ⟨rfl, rfl⟩
  · exact ((expression_echo room _ k).deepen n (·.copied_onward k)).map
      (fun _ _ h => congrArg some h) fun _ => rfl

variable (mark : Span → Span)

def EchoStmt (p : Parse Stmt) : Prop :=
  ∀ A k, Echo A k .outset p p Stmt.bare (·.completed mark k) .outset

def EchoFrom (w : Keyword) (p : Parse Stmt) : Prop := ∀ A k, (A → k.kind = .keyword w) →
  Echo A k .outset p p Stmt.bare (·.completed mark k) .outset

variable {mark}

theorem Echo.opening {M : Point} {f g : Span → Parse β} {e : β → γ} {out : β → Scribe}
    (there : A → k.kind = .keyword w)
    (h : ∀ start start', Echo A (k.keep 1) (.agree 0) (f start) (g start') e out M) :
    Echo A k .outset (do let start ← span; advance; f start) (do let start ← span; advance; g start)
      e out M :=
  .glance Stream.span fun start start' =>
    (Echo.take (L := .outset) (M := .agree 0) fun hA => by simp [there hA]).bind
      fun _ _ _ => h start start'

theorem atEnd_eq {s t : Stream} (head : t.rest.head? = s.rest.head?) : t.atEnd = s.atEnd := by
  rw [Stream.atEnd, Stream.atEnd]
  rcases hs : s.rest with _ | _ <;> rcases ht : t.rest with _ | _ <;> rw [hs, ht] at head <;>
    first | rfl | cases head

theorem returnStatement_echo : EchoFrom mark .return_ (returnStatement room) := fun A k there => by
  refine .opening there fun start start' => ?_
  have ended (value value' : Option Expr) (same : value'.map Expr.bare = value.map Expr.bare) :
      Echo A (optionCopied value (k.keep 1)) .brink
      (do
        let stop ← previousSpan
        endStatement
        return Stmt.return_ (start.merge stop) value)
      (do
        let stop ← previousSpan
        endStatement
        return Stmt.return_ (start'.merge stop) value')
      Stmt.bare (·.completed mark k) .outset :=
    .glance Stream.previousSpan fun _ _ => (Echo.endStatement mark).bind fun _ _ _ =>
      .pure fun _ => ⟨by simp [Stmt.bare, same], rfl⟩
  have value : Echo A (k.keep 1) (.agree 1) (some <$> expression room) (some <$> expression room)
      (Option.map Expr.bare) (optionCopied · (k.keep 1)) .brink :=
    (expression_echo room A _).map (fun _ _ same => congrArg some same) fun _ => rfl
  refine .test (M := .brink) (N := .agree 1) (c := fun s => s.kind.isSymbol .semicolon ||
    s.kind.isSymbol .closeBrace || s.atEnd || s.onNewLine) (ended none none rfl)
    (value.bind (L := .agree 1) ended) fun s s' previous _ heads => ?_
  have same (head : s'.rest.head? = s.rest.head?) : (s'.kind.isSymbol .semicolon ||
      s'.kind.isSymbol .closeBrace || s'.atEnd || s'.onNewLine) = (s.kind.isSymbol .semicolon ||
      s.kind.isSymbol .closeBrace || s.atEnd || s.onNewLine) := by
    rw [Point.Firm.kind (L := .outset) head, atEnd_eq head]
    by_cases goes : s.rest = []
    · rw [Stream.atEnd, goes]
      simp
    · rw [onNewLine_eq previous head goes]
  split at heads
  · next stops =>
    rcases heads with head | semicolon
    · exact same head
    · have : s'.kind = .symbol .semicolon := by rw [Stream.kind, semicolon]; rfl
      rw [stops, this]
      rfl
  · exact same (Point.head_of_take heads)

theorem jumpStatement_echo {build : Span → Stmt}
    (h : ∀ here there, (build there).bare = (build here).bare)
    (h' : ∀ here k, (build here).completed mark k = (k.keep 1).close mark) :
    EchoFrom mark word (jumpStatement word inLoop build) := fun A k there => by
  refine .opening there fun here here' => ?_
  have ended : Echo A (k.keep 1) (.agree 0) (do endStatement; return build here)
      (do endStatement; return build here') Stmt.bare (·.completed mark k) .outset :=
    (Echo.endStatement mark).bind fun _ _ _ => .pure fun _ => ⟨h _ _, h' _ _⟩
  dsimp only
  split
  · exact .told (fun _ => ended.toHonest) _ _
  · exact ended

section

variable {st : Parse Stmt} (hst : EchoStmt mark st)
include hst

theorem Echo.resumed {rounds : Parse (List Stmt)} {f : Option Stmt → Parse (List Stmt)}
    (others : ∀ k, Echo A k .outset rounds rounds (·.map Stmt.bare) (bodyCompleted mark · k)
      .outset)
    (failed : f none = rounds) (read : ∀ a, f (some a) = do return a :: (← rounds)) :
    Echo A k .outset (attempt st >>= f) (attempt st >>= f) (·.map Stmt.bare)
      (bodyCompleted mark · k) .outset := by
  refine (hst A k).attempt.bind fun o o' ho => ?_
  cases o with
  | none =>
    cases o' with
    | none =>
      rw [failed]
      exact others k
    | some => cases ho
  | some a =>
    cases o' with
    | none => cases ho
    | some a' =>
      rw [read, read]
      exact (others _).bind fun as as' has => .pure fun _ => ⟨by simp_all, rfl⟩

theorem blockRounds_echo : ∀ n A k, Echo A k .outset (blockRounds st n) (blockRounds st n)
    (·.map Stmt.bare) (bodyCompleted mark · k) .outset
  | 0, A, k => .pure fun _ => ⟨rfl, rfl⟩
  | n + 1, A, k => by
    refine .test (M := .outset) (N := .outset) (c := fun s => s.kind.isSymbol .closeBrace ||
      s.atEnd || s.report.isFull) (.pure fun _ => ⟨rfl, rfl⟩)
      (.resumed hst (fun k => blockRounds_echo n A k) rfl fun _ => rfl) fun s s' _ quiet heads => ?_
    rw [ite_self] at heads
    rw [Point.Firm.kind (L := .outset) heads, atEnd_eq heads, Report.isFull, quiet, Report.isFull]

theorem block_echo (reads : Reads st Stmt.writing G) : Echo A k .outset (block st) (block st)
    (fun b => bareBody b.2) (fun b => (bodyCompleted mark b.2 (k.keep 1)).keep 1) (.agree 0) := by
  refine .glance Stream.span fun start start' => (Echo.expect (L := .outset) (M := .agree 0) _).bind
    fun _ _ _ => ?_
  have rounds : Echo A (k.keep 1) .outset (do blockRounds st (← tokensLeft))
      (do blockRounds st (← tokensLeft)) (·.map Stmt.bare) (bodyCompleted mark · (k.keep 1))
      .outset :=
    .rounds (blockRounds_ample reads Stmt.writing_ne_nil) fun n => blockRounds_echo hst n _ _
  have rest (body body' : List Stmt) (same : body'.map Stmt.bare = body.map Stmt.bare) :
      Echo A (bodyCompleted mark body (k.keep 1)) .outset
      (do expectClosing .closeBrace start; return (start.merge (← previousSpan), body))
      (do expectClosing .closeBrace start'; return (start'.merge (← previousSpan), body'))
      (fun b => bareBody b.2) (fun b => (bodyCompleted mark b.2 (k.keep 1)).keep 1) (.agree 0) :=
    (Echo.expectClosing (L := .outset) (M := .agree 0) _ _ _).bind fun _ _ _ =>
      .glance Stream.previousSpan fun _ _ => .pure fun _ => ⟨by simp [bareBody_eq, same], rfl⟩
  exact rounds.bind (L := .agree 0) rest

theorem functionStatement_echo (reads : Reads st Stmt.writing G) :
    EchoFrom mark .function (functionStatement st) := fun A k there => by
  refine .opening there fun start start' => .lead (K := .outset) (M := .outset)
    (.sees .openParen fun nameless => ?_)
  have named {B : Prop} : Echo B (k.keep 1) .outset
      (do
        let n ← name
        let opened ← expect .openParen
        let params ← if ← sees .closeParen then pure [] else commaList name
        expectClosing .closeParen opened
        let b ← block st
        return Stmt.function (start.merge b.1) n params b.1 b.2)
      (do
        let n ← name
        let opened ← expect .openParen
        let params ← if ← sees .closeParen then pure [] else commaList name
        expectClosing .closeParen opened
        let b ← block st
        return Stmt.function (start'.merge b.1) n params b.1 b.2)
      Stmt.bare (·.completed mark k) .outset := by
    refine name_echo.bind fun n n' hn => (Echo.expect (L := .outset) (M := .agree 0) _).bind
      fun opened opened' _ => .lead (K := .outset) (M := .outset) (.sees .closeParen fun closes => ?_)
    have finished {C : Prop} {L : Point} [L.Leads .outset] (params params' : List Ident)
        (same : params'.map Ident.bare = params.map Ident.bare) :
        Echo C ((k.keep 3).keepList Ident.copied params) L
        (do
          expectClosing .closeParen opened
          let b ← block st
          return Stmt.function (start.merge b.1) n params b.1 b.2)
        (do
          expectClosing .closeParen opened'
          let b ← block st
          return Stmt.function (start'.merge b.1) n' params' b.1 b.2)
        Stmt.bare (·.completed mark k) .outset :=
      (Echo.expectClosing (L := .outset) (M := .agree 0) _ _ _).bind fun _ _ _ =>
        (block_echo hst reads).bind fun b b' hb => .pure fun _ => ⟨by
          simp [Stmt.bare, hn, same, hb], by simp [Stmt.completed]⟩
    rw [Ident.copied, Scribe.keep_keep, Scribe.keep_keep]
    dsimp only
    split
    · exact finished (L := .outset) [] [] rfl
    · exact (Echo.commaList (fun _ _ => name_echo.lead) name_reads (by simp)).bind
        (finished (L := .brink))
  dsimp only
  split
  · exact .fruitless ((Honest.refuse _).bind fun _ => (named (B := True)).toHonest) fun _ => rfl
  · exact named

theorem branchStatement_echo : EchoFrom mark .if_ (branchStatement room st) := fun A k there => by
  refine .opening there fun start start' => parenCondition_echo.bind fun c c' hc => (hst _ _).bind
    fun yes yes' hyes => .kind fun κ => ?_
  rw [Scribe.keep_keep]
  generalize hk : yes.completed mark ((c.copied (k.keep 2)).keep 1) = behind
  have ended {B : Prop} (no no' : Option Stmt) (same : bareElse no' = bareElse no) :
      Echo B (elseCompleted mark no behind) .outset
      (do return Stmt.branch (start.merge (← previousSpan)) c yes no)
      (do return Stmt.branch (start'.merge (← previousSpan)) c' yes' no')
      Stmt.bare (·.completed mark k) .outset :=
    .glance Stream.previousSpan fun _ _ => .pure fun _ =>
      ⟨by simp [Stmt.bare, hc, hyes, same], by rw [Stmt.completed, hk]⟩
  dsimp only
  split
  · next other =>
    have no : Echo (A ∧ behind.kind = κ) (behind.keep 1) .outset (some <$> st) (some <$> st)
        bareElse (elseCompleted mark · behind) .outset :=
      (hst _ _).map (fun _ _ same => congrArg some same) fun _ => rfl
    have there : κ ≠ .eof := by simp [Kind.eq_of_isKeyword other]
    exact (Echo.takeKnown (L := .outset) (M := .agree 0) there).bind fun _ _ _ => no.bind ended
  · exact ended none none rfl

theorem whileStatement_echo : EchoFrom mark .while_ (whileStatement room st) := fun A k there =>
  .opening there fun start start' => parenCondition_echo.bind fun c c' hc => (hst _ _).bind
    fun body body' hbody => .glance Stream.previousSpan fun _ _ =>
    .pure fun _ => ⟨by simp [Stmt.bare, hc, hbody], by simp [Stmt.completed]⟩

theorem doWhileStatement_echo : EchoFrom mark .do_ (doWhileStatement room st) := fun A k there =>
  .opening there fun start start' => (hst _ _).bind fun body body' hbody =>
    (Echo.expectKind (L := .outset) (M := .agree 0) rfl _).bind fun _ _ _ =>
    parenCondition_echo.bind fun c c' hc => .lead (K := .outset) (M := .outset) <| .skip <|
    .glance Stream.previousSpan fun _ _ =>
    .pure fun _ => ⟨by simp [Stmt.bare, hc, hbody], by simp [Stmt.completed]⟩

theorem forStatement_echo : EchoFrom mark .for_ (forStatement room st) := fun A k there => by
  refine .opening there fun start start' => (Echo.expect (L := .outset) (M := .agree 0) _).bind
    fun opened opened' _ => ?_
  have headed : Echo A ((k.keep 1).keep 1) (.agree 3)
      (do
        let init ← forInit room
        let condition ← expressionUnless .semicolon room
        let _ ← expect .semicolon
        let update ← expressionUnless .closeParen room
        expectClosing .closeParen opened
        let body ← st
        return Stmt.for_ (start.merge (← previousSpan)) init condition update body)
      (do
        let init ← forInit room
        let condition ← expressionUnless .semicolon room
        let _ ← expect .semicolon
        let update ← expressionUnless .closeParen room
        expectClosing .closeParen opened'
        let body ← st
        return Stmt.for_ (start'.merge (← previousSpan)) init condition update body)
      Stmt.bare (·.completed mark k) .outset :=
    (forInit_echo 2).bind fun init init' hinit => (expressionUnless_echo 1).bind fun c c' hc =>
    (Echo.expect (L := .agree 2) (M := .agree 1) .semicolon).bind fun _ _ _ =>
    (expressionUnless_echo 0).bind fun u u' hu =>
    (Echo.expectClosing (L := .agree 1) (M := .agree 0) _ _ _).bind fun _ _ _ =>
    (hst _ _).bind fun body body' hbody => .glance Stream.previousSpan fun _ _ => .pure fun _ =>
    ⟨by simp [Stmt.bare, hinit, hc, hu, hbody], by simp [Stmt.completed]⟩
  refine .test (L := .agree 0) (M := .agree 3) (c := looksForEach) (.forbid _ _) headed
    fun s s' _ _ heads => ?_
  rw [ite_self] at heads
  exact looksForEach_eq heads

end

theorem statement_echo : ∀ room inLoop, EchoStmt mark (statement room inLoop)
  | 0, _ => fun A k => .refuse _
  | room + 1, inLoop => fun A k => by
    refine .kind fun κ => ?_
    dsimp only
    split
    · exact (block_echo (statement_echo room inLoop) (statement_reads room inLoop)).bind
        fun b b' hb => .pure fun _ => ⟨by simp [Stmt.bare, hb], rfl⟩
    · exact .glance Stream.span fun _ _ => (Echo.takeKnown (L := .outset) (M := .agree 0)
        (by simp)).bind fun _ _ _ => .pure fun _ => ⟨rfl, rfl⟩
    · exact functionStatement_echo (statement_echo room false) (statement_reads room false) _ k
        And.right
    · exact branchStatement_echo (statement_echo room inLoop) _ k And.right
    · exact whileStatement_echo (statement_echo room true) _ k And.right
    · exact doWhileStatement_echo (statement_echo room true) _ k And.right
    · exact forStatement_echo (statement_echo room true) _ k And.right
    · exact returnStatement_echo _ k And.right
    · exact jumpStatement_echo (fun _ _ => rfl) (fun _ _ => rfl) _ k And.right
    · exact jumpStatement_echo (fun _ _ => rfl) (fun _ _ => rfl) _ k And.right
    · exact .refuse _
    · split
      case h_1 d hd =>
        exact (declaration_echo hd).bind fun a a' ha => (Echo.endStatement mark).bind
          fun _ _ _ => .pure fun _ => ⟨congrArg Stmt.declare ha, rfl⟩
      · exact (expression_echo room _ k).bind fun e e' he => (Echo.endStatement mark).bind
          fun _ _ _ => .pure fun _ => ⟨by simp [Stmt.bare, he], rfl⟩

theorem programRounds_echo : ∀ n A k, Echo A k .outset (programRounds n) (programRounds n)
    (·.map Stmt.bare) (bodyCompleted mark · k) .outset
  | 0, A, k => .pure fun _ => ⟨rfl, rfl⟩
  | n + 1, A, k => by
    have others (k : Scribe) : Echo A k .outset (programRounds n) (programRounds n) _ _ _ :=
      programRounds_echo n A k
    have unmatched : Echo A k .outset
        (do
          let s ← get
          complain .unmatchedBrace s.span
          advance
          programRounds n)
        (do
          let s ← get
          complain .unmatchedBrace s.span
          advance
          programRounds n)
        (·.map Stmt.bare) (bodyCompleted mark · k) .outset :=
      .glance id fun _ _ => .told (fun _ => Honest.advance.bind fun _ => programRounds_honest n) _ _
    refine .choose (M := .outset) (N := .outset) (c := fun s => s.atEnd || s.report.isFull)
      (.glance id fun _ _ => .pure fun _ => ⟨rfl, rfl⟩) (.choose (M := .outset) (N := .outset)
      (c := fun s => s.kind.isSymbol .closeBrace) unmatched (.glance id fun _ _ =>
      .resumed (statement_echo nestingLimit false) others rfl fun _ => rfl) fun s s' _ _ heads => ?_)
      fun s s' _ quiet heads => ?_ <;> rw [ite_self] at heads
    · rw [Point.Firm.kind (L := .outset) heads]
    · rw [atEnd_eq heads, Report.isFull, quiet, Report.isFull]

theorem program_echo : Echo A k .outset program program Program.bare
    (fun p => bodyCompleted mark p.body k) .outset := by
  refine .glance Stream.span fun start start' => ?_
  have rounds : Echo A k .outset (do programRounds (← tokensLeft))
      (do programRounds (← tokensLeft)) (·.map Stmt.bare) (bodyCompleted mark · k) .outset :=
    .rounds programRounds_ample fun n => programRounds_echo n _ _
  have ended (body body' : List Stmt) (same : body'.map Stmt.bare = body.map Stmt.bare) :
      Echo A (bodyCompleted mark body k) .outset
      (do return (⟨body, start.merge (← previousSpan)⟩ : Program))
      (do return (⟨body', start'.merge (← previousSpan)⟩ : Program)) Program.bare
      (fun p => bodyCompleted mark p.body k) .outset :=
    .glance Stream.previousSpan fun _ _ => .pure fun _ =>
      ⟨by simp [Program.bare, bareBody_eq, same], rfl⟩
  exact rounds.bind ended

theorem program_exhausts (s₀ : Stream) :
    Triple (fun s => s = s₀ ∧ s.report.total = 0) program fun _ t => t.rest = [] := by
  refine .bind (.glance Stream.span) fun _ => .bind (.sight fun s => s.rest.length) fun n => ?_
  refine ((programRounds_triple s₀ [] True n).pre fun _ h => ?_).bind fun _ =>
    .bind (.glance Stream.previousSpan) fun _ => .pure fun _ h => h.2.1
  obtain ⟨rfl, rfl, clean⟩ := h
  exact ⟨⟨.refl _, Nat.le_refl _, trivial⟩, clean⟩

end Parse

theorem program_of_isClean (clean : (parseTokens ts).2.isClean = true) :
    ∃ t, Parse.program (Stream.ofTokens ts) = (some (parseTokens ts).1, t) ∧ t.rest = [] ∧
      t.report.total = 0 := by
  have exhausts := Parse.program_exhausts (Stream.ofTokens ts)
  have speaks := exhausts.speaks (Stream.ofTokens ts)
  unfold parseTokens at clean ⊢
  rcases hp : Parse.program (Stream.ofTokens ts) with ⟨_ | p, t⟩ <;>
    simp only [hp, Report.isClean, decide_eq_true_eq] at clean ⊢
  · rw [hp] at speaks
    exact absurd (speaks rfl) (by simp [clean])
  · exact ⟨t, rfl, exhausts.gives ⟨rfl, rfl⟩ hp clean, clean⟩

end Spellcraft
