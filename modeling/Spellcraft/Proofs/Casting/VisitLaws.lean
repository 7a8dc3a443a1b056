import Spellcraft.Language.Names
import Spellcraft.Proofs.Casting.Visits

namespace Spellcraft

/-- Where a computation stands, with the `var` names that are reserved around it. -/
inductive Setting
  /-- Declares nothing in the current scope. -/
  | closed (names : List String) : Setting
  /-- May declare in the current scope. -/
  | opened (names : List String) : Setting
  /-- The new scope of a function, before its `var` names are reserved. -/
  | frame : Setting

def Setting.Fits : Setting → Piece → Prop
  | .closed names, .stmt _ s | .opened names, .stmt _ s => s.vars ⊆ names
  | .opened names, .list _ body => bodyVars body ⊆ names
  | .opened names, .declare kind name => kind = .var → name.name ∈ names
  | _, .expr .. => True
  | _, _ => False

inductive Piece.Runs (limits : Limits) : Piece → {α : Type} → Cast α → Prop
  | stmt (n : Nat) (s : Stmt) : Runs limits (.stmt n s) (Cast.exec limits n s)
  | list (n : Nat) (body : List Stmt) (exec : Stmt → Cast Unit) :
    Runs limits (.list n body) (Cast.execList exec body)
  | expr (n : Nat) (e : Expr) : Runs limits (.expr n e) (Cast.eval limits n e)
  | declare (kind : DeclKind) (name : Ident) (v : Option Value) :
    Runs limits (.declare kind name) (Cast.declare kind name v)

theorem vars_subset_bodyVars {body : List Stmt} (hs : s ∈ body) : s.vars ⊆ bodyVars body := by
  induction body with
  | nil => cases hs
  | cons t rest ih =>
    rw [bodyVars]
    rcases List.mem_cons.1 hs with rfl | hs
    · exact List.subset_append_left ..
    · exact List.Subset.trans (ih hs) (List.subset_append_right ..)

def Stmt.isBlock : Stmt → Bool
  | .block .. | .for_ .. => true
  | _ => false

namespace Visits

def Sparing (h : Except Exit α → Except Exit β) : Prop :=
  ∀ r t, h r = .error (.trap t) ↔ r = .error (.trap t)

theorem sparing_takeReturn : Sparing Cast.takeReturn := by
  rintro (e | a) t
  · cases e <;> simp [Cast.takeReturn]
  · simp [Cast.takeReturn]

theorem sparing_takeJump : Sparing Cast.takeJump := by
  rintro (e | a) t
  · cases e <;> simp [Cast.takeJump]
  · simp [Cast.takeJump]

structure Lawful (limits : Limits)
    (P : Setting → ∀ {α : Type} {p : Cast α}, Visits p → Prop) : Prop where
  pure (σ : Setting) {α : Type} (a : α) : P σ (quiet (pure a))
  throw (σ : Setting) {α : Type} (e : Exit) : (∀ limit span, e ≠ .trap (.tooManyCalls limit span)) →
    P σ (quiet (throw e : Cast α))
  tick (σ : Setting) : P σ (quiet (Cast.tick limits))
  lookup (σ : Setting) (name : String) (span : Span) : P σ (quiet (Cast.lookup name span))
  assign (σ : Setting) (target : Ident) (v : Value) : P σ (quiet (Cast.assign target v))
  binary (σ : Setting) (op : BinaryOp) (v w : Value) (span : Span) :
    P σ (quiet (Cast.binary limits op v w span))
  command (σ : Setting) (k : Command) (span : Span) : P σ (quiet (Cast.command k span))
  declare (names : List String) (kind : DeclKind) (name : Ident) (v : Option Value) :
    (kind = .var → name.name ∈ names) → P (.opened names) (quiet (Cast.declare kind name v))
  hoistFunctions (names : List String) (body : List Stmt) :
    P (.opened names) (quiet (Cast.hoistFunctions body))
  bindParams (params : List Ident) (args : List Value) :
    P .frame (quiet (Cast.bindParams params args))
  hoistVars {α : Type} {p : Cast α} {w : Visits p} (body : List Stmt) :
    P (.opened (bodyVars body)) w → P .frame ((quiet (Cast.hoistVars body)).bind fun _ => w)
  bind {σ : Setting} {α β : Type} {p : Cast α} {f : α → Cast β} {w : Visits p}
    {v : ∀ a, Visits (f a)} : P σ w → (∀ a, P σ (v a)) → P σ (w.bind v)
  settle {σ : Setting} {α β : Type} {p : Cast α} {w : Visits p}
    {h : Except Exit α → Except Exit β} : Sparing h → P σ w → P σ (w.settle h)
  note {σ : Setting} {α : Type} {p : Cast α} {w : Visits p} {piece : Piece} :
    σ.Fits piece → piece.Runs limits p → P σ w → P σ (w.note piece)
  inBlock {names : List String} {α : Type} {p : Cast α} {w : Visits p} :
    P (.opened names) w → P (.closed names) w.inBlock
  call {σ : Setting} {p : Cast Unit} {w : Visits p} (n : Nat) (f : Closure) (args : List Value)
    (span : Span) : P .frame w → P σ (Visits.note (.call n f args span)
      ((quiet (Cast.checkDepth limits span)).bind fun _ => returned (inFrame f.scope w)))
  anywhere {σ : Setting} {α : Type} {p : Cast α} {w : Visits p} : P (.closed []) w → P σ w
  widen {names : List String} {α : Type} {p : Cast α} {w : Visits p} :
    P (.closed names) w → P (.opened names) w

namespace Lawful

section

variable {limits : Limits} {P : Setting → ∀ {α : Type} {p : Cast α}, Visits p → Prop} {σ : Setting}
variable {α β : Type} {p q : Cast α} {f : α → Cast β} {w : Visits p}

theorem ofEq (e : q = p) (h : P σ w) : P σ (Visits.ofEq e w) := by
  subst e
  exact h

theorem branch (b : Prop) [inst : Decidable b] {v : Visits q} (hw : P σ w) (hv : P σ v) :
    P σ (Visits.branch b w v) := by
  cases inst with
  | isTrue => exact hw
  | isFalse => exact hv

variable (law : Lawful limits P)

include law

theorem discard (hw : P σ w) : P σ (Visits.discard w) :=
  ofEq _ (law.bind hw fun _ => law.pure σ ())

theorem returned {p : Cast Unit} {w : Visits p} (hw : P σ w) : P σ (Visits.returned w) :=
  ofEq _ (law.settle sparing_takeReturn hw)

theorem loopBody {p : Cast Unit} {w : Visits p} (hw : P σ w) : P σ (Visits.loopBody w) :=
  ofEq _ (law.settle sparing_takeJump hw)

theorem forM {f : α → Cast Unit} {w : ∀ x, Visits (f x)} {xs : List α}
    (hw : ∀ x ∈ xs, P σ (w x)) : P σ (Visits.forM w xs) := by
  induction xs with
  | nil => exact law.pure σ ()
  | cons x xs ih =>
    apply law.bind (hw x List.mem_cons_self)
    intro _
    exact ih fun y hy => hw y (List.mem_cons_of_mem x hy)

theorem mapM {w : ∀ x, Visits (f x)} (hw : ∀ x, P σ (w x)) (xs : List α) :
    P σ (Visits.mapM w xs) := by
  induction xs with
  | nil => exact law.pure σ []
  | cons x xs ih => exact ofEq _ (law.bind (hw x) fun y => law.bind ih fun ys => law.pure σ _)

theorem ticked (hw : P σ w) : P σ (Visits.ticked limits w) := law.bind (law.tick σ) fun _ => hw

theorem overrun : P σ (Visits.overrun limits : Visits (Cast.overrun limits : Cast α)) :=
  law.ticked (law.throw σ _ nofun)

theorem repeatWhile {round : Cast Bool} {w : Visits round} (hw : P σ w) (n : Nat) :
    P σ (Visits.repeatWhile limits w n) := by
  induction n with
  | zero => exact law.bind hw fun _ => branch _ law.overrun (law.pure σ ())
  | succ n ih => exact law.bind hw fun _ => branch _ ih (law.pure σ ())

end

section

variable {limits : Limits} {P : Setting → ∀ {α : Type} {p : Cast α}, Visits p → Prop}
variable {names : List String} {n : Nat}
variable {eval : Expr → Cast Value} {exec : Stmt → Cast Unit}
variable {we : ∀ e, Visits (eval e)} {wx : ∀ s, Visits (exec s)}
variable (law : Lawful limits P)

include law

theorem update (op : UpdateOp) (before : Bool) (target : Ident) :
    P (.closed []) (Visits.update op before target) :=
  law.bind (law.lookup _ _ _) fun _ => law.bind (law.assign _ _ _) fun _ => law.pure _ _

section

variable (he : ∀ e, P (.closed []) (we e))

include he

theorem declareAll {d : Declaration} (reserved : d.vars ⊆ names) :
    P (.opened names) (Visits.declareAll we d) := by
  refine law.forM fun v hv => ?_
  have known : d.kind = .var → v.name.name ∈ names := by
    intro hk
    refine reserved ?_
    rw [Declaration.vars, if_pos hk]
    exact List.mem_map_of_mem hv
  have declared (x : Option Value) : P (.opened names) (Visits.declare d.kind v.name x) :=
    law.note known (.declare d.kind v.name x) (law.declare names d.kind v.name x known)
  cases v.init with
  | none => exact declared none
  | some e => exact law.bind (law.anywhere (he e)) fun x => declared (some x)

theorem startFor {init : ForInit} (reserved : init.vars ⊆ names) :
    P (.opened names) (Visits.startFor we init) := by
  cases init with
  | absent => exact law.pure _ ()
  | declare d => exact law.declareAll he reserved
  | expr e => exact law.discard (law.anywhere (he e))

theorem testFor (c : Option Expr) : P (.closed []) (Visits.testFor we c) := by
  cases c with
  | none => exact law.pure _ true
  | some c => exact law.bind (he c) fun _ => law.pure _ _

theorem stepFor (e : Option Expr) : P (.closed []) (Visits.stepFor we e) := by
  cases e with
  | none => exact law.pure _ true
  | some e => exact law.bind (law.discard (he e)) fun _ => law.pure _ _

theorem whileRound {body : Stmt} (hx : P (.opened names) (wx body)) (c : Expr) :
    P (.opened names) (Visits.whileRound we wx c body) :=
  law.bind (law.anywhere (he c)) fun _ => branch _ (law.loopBody hx) (law.pure _ _)

theorem doRound {body : Stmt} (hx : P (.opened names) (wx body)) (c : Expr) :
    P (.opened names) (Visits.doRound we wx c body) :=
  law.bind (law.loopBody hx) fun _ =>
    branch _ (law.bind (law.anywhere (he c)) fun _ => law.pure _ _) (law.pure _ _)

theorem forRound {body : Stmt} (hx : P (.opened names) (wx body)) (c update : Option Expr) :
    P (.opened names) (Visits.forRound we wx c update body) := by
  refine law.bind (law.anywhere (law.testFor he c)) fun _ => branch _ ?_ (law.pure _ _)
  refine law.bind (law.loopBody hx) fun _ => branch _ ?_ (law.pure _ _)
  exact law.anywhere (law.stepFor he update)

theorem assigned (op : AssignOp) (target : Ident) (e : Expr) :
    P (.closed []) (Visits.assigned we limits op target e) := by
  cases op with
  | set => exact he e
  | add | sub | mul | div | rem =>
    exact law.bind (law.lookup _ _ _) fun _ => law.bind (he e) fun _ => law.binary _ _ _ _ _

end

theorem execList {body : List Stmt} (hx : ∀ s ∈ body, P (.opened names) (wx s)) :
    P (.opened names) (Visits.execList wx body) :=
  law.bind (law.hoistFunctions names body) fun _ => law.forM hx

section

variable (hx : ∀ names s, s.vars ⊆ names → P (.opened names) (wx s))

include hx

theorem listed {body : List Stmt} (reserved : bodyVars body ⊆ names) :
    P (.opened names) (Visits.listed wx n body) :=
  law.note reserved (.list n body exec) <| law.execList fun s hs =>
    hx names s (List.Subset.trans (vars_subset_bodyVars hs) reserved)

theorem callClosure (f : Closure) (args : List Value) (span : Span) :
    P (.closed []) (Visits.callClosure wx limits n f args span) := by
  refine law.call n f args span (law.bind (law.bindParams f.params args) fun _ => ?_)
  exact law.hoistVars f.body (law.listed hx (List.Subset.refl _))

theorem invoked (f : Value) (args : List Value) (callee : Option String) (span : Span) :
    P (.closed []) (Visits.call wx limits n f args callee span) := by
  cases f with
  | function f => exact law.callClosure hx f args span
  | command k => exact law.command _ k span
  | _ => exact law.throw _ _ nofun

end

structure Below (limits : Limits) (P : Setting → ∀ {α : Type} {p : Cast α}, Visits p → Prop)
    (n : Nat) : Prop where
  stmt (names : List String) (s : Stmt) : s.vars ⊆ names →
    P (.opened names) (Visits.exec limits n s)
  block (names : List String) (s : Stmt) : s.isBlock = true → s.vars ⊆ names →
    P (.closed names) (Visits.exec limits n s)
  expr (e : Expr) : P (.closed []) (Visits.eval limits n e)

theorem forLoop (ih : Below limits P n) {init : ForInit} {body : Stmt}
    (reserved : init.vars ++ body.vars ⊆ names) (c update : Option Expr) :
    P (.opened names) ((Visits.startFor (Visits.eval limits n) init).bind fun _ =>
      Visits.repeatWhile limits
        (Visits.forRound (Visits.eval limits n) (Visits.exec limits n) c update body) n) := by
  rw [List.append_subset] at reserved
  refine law.bind (law.startFor ih.expr reserved.1) fun _ => law.repeatWhile ?_ n
  exact law.forRound ih.expr (ih.stmt names body reserved.2) c update

theorem block_succ (ih : Below limits P n) {s : Stmt} (hs : s.isBlock = true)
    (reserved : s.vars ⊆ names) : P (.closed names) (Visits.exec limits (n + 1) s) := by
  refine law.note reserved (.stmt _ s) ?_
  cases s with
  | for_ _ init c update body => exact law.ticked (law.inBlock (law.forLoop ih reserved c update))
  | block _ body => exact law.ticked (law.inBlock (law.listed ih.stmt reserved))
  | _ => cases hs

theorem stmt_succ (ih : Below limits P n) {s : Stmt} (reserved : s.vars ⊆ names) :
    P (.opened names) (Visits.exec limits (n + 1) s) := by
  have expr (e : Expr) : P (.opened names) (Visits.eval limits n e) := law.anywhere (ih.expr e)
  cases s with
  | for_ | block => exact law.widen (law.block_succ ih rfl reserved)
  | declare d => exact law.note reserved (.stmt _ _) (law.ticked (law.declareAll ih.expr reserved))
  | branch _ c yes no =>
    refine law.note reserved (.stmt _ _) ?_
    simp only [Stmt.vars, List.append_subset] at reserved
    refine law.ticked (law.bind (expr c) fun _ => branch _ (ih.stmt names yes reserved.1) ?_)
    cases no with
    | none => exact law.pure _ ()
    | some no => exact ih.stmt names no reserved.2
  | while_ _ c body =>
    refine law.note reserved (.stmt _ _) (law.ticked (law.repeatWhile ?_ n))
    exact law.whileRound ih.expr (ih.stmt names body reserved) c
  | doWhile _ body c =>
    refine law.note reserved (.stmt _ _) (law.ticked (law.repeatWhile ?_ n))
    exact law.doRound ih.expr (ih.stmt names body reserved) c
  | return_ _ value =>
    refine law.note reserved (.stmt _ _) ?_
    cases value with
    | none => exact law.ticked (law.throw _ _ nofun)
    | some e => exact law.ticked (law.bind (expr e) fun _ => law.throw _ _ nofun)
  | break_ | continue_ => exact law.note reserved (.stmt _ _) (law.ticked (law.throw _ _ nofun))
  | expr _ e => exact law.note reserved (.stmt _ _) (law.ticked (law.discard (expr e)))
  | function | empty => exact law.note reserved (.stmt _ _) (law.ticked (law.pure _ ()))

theorem expr_succ (ih : Below limits P n) (e : Expr) :
    P (.closed []) (Visits.eval limits (n + 1) e) := by
  refine law.note trivial (.expr _ e) ?_
  cases e with
  | number | text | bool | null => exact law.ticked (law.pure _ _)
  | name span name => exact law.ticked (law.lookup _ _ _)
  | call span callee args =>
    refine law.ticked (law.bind (ih.expr callee) fun f => law.bind (law.mapM ih.expr args) ?_)
    exact fun vs => law.invoked ih.stmt f vs _ span
  | unary _ op e => cases op <;> exact law.ticked (law.bind (ih.expr e) fun _ => law.pure _ _)
  | binary span op a b =>
    refine law.ticked (law.bind (ih.expr a) fun _ => law.bind (ih.expr b) fun _ => ?_)
    exact law.binary _ _ _ _ _
  | logical _ op a b =>
    refine law.ticked (law.bind (ih.expr a) fun x => ?_)
    cases op <;> cases x.isTruthy <;> first | exact law.pure _ _ | exact ih.expr b
  | conditional _ c a b =>
    exact law.ticked (law.bind (ih.expr c) fun _ => branch _ (ih.expr a) (ih.expr b))
  | assign _ op target e =>
    refine law.ticked (law.bind (law.assigned ih.expr op target e) fun v => ?_)
    exact law.bind (law.assign _ target v) fun _ => law.pure _ _
  | update _ op before target => exact law.ticked (law.update op before target)
  | paren _ e => exact law.ticked (ih.expr e)

theorem below (n : Nat) : Below limits P n := by
  -- statements and expressions at once: a call in an expression runs statements
  induction n with
  | zero =>
    exact
      { stmt := fun _ _ reserved => law.note reserved (.stmt _ _) law.overrun
        block := fun _ _ _ reserved => law.note reserved (.stmt _ _) law.overrun
        expr := fun _ => law.note trivial (.expr _ _) law.overrun }
  | succ n ih =>
    exact
      { stmt := fun _ _ => law.stmt_succ ih
        block := fun _ _ => law.block_succ ih
        expr := law.expr_succ ih }

theorem run (body : List Stmt) : P .frame (Visits.run limits body) :=
  law.hoistVars body <| law.discard <| law.returned <|
    law.listed (law.below limits.gas).stmt (List.Subset.refl _)

end

end Lawful

end Visits

end Spellcraft
