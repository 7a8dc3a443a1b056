import Spellcraft.Proofs.Casting.Pairing
import Spellcraft.Proofs.Language.Literals

namespace Spellcraft

def Value.isPlain (v : Value) : Bool := !v.isCallable

namespace Pairing

structure Lawful (l : Pairing) (T : String → Prop := any) : Prop where
  plain : v.isPlain → (∀ s, v = .text s → T s) → l.values v
  tick : l.Related any (Cast.tick l.left) (Cast.tick l.right)
  overrun : ∀ {α : Type} {P : α → Prop}, l.Related P (Cast.overrun l.left) (Cast.overrun l.right)
  lookup (name : String) (span : Span) :
    l.Related l.values (Cast.lookup name span) (Cast.lookup name span)
  assign (target : Ident) : l.values v → l.Related any (Cast.assign target v) (Cast.assign target v)
  declareVar (name : String) : (∀ w ∈ v, l.values w) →
    l.Related any (Cast.declareVar name v) (Cast.declareVar name v)
  declareLocal (name : Ident) (constant : Bool) : (∀ w ∈ v, l.values w) →
    l.Related any (Cast.declareLocal name v constant) (Cast.declareLocal name v constant)
  declareFunction (name : Ident) (params : List Ident) {body : List Stmt} :
    (∀ s ∈ body, s.Quotes T) →
    l.Related any (Cast.declareFunction name params body) (Cast.declareFunction name params body)
  binary (op : BinaryOp) (span : Span) : l.values v → l.values w →
    l.Related l.values (Cast.binary l.left op v w span) (Cast.binary l.right op v w span)
  command (span : Span) : l.values (.command k) →
    l.Related l.values (Cast.command k span) (Cast.command k span)
  depth (span : Span) : l.Related any (Cast.checkDepth l.left span) (Cast.checkDepth l.right span)
  block : ∀ {p q : Cast Unit}, l.Related any p q → l.Related any (Cast.inBlock p) (Cast.inBlock q)
  frame : ∀ {p q : Cast Unit}, l.values (.function f) → l.Related any p q →
    l.Related any (Cast.inFrame f.scope p) (Cast.inFrame f.scope q)
  body : l.values (.function f) → ∀ s ∈ f.body, s.Quotes T

variable {l : Pairing} {T : String → Prop}

theorem related_declare (hl : l.Lawful T) (kind : DeclKind) (name : Ident) {v : Option Value}
    (hv : ∀ w ∈ v, l.values w) :
    l.Related any (Cast.declare kind name v) (Cast.declare kind name v) := by
  cases kind with
  | var => exact hl.declareVar name.name hv
  | let_ => exact hl.declareLocal name false hv
  | const => exact hl.declareLocal name true hv

theorem related_hoistVars (hl : l.Lawful T) (body : List Stmt) :
    l.Related any (Cast.hoistVars body) (Cast.hoistVars body) :=
  .forM _ fun name _ => hl.declareVar name (by simp)

theorem related_hoistFunctions (hl : l.Lawful T) {body : List Stmt}
    (quotes : ∀ s ∈ body, s.Quotes T) :
    l.Related any (Cast.hoistFunctions body) (Cast.hoistFunctions body) := by
  induction body with
  | nil => exact .pure trivial
  | cons s rest ih =>
    obtain ⟨hs, hrest⟩ := List.forall_mem_cons.1 quotes
    cases s with
    | function _ name params _ body =>
      exact .bind (hl.declareFunction name params fun _ => hs.part) fun _ _ => ih hrest
    | _ => exact ih hrest

theorem quotes_any {s : Stmt} : s.Quotes any := fun _ _ _ _ _ _ _ _ => trivial

theorem Lawful.undefined (hl : l.Lawful T) : l.values .undefined := hl.plain rfl nofun

theorem Lawful.first {args : List Value} (hl : l.Lawful T) (hargs : ∀ v ∈ args, l.values v) :
    ∀ w ∈ some (args.head?.getD .undefined), l.values w := by
  cases args with
  | nil => simpa using hl.undefined
  | cons v vs => simpa using hargs v List.mem_cons_self

theorem related_bindParams (hl : l.Lawful T) (params : List Ident) (args : List Value)
    (hargs : ∀ v ∈ args, l.values v) :
    l.Related any (Cast.bindParams params args) (Cast.bindParams params args) := by
  induction params generalizing args with
  | nil => exact .pure trivial
  | cons p ps ih =>
    apply Related.bind (hl.declareVar p.name (hl.first hargs))
    intro _ _
    exact ih _ fun v hv => hargs v (List.mem_of_mem_tail hv)

section

variable {eval eval' : Expr → Cast Value} {exec exec' : Stmt → Cast Unit}
variable (he : ∀ e : Expr, e.Quotes T → l.Related l.values (eval e) (eval' e))
variable (hx : ∀ s : Stmt, s.Quotes T → l.Related any (exec s) (exec' s))

include hx

theorem related_execList (hl : l.Lawful T) {body : List Stmt} (quotes : ∀ s ∈ body, s.Quotes T) :
    l.Related any (Cast.execList exec body) (Cast.execList exec' body) :=
  .bind (related_hoistFunctions hl quotes) fun _ _ => .forM body fun s hs => hx s (quotes s hs)

omit hx
include he

theorem related_declareAll (hl : l.Lawful T) {d : Declaration}
    (quotes : ∀ e ∈ d.values, e.Quotes T) :
    l.Related any (Cast.declareAll eval d) (Cast.declareAll eval' d) := by
  apply Related.forM _
  intro v hv
  have init := Declaration.forall_mem_values.1 quotes v hv
  cases hi : v.init with
  | none => exact related_declare hl _ _ (by simp)
  | some e =>
    exact .bind (he e (init e hi)) fun w hw => related_declare hl _ _ (by simpa using hw)

omit he

theorem related_update (hl : l.Lawful T) (op : UpdateOp) (before : Bool) (target : Ident) :
    l.Related l.values (Cast.update op before target) (Cast.update op before target) := by
  apply Related.bind (hl.lookup _ _)
  intro _ _
  exact .bind (hl.assign _ (hl.plain rfl nofun)) fun _ _ => .pure (hl.plain rfl nofun)

theorem related_repeatWhile (hl : l.Lawful T) {p q : Cast Bool} (h : l.Related any p q) (n : Nat) :
    l.Related any (Cast.repeatWhile l.left p n) (Cast.repeatWhile l.right q n) := by
  induction n with
  | zero =>
    apply Related.bind h
    intro go _
    cases go with
    | false => exact .pure trivial
    | true => exact hl.overrun
  | succ n ih =>
    apply Related.bind h
    intro go _
    cases go with
    | false => exact .pure trivial
    | true => exact ih

include he hx

theorem related_whileRound {c : Expr} {body : Stmt} (hc : c.Quotes T) (hb : body.Quotes T) :
    l.Related any (Cast.whileRound eval exec c body) (Cast.whileRound eval' exec' c body) := by
  apply Related.bind (he c hc)
  intro v _
  cases v.isTruthy with
  | true => exact (hx body hb).loopBody
  | false => exact .pure trivial

theorem related_doRound {c : Expr} {body : Stmt} (hc : c.Quotes T) (hb : body.Quotes T) :
    l.Related any (Cast.doRound eval exec c body) (Cast.doRound eval' exec' c body) := by
  apply Related.bind (hx body hb).loopBody
  intro go _
  cases go with
  | true => exact .bind (he c hc) fun v _ => .pure trivial
  | false => exact .pure trivial

omit hx

theorem related_startFor (hl : l.Lawful T) {init : ForInit}
    (quotes : ∀ e ∈ init.values, e.Quotes T) :
    l.Related any (Cast.startFor eval init) (Cast.startFor eval' init) := by
  cases init with
  | absent => exact .pure trivial
  | declare d => exact related_declareAll he hl quotes
  | expr e => exact .discard (he e (List.forall_mem_singleton.1 quotes))

theorem related_testFor {c : Option Expr} (quotes : ∀ e ∈ c, e.Quotes T) :
    l.Related any (Cast.testFor eval c) (Cast.testFor eval' c) := by
  cases c with
  | none => exact .pure trivial
  | some c => exact .bind (he c (quotes c rfl)) fun _ _ => .pure trivial

theorem related_stepFor {e : Option Expr} (quotes : ∀ x ∈ e, x.Quotes T) :
    l.Related any (Cast.stepFor eval e) (Cast.stepFor eval' e) := by
  cases e with
  | none => exact .pure trivial
  | some e => exact .bind (.discard (he e (quotes e rfl))) fun _ _ => .pure trivial

include hx

theorem related_forRound {c update : Option Expr} {body : Stmt} (hc : ∀ e ∈ c, e.Quotes T)
    (hu : ∀ e ∈ update, e.Quotes T) (hb : body.Quotes T) :
    l.Related any (Cast.forRound eval exec c update body)
      (Cast.forRound eval' exec' c update body) := by
  apply Related.bind (related_testFor he hc)
  intro go _
  cases go with
  | false => exact .pure trivial
  | true =>
    apply Related.bind (hx body hb).loopBody
    intro go _
    cases go with
    | false => exact .pure trivial
    | true => exact related_stepFor he hu

omit hx

theorem related_assigned (hl : l.Lawful T) (op : AssignOp) (target : Ident) {e : Expr}
    (quotes : e.Quotes T) :
    l.Related l.values (Cast.assigned l.left eval op target e)
      (Cast.assigned l.right eval' op target e) := by
  unfold Cast.assigned
  cases op.binary? with
  | none => exact he e quotes
  | some op =>
    exact .bind (hl.lookup _ _) fun x hx => .bind (he e quotes) fun y hy => hl.binary op _ hx hy

omit he
include hx

theorem related_callClosure (hl : l.Lawful T) (f : Closure) (hf : l.values (.function f))
    (args : List Value) (hargs : ∀ v ∈ args, l.values v) (span : Span) :
    l.Related l.values (Cast.callClosure l.left exec f args span)
      (Cast.callClosure l.right exec' f args span) := by
  refine .bind (hl.depth span) fun _ _ => .returned hl.undefined (hl.frame hf ?_)
  apply Related.bind (related_bindParams hl _ _ hargs)
  intro _ _
  exact .bind (related_hoistVars hl _) fun _ _ => related_execList hx hl (hl.body hf)

theorem related_call (hl : l.Lawful T) (f : Value) (hf : l.values f) (args : List Value)
    (hargs : ∀ v ∈ args, l.values v) (callee : Option String) (span : Span) :
    l.Related l.values (Cast.call l.left exec f args callee span)
      (Cast.call l.right exec' f args callee span) := by
  cases f with
  | command k => exact hl.command span hf
  | function f => exact related_callClosure hx hl f hf args hargs span
  | _ => exact .throw trivial

end

section

variable (hl : l.Lawful T) (n : Nat)
variable (hx : ∀ s : Stmt, s.Quotes T →
  l.Related any (Cast.exec l.left n s) (Cast.exec l.right n s))
variable (he : ∀ e : Expr, e.Quotes T →
  l.Related l.values (Cast.eval l.left n e) (Cast.eval l.right n e))

include hl hx he

theorem related_forLoop {init : ForInit} {c update : Option Expr} {body : Stmt}
    (quotes : (Stmt.for_ span init c update body).Quotes T) :
    l.Related any
      (do
        Cast.startFor (Cast.eval l.left n) init
        Cast.repeatWhile l.left
          (Cast.forRound (Cast.eval l.left n) (Cast.exec l.left n) c update body) n)
      (do
        Cast.startFor (Cast.eval l.right n) init
        Cast.repeatWhile l.right
          (Cast.forRound (Cast.eval l.right n) (Cast.exec l.right n) c update body) n) := by
  have head : ∀ e ∈ init.values ++ c.toList ++ update.toList, e.Quotes T := fun _ => quotes.value
  rw [List.forall_mem_append, List.forall_mem_append] at head
  obtain ⟨⟨hi, hc⟩, hu⟩ := head
  refine .bind (related_startFor he hl hi) fun _ _ => related_repeatWhile hl ?_ n
  exact related_forRound he hx (fun e h => hc e (Option.mem_toList.2 h))
    (fun e h => hu e (Option.mem_toList.2 h)) (quotes.part (List.mem_singleton_self body))

theorem related_stmt {s : Stmt} (quotes : s.Quotes T) :
    l.Related any (Cast.exec l.left (n + 1) s) (Cast.exec l.right (n + 1) s) := by
  rw [Cast.exec.eq_def, Cast.exec.eq_def]
  apply Related.bind hl.tick
  intro _ _
  cases s with
  | declare d => exact related_declareAll he hl fun _ => quotes.value
  | branch _ c yes no =>
    apply Related.bind (he c (quotes.value (List.mem_singleton_self c)))
    intro v _
    cases v.isTruthy with
    | true => exact hx yes (quotes.part List.mem_cons_self)
    | false =>
      cases no with
      | none => exact .pure trivial
      | some no => exact hx no (quotes.part (List.mem_cons_of_mem _ List.mem_cons_self))
  | while_ _ c body =>
    exact related_repeatWhile hl (related_whileRound he hx
      (quotes.value (List.mem_singleton_self c)) (quotes.part (List.mem_singleton_self body))) n
  | doWhile _ body c =>
    exact related_repeatWhile hl (related_doRound he hx
      (quotes.value (List.mem_singleton_self c)) (quotes.part (List.mem_singleton_self body))) n
  | for_ => exact hl.block (related_forLoop hl n hx he quotes)
  | block _ body => exact hl.block (related_execList hx hl fun _ => quotes.part)
  | return_ _ value =>
    cases value with
    | none => exact .throw hl.undefined
    | some e =>
      exact .bind (he e (quotes.value List.mem_cons_self)) fun v hv => .throw hv
  | break_ | continue_ => exact .throw trivial
  | expr _ e => exact .discard (he e (quotes.value (List.mem_singleton_self e)))
  | function | empty => exact .pure trivial

theorem related_expr {e : Expr} (quotes : e.Quotes T) :
    l.Related l.values (Cast.eval l.left (n + 1) e) (Cast.eval l.right (n + 1) e) := by
  have part {x : Expr} (h : x ∈ e.parts) := he x (quotes.part h)
  rw [Cast.eval.eq_def, Cast.eval.eq_def]
  apply Related.bind hl.tick
  intro _ _
  cases e with
  | text _ s => exact .pure (hl.plain rfl fun t ht => Value.text.inj ht ▸ quotes.text rfl)
  | number | bool | null => exact .pure (hl.plain rfl nofun)
  | name span name => exact hl.lookup name span
  | call span callee args =>
    refine .bind (part List.mem_cons_self) fun f hf => ?_
    refine .bind (.mapM args fun a ha => part (List.mem_cons_of_mem _ ha)) fun vs hvs => ?_
    exact related_call hx hl f hf vs hvs _ span
  | unary _ op e =>
    apply Related.bind (part (List.mem_singleton_self e))
    intro v _
    cases op <;> exact .pure (hl.plain rfl nofun)
  | binary span op a b =>
    exact .bind (part List.mem_cons_self) fun x hx =>
      .bind (part (List.mem_cons_of_mem _ List.mem_cons_self)) fun y hy => hl.binary op span hx hy
  | logical _ op a b =>
    have right := part (List.mem_cons_of_mem a (List.mem_singleton_self b))
    apply Related.bind (part List.mem_cons_self)
    intro x hx
    cases op <;> cases x.isTruthy <;> first | exact .pure hx | exact right
  | conditional _ c a b =>
    apply Related.bind (part List.mem_cons_self)
    intro v _
    cases v.isTruthy with
    | true => exact part (List.mem_cons_of_mem _ List.mem_cons_self)
    | false => exact part (List.mem_cons_of_mem _ (List.mem_cons_of_mem _ List.mem_cons_self))
  | assign _ op target e =>
    apply Related.bind (related_assigned he hl op target (quotes.part (List.mem_singleton_self e)))
    intro v hv
    exact .bind (hl.assign target hv) fun _ _ => .pure hv
  | update _ op before target => exact related_update hl op before target
  | paren _ e => exact part (List.mem_singleton_self e)

end

theorem related_eval (hl : l.Lawful T) (n : Nat) :
    (∀ s : Stmt, s.Quotes T → l.Related any (Cast.exec l.left n s) (Cast.exec l.right n s)) ∧
      ∀ e : Expr, e.Quotes T →
        l.Related l.values (Cast.eval l.left n e) (Cast.eval l.right n e) := by
  -- statements and expressions at once: a call in an expression runs statements
  induction n with
  | zero =>
    constructor
    · intro s _
      rw [Cast.exec, Cast.exec]
      exact hl.overrun
    · intro e _
      rw [Cast.eval, Cast.eval]
      exact hl.overrun
  | succ n ih =>
    exact ⟨fun _ => related_stmt hl n ih.1 ih.2, fun _ => related_expr hl n ih.1 ih.2⟩

theorem related_runBody (hl : l.Lawful T) (n : Nat) {body : List Stmt}
    (quotes : ∀ s ∈ body, s.Quotes T) :
    l.Related any (Cast.runBody (Cast.exec l.left n) body)
      (Cast.runBody (Cast.exec l.right n) body) := by
  apply Related.bind (related_hoistVars hl body)
  intro _ _
  apply Related.discard
  exact .returned hl.undefined (related_execList (related_eval hl n).1 hl quotes)

end Pairing

end Spellcraft
