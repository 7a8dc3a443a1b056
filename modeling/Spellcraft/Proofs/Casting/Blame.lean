import Spellcraft.Proofs.Casting.Confinement
import Spellcraft.Proofs.Language.Outline

namespace Spellcraft

section

variable (G : Span → Prop)

def Value.Carries : Value → Prop
  | .function f => ∀ s ∈ f.body, s.outline.All G
  | _ => True

def Exit.Points : Exit → Prop
  | .trap t => ∀ s ∈ t.span?, G s
  | .unknown _ span => G span
  | .return_ v => v.Carries G
  | .break_ | .continue_ => True

def Cast.shown (P : α → Prop) : Except Exit α → Prop
  | .ok a => P a
  | .error e => e.Points G

/-- From scopes that carry good code to such scopes, with a good result or a good exit. -/
def Blames (P : α → Prop) (p : Cast α) : Prop :=
  ∀ c : Casting, c.store.All (Value.Carries G) →
    Cast.shown G P (p c).1 ∧ (p c).2.store.All (Value.Carries G)

end

variable {G : Span → Prop}

theorem Value.Carries.of_isPlain {v : Value} (h : v.isPlain) : v.Carries G := by
  cases v <;> trivial

namespace Blames

open Pairing (any)

variable {P : α → Prop} {Q : β → Prop} {p : Cast α}

theorem still (h : ∀ c, (p c).2.store = c.store)
    (shown : ∀ c : Casting, c.store.All (Value.Carries G) → Cast.shown G P (p c).1) : Blames G P p :=
  fun c hc => ⟨shown c hc, (h c).symm ▸ hc⟩

protected theorem pure (h : P a) : Blames G P (pure a) := still (fun _ => rfl) fun _ _ => h

protected theorem throw (h : e.Points G) : Blames G P (throw e) := still (fun _ => rfl) fun _ _ => h

protected theorem bind {f : α → Cast β} (h : Blames G P p) (hf : ∀ a, P a → Blames G Q (f a)) :
    Blames G Q (p >>= f) := by
  intro c hc
  rw [Cast.bind_apply]
  obtain ⟨shown, hd⟩ := h c hc
  rcases hx : p c with ⟨e | a, d⟩ <;> rw [hx] at shown hd
  · exact ⟨shown, hd⟩
  · exact hf a shown d hd

theorem settle {h : Except Exit α → Except Exit β} (hp : Blames G P p)
    (shown : ∀ r, Cast.shown G P r → Cast.shown G Q (h r)) : Blames G Q (Cast.settle h p) :=
  fun c hc => ⟨shown _ (hp c hc).1, (hp c hc).2⟩

theorem discard (h : Blames G P p) : Blames G any (discard p) := by
  rw [Cast.discard_eq]
  exact h.bind fun _ _ => .pure trivial

theorem returned {p : Cast Unit} (h : Blames G any p) :
    Blames G (Value.Carries G) (Cast.returned p) := by
  rw [Cast.returned_eq]
  refine h.settle ?_
  rintro (e | a) hr
  · cases e <;> exact hr
  · trivial

theorem loopBody {p : Cast Unit} (h : Blames G any p) : Blames G any (Cast.loopBody p) := by
  rw [Cast.loopBody_eq]
  refine h.settle ?_
  rintro (e | a) hr
  · cases e <;> exact hr
  · trivial

theorem forM {f : α → Cast Unit} (xs : List α) (h : ∀ x ∈ xs, Blames G any (f x)) :
    Blames G any (xs.forM f) := by
  induction xs with
  | nil => exact .pure trivial
  | cons x xs ih =>
    obtain ⟨hx, hxs⟩ := List.forall_mem_cons.1 h
    exact hx.bind fun _ _ => ih hxs

theorem mapM {f : α → Cast β} (xs : List α) (h : ∀ x ∈ xs, Blames G Q (f x)) :
    Blames G (fun ys => ∀ y ∈ ys, Q y) (xs.mapM f) := by
  induction xs with
  | nil => exact .pure (List.forall_mem_nil _)
  | cons x xs ih =>
    obtain ⟨hx, hxs⟩ := List.forall_mem_cons.1 h
    rw [List.mapM_cons]
    exact hx.bind fun y hy => (ih hxs).bind fun ys hys => .pure (List.forall_mem_cons.2 ⟨hy, hys⟩)

theorem within (parent : Option Nat) (hosts : Bool) (h : Blames G P p) :
    Blames G P (Cast.within ⟨[], parent, hosts⟩ p) := fun _ hc => h _ (hc.push parent hosts)

theorem inBlock (h : Blames G P p) : Blames G P (Cast.inBlock p) :=
  fun c hc => h.within (some c.current) false c hc

theorem inFrame (scope : Nat) (h : Blames G P p) : Blames G P (Cast.inFrame scope p) :=
  fun c hc => h.within (some scope) true { c with calls := c.calls + 1 } hc

theorem tick {limits : Limits} : Blames G any (Cast.tick limits) := by
  refine still (fun c => ?_) fun c _ => ?_ <;> rw [Cast.tick_apply]
  split
  · exact fun s hs => by cases hs
  · trivial

theorem overrun {limits : Limits} : Blames G P (Cast.overrun limits) :=
  tick.bind fun _ _ => .throw fun s hs => by cases hs

theorem lookup (name : String) {span : Span} (h : G span) :
    Blames G (Value.Carries G) (Cast.lookup name span) := by
  intro c hc
  simp only [Cast.lookup, Cast.get_bind_apply]
  cases hb : c.store.get? name c.current with
  | none => exact ⟨h, hc⟩
  | some b => exact ⟨hc.get? hb, hc⟩

theorem assign {target : Ident} {v : Value} (h : G target.span) (hv : v.Carries G) :
    Blames G any (Cast.assign target v) := by
  intro c hc
  simp only [Cast.assign, Cast.get_bind_apply]
  cases c.store.find? target.name c.current with
  | none => exact ⟨h, hc⟩
  | some i =>
    cases c.store.get? target.name c.current with
    | none => exact ⟨h, hc⟩
    | some b =>
      dsimp only
      split
      · exact ⟨fun s hs => Option.some.inj hs ▸ h, hc⟩
      · exact ⟨trivial, hc.bind hv _ _⟩

theorem carries_getD {v : Option Value} (hv : ∀ w ∈ v, w.Carries G) :
    (v.getD .undefined).Carries G := by
  cases v with
  | none => trivial
  | some w => exact hv w rfl

theorem declareVar (name : String) {v : Option Value} (hv : ∀ w ∈ v, w.Carries G) :
    Blames G any (Cast.declareVar name v) := by
  intro c hc
  simp only [Cast.declareVar, Cast.modify_apply]
  split
  · exact ⟨trivial, hc⟩
  · exact ⟨trivial, hc.bind (carries_getD hv) _ _⟩

theorem declareLocal {name : Ident} {v : Option Value} (constant : Bool) (h : G name.span)
    (hv : ∀ w ∈ v, w.Carries G) : Blames G any (Cast.declareLocal name v constant) := by
  intro c hc
  simp only [Cast.declareLocal, Cast.get_bind_apply]
  split
  · exact ⟨fun s hs => Option.some.inj hs ▸ h, hc⟩
  · exact ⟨trivial, hc.bind (carries_getD hv) _ _⟩

theorem declare (kind : DeclKind) {name : Ident} {v : Option Value} (h : G name.span)
    (hv : ∀ w ∈ v, w.Carries G) : Blames G any (Cast.declare kind name v) := by
  cases kind with
  | var => exact declareVar name.name hv
  | let_ | const => exact declareLocal _ h hv

theorem declareFunction (name : Ident) (params : List Ident) {body : List Stmt}
    (h : ∀ s ∈ body, s.outline.All G) : Blames G any (Cast.declareFunction name params body) :=
  fun c hc => by
    have carried : (Value.function ⟨c.closures, name.name, params, body, c.current⟩).Carries G := h
    exact ⟨trivial, hc.bind carried _ _⟩

theorem hoistVars (body : List Stmt) : Blames G any (Cast.hoistVars body) :=
  forM _ fun name _ => declareVar name fun w hw => by cases hw

theorem bindParams (params : List Ident) {args : List Value} (h : ∀ v ∈ args, v.Carries G) :
    Blames G any (Cast.bindParams params args) := by
  induction params generalizing args with
  | nil => exact .pure trivial
  | cons param params ih =>
    refine (declareVar param.name ?_).bind fun _ _ => ih fun v hv => h v (List.mem_of_mem_tail hv)
    intro w hw
    cases hw
    cases args with
    | nil => trivial
    | cons v args => exact h v List.mem_cons_self

theorem binary {limits : Limits} (op : BinaryOp) (x y : Value) {span : Span} (h : G span) :
    Blames G (Value.Carries G) (Cast.binary limits op x y span) := by
  have plain : (Value.apply op x y).Carries G := .of_isPlain (Value.apply_isPlain op x y)
  unfold Cast.binary
  split
  · split
    · exact .throw fun s hs => Option.some.inj hs ▸ h
    · exact .pure trivial
  · exact .pure plain

theorem follow {step : Trail → Except Trap Trail}
    (h : ∀ {t e}, step t = .error e → ∀ s ∈ e.span?, G s) : Blames G any (Cast.follow step) := by
  intro c hc
  rw [Cast.follow_apply]
  cases hs : step c.trail with
  | ok t => exact ⟨trivial, hc⟩
  | error e => exact ⟨h hs, hc⟩

end Blames

theorem Trail.span?_of_record {t : Trail} (h : t.record a = .error e) : e.span? = none := by
  unfold record at h
  split at h <;> cases h
  rfl

theorem Trail.span?_of_move {t : Trail} (h : t.move d = .error e) : e.span? = none := by
  rw [move_eq] at h
  cases hr : t.record (.move d) with
  | ok u =>
    rw [hr] at h
    cases h
  | error e' =>
    rw [hr] at h
    cases h
    exact span?_of_record hr

theorem Trail.span?_of_lightTorch {t : Trail} (h : t.lightTorch span = .error e) :
    ∀ s ∈ e.span?, s = span := by
  unfold lightTorch at h
  split at h
  · rw [span?_of_record h]
    exact fun s hs => by cases hs
  · cases h
    exact fun s hs => (Option.some.inj hs).symm

namespace Blames

open Pairing (any)

theorem command (k : Command) {span : Span} (h : G span) :
    Blames G (Value.Carries G) (Cast.command k span) := by
  cases k with
  | look d => exact fun c hc => ⟨trivial, hc⟩
  | move d =>
    refine (follow fun he s hs => ?_).bind fun _ _ => .pure trivial
    rw [Trail.span?_of_move he] at hs
    cases hs
  | lightTorch =>
    refine (follow fun he s hs => ?_).bind fun _ _ => .pure trivial
    exact Trail.span?_of_lightTorch he s hs ▸ h

theorem checkDepth {limits : Limits} {span : Span} (h : G span) :
    Blames G any (Cast.checkDepth limits span) := by
  intro c hc
  simp only [Cast.checkDepth, Cast.get_bind_apply]
  split
  · exact ⟨fun s hs => Option.some.inj hs ▸ h, hc⟩
  · exact ⟨trivial, hc⟩

end Blames

theorem Expr.all_outline {e : Expr} (h : e.outline.All G) :
    G e.span ∧ ∀ x ∈ e.parts, x.outline.All G := by
  cases e <;>
    simp_all [Expr.outline, Expr.parts, Expr.span, Outline.all_node, Outline.all_leaf,
      argumentOutlines_eq]

theorem Declaration.all_outline {d : Declaration} (h : d.outline.All G) :
    ∀ v ∈ d.declarators, G v.name.span ∧ ∀ e ∈ v.init, e.outline.All G := by
  simp only [outline, Outline.all_node, List.mem_flatMap] at h
  intro v hv
  have mem {o : Outline} (ho : o ∈ v.outlines) : o.All G := h.2 o ⟨v, hv, ho⟩
  refine ⟨Outline.all_leaf.1 (mem List.mem_cons_self), fun e he => mem ?_⟩
  exact List.mem_cons_of_mem _ (List.mem_map_of_mem (Option.mem_toList.2 he))

theorem Declaration.all_values {d : Declaration} (h : d.outline.All G) :
    ∀ e ∈ d.values, e.outline.All G := by
  intro e he
  obtain ⟨v, hv, hi⟩ := List.mem_filterMap.1 he
  exact (d.all_outline h v hv).2 e hi

theorem ForInit.all_values {init : ForInit} (h : ∀ o ∈ init.outlines, o.All G) :
    ∀ e ∈ init.values, e.outline.All G := by
  cases init with
  | absent => exact List.forall_mem_nil _
  | declare d => exact d.all_values (h _ List.mem_cons_self)
  | expr e => exact List.forall_mem_singleton.2 (h _ List.mem_cons_self)

theorem Stmt.all_outline {s : Stmt} (h : s.outline.All G) :
    (∀ t ∈ s.parts, t.outline.All G) ∧ ∀ e ∈ s.values, e.outline.All G := by
  cases s with
  | declare d => exact ⟨List.forall_mem_nil _, d.all_values h⟩
  | for_ _ init c update body =>
    simp only [Stmt.outline, Outline.all_node, List.forall_mem_append] at h
    obtain ⟨-, ⟨⟨hi, hc⟩, hu⟩, hb⟩ := h
    have hi := init.all_values hi
    simp_all [Stmt.parts, Stmt.values, or_imp]
  | _ =>
    simp_all [Stmt.outline, Stmt.parts, Stmt.values, Outline.all_node, bodyOutlines_eq,
      elseOutlines_eq, or_imp, forall_and]

namespace Blames

open Pairing (any)

variable {limits : Limits} {eval : Expr → Cast Value} {exec : Stmt → Cast Unit}

structure Below (G : Span → Prop) (eval : Expr → Cast Value) (exec : Stmt → Cast Unit) : Prop where
  expr {e : Expr} : e.outline.All G → Blames G (Value.Carries G) (eval e)
  stmt {s : Stmt} : s.outline.All G → Blames G any (exec s)

theorem hoistFunctions {body : List Stmt} (h : ∀ s ∈ body, s.outline.All G) :
    Blames G any (Cast.hoistFunctions body) := by
  induction body with
  | nil => exact .pure trivial
  | cons s rest ih =>
    obtain ⟨hs, hrest⟩ := List.forall_mem_cons.1 h
    have ih := ih hrest
    cases s with
    | function span name params bodySpan body =>
      exact (declareFunction name params (Stmt.all_outline hs).1).bind fun _ _ => ih
    | _ => exact ih

theorem execList (ih : Below G eval exec) {body : List Stmt} (h : ∀ s ∈ body, s.outline.All G) :
    Blames G any (Cast.execList exec body) :=
  (hoistFunctions h).bind fun _ _ => forM body fun s hs => ih.stmt (h s hs)

theorem declareAll (ih : Below G eval exec) {d : Declaration} (h : d.outline.All G) :
    Blames G any (Cast.declareAll eval d) := by
  refine forM _ fun v hv => ?_
  obtain ⟨name, init⟩ := d.all_outline h v hv
  cases hi : v.init with
  | none => exact declare d.kind name fun w hw => by cases hw
  | some e =>
    refine (ih.expr (init e hi)).bind fun x hx => declare d.kind name fun w hw => ?_
    cases hw
    exact hx

theorem repeatWhile {round : Cast Bool} (h : Blames G any round) (n : Nat) :
    Blames G any (Cast.repeatWhile limits round n) := by
  induction n with
  | zero =>
    refine h.bind fun go _ => ?_
    cases go with
    | true => exact overrun
    | false => exact .pure trivial
  | succ n ihn =>
    refine h.bind fun go _ => ?_
    cases go with
    | true => exact ihn
    | false => exact .pure trivial

theorem whileRound (ih : Below G eval exec) {c : Expr} {body : Stmt} (hc : c.outline.All G)
    (hb : body.outline.All G) : Blames G any (Cast.whileRound eval exec c body) := by
  refine (ih.expr hc).bind fun v _ => ?_
  cases v.isTruthy with
  | true => exact (ih.stmt hb).loopBody
  | false => exact .pure trivial

theorem doRound (ih : Below G eval exec) {c : Expr} {body : Stmt} (hc : c.outline.All G)
    (hb : body.outline.All G) : Blames G any (Cast.doRound eval exec c body) := by
  refine (ih.stmt hb).loopBody.bind fun go _ => ?_
  cases go with
  | true => exact (ih.expr hc).bind fun _ _ => .pure trivial
  | false => exact .pure trivial

theorem startFor (ih : Below G eval exec) {init : ForInit}
    (h : ∀ o ∈ init.outlines, o.All G) : Blames G any (Cast.startFor eval init) := by
  cases init with
  | absent => exact .pure trivial
  | declare d => exact declareAll ih (h _ List.mem_cons_self)
  | expr e => exact (ih.expr (h _ List.mem_cons_self)).discard

theorem testFor (ih : Below G eval exec) {c : Option Expr} (h : ∀ e ∈ c, e.outline.All G) :
    Blames G any (Cast.testFor eval c) := by
  cases c with
  | none => exact .pure trivial
  | some c => exact (ih.expr (h c rfl)).bind fun _ _ => .pure trivial

theorem stepFor (ih : Below G eval exec) {e : Option Expr} (h : ∀ x ∈ e, x.outline.All G) :
    Blames G any (Cast.stepFor eval e) := by
  cases e with
  | none => exact .pure trivial
  | some e => exact (ih.expr (h e rfl)).discard.bind fun _ _ => .pure trivial

theorem forRound (ih : Below G eval exec) {c update : Option Expr} {body : Stmt}
    (hc : ∀ e ∈ c, e.outline.All G) (hu : ∀ e ∈ update, e.outline.All G)
    (hb : body.outline.All G) : Blames G any (Cast.forRound eval exec c update body) := by
  refine (testFor ih hc).bind fun go _ => ?_
  cases go with
  | false => exact .pure trivial
  | true =>
    refine (ih.stmt hb).loopBody.bind fun go _ => ?_
    cases go with
    | false => exact .pure trivial
    | true => exact stepFor ih hu

theorem callClosure (ih : Below G eval exec) {f : Closure} {args : List Value} {span : Span}
    (hf : (Value.function f).Carries G) (hargs : ∀ v ∈ args, v.Carries G) (h : G span) :
    Blames G (Value.Carries G) (Cast.callClosure limits exec f args span) :=
  (checkDepth h).bind fun _ _ => returned <| inFrame f.scope <|
    (bindParams f.params hargs).bind fun _ _ => (hoistVars f.body).bind fun _ _ => execList ih hf

theorem call (ih : Below G eval exec) {f : Value} {args : List Value} {span : Span}
    (hf : f.Carries G) (hargs : ∀ v ∈ args, v.Carries G) (callee : Option String) (h : G span) :
    Blames G (Value.Carries G) (Cast.call limits exec f args callee span) := by
  cases f with
  | command k => exact command k h
  | function f => exact callClosure ih hf hargs h
  | _ => exact .throw fun s hs => Option.some.inj hs ▸ h

theorem stmt_succ (n : Nat) (ih : Below G (Cast.eval limits n) (Cast.exec limits n)) {s : Stmt}
    (h : s.outline.All G) : Blames G any (Cast.exec limits (n + 1) s) := by
  rw [Cast.exec.eq_def]
  refine tick.bind fun _ _ => ?_
  obtain ⟨parts, values⟩ := Stmt.all_outline h
  cases s with
  | declare d => exact declareAll ih h
  | branch _ c yes no =>
    refine (ih.expr (values c List.mem_cons_self)).bind fun v _ => ?_
    cases v.isTruthy with
    | true => exact ih.stmt (parts yes List.mem_cons_self)
    | false =>
      cases no with
      | none => exact .pure trivial
      | some no => exact ih.stmt (parts no (by simp [Stmt.parts]))
  | while_ _ c body =>
    exact repeatWhile (whileRound ih (values c List.mem_cons_self) (parts body List.mem_cons_self)) n
  | doWhile _ body c =>
    exact repeatWhile (doRound ih (values c List.mem_cons_self) (parts body List.mem_cons_self)) n
  | for_ _ init c update body =>
    simp only [Stmt.outline, Outline.all_node, List.forall_mem_append] at h
    have hc : ∀ e ∈ c, e.outline.All G := fun e he => values e (by simp_all [Stmt.values])
    have hu : ∀ e ∈ update, e.outline.All G := fun e he => values e (by simp_all [Stmt.values])
    refine inBlock ((startFor ih h.2.1.1.1).bind fun _ _ => ?_)
    exact repeatWhile (forRound ih hc hu (parts body List.mem_cons_self)) n
  | block _ body => exact inBlock (execList ih parts)
  | return_ _ value =>
    cases value with
    | none => exact .throw trivial
    | some e => exact (ih.expr (values e List.mem_cons_self)).bind fun v hv => .throw hv
  | break_ | continue_ => exact .throw trivial
  | expr _ e => exact (ih.expr (values e List.mem_cons_self)).discard
  | function | empty => exact .pure trivial

variable (closed : Span.Closed G)
include closed

theorem assigned (ih : Below G eval exec) (op : AssignOp) {target : Ident} {e : Expr}
    (ht : G target.span) (he : e.outline.All G) :
    Blames G (Value.Carries G) (Cast.assigned limits eval op target e) := by
  unfold Cast.assigned
  cases op.binary? with
  | none => exact ih.expr he
  | some op =>
    exact (lookup target.name ht).bind fun x _ => (ih.expr he).bind fun y _ =>
      binary op x y (closed.merge ht (Expr.all_outline he).1)

theorem expr_succ (n : Nat) (ih : Below G (Cast.eval limits n) (Cast.exec limits n)) {e : Expr}
    (h : e.outline.All G) : Blames G (Value.Carries G) (Cast.eval limits (n + 1) e) := by
  rw [Cast.eval.eq_def]
  refine tick.bind fun _ _ => ?_
  obtain ⟨here, parts⟩ := Expr.all_outline h
  cases e with
  | number | text | bool | null => exact .pure trivial
  | name span name => exact lookup name here
  | call span callee args =>
    obtain ⟨hf, hargs⟩ := List.forall_mem_cons.1 parts
    exact (ih.expr hf).bind fun f hf => (mapM args fun a ha => ih.expr (hargs a ha)).bind
      fun vs hvs => call ih hf hvs _ here
  | unary _ op e =>
    refine (ih.expr (parts e List.mem_cons_self)).bind fun v _ => ?_
    cases op <;> exact .pure trivial
  | binary span op a b =>
    exact (ih.expr (parts a (by simp [Expr.parts]))).bind fun x _ =>
      (ih.expr (parts b (by simp [Expr.parts]))).bind fun y _ => binary op x y here
  | logical _ op a b =>
    have hb := ih.expr (parts b (by simp [Expr.parts]))
    refine (ih.expr (parts a (by simp [Expr.parts]))).bind fun x hx => ?_
    cases op <;> cases x.isTruthy <;> first | exact .pure hx | exact hb
  | conditional _ c a b =>
    refine (ih.expr (parts c (by simp [Expr.parts]))).bind fun v _ => ?_
    cases v.isTruthy with
    | true => exact ih.expr (parts a (by simp [Expr.parts]))
    | false => exact ih.expr (parts b (by simp [Expr.parts]))
  | assign _ op target e =>
    simp only [Expr.outline, Outline.all_node] at h
    have ht := Outline.all_leaf.1 (h.2 target.outline List.mem_cons_self)
    exact (assigned closed ih op ht (parts e List.mem_cons_self)).bind fun v hv =>
      (assign ht hv).bind fun _ _ => .pure hv
  | update _ op before target =>
    simp only [Expr.outline, Outline.all_node] at h
    have ht := Outline.all_leaf.1 (h.2 target.outline List.mem_cons_self)
    exact (lookup target.name ht).bind fun _ _ =>
      (assign ht (.of_isPlain rfl)).bind fun _ _ => .pure (.of_isPlain rfl)
  | paren _ e => exact ih.expr (parts e List.mem_cons_self)

theorem below (n : Nat) : Below G (Cast.eval limits n) (Cast.exec limits n) := by
  -- statements and expressions at once: a call in an expression runs statements
  induction n with
  | zero =>
    constructor
    · intro e _
      rw [Cast.eval]
      exact overrun
    · intro s _
      rw [Cast.exec]
      exact overrun
  | succ n ih => exact ⟨expr_succ closed n ih, stmt_succ n ih⟩

theorem run (limits : Limits) {body : List Stmt} (h : ∀ s ∈ body, s.outline.All G) :
    Blames G any (Cast.run limits body) :=
  (hoistVars body).bind fun _ _ => discard (returned (execList (below closed limits.gas) h))

end Blames

/-- Whatever ends a run, where it points there is something of the spell. -/
theorem Program.perform_blames (closed : Span.Closed G) (p : Program) (h : p.outline.All G)
    (maze : Maze) (start : Position) (g : Grant) (limits : Limits)
    (failed : p.perform maze start g limits = .error f) : ∀ d ∈ f.diagnostics, G d.span := by
  have body : ∀ s ∈ p.body, s.outline.All G := by
    rw [outline, Outline.all_node, bodyOutlines_eq] at h
    exact fun s hs => h.2 _ (List.mem_map_of_mem hs)
  have stored : (Casting.start maze start g limits).store.All (Value.Carries G) :=
    .initial trivial fun _ _ => trivial
  have shown := (Blames.run closed limits body _ stored).1
  rw [perform] at failed
  generalize Cast.run limits p.body (.start maze start g limits) = x at failed shown
  rcases x with ⟨e | _, c⟩ <;> cases failed
  cases e with
  | trap t =>
    refine List.forall_mem_singleton.2 ?_
    cases hs : t.span? with
    | none => simpa [hs] using closed.origin
    | some s => simpa [hs] using shown s hs
  | unknown name span => exact List.forall_mem_singleton.2 shown
  | return_ | break_ | continue_ => exact List.forall_mem_singleton.2 closed.origin

end Spellcraft
