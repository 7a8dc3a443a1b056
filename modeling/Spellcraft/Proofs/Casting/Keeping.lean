import Spellcraft.Proofs.Casting.PairedRuns
import Spellcraft.Proofs.Casting.Watch

namespace Spellcraft

structure Invariant where
  limits : Limits
  states : Casting → Prop
  values : Value → Prop

namespace Invariant

def pairing (k : Invariant) : Pairing where
  left := k.limits
  right := k.limits
  states c d := k.states c ∧ d = c
  values := k.values
  cuts _ _ := False

open Pairing (any)

variable {k : Invariant} {P : α → Prop} {p q : Cast α}

theorem related (h : ∀ {c}, k.states c → k.pairing.shows P (p c).1 ∧ k.states (p c).2) :
    k.pairing.Related P p p where
  agree := by
    rintro c _ ⟨hc, rfl⟩
    exact .same (h hc).1 ⟨(h hc).2, rfl⟩
  stays := False.elim

theorem same_of_related (h : k.pairing.Related P p q) (hc : k.states c) :
    q c = p c ∧ k.pairing.shows P (p c).1 ∧ k.states (p c).2 := by
  have ha := h.agree ⟨hc, rfl⟩
  generalize p c = x, q c = y at ha ⊢
  cases ha with
  | same hr hs =>
    obtain ⟨hd, rfl⟩ := hs
    exact ⟨rfl, hr, hd⟩
  | cut _ _ hc => exact hc.elim

structure Roams (k : Invariant) : Prop where
  enter (parent : Nat) (hosts : Bool) :
    k.states c → k.states (c.enter ⟨[], some parent, hosts⟩)
  current (i : Nat) : k.states c → k.states { c with current := i }
  calls (n : Nat) : k.states c → k.states { c with calls := n }

namespace Roams

theorem within (hI : Roams k) (parent : Nat) (hosts : Bool)
    (h : k.pairing.Related P p q) :
    k.pairing.Related P (Cast.within ⟨[], some parent, hosts⟩ p)
      (Cast.within ⟨[], some parent, hosts⟩ q) where
  agree := by
    rintro c _ ⟨hc, rfl⟩
    obtain ⟨he, hr, hd⟩ := same_of_related h (hI.enter parent hosts hc)
    simp only [Cast.within, he]
    exact .same hr ⟨hI.current _ hd, rfl⟩
  stays := False.elim

theorem paired (hI : Roams k) : k.pairing.Roams where
  current := by rintro c _ ⟨-, rfl⟩; rfl
  calls := by rintro c _ ⟨-, rfl⟩; rfl
  block := by rintro c _ ⟨hc, rfl⟩; exact ⟨hI.enter _ false hc, rfl⟩
  frame scope h := by obtain ⟨hc, rfl⟩ := h; exact ⟨hI.enter scope true hc, rfl⟩
  leave := by rintro c _ c' _ ⟨-, rfl⟩ ⟨hc', rfl⟩; exact ⟨hI.current _ hc', rfl⟩
  deeper n h := by obtain ⟨hc, rfl⟩ := h; exact ⟨hI.calls n hc, rfl⟩
  cuts hc _ := hc

end Roams

end Invariant

namespace Watch

open Pairing (any)
open Invariant (Roams same_of_related)

variable {k : Invariant}

def Keeps (k : Invariant) {p : Cast α} (w : Watch p) : Prop :=
  ∀ c, k.states c → ∀ m ∈ w.seen c, k.states m.state ∧ ∀ v ∈ m.held, k.values v

theorem finish_keeps {P : α → Prop} (hr : k.pairing.shows P r)
    (hg : ∀ a, P a → ∀ v ∈ given a, k.values v) (hc : k.states c) :
    k.states (finish given (r, c)).state ∧ ∀ v ∈ (finish given (r, c)).held, k.values v := by
  rcases r with e | a
  · cases e with
    | return_ v => exact ⟨hc, List.forall_mem_singleton.2 hr⟩
    | trap | unknown | break_ | continue_ => exact ⟨hc, List.forall_mem_nil _⟩
  · exact ⟨hc, hg a hr⟩

namespace Keeps

section

variable {p q : Cast α} {f : α → Cast β} {P : α → Prop} {w : Watch p}

theorem around (h : k.pairing.Related P p p)
    (hg : ∀ a, P a → ∀ v ∈ given a, k.values v) (hw : w.Keeps k) :
    (Watch.around given w).Keeps k := by
  intro c hc m hm
  obtain ⟨-, hr, hd⟩ := same_of_related h hc
  simp only [Watch.around, List.cons_append, List.mem_cons, List.mem_append,
    List.not_mem_nil, or_false] at hm
  rcases hm with rfl | hm | rfl
  · exact ⟨hc, List.forall_mem_nil _⟩
  · exact hw c hc m hm
  · exact finish_keeps hr hg hd

theorem idle (a : α) : (Watch.idle a).Keeps k := fun _ _ => List.forall_mem_nil _

theorem step (h : k.pairing.Related P p p) : (Watch.step p).Keeps k :=
  around h (fun _ _ => List.forall_mem_nil _) fun _ _ => List.forall_mem_nil _

theorem value {p : Cast Value} (h : k.pairing.Related k.values p p) :
    (Watch.value p).Keeps k :=
  around h (fun _ hv => List.forall_mem_singleton.2 hv) fun _ _ => List.forall_mem_nil _

theorem bind {v : ∀ a, Watch (f a)} (h : k.pairing.Related P p p)
    (hw : w.Keeps k) (hv : ∀ a, P a → (v a).Keeps k) : (w.bind v).Keeps k := by
  intro c hc
  obtain ⟨-, hr, hd⟩ := same_of_related h hc
  refine List.forall_mem_append.2 ⟨hw c hc, ?_⟩
  rcases hp : p c with ⟨e | a, d⟩ <;> rw [hp] at hr hd
  · exact List.forall_mem_nil _
  · exact hv a hr d hd

theorem branch (b : Prop) [Decidable b] {v : Watch q} (hw : w.Keeps k) (hv : v.Keeps k) :
    (Watch.branch b w v).Keeps k := by
  intro c hc
  simp only [Watch.branch]
  split
  · exact hw c hc
  · exact hv c hc

theorem discard (h : k.pairing.Related P p p) (hw : w.Keeps k) :
    (Watch.discard w).Keeps k :=
  bind h hw fun _ _ => idle ()

theorem forM {f : α → Cast Unit} {w : ∀ x, Watch (f x)} {xs : List α}
    (h : ∀ x ∈ xs, k.pairing.Related any (f x) (f x)) (hw : ∀ x ∈ xs, (w x).Keeps k) :
    (Watch.forM w xs).Keeps k := by
  induction xs with
  | nil => exact idle ()
  | cons x xs ih =>
    obtain ⟨hx, hxs⟩ := List.forall_mem_cons.1 h
    obtain ⟨wx, wxs⟩ := List.forall_mem_cons.1 hw
    exact bind hx wx fun _ _ => ih hxs wxs

theorem mapM {w : ∀ x, Watch (f x)} {Q : β → Prop} {xs : List α}
    (h : ∀ x ∈ xs, k.pairing.Related Q (f x) (f x)) (hw : ∀ x ∈ xs, (w x).Keeps k) :
    (Watch.mapM w xs).Keeps k := by
  induction xs with
  | nil => exact idle []
  | cons x xs ih =>
    obtain ⟨hx, hxs⟩ := List.forall_mem_cons.1 h
    obtain ⟨wx, wxs⟩ := List.forall_mem_cons.1 hw
    exact bind hx wx fun y _ => bind (.mapM xs hxs) (ih hxs wxs) fun ys _ => idle (y :: ys)

theorem within (hI : Roams k) (h : k.pairing.Related any p p) (hw : w.Keeps k)
    (parent : Nat) (hosts : Bool) : (Watch.within ⟨[], some parent, hosts⟩ w).Keeps k := by
  refine around (hI.within parent hosts h) (fun _ _ => List.forall_mem_nil _) fun c hc => ?_
  have he : k.states (c.enter ⟨[], some parent, hosts⟩) := hI.enter parent hosts hc
  exact List.forall_mem_cons.2 ⟨⟨he, List.forall_mem_nil _⟩, hw _ he⟩

theorem inBlock (hI : Roams k) (h : k.pairing.Related any p p) (hw : w.Keeps k) :
    (Watch.inBlock w).Keeps k := by
  have hget : k.pairing.Related any (get : Cast Casting) get :=
    Invariant.related fun hc => ⟨trivial, hc⟩
  exact bind hget (step hget) fun c _ => within hI h hw c.current false

theorem inFrame (hI : Roams k) (h : k.pairing.Related any p p) (hw : w.Keeps k)
    (scope : Nat) : (Watch.inFrame scope w).Keeps k :=
  around (hI.paired.inFrame scope h) (fun _ _ => List.forall_mem_nil _) fun c hc =>
    within hI h hw scope true _ (hI.calls (c.calls + 1) hc)

end

section

variable {T : String → Prop} (hl : k.pairing.Lawful T)
include hl

theorem ticked {p : Cast α} {w : Watch p} (hw : w.Keeps k) :
    (Watch.ticked k.limits w).Keeps k :=
  bind hl.tick (step hl.tick) fun _ _ => hw

theorem update (op : UpdateOp) (before : Bool) (target : Ident) :
    (Watch.update op before target).Keeps k := by
  have number (x : Float) : k.values (.number x) := hl.plain rfl nofun
  exact bind (hl.lookup _ _) (value (hl.lookup _ _)) fun _ _ =>
    bind (hl.assign _ (number _)) (step (hl.assign _ (number _))) fun _ _ => idle _

theorem hoistVars (body : List Stmt) : (Watch.hoistVars body).Keeps k :=
  have h (name : String) := hl.declareVar (v := none) name (by simp)
  forM (fun name _ => h name) fun name _ => step (h name)

theorem hoistFunctions {body : List Stmt} (quotes : ∀ s ∈ body, s.Quotes T) :
    (Watch.hoistFunctions body).Keeps k := by
  induction body with
  | nil => exact idle ()
  | cons s rest ih =>
    obtain ⟨hs, hrest⟩ := List.forall_mem_cons.1 quotes
    cases s with
    | function _ name params _ body =>
      have h := hl.declareFunction name params fun _ => hs.part
      exact bind h (step h) fun _ _ => ih hrest
    | _ => exact ih hrest

theorem bindParams (params : List Ident) (args : List Value) (hargs : ∀ v ∈ args, k.values v) :
    (Watch.bindParams params args).Keeps k := by
  induction params generalizing args with
  | nil => exact idle ()
  | cons p ps ih =>
    have h := hl.declareVar p.name (hl.first hargs)
    exact bind h (step h) fun _ _ => ih _ fun v hv => hargs v (List.mem_of_mem_tail hv)

theorem repeatWhile {round : Cast Bool} {w : Watch round}
    (h : k.pairing.Related any round round) (hw : w.Keeps k) (n : Nat) :
    (Watch.repeatWhile k.limits w n).Keeps k := by
  induction n with
  | zero => exact bind h hw fun go _ => branch _ (step (P := any) hl.overrun) (idle _)
  | succ n ih => exact bind h hw fun go _ => branch _ ih (idle _)

section

variable {eval : Expr → Cast Value} {exec : Stmt → Cast Unit}
variable (re : ∀ e : Expr, e.Quotes T → k.pairing.Related k.values (eval e) (eval e))
variable (rx : ∀ s : Stmt, s.Quotes T → k.pairing.Related any (exec s) (exec s))
variable {we : ∀ e, Watch (eval e)} {wx : ∀ s, Watch (exec s)}
variable (he : ∀ e, e.Quotes T → (we e).Keeps k) (hx : ∀ s, s.Quotes T → (wx s).Keeps k)

include re he

theorem declareAll {d : Declaration} (quotes : ∀ e ∈ d.values, e.Quotes T) :
    (Watch.declareAll we d).Keeps k := by
  have first (v : Declarator) (value : Option Value) (h : ∀ w ∈ value, k.values w) :=
    Pairing.related_declare hl d.kind v.name h
  rw [Declaration.forall_mem_values] at quotes
  refine forM (fun v hv => ?_) fun v hv => ?_
  · cases hi : v.init with
    | none => exact first v none (by simp)
    | some e =>
      exact .bind (re e (quotes v hv e hi)) fun w hw => first v (some w) (by simpa using hw)
  · have init := quotes v hv
    cases hi : v.init with
    | none => exact step (first v none (by simp))
    | some e =>
      exact bind (re e (init e hi)) (he e (init e hi)) fun w hw =>
        step (first v (some w) (by simpa using hw))

theorem startFor {init : ForInit} (quotes : ∀ e ∈ init.values, e.Quotes T) :
    (Watch.startFor we init).Keeps k := by
  cases init with
  | absent => exact idle _
  | declare d => exact declareAll hl re he quotes
  | expr e =>
    have he' := List.forall_mem_singleton.1 quotes
    exact discard (re e he') (he e he')

theorem assigned (op : AssignOp) (target : Ident) {e : Expr} (quotes : e.Quotes T) :
    (Watch.assigned we k.limits op target e).Keeps k := by
  cases op with
  | set => exact he e quotes
  | add | sub | mul | div | rem =>
    refine bind (hl.lookup _ _) (value (hl.lookup _ _)) fun v hv => ?_
    exact bind (re e quotes) (he e quotes) fun w hw => value (hl.binary _ _ hv hw)

omit hl

theorem testFor {c : Option Expr} (quotes : ∀ e ∈ c, e.Quotes T) :
    (Watch.testFor we c).Keeps k := by
  cases c with
  | none => exact idle _
  | some c => exact bind (re c (quotes c rfl)) (he c (quotes c rfl)) fun _ _ => idle _

theorem stepFor {e : Option Expr} (quotes : ∀ x ∈ e, x.Quotes T) :
    (Watch.stepFor we e).Keeps k := by
  cases e with
  | none => exact idle _
  | some e =>
    have r := re e (quotes e rfl)
    exact bind (.discard r) (discard r (he e (quotes e rfl))) fun _ _ => idle _

include hx

theorem whileRound {c : Expr} {body : Stmt} (hc : c.Quotes T) (hb : body.Quotes T) :
    (Watch.whileRound we wx c body).Keeps k :=
  bind (re c hc) (he c hc) fun _ _ => branch _ (hx body hb) (idle _)

include rx

theorem doRound {c : Expr} {body : Stmt} (hc : c.Quotes T) (hb : body.Quotes T) :
    (Watch.doRound we wx c body).Keeps k :=
  bind (rx body hb).loopBody (hx body hb) fun _ _ =>
    branch _ (bind (re c hc) (he c hc) fun _ _ => idle _) (idle _)

theorem forRound {c update : Option Expr} {body : Stmt} (hc : ∀ e ∈ c, e.Quotes T)
    (hu : ∀ e ∈ update, e.Quotes T) (hb : body.Quotes T) :
    (Watch.forRound we wx c update body).Keeps k :=
  bind (Pairing.related_testFor re hc) (testFor re he hc) fun _ _ => branch _
    (bind (rx body hb).loopBody (hx body hb) fun _ _ => branch _ (stepFor re he hu) (idle _))
    (idle _)

include hl
omit re he

theorem execList {body : List Stmt} (quotes : ∀ s ∈ body, s.Quotes T) :
    (Watch.execList wx body).Keeps k :=
  bind (Pairing.related_hoistFunctions hl quotes) (hoistFunctions hl quotes) fun _ _ =>
    forM (fun s hs => rx s (quotes s hs)) fun s hs => hx s (quotes s hs)

theorem callClosure (hI : Roams k) (g : Closure) (hg : k.values (.function g)) (args : List Value)
    (hargs : ∀ v ∈ args, k.values v) (span : Span) :
    (Watch.callClosure wx k.limits g args span).Keeps k := by
  refine bind (hl.depth span) (step (hl.depth span)) fun _ _ => inFrame hI ?_ ?_ g.scope
  · exact .bind (Pairing.related_bindParams hl _ _ hargs) fun _ _ =>
      .bind (Pairing.related_hoistVars hl _) fun _ _ =>
        Pairing.related_execList rx hl (hl.body hg)
  · exact bind (Pairing.related_bindParams hl _ _ hargs) (bindParams hl _ _ hargs) fun _ _ =>
      bind (Pairing.related_hoistVars hl _) (hoistVars hl _) fun _ _ =>
        execList hl rx hx (hl.body hg)

theorem call (hI : Roams k) (f : Value) (hf : k.values f) (args : List Value)
    (hargs : ∀ v ∈ args, k.values v) (callee : Option String) (span : Span) :
    (Watch.call wx k.limits f args callee span).Keeps k := by
  intro c hc
  refine List.forall_mem_cons.2 ⟨⟨hc, List.forall_mem_cons.2 ⟨hf, hargs⟩⟩, ?_⟩
  cases f with
  | command k => exact value (hl.command span hf) c hc
  | function g => exact callClosure hl rx hx hI g hf args hargs span c hc
  | _ =>
    refine value ?_ c hc
    exact .throw trivial

end

section

variable (hI : Roams k) (n : Nat)
variable (hx : ∀ s, s.Quotes T → (Watch.exec k.limits n s).Keeps k)
variable (he : ∀ e, e.Quotes T → (Watch.eval k.limits n e).Keeps k)

include hI hx he

theorem stmt {s : Stmt} (quotes : s.Quotes T) : (Watch.exec k.limits (n + 1) s).Keeps k := by
  obtain ⟨rx, re⟩ := Pairing.related_eval hl n
  refine around ((Pairing.related_eval hl (n + 1)).1 s quotes)
    (fun _ _ => List.forall_mem_nil _) ?_
  cases s with
  | declare d => exact ticked hl (declareAll hl re he fun _ => quotes.value)
  | branch _ c yes no =>
    have hc := quotes.value (List.mem_singleton_self c)
    refine ticked hl (bind (re c hc) (he c hc) fun _ _ => branch _ ?_ ?_)
    · exact hx yes (quotes.part List.mem_cons_self)
    · cases no with
      | none => exact idle _
      | some no => exact hx no (quotes.part (List.mem_cons_of_mem _ List.mem_cons_self))
  | while_ _ c body =>
    have hc := quotes.value (List.mem_singleton_self c)
    have hb := quotes.part (List.mem_singleton_self body)
    exact ticked hl
      (repeatWhile hl (Pairing.related_whileRound re rx hc hb) (whileRound re he hx hc hb) n)
  | doWhile _ body c =>
    have hc := quotes.value (List.mem_singleton_self c)
    have hb := quotes.part (List.mem_singleton_self body)
    exact ticked hl
      (repeatWhile hl (Pairing.related_doRound re rx hc hb) (doRound re rx he hx hc hb) n)
  | for_ _ init c update body =>
    have hb := quotes.part (List.mem_singleton_self body)
    have head : ∀ e ∈ init.values ++ c.toList ++ update.toList, e.Quotes T :=
      fun _ => quotes.value
    rw [List.forall_mem_append, List.forall_mem_append] at head
    obtain ⟨⟨hi, hc⟩, hu⟩ := head
    replace hc : ∀ e ∈ c, e.Quotes T := fun e h => hc e (Option.mem_toList.2 h)
    replace hu : ∀ e ∈ update, e.Quotes T := fun e h => hu e (Option.mem_toList.2 h)
    refine ticked hl (inBlock hI (Pairing.related_forLoop hl n rx re quotes) ?_)
    refine bind (Pairing.related_startFor re hl hi) (startFor hl re he hi) fun _ _ => ?_
    exact repeatWhile hl (Pairing.related_forRound re rx hc hu hb)
      (forRound re rx he hx hc hu hb) n
  | block _ body =>
    have hb : ∀ s ∈ body, s.Quotes T := fun _ => quotes.part
    exact ticked hl (inBlock hI (Pairing.related_execList rx hl hb) (execList hl rx hx hb))
  | return_ _ value =>
    cases value with
    | none => exact ticked hl (step (P := any) (.throw hl.undefined))
    | some e =>
      have h := quotes.value List.mem_cons_self
      exact ticked hl (bind (re e h) (he e h) fun _ hv => step (P := any) (.throw hv))
  | break_ | continue_ => exact ticked hl (step (P := any) (.throw trivial))
  | expr _ e =>
    have h := quotes.value (List.mem_singleton_self e)
    exact ticked hl (discard (re e h) (he e h))
  | function | empty => exact ticked hl (idle _)

theorem expr {e : Expr} (quotes : e.Quotes T) : (Watch.eval k.limits (n + 1) e).Keeps k := by
  obtain ⟨rx, re⟩ := Pairing.related_eval hl n
  have rpart {x : Expr} (h : x ∈ e.parts) := re x (quotes.part h)
  have part {x : Expr} (h : x ∈ e.parts) := he x (quotes.part h)
  refine around ((Pairing.related_eval hl (n + 1)).2 e quotes)
    (fun _ hv => List.forall_mem_singleton.2 hv) ?_
  cases e with
  | number | text | bool | null => exact ticked hl (idle _)
  | name span name => exact ticked hl (value (hl.lookup name span))
  | call span callee args =>
    have args_mem {a : Expr} (ha : a ∈ args) : a ∈ callee :: args := List.mem_cons_of_mem _ ha
    refine ticked hl (bind (rpart List.mem_cons_self) (part List.mem_cons_self) fun f hf => ?_)
    refine bind (.mapM args fun a ha => rpart (args_mem ha))
      (mapM (fun a ha => rpart (args_mem ha)) fun a ha => part (args_mem ha)) fun vs hvs => ?_
    exact call hl rx hx hI f hf vs hvs _ span
  | unary _ op e =>
    have h := List.mem_singleton_self e
    cases op <;> exact ticked hl (bind (rpart h) (part h) fun _ _ => idle _)
  | binary span op a b =>
    have right : b ∈ [a, b] := List.mem_cons_of_mem _ List.mem_cons_self
    refine ticked hl (bind (rpart List.mem_cons_self) (part List.mem_cons_self) fun x hx => ?_)
    exact bind (rpart right) (part right) fun y hy => value (hl.binary op span hx hy)
  | logical _ op a b =>
    have right := part (List.mem_cons_of_mem a (List.mem_singleton_self b))
    refine ticked hl (bind (rpart List.mem_cons_self) (part List.mem_cons_self) fun x _ => ?_)
    cases op <;> cases x.isTruthy <;> first | exact idle _ | exact right
  | conditional _ c a b =>
    refine ticked hl (bind (rpart List.mem_cons_self) (part List.mem_cons_self) fun _ _ => ?_)
    exact branch _ (part (List.mem_cons_of_mem _ List.mem_cons_self))
      (part (List.mem_cons_of_mem _ (List.mem_cons_of_mem _ List.mem_cons_self)))
  | assign _ op target e =>
    have h := quotes.part (List.mem_singleton_self e)
    refine ticked hl (bind (Pairing.related_assigned re hl op target h)
      (assigned hl re he op target h) fun v hv => ?_)
    exact bind (hl.assign target hv) (step (hl.assign target hv)) fun _ _ => idle _
  | update _ op before target => exact ticked hl (update hl op before target)
  | paren _ e => exact ticked hl (part (List.mem_singleton_self e))

end

theorem eval (hI : Roams k) (n : Nat) :
    (∀ s, s.Quotes T → (Watch.exec k.limits n s).Keeps k) ∧
      ∀ e, e.Quotes T → (Watch.eval k.limits n e).Keeps k := by
  induction n with
  | zero =>
    exact ⟨fun _ _ => step (P := any) hl.overrun, fun _ _ => step (P := any) hl.overrun⟩
  | succ n ih => exact ⟨fun _ => stmt hl hI n ih.1 ih.2, fun _ => expr hl hI n ih.1 ih.2⟩

theorem run (hI : Roams k) {body : List Stmt} (quotes : ∀ s ∈ body, s.Quotes T) :
    (Watch.run k.limits body).Keeps k := by
  have rx := (Pairing.related_eval hl k.limits.gas).1
  have hx := (eval hl hI k.limits.gas).1
  have rbody := Pairing.related_runBody hl k.limits.gas quotes
  refine around rbody (fun _ _ => List.forall_mem_nil _) ?_
  refine bind (Pairing.related_hoistVars hl body) (hoistVars hl body) fun _ _ => ?_
  exact discard (.returned hl.undefined (Pairing.related_execList rx hl quotes))
    (execList hl rx hx quotes)

end

end Keeps

end Watch

end Spellcraft
