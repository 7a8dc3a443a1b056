import Spellcraft.Proofs.Casting.Courses

namespace Spellcraft

namespace Casting.Passes

variable {g : Grant} {c : Casting}

theorem of_blind {p : Cast α} (hc : c.Standing g) (hp : Cast.Blind p) : c.Passes g [] (p c).2 :=
  .of_same hc (hp.store_eq c) (hp.current c)

theorem lookup (hc : c.Standing g) (name : String) (span : Span) :
    c.Passes g [] (Cast.lookup name span c).2 := by
  simp only [Cast.lookup, Cast.get_bind_apply]
  cases c.store.get? name c.current <;> exact .refl hc

theorem bind (hc : c.Standing g) (hi : 0 < i) (h : c.store.Unfixed i name) {b : Binding}
    (hb : b.constant = false ∨ c.store.binds i name = false) {closures : Nat} :
    c.Passes g [] { c with store := c.store.bind i name b, closures := closures } :=
  ⟨.done (.bind h hb) (hc.rooted.store.bind hi name b), rfl⟩

theorem assign (hc : c.Standing g) (target : Ident) (v : Value) :
    c.Passes g [] (Cast.assign target v c).2 := by
  simp only [Cast.assign, Cast.get_bind_apply]
  cases hf : c.store.find? target.name c.current with
  | none => exact .refl hc
  | some i =>
    cases hb : c.store.get? target.name c.current with
    | none => exact .refl hc
    | some b =>
      cases changes : b.constant <;>
        simp only [changes, Bool.false_eq_true, if_true, if_false]
      · have found : c.store.at? i target.name = some b := by
          rw [Store.get?, hf] at hb
          exact hb
        have free : c.store.Unfixed i target.name := Store.Varies.unfixed ⟨b, found, changes⟩
        exact bind hc (hc.rooted.store.find?_pos hf hb changes) free (.inl rfl)
      · exact .refl hc

theorem declareVar (hc : c.Standing g) (name : String) (v : Option Value)
    (free : c.store.Unfixed (c.store.host c.current) name) :
    c.Passes g [] (Cast.declareVar name v c).2 := by
  simp only [Cast.declareVar, Cast.modify_apply]
  split
  · exact .refl hc
  · exact bind hc (hc.rooted.store.host_pos hc.rooted.current) free (.inl rfl)

theorem declareLocal (hc : c.Standing g) (name : Ident) (v : Option Value) (constant : Bool) :
    c.Passes g [] (Cast.declareLocal name v constant c).2 := by
  simp only [Cast.declareLocal, Cast.get_bind_apply]
  split
  · exact .refl hc
  · rename_i unbound
    have unbound := Bool.eq_false_iff.2 unbound
    exact bind hc hc.rooted.current (Store.unfixed_of_binds unbound) (.inr unbound)

theorem declareFunction (hc : c.Standing g) (fresh : c.Fresh) (name : Ident) (params : List Ident)
    (body : List Stmt) : c.Passes g [] (Cast.declareFunction name params body c).2 :=
  bind hc hc.rooted.current (fresh name.name) (.inl rfl)

end Casting.Passes

namespace Casting

variable {g : Grant} {c : Casting}

theorem Fresh.host (h : c.Fresh) (hh : c.Hosting) (name : String) :
    c.store.Unfixed (c.store.host c.current) name := by
  rw [hh]
  exact h name

theorem Fresh.declareVar (h : c.Fresh) (name : String) (v : Option Value) :
    (Cast.declareVar name v c).2.Fresh := by
  simp only [Cast.declareVar, Cast.modify_apply]
  split
  · exact h
  · exact fun other => (h other).bind _ _ _

theorem Fresh.declareFunction (h : c.Fresh) (name : Ident) (params : List Ident)
    (body : List Stmt) : (Cast.declareFunction name params body c).2.Fresh :=
  fun other => (h other).bind _ _ _

theorem varies_declareVar (hc : c.Standing g) {name : String} (v : Option Value)
    (free : c.store.Unfixed (c.store.host c.current) name) :
    (Cast.declareVar name v c).2.store.Varies (c.store.host c.current) name := by
  simp only [Cast.declareVar, Cast.modify_apply]
  split
  · rename_i bound
    obtain ⟨b, hb⟩ := Option.isSome_iff_exists.1 (Bool.and_eq_true_iff.1 bound).2
    exact ⟨b, hb, free b hb⟩
  · exact .bind (Store.host_lt_size hc.inside) name _

end Casting

namespace Watch

variable {g : Grant} {names : List String} {c : Casting} {limits : Limits}

theorem passes_step {p : Cast α} (hc : c.Standing g) (h : c.Passes g [] (p c).2) :
    c.Passes g ((step p).seen c) (p c).2 := passes_around nothing hc h

theorem passes_bindParams (hc : c.Standing g) (hf : c.Fresh) (hh : c.Hosting)
    (params : List Ident) (args : List Value) :
    c.Passes g ((bindParams params args).seen c) (Cast.bindParams params args c).2 ∧
      (Cast.bindParams params args c).2.Fresh := by
  induction params generalizing c args with
  | nil => exact ⟨.refl hc, hf⟩
  | cons p ps ih =>
    have first := Casting.Passes.declareVar hc p.name (some (args.head?.getD .undefined))
      (hf.host hh p.name)
    obtain ⟨rest, fresh⟩ :=
      ih (first.standing hc) (hf.declareVar p.name _) (first.hosting hc hh) args.tail
    exact ⟨passes_bind (passes_step hc first) fun _ _ => rest, fresh⟩

theorem passes_hoistVars (hc : c.Standing g) (hf : c.Fresh) (hh : c.Hosting) (vars : List String) :
    let p := vars.forM fun name => Cast.declareVar name none
    c.Passes g ((forM (fun name => step (Cast.declareVar name none)) vars).seen c) (p c).2 ∧
      (p c).2.Fresh ∧ (p c).2.Reserves vars := by
  induction vars generalizing c with
  | nil => exact ⟨.refl hc, hf, by simp [Casting.Reserves, Store.Reserves]⟩
  | cons name rest ih =>
    have free := hf.host hh name
    have first := Casting.Passes.declareVar hc name none free
    have standing := first.standing hc
    obtain ⟨passes, fresh, reserved⟩ := ih standing (hf.declareVar name none) (first.hosting hc hh)
    have single : (Cast.declareVar name none c).2.Reserves [name] := by
      intro other ho
      obtain rfl := List.mem_singleton.1 ho
      rw [first.current, first.course.steady.host_eq hc.inside]
      exact Casting.varies_declareVar hc none free
    have kept := passes.reserves standing single
    refine ⟨passes_bind (passes_step hc first) fun _ _ => passes, fresh, ?_⟩
    intro other ho
    rcases List.mem_cons.1 ho with rfl | ho
    · exact kept _ List.mem_cons_self
    · exact reserved other ho

theorem passes_hoistFunctions (hc : c.Standing g) (hf : c.Fresh) (body : List Stmt) :
    c.Passes g ((hoistFunctions body).seen c) (Cast.hoistFunctions body c).2 := by
  induction body generalizing c with
  | nil => exact .refl hc
  | cons s rest ih =>
    cases s with
    | function _ name params _ body =>
      have first := Casting.Passes.declareFunction hc hf name params body
      exact passes_bind (passes_step hc first) fun _ _ =>
        ih (first.standing hc) (hf.declareFunction name params body)
    | _ => exact ih hc hf

theorem vars_subset_of_mem {body : List Stmt} (h : bodyVars body ⊆ names) {s : Stmt}
    (hs : s ∈ body) : s.vars ⊆ names := by
  induction body with
  | nil => cases hs
  | cons t rest ih =>
    simp only [bodyVars, List.append_subset] at h
    rcases List.mem_cons.1 hs with rfl | hs
    · exact h.1
    · exact ih h.2 hs

namespace Steers

theorem step {p : Cast α} (h : ∀ c : Casting, c.Standing g → c.Passes g [] (p c).2) :
    (Watch.step p).Steers g names := fun c hc _ => passes_step hc (h c hc)

theorem value {p : Cast Value} (h : ∀ c : Casting, c.Standing g → c.Passes g [] (p c).2) :
    (Watch.value p).Steers g names := fun c hc _ => passes_around single hc (h c hc)

theorem blind {p : Cast α} (hp : Cast.Blind p) : (Watch.step p).Steers g names :=
  step fun _ hc => .of_blind hc hp

theorem ticked {p : Cast α} {w : Watch p} (hw : w.Steers g names) :
    (Watch.ticked limits w).Steers g names := bind (blind (.tick limits)) fun _ => hw

theorem overrun : (Watch.step (Cast.overrun limits : Cast α)).Steers g names :=
  blind (.bind (.tick limits) fun _ => .throw _)

theorem declare (kind : DeclKind) (name : Ident) (v : Option Value)
    (reserved : kind = .var → name.name ∈ names) :
    (Watch.step (Cast.declare kind name v)).Steers g names := by
  cases kind with
  | var => exact fun c hc hr =>
      passes_step hc (.declareVar hc name.name v (hr _ (reserved rfl)).unfixed)
  | let_ | const => exact step fun c hc => .declareLocal hc name v _

theorem update (op : UpdateOp) (before : Bool) (target : Ident) :
    (Watch.update op before target).Steers g names :=
  bind (value fun _ hc => .lookup hc _ _) fun _ =>
    bind (step fun _ hc => .assign hc target _) fun _ => idle _

theorem repeatWhile {round : Cast Bool} {w : Watch round} (hw : w.Steers g names) (n : Nat) :
    (Watch.repeatWhile limits w n).Steers g names := by
  induction n with
  | zero => exact bind hw fun _ => branch _ overrun (idle _)
  | succ n ih => exact bind hw fun _ => branch _ ih (idle _)

section

variable {eval : Expr → Cast Value} {exec : Stmt → Cast Unit}
variable {we : ∀ e, Watch (eval e)} {wx : ∀ s, Watch (exec s)}
variable (he : ∀ e, (we e).Steers g names)

include he

theorem declareAll {d : Declaration} (reserved : d.vars ⊆ names) :
    (Watch.declareAll we d).Steers g names := by
  refine forM fun v hv => ?_
  have known : d.kind = .var → v.name.name ∈ names := by
    intro hk
    refine reserved ?_
    rw [Declaration.vars, if_pos hk]
    exact List.mem_map_of_mem hv
  cases v.init with
  | none => exact declare d.kind v.name none known
  | some e => exact bind (he e) fun w => declare d.kind v.name (some w) known

theorem startFor {init : ForInit} (reserved : init.vars ⊆ names) :
    (Watch.startFor we init).Steers g names := by
  cases init with
  | absent => exact idle _
  | declare d => exact declareAll he reserved
  | expr e => exact discard (he e)

theorem testFor (c : Option Expr) : (Watch.testFor we c).Steers g names := by
  cases c with
  | none => exact idle _
  | some c => exact bind (he c) fun _ => idle _

theorem stepFor (e : Option Expr) : (Watch.stepFor we e).Steers g names := by
  cases e with
  | none => exact idle _
  | some e => exact bind (discard (he e)) fun _ => idle _

theorem assigned (op : AssignOp) (target : Ident) (e : Expr) :
    (Watch.assigned we limits op target e).Steers g names := by
  cases op with
  | set => exact he e
  | add | sub | mul | div | rem =>
    refine bind (value fun _ hc => .lookup hc _ _) fun _ => bind (he e) fun _ => ?_
    exact value fun _ hc => .of_blind hc (.binary ..)

theorem whileRound {body : Stmt} (hx : (wx body).Steers g names) (c : Expr) :
    (Watch.whileRound we wx c body).Steers g names :=
  bind (he c) fun _ => branch _ (loopBody hx) (idle _)

theorem doRound {body : Stmt} (hx : (wx body).Steers g names) (c : Expr) :
    (Watch.doRound we wx c body).Steers g names :=
  bind (loopBody hx) fun _ => branch _ (bind (he c) fun _ => idle _) (idle _)

theorem forRound {body : Stmt} (hx : (wx body).Steers g names) (c update : Option Expr) :
    (Watch.forRound we wx c update body).Steers g names :=
  bind (testFor he c) fun _ =>
    branch _ (bind (loopBody hx) fun _ => branch _ (stepFor he update) (idle _)) (idle _)

end

end Steers

section

variable {exec : Stmt → Cast Unit} {wx : ∀ s, Watch (exec s)}

theorem passes_execList {body : List Stmt} (hx : ∀ s ∈ body, (wx s).Steers g names)
    (hc : c.Standing g) (hr : c.Reserves names) (hf : c.Fresh) :
    c.Passes g ((execList wx body).seen c) (Cast.execList exec body c).2 := by
  have first := passes_hoistFunctions hc hf body
  exact passes_bind first fun _ _ =>
    Steers.forM hx _ (first.standing hc) (first.reserves hc hr)

theorem passes_body {body : List Stmt} {p : Cast α} {w : Watch p}
    (hw : ∀ d : Casting, d.Standing g → d.Reserves (bodyVars body) → d.Fresh →
      d.Passes g (w.seen d) (p d).2)
    (hc : c.Standing g) (hf : c.Fresh) (hh : c.Hosting) :
    c.Passes g (((hoistVars body).bind fun _ => w).seen c)
      ((Cast.hoistVars body >>= fun _ => p) c).2 := by
  obtain ⟨first, fresh, reserved⟩ := passes_hoistVars hc hf hh (bodyVars body)
  exact passes_bind first fun _ _ => hw _ (first.standing hc) reserved fresh

variable (hx : ∀ names s, s.vars ⊆ names → (wx s).Steers g names)

include hx

theorem Steers.callClosure (f : Closure) (args : List Value) (span : Span) :
    (Watch.callClosure wx limits f args span).Steers g names := by
  refine bind (blind (.checkDepth limits span)) fun _ => returned (inFrame f.scope ?_)
  intro c hc hf hh
  obtain ⟨first, fresh⟩ := passes_bindParams hc hf hh f.params args
  refine passes_bind first fun _ _ => ?_
  refine passes_body (fun d hd reserved fresh => ?_) (first.standing hc) fresh (first.hosting hc hh)
  refine passes_execList (fun s hs => ?_) hd reserved fresh
  exact hx _ s (vars_subset_of_mem (List.Subset.refl _) hs)

theorem Steers.call (f : Value) (args : List Value) (callee : Option String) (span : Span) :
    (Watch.call wx limits f args callee span).Steers g names := by
  intro c hc hr
  have called : c.Passes g ((Watch.call wx limits f args callee span).seen c).tail
      (Cast.call limits exec f args callee span c).2 := by
    cases f with
    | command k => exact value (fun _ hc => .of_blind hc (.command k span)) c hc hr
    | function f => exact callClosure hx f args span c hc hr
    | _ => exact value (fun _ hc => .of_blind hc (.throw _)) c hc hr
  exact ⟨.next (.refl _) hc.rooted.store called.course, called.current⟩

end

namespace Steers

def Below (g : Grant) (limits : Limits) (n : Nat) : Prop :=
  (∀ names s, s.vars ⊆ names → (Watch.exec limits n s).Steers g names) ∧
    ∀ names e, (Watch.eval limits n e).Steers g names

theorem stmt (h : Below g limits n) {s : Stmt} (reserved : s.vars ⊆ names) :
    (Watch.exec limits (n + 1) s).Steers g names := by
  obtain ⟨hx, he⟩ := h
  have he := he names
  refine around nothing ?_
  cases s with
  | declare d => exact ticked (declareAll he reserved)
  | branch _ c yes no =>
    simp only [Stmt.vars, List.append_subset] at reserved
    refine ticked (bind (he c) fun v => branch _ (hx names yes reserved.1) ?_)
    cases no with
    | none => exact idle _
    | some no => exact hx names no reserved.2
  | while_ _ c body => exact ticked (repeatWhile (whileRound he (hx names body reserved) c) n)
  | doWhile _ body c => exact ticked (repeatWhile (doRound he (hx names body reserved) c) n)
  | for_ _ init c update body =>
    simp only [Stmt.vars, List.append_subset] at reserved
    refine ticked (inBlock fun c hc hr _ => ?_)
    exact bind (startFor he reserved.1)
      (fun _ => repeatWhile (forRound he (hx names body reserved.2) _ update) n) c hc hr
  | block _ body =>
    refine ticked (inBlock fun c hc hr hf => passes_execList (fun s hs => ?_) hc hr hf)
    exact hx names s (vars_subset_of_mem reserved hs)
  | return_ _ value =>
    cases value with
    | none => exact ticked (blind (.throw _))
    | some e => exact ticked (bind (he e) fun _ => blind (.throw _))
  | break_ | continue_ => exact ticked (blind (.throw _))
  | expr _ e => exact ticked (discard (he e))
  | function | empty => exact ticked (idle _)

theorem expr (h : Below g limits n) (e : Expr) :
    (Watch.eval limits (n + 1) e).Steers g names := by
  obtain ⟨hx, he⟩ := h
  have he := he names
  refine around single ?_
  cases e with
  | number | text | bool | null => exact ticked (idle _)
  | name span name => exact ticked (value fun _ hc => .lookup hc _ _)
  | call span callee args =>
    exact ticked (bind (he callee) fun f => bind (mapM he args) fun vs => call hx f vs _ span)
  | unary _ op e => cases op <;> exact ticked (bind (he e) fun _ => idle _)
  | binary span op a b =>
    refine ticked (bind (he a) fun x => bind (he b) fun y => ?_)
    exact value fun _ hc => .of_blind hc (.binary ..)
  | logical _ op a b =>
    refine ticked (bind (he a) fun x => ?_)
    cases op <;> cases x.isTruthy <;> first | exact idle _ | exact he b
  | conditional _ c a b => exact ticked (bind (he c) fun _ => branch _ (he a) (he b))
  | assign _ op target e =>
    refine ticked (bind (assigned he op target e) fun v => ?_)
    exact bind (step fun _ hc => .assign hc target v) fun _ => idle _
  | update _ op before target => exact ticked (update op before target)
  | paren _ e => exact ticked (he e)

theorem below (g : Grant) (limits : Limits) (n : Nat) : Below g limits n := by
  induction n with
  | zero => exact ⟨fun _ _ _ => overrun, fun _ _ => overrun⟩
  | succ n ih => exact ⟨fun _ _ reserved => stmt ih reserved, fun _ => expr ih⟩

end Steers

theorem passes_run (hc : c.Standing g) (hf : c.Fresh) (hh : c.Hosting) (body : List Stmt) :
    c.Passes g ((run limits body).seen c) (Cast.run limits body c).2 := by
  refine passes_around nothing hc (passes_body (fun d hd reserved fresh => ?_) hc hf hh)
  refine passes_discard hd (passes_returned (passes_execList (fun s hs => ?_) hd reserved fresh))
  exact (Steers.below g limits limits.gas).1 _ s (vars_subset_of_mem (List.Subset.refl _) hs)

end Watch

namespace Casting

variable (maze : Maze) (position : Position) (g : Grant) (limits : Limits)

theorem Standing.start : (start maze position g limits).Standing g :=
  ⟨⟨.initial g, Nat.one_pos⟩, Nat.one_lt_two⟩

theorem Fresh.start : (start maze position g limits).Fresh := by
  intro name b hb
  cases hb

theorem Hosting.start : (start maze position g limits).Hosting := by
  rw [Hosting, Store.host]
  rfl

end Casting

/-- What is constant in a scope stays there as it is, whatever is done later; and nothing is added
to what was granted, and nothing taken away. -/
theorem Program.run_keeps_constants (p : Program) (maze : Maze) (start : Position) (g : Grant)
    (limits : Limits) :
    let seen := (Watch.run limits p.body).seen (.start maze start g limits)
    (seen.Pairwise fun m n => ∀ i name b, m.state.store.at? i name = some b →
      b.constant = true → n.state.store.at? i name = some b) ∧
    ∀ m ∈ seen, m.state.store[0]? = some (Store.builtins g) := by
  intro seen
  have course : Course g _ seen _ :=
    (Watch.passes_run (.start maze start g limits) (.start maze start g limits)
      (.start maze start g limits) p.body).course
  refine ⟨course.pairwise.imp fun steady _ _ _ => steady.constants, fun m hm => ?_⟩
  exact (course.forall_mem m hm).2.root

def Program.homing : Program := (parseText <|
  "const home = moveRight; function f(home) \x7b var moveUp = home; home = null \x7d f(moveLeft);" ++
  "\x7b function home() \x7b\x7d \x7d home()").1

theorem Program.run_keeps_constants_homing :
    let limits : Limits := ⟨1, 60, 1, 0⟩
    let seen := (Watch.run limits homing.body).seen (.start .corridor ⟨0, 0⟩ .standard limits)
    homing.perform .corridor ⟨0, 0⟩ .standard limits = .ok [.move .right] ∧
      ∃ b : Binding, (seen[13]?.bind fun m => m.state.store.at? 1 "home") = some b ∧
        b.constant = true ∧ b.value.strictEq (.command (.move .right)) = true ∧
        (seen.getLast?.bind fun m => m.state.store.at? 1 "home") = some b := by
  intro limits seen
  refine ⟨by decide +kernel, ?_⟩
  obtain ⟨kept, -⟩ := homing.run_keeps_constants .corridor ⟨0, 0⟩ .standard limits
  have made : (seen[13]?.bind fun m => m.state.store.at? 1 "home").any
      (fun b => b.constant && b.value.strictEq (.command (.move .right))) = true := by
    decide +kernel
  have length : seen.length = 110 := by decide +kernel
  obtain ⟨b, hb, fixed⟩ := Option.any_eq_true .. |>.1 made
  rw [Bool.and_eq_true] at fixed
  refine ⟨b, hb, fixed.1, fixed.2, ?_⟩
  have first : 13 < seen.length := by omega
  have last : seen.length - 1 < seen.length := by omega
  rw [List.getElem?_eq_getElem first, Option.bind_some] at hb
  rw [List.getLast?_eq_getElem?, List.getElem?_eq_getElem last, Option.bind_some]
  exact List.pairwise_iff_getElem.1 kept _ _ first last (by omega) 1 "home" b hb fixed.1

end Spellcraft
