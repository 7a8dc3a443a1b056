import Spellcraft.Proofs.Casting.Discipline

namespace Spellcraft

namespace Trail

theorem isStray_of_record {t : Trail} (h : t.record a = .error e) : e.isStray = false := by
  unfold record at h
  split at h <;> cases h
  rfl

theorem isStray_of_move {t : Trail} (h : t.move d = .error e) : e.isStray = false := by
  rw [move_eq] at h
  cases hr : t.record (.move d) with
  | ok u =>
    rw [hr] at h
    cases h
  | error e' =>
    rw [hr] at h
    cases h
    exact isStray_of_record hr

theorem isStray_of_lightTorch {t : Trail} (h : t.lightTorch span = .error e) :
    e.isStray = false := by
  unfold lightTorch at h
  split at h
  · exact isStray_of_record h
  · cases h
    rfl

end Trail

namespace Rules

variable {k : Rules} {seat : Seat} {limits : Limits}

open Watch (nothing single)

theorem follows_tick : k.Follows around seat held nothing (Cast.tick limits) := by
  intro c hc _ _
  rw [Cast.tick_apply]
  refine .still hc rfl rfl ?_
  split
  · rfl
  · exact List.forall_mem_nil _

theorem follows_overrun {given : α → List Value} :
    k.Follows around seat held given (Cast.overrun limits) :=
  .bind follows_tick fun _ => .throw fun _ _ => rfl

theorem Covers.not_found (h : k.Covers around st i) (ha : k.Allows ⟨r, around⟩)
    (hn : ¬ st.Finds r.name i) : k.missing r ∧ ¬ k.known r.name :=
  ⟨ha.resolve_left fun hr => hn (h.reserved _ hr), fun hk => hn (h.known hk)⟩

theorem follows_lookup (h : k.Allows ⟨⟨name, span⟩, around⟩) :
    k.Follows around seat held single (Cast.lookup name span) := by
  intro c hc hcov _
  simp only [Cast.lookup, Cast.get_bind_apply]
  cases hb : c.store.get? name c.current with
  | none => exact .still hc rfl rfl (hcov.not_found h (by simp [← Store.get?_isSome, hb]))
  | some b => exact .still hc rfl rfl (List.forall_mem_singleton.2 (hc.stored.get? hb))

theorem After.bind (hc : k.Sound c) (hv : k.Valid c.store b.value) (i : Nat) (name : String) :
    k.After seat nothing c (.ok (), { c with store := c.store.bind i name b }) :=
  ⟨hc.bind hv i name, .bind c.store i name b, rfl, List.forall_mem_nil _⟩

theorem follows_assign (h : k.Allows ⟨target, around⟩) (hv : AtHand held v) :
    k.Follows around seat held nothing (Cast.assign target v) := by
  intro c hc hcov hheld
  simp only [Cast.assign, Cast.get_bind_apply]
  cases hi : c.store.find? target.name c.current with
  | none => exact .still hc rfl rfl (hcov.not_found h (by simp [← Store.find?_isSome, hi]))
  | some i =>
    cases hb : c.store.get? target.name c.current with
    | none => exact .still hc rfl rfl (hcov.not_found h (by simp [← Store.get?_isSome, hb]))
    | some b =>
      simp only [Cast.fault]
      split
      · exact .still hc rfl rfl rfl
      · exact .bind hc (hv.valid hheld) i target.name

theorem valid_getD {v : Option Value} (hv : ∀ w ∈ v, k.Valid st w) :
    k.Valid st (v.getD .undefined) := by
  cases v with
  | none => trivial
  | some w => exact hv w rfl

theorem Sound.declareVar (hc : k.Sound c) {v : Option Value} (hv : ∀ w ∈ v, k.Valid c.store w)
    (name : String) :
    ∃ d, Cast.declareVar name v c = (.ok (), d) ∧ k.After .expr nothing c (.ok (), d) ∧
      d.store.Finds name d.current := by
  simp only [Cast.declareVar, Cast.modify_apply]
  refine ⟨_, rfl, ?_⟩
  split
  next h =>
    exact ⟨.still hc rfl rfl (List.forall_mem_nil _), .of_host (Bool.and_eq_true_iff.1 h).2⟩
  next =>
    exact ⟨.bind hc (valid_getD hv) _ name, .bind_host hc.current name _⟩

theorem follows_declareVar {given : α → List Value} {p : Cast α} (name : String)
    {v : Option Value} (hv : ∀ w ∈ v, AtHand held w)
    (h : k.Follows (name :: around) seat held given p) :
    k.Follows around seat held given (Cast.declareVar name v >>= fun _ => p) := by
  intro c hc hcov hheld
  rw [Cast.bind_apply]
  obtain ⟨d, hd, after, found⟩ := hc.declareVar (fun w hw => (hv w hw).valid hheld) name
  rw [hd]
  exact after.trans (h d after.sound ((after.covers hcov).cons found) (after.stays hheld))

theorem follows_declareLocal (name : Ident) (constant : Bool) {v : Option Value}
    (hv : ∀ w ∈ v, AtHand held w) :
    k.Follows around seat held nothing (Cast.declareLocal name v constant) := by
  intro c hc _ hheld
  simp only [Cast.declareLocal, Cast.get_bind_apply, Cast.fault]
  split
  · exact .still hc rfl rfl rfl
  · exact .bind hc (valid_getD fun w hw => (hv w hw).valid hheld) c.current name.name

theorem follows_declare (kind : DeclKind) (name : Ident) {v : Option Value}
    (hv : ∀ w ∈ v, AtHand held w) :
    k.Follows around seat held nothing (Cast.declare kind name v) := by
  cases kind with
  | var => exact follows_declareVar name.name hv (p := pure ()) .done
  | let_ => exact follows_declareLocal name false hv
  | const => exact follows_declareLocal name true hv

theorem follows_declareFunction (name : Ident)
    (h : k.AdmitsBody (reserved params body around) false body) :
    k.Follows around seat held nothing (Cast.declareFunction name params body) := by
  intro c hc hcov _
  have bound := hc.bind (b := ⟨.function ⟨c.closures, name.name, params, body, c.current⟩, false⟩)
    ⟨around, hcov, h⟩ c.current name.name
  exact ⟨⟨bound.stored, bound.current⟩, .bind .., rfl, List.forall_mem_nil _⟩

theorem follows_hoistFunctions (h : ∀ s ∈ body, k.Admits around inLoop s) :
    k.Follows around seat held nothing (Cast.hoistFunctions body) := by
  induction body with
  | nil => exact .done
  | cons s rest ih =>
    have ih := ih fun t ht => h t (List.mem_cons_of_mem s ht)
    cases s with
    | function _ name params _ body =>
      exact .bind (follows_declareFunction name (h _ List.mem_cons_self).function) fun _ => ih
    | _ => exact ih

theorem follows_hoist {given : α → List Value} {p : Cast α} (names : List String)
    (h : k.Follows (names ++ around) seat held given p) :
    k.Follows around seat held given
      (names.forM (fun name => Cast.declareVar name none) >>= fun _ => p) := by
  induction names generalizing around with
  | nil => exact h
  | cons name names ih =>
    rw [List.forM, bind_assoc]
    -- the names are found one by one, so the last one comes to stand first
    refine follows_declareVar name (v := none) nofun (ih ?_)
    exact h.subset (by simp)

theorem follows_hoistVars (body : List Stmt) :
    k.Follows around seat held nothing (Cast.hoistVars body) :=
  .forM _ fun name _ => follows_declareVar name (v := none) nofun (p := pure ()) .done

theorem follows_bindParams {given : α → List Value} {p : Cast α} (params : List Ident)
    (args : List Value) (hargs : ∀ v ∈ args, v ∈ held)
    (h : k.Follows (params.map Ident.name ++ around) seat held given p) :
    k.Follows around seat held given (Cast.bindParams params args >>= fun _ => p) := by
  induction params generalizing around args with
  | nil => exact h
  | cons param params ih =>
    rw [Cast.bindParams, bind_assoc]
    apply follows_declareVar
    · rintro _ ⟨⟩
      cases args with
      | nil => exact .inr rfl
      | cons v args => exact .inl (hargs v List.mem_cons_self)
    · apply ih args.tail fun v hv => hargs v (List.mem_of_mem_tail hv)
      exact h.subset (by simp)

theorem follows_binary (op : BinaryOp) (x y : Value) (span : Span) :
    k.Follows around seat held single (Cast.binary limits op x y span) := by
  have plain : AtHand held (Value.apply op x y) := .inr (Value.apply_isPlain op x y)
  unfold Cast.binary
  split
  next s hs =>
    split
    · exact .throw fun _ _ => rfl
    · exact .value (.inr rfl)
  next => exact .value plain

theorem follows_follow {step : Trail → Except Trap Trail}
    (h : ∀ {t e}, step t = .error e → e.isStray = false) :
    k.Follows around seat held nothing (Cast.follow step) := by
  intro c hc _ _
  rw [Cast.follow_apply]
  cases hs : step c.trail with
  | ok t => exact .still hc rfl rfl (List.forall_mem_nil _)
  | error e => exact .still hc rfl rfl (h hs)

theorem follows_command (k' : Command) (span : Span) :
    k.Follows around seat held single (Cast.command k' span) := by
  cases k' with
  | look d => exact fun c hc _ _ => .still hc rfl rfl (List.forall_mem_singleton.2 trivial)
  | move d => exact .bind (follows_follow Trail.isStray_of_move) fun _ => .value (.inr rfl)
  | lightTorch =>
    exact .bind (follows_follow Trail.isStray_of_lightTorch) fun _ => .value (.inr rfl)

theorem follows_checkDepth (span : Span) :
    k.Follows around seat held nothing (Cast.checkDepth limits span) := by
  intro c hc _ _
  simp only [Cast.checkDepth, Cast.get_bind_apply]
  split
  · exact .still hc rfl rfl rfl
  · exact .still hc rfl rfl (List.forall_mem_nil _)

theorem follows_update (op : UpdateOp) (before : Bool) (h : k.Allows ⟨target, around⟩) :
    k.Follows around seat held single (Cast.update op before target) := by
  apply Follows.bind (follows_lookup h)
  intro old
  exact .bind (follows_assign h (.inr rfl)) fun _ => .value (.inr rfl)

structure Below (k : Rules) (eval : Expr → Cast Value) (exec : Stmt → Cast Unit) : Prop where
  expr {around : List String} {e : Expr} : k.Reads around e.references →
    k.Follows around .expr [] single (eval e)
  stmt {around : List String} {inLoop : Bool} {s : Stmt} : k.Admits around inLoop s →
    k.Follows around (.stmt inLoop) [] nothing (exec s)

variable {eval : Expr → Cast Value} {exec : Stmt → Cast Unit}

theorem follows_declareAll (ih : k.Below eval exec) (h : k.Reads around d.references) :
    k.Follows around seat held nothing (Cast.declareAll eval d) := by
  apply Follows.forM
  intro v hv
  cases hi : v.init with
  | none => exact follows_declare d.kind v.name nofun
  | some e =>
    have he : k.Reads around e.references := h.subset fun r hr =>
      List.mem_flatMap.2 ⟨v, hv, by rwa [hi]⟩
    refine .bind (ih.expr he).widen.hold fun x => follows_declare d.kind v.name ?_
    rintro _ ⟨⟩
    exact .inl List.mem_cons_self

theorem follows_execList (ih : k.Below eval exec) (h : k.AdmitsBody around inLoop body) :
    k.Follows around (.stmt inLoop) held nothing (Cast.execList exec body) :=
  .bind (follows_hoistFunctions fun _ => h.mem) fun _ =>
    .forM _ fun _ hs => (ih.stmt (h.mem hs)).hold

theorem follows_repeatWhile {round : Cast Bool} (h : k.Follows around seat [] nothing round)
    (n : Nat) :
    k.Follows around seat [] nothing (Cast.repeatWhile limits round n) := by
  induction n with
  | zero =>
    apply Follows.bind h
    intro go
    cases go with
    | true => exact follows_overrun
    | false => exact .done
  | succ n ihn =>
    apply Follows.bind h
    intro go
    cases go with
    | true => exact ihn
    | false => exact .done

theorem follows_whileRound (ih : k.Below eval exec) (hc : k.Reads around c.references)
    (hb : k.Admits around true body) :
    k.Follows around (.stmt inLoop) [] nothing (Cast.whileRound eval exec c body) := by
  apply Follows.bind (ih.expr hc).widen
  intro v
  cases v.isTruthy with
  | true => exact (ih.stmt hb).loopBody.hold
  | false => exact .done

theorem follows_doRound (ih : k.Below eval exec) (hc : k.Reads around c.references)
    (hb : k.Admits around true body) :
    k.Follows around (.stmt inLoop) [] nothing (Cast.doRound eval exec c body) := by
  apply Follows.bind (ih.stmt hb).loopBody
  intro go
  cases go with
  | true => exact .bind (ih.expr hc).widen fun _ => .done
  | false => exact .done

theorem follows_startFor (ih : k.Below eval exec) (h : k.Reads around init.references) :
    k.Follows around seat [] nothing (Cast.startFor eval init) := by
  cases init with
  | absent => exact .done
  | declare d => exact follows_declareAll ih h
  | expr e => exact (ih.expr h).widen.discard

theorem follows_testFor (ih : k.Below eval exec) (h : k.Reads around (optionReferences c)) :
    k.Follows around seat [] nothing (Cast.testFor eval c) := by
  cases c with
  | none => exact .done
  | some c => exact .bind (ih.expr h).widen fun _ => .done

theorem follows_stepFor (ih : k.Below eval exec) (h : k.Reads around (optionReferences e)) :
    k.Follows around seat [] nothing (Cast.stepFor eval e) := by
  cases e with
  | none => exact .done
  | some e => exact .bind (ih.expr h).widen.discard fun _ => .done

theorem follows_forRound (ih : k.Below eval exec) (hc : k.Reads around (optionReferences c))
    (hu : k.Reads around (optionReferences update)) (hb : k.Admits around true body) :
    k.Follows around (.stmt inLoop) [] nothing (Cast.forRound eval exec c update body) := by
  apply Follows.bind (follows_testFor ih hc)
  intro go
  cases go with
  | false => exact .done
  | true =>
    apply Follows.bind (ih.stmt hb).loopBody
    intro go
    cases go with
    | false => exact .done
    | true => exact follows_stepFor ih hu

theorem follows_assigned (ih : k.Below eval exec) (op : AssignOp)
    (h : k.Reads around (target :: e.references)) :
    k.Follows around .expr [] single (Cast.assigned limits eval op target e) := by
  have he : k.Reads around e.references := h.subset (List.subset_cons_self ..)
  unfold Cast.assigned
  cases op.binary? with
  | none => exact ih.expr he
  | some op =>
    apply Follows.bind (follows_lookup (h target List.mem_cons_self))
    intro x
    exact .bind (ih.expr he).hold fun y => follows_binary op x y _

theorem follows_callClosure (ih : k.Below eval exec) (hf : .function f ∈ held)
    (hargs : ∀ v ∈ args, v ∈ held) (span : Span) :
    k.Follows around seat held single (Cast.callClosure limits exec f args span) := by
  apply Follows.bind (follows_checkDepth span)
  intro _
  apply Follows.returned
  apply Follows.inFrame hf
  intro around' hbody
  apply follows_bindParams f.params args hargs
  apply follows_hoist (bodyVars f.body)
  exact follows_execList ih hbody

theorem follows_call (ih : k.Below eval exec) (hf : f ∈ held) (hargs : ∀ v ∈ args, v ∈ held)
    (callee : Option String) (span : Span) :
    k.Follows around seat held single (Cast.call limits exec f args callee span) := by
  cases f with
  | command k' => exact follows_command k' span
  | function f => exact follows_callClosure ih hf hargs span
  | _ => exact .throw fun _ _ => rfl

theorem follows_stmt (n : Nat) (ih : k.Below (Cast.eval limits n) (Cast.exec limits n))
    (h : k.Admits around inLoop s) :
    k.Follows around (.stmt inLoop) [] nothing (Cast.exec limits (n + 1) s) := by
  rw [Cast.exec.eq_def]
  apply Follows.bind follows_tick
  intro _
  cases s with
  | declare d => exact follows_declareAll ih h.declare
  | branch _ c yes no =>
    obtain ⟨hc, hyes, hno⟩ := h.branch
    apply Follows.bind (ih.expr hc).widen
    intro v
    cases v.isTruthy with
    | true => exact (ih.stmt hyes).hold
    | false =>
      cases no with
      | none => exact .done
      | some no => exact (ih.stmt (hno no rfl)).hold
  | while_ _ c body =>
    obtain ⟨hc, hb⟩ := h.while_
    exact follows_repeatWhile (follows_whileRound ih hc hb) n
  | doWhile _ body c =>
    obtain ⟨hc, hb⟩ := h.doWhile
    exact follows_repeatWhile (follows_doRound ih hc hb) n
  | for_ _ init c update body =>
    obtain ⟨hi, hc, hu, hb⟩ := h.for_
    apply Follows.inBlock
    apply Follows.bind (follows_startFor ih hi)
    intro _
    exact follows_repeatWhile (follows_forRound ih hc hu hb) n
  | block _ body => exact .inBlock (follows_execList ih h.block)
  | return_ _ value =>
    cases value with
    | none => exact .throw fun _ _ => ⟨trivial, trivial⟩
    | some e =>
      exact .bind (ih.expr h.return_).widen fun v => .throw fun _ hv =>
        ⟨trivial, hv v List.mem_cons_self⟩
  | break_ | continue_ => exact .throw fun _ _ => h.jumps
  | expr _ e => exact (ih.expr h.expr).widen.discard
  | function | empty => exact .done

theorem follows_expr (n : Nat) (ih : k.Below (Cast.eval limits n) (Cast.exec limits n))
    (h : k.Reads around e.references) :
    k.Follows around .expr [] single (Cast.eval limits (n + 1) e) := by
  rw [Cast.eval.eq_def]
  apply Follows.bind follows_tick
  intro _
  cases e with
  | number | text | bool | null => exact .value (.inr rfl)
  | name span name => exact follows_lookup (h _ List.mem_cons_self)
  | call span callee args =>
    obtain ⟨hcallee, hargs⟩ := h.append
    apply Follows.bind (ih.expr hcallee)
    intro f
    apply Follows.bind (.mapM args fun a ha => ih.expr (hargs.argument ha))
    intro vs
    have hf : f ∈ vs ++ (single f ++ []) := List.mem_append_right vs List.mem_cons_self
    exact follows_call ih hf (fun v hv => List.mem_append_left _ hv) _ span
  | unary _ op e =>
    apply Follows.bind (ih.expr (e := e) h)
    intro v
    cases op <;> exact .value (.inr rfl)
  | binary span op a b =>
    obtain ⟨ha, hb⟩ := h.append
    apply Follows.bind (ih.expr ha)
    intro x
    exact .bind (ih.expr hb).hold fun y => follows_binary op x y span
  | logical _ op a b =>
    obtain ⟨ha, hb⟩ := h.append
    apply Follows.bind (ih.expr ha)
    intro x
    have left : k.Follows around .expr (single x ++ []) single (pure x) :=
      .value (.inl List.mem_cons_self)
    cases op <;> cases x.isTruthy <;> first | exact left | exact (ih.expr hb).hold
  | conditional _ c a b =>
    obtain ⟨hca, hb⟩ := h.append
    obtain ⟨hc, ha⟩ := hca.append
    apply Follows.bind (ih.expr hc)
    intro v
    cases v.isTruthy with
    | true => exact (ih.expr ha).hold
    | false => exact (ih.expr hb).hold
  | assign _ op target e =>
    apply Follows.bind (follows_assigned ih op h)
    intro v
    have hv : AtHand (single v ++ []) v := .inl List.mem_cons_self
    exact .bind (follows_assign (h target List.mem_cons_self) hv) fun _ => .value hv
  | update _ op before target => exact follows_update op before (h target List.mem_cons_self)
  | paren _ e => exact ih.expr (e := e) h

theorem below (k : Rules) (limits : Limits) (n : Nat) :
    k.Below (Cast.eval limits n) (Cast.exec limits n) := by
  -- statements and expressions at once: a call in an expression runs statements
  induction n with
  | zero =>
    constructor
    · intro around e _
      rw [Cast.eval]
      exact follows_overrun
    · intro around inLoop s _
      rw [Cast.exec]
      exact follows_overrun
  | succ n ih => exact ⟨follows_expr n ih, follows_stmt n ih⟩

theorem follows_run (h : k.AdmitsBody (reserved [] body []) false body) :
    k.Follows [] .expr [] nothing (Cast.run limits body) := by
  rw [Cast.run, Cast.runBody_eq]
  apply follows_hoist (bodyVars body)
  exact (follows_execList (k.below limits limits.gas) h).ended

theorem Sound.start (maze : Maze) (position : Position) (g : Grant) (limits : Limits) :
    k.Sound (.start maze position g limits) where
  stored := .initial trivial fun _ _ => trivial
  current := Nat.lt_succ_self 1

theorem run_after (maze : Maze) (position : Position) {g : Grant} (limits : Limits)
    (h : k.AdmitsBody (reserved [] body []) false body)
    (known : ∀ x, k.known x → g.knows x = true) :
    k.After .expr nothing (.start maze position g limits)
      (Cast.run limits body (.start maze position g limits)) :=
  follows_run h _ (.start ..) ⟨List.forall_mem_nil _, fun hx => .initial (known _ hx)⟩
    (List.forall_mem_nil _)

end Rules

end Spellcraft
