import Spellcraft.Proofs.Casting.Holding

namespace Spellcraft.Watch

open Moment (Stable)
open Rules (AtHand)

namespace Sustains

variable {held : List Value} {given : α → List Value} {limits : Limits}

theorem still {p : Cast α} (store : ∀ c, (p c).2.store = c.store)
    (kept : ∀ c : Casting, c.Kept (p c).2)
    (shown : ∀ c, ∀ v ∈ (finish given (p c)).held, AtHand held v) :
    (unseen p).Sustains held given := by
  intro J hJ c l hl hc
  have after := hJ.still hc (store c) (kept c).current
  exact ⟨List.forall_mem_nil _, hJ.add (fun v hv => (shown c v hv).mono hl) after, kept c⟩

protected theorem throw (h : ∀ v, e = .return_ v → AtHand held v) :
    (unseen (throw e : Cast α)).Sustains held given := by
  refine still (fun _ => rfl) .refl fun c v hv => ?_
  cases e with
  | return_ w => exact h v (by rw [List.mem_singleton.1 hv])
  | _ => cases hv

theorem trap (t : Trap) : (unseen (throw (.trap t) : Cast α)).Sustains held given :=
  .throw nofun

theorem tick : (unseen (Cast.tick limits)).Sustains held nothing := by
  refine still (Cast.Blind.tick limits).store_eq (Cast.Calm.tick limits).kept fun c v hv => ?_
  rw [Cast.tick_apply] at hv
  split at hv <;> cases hv

theorem overrun : (Watch.step (Cast.overrun limits : Cast α)).Sustains held given :=
  step (unwatched (bind tick fun _ => trap _))

theorem follow {move : Trail → Except Trap Trail} :
    (unseen (Cast.follow move)).Sustains held nothing := by
  refine still (Cast.Blind.follow move).store_eq (fun c => ?_) fun c v hv => ?_
  · rw [Cast.follow_apply]
    split <;> exact ⟨rfl, rfl, .refl _⟩
  · rw [Cast.follow_apply] at hv
    split at hv <;> cases hv

theorem command (k : Command) (span : Span) :
    (unseen (Cast.command k span)).Sustains held single := by
  cases k with
  | look d => exact still (fun _ => rfl) .refl fun _ _ hv => .inr (List.mem_singleton.1 hv ▸ rfl)
  | move d => exact unwatched (bind follow fun _ => hand (.inr rfl))
  | lightTorch => exact unwatched (bind follow fun _ => hand (.inr rfl))

theorem checkDepth (span : Span) :
    (unseen (Cast.checkDepth limits span)).Sustains held nothing := by
  refine still (Cast.Blind.checkDepth limits span).store_eq (fun c => ?_) fun c v hv => ?_
  · simp only [Cast.checkDepth, Cast.get_bind_apply]
    split <;> exact .refl c
  · simp only [Cast.checkDepth, Cast.get_bind_apply] at hv
    split at hv <;> cases hv

theorem binary (op : BinaryOp) (x y : Value) (span : Span) :
    (unseen (Cast.binary limits op x y span)).Sustains held single := by
  refine still (Cast.Blind.binary limits op x y span).store_eq
    (Cast.Calm.binary limits op x y span).kept fun c v hv => .inr ?_
  have plain := Value.apply_isPlain op x y
  simp only [Cast.binary] at hv
  generalize Value.apply op x y = w at plain hv
  cases w with
  | text s =>
    dsimp only at hv
    split at hv
    · cases hv
    · rwa [List.mem_singleton.1 hv]
  | _ => rwa [List.mem_singleton.1 hv]

theorem lookup (name : String) (span : Span) :
    (unseen (Cast.lookup name span)).Sustains held single := by
  intro J hJ c l _ hc
  refine ⟨List.forall_mem_nil _, ?_, (Cast.Calm.lookup name span).kept c⟩
  simp only [Cast.lookup, Cast.get_bind_apply]
  cases hb : c.store.get? name c.current with
  | none => exact hc
  | some b => exact hJ.read hb hc

theorem assign (target : Ident) (hv : AtHand held v) :
    (unseen (Cast.assign target v)).Sustains held nothing := by
  intro J hJ c l hl hc
  refine ⟨List.forall_mem_nil _, ?_, (Cast.Calm.assign target v).kept c⟩
  simp only [Cast.assign, Cast.get_bind_apply]
  cases hf : c.store.find? target.name c.current with
  | none => exact hc
  | some i =>
    cases hb : c.store.get? target.name c.current with
    | none => exact hc
    | some b =>
      dsimp only
      split
      · exact hc
      next changes =>
        exact hJ.put (hv.mono hl) (.found hf hb (Bool.eq_false_iff.2 changes)) false hc

theorem getD_atHand {v : Option Value} (hv : ∀ w ∈ v, AtHand held w) :
    AtHand held (v.getD .undefined) := by
  cases v with
  | none => exact .inr rfl
  | some w => exact hv w rfl

theorem declareVar (name : String) {v : Option Value} (hv : ∀ w ∈ v, AtHand held w) :
    (unseen (Cast.declareVar name v)).Sustains held nothing := by
  intro J hJ c l hl hc
  refine ⟨List.forall_mem_nil _, ?_, (Cast.Calm.declareVar name v).kept c⟩
  simp only [Cast.declareVar, Cast.modify_apply]
  split
  · exact hc
  · exact hJ.put ((getD_atHand hv).mono hl) .host false hc

theorem declareLocal (name : Ident) {v : Option Value} (hv : ∀ w ∈ v, AtHand held w)
    (constant : Bool) : (unseen (Cast.declareLocal name v constant)).Sustains held nothing := by
  intro J hJ c l hl hc
  refine ⟨List.forall_mem_nil _, ?_, (Cast.Calm.declareLocal name v constant).kept c⟩
  simp only [Cast.declareLocal, Cast.get_bind_apply]
  split
  · exact hc
  · exact hJ.put ((getD_atHand hv).mono hl) .here constant hc

theorem declare (kind : DeclKind) (name : Ident) {v : Option Value}
    (hv : ∀ w ∈ v, AtHand held w) :
    (Watch.step (Cast.declare kind name v)).Sustains held nothing := by
  cases kind with
  | var => exact step (declareVar name.name hv)
  | let_ | const => exact step (declareLocal name hv _)

theorem declareFunction (name : Ident) (params : List Ident) (body : List Stmt) :
    (unseen (Cast.declareFunction name params body)).Sustains held nothing := by
  intro J hJ c l _ hc
  refine ⟨List.forall_mem_nil _, ?_, (Cast.Calm.declareFunction name params body).kept c⟩
  have made := hJ.make c.closures name.name params body hc
  have site : c.Receives name.name c.current := .here
  have bound := hJ.write false site List.mem_cons_self made
  exact hJ.forget (List.subset_cons_self _ l) (hJ.still bound rfl rfl)

theorem ticked {p : Cast α} {w : Watch p} (hw : w.Sustains held given) :
    (Watch.ticked limits w).Sustains held given := bind (step tick) fun _ => hw

theorem update (op : UpdateOp) (before : Bool) (target : Ident) :
    (Watch.update op before target).Sustains held single :=
  bind (value (lookup _ _)) fun _ => bind (step (assign target (.inr rfl))) fun _ => hand (.inr rfl)

theorem hoistVars (body : List Stmt) : (Watch.hoistVars body).Sustains held nothing :=
  forM (fun name => step (declareVar name (v := none) nofun)) _

theorem hoistFunctions (body : List Stmt) : (Watch.hoistFunctions body).Sustains held nothing := by
  induction body with
  | nil => exact done
  | cons s rest ih =>
    cases s with
    | function _ name params _ body =>
      exact bind (step (declareFunction name params body)) fun _ => ih
    | _ => exact ih

theorem bindParams (params : List Ident) (hargs : args ⊆ held) :
    (Watch.bindParams params args).Sustains held nothing := by
  induction params generalizing args with
  | nil => exact done
  | cons param params ih =>
    refine bind (step (declareVar param.name ?_)) fun _ => ih fun v hv => ?_
    · rintro _ ⟨⟩
      exact getD_atHand fun w hw => .inl (hargs (List.mem_of_mem_head? hw))
    · exact hargs (List.mem_of_mem_tail hv)

theorem repeatWhile {round : Cast Bool} {w : Watch round} (hw : w.Sustains held nothing) (n : Nat) :
    (Watch.repeatWhile limits w n).Sustains held nothing := by
  induction n with
  | zero => exact bind hw fun _ => branch _ overrun done
  | succ n ih => exact bind hw fun _ => branch _ ih done

section

variable {eval : Expr → Cast Value} {exec : Stmt → Cast Unit}
variable {we : ∀ e, Watch (eval e)} {wx : ∀ s, Watch (exec s)}

section

variable (he : ∀ e, (we e).Sustains [] single)

include he

theorem declareAll (d : Declaration) : (Watch.declareAll we d).Sustains held nothing := by
  refine forM (fun v => ?_) _
  cases v.init with
  | none => exact declare d.kind v.name nofun
  | some e =>
    refine bind (he e).hold fun w => declare d.kind v.name ?_
    rintro _ ⟨⟩
    exact .inl List.mem_cons_self

theorem startFor (init : ForInit) : (Watch.startFor we init).Sustains held nothing := by
  cases init with
  | absent => exact done
  | declare d => exact declareAll he d
  | expr e => exact discard (he e).hold

theorem testFor (c : Option Expr) : (Watch.testFor we c).Sustains held nothing := by
  cases c with
  | none => exact done
  | some c => exact bind (he c).hold fun _ => done

theorem stepFor (e : Option Expr) : (Watch.stepFor we e).Sustains held nothing := by
  cases e with
  | none => exact done
  | some e => exact bind (discard (he e).hold) fun _ => done

theorem assigned (op : AssignOp) (target : Ident) (e : Expr) :
    (Watch.assigned we limits op target e).Sustains held single := by
  cases op with
  | set => exact (he e).hold
  | add | sub | mul | div | rem =>
    exact bind (value (lookup _ _)) fun x => bind (he e).hold fun y => value (binary _ x y _)

variable (hx : ∀ s, (wx s).Sustains [] nothing)

include hx

theorem whileRound (c : Expr) (body : Stmt) :
    (Watch.whileRound we wx c body).Sustains held nothing :=
  bind (he c).hold fun _ => branch _ (loopBody (hx body).hold) done

theorem doRound (c : Expr) (body : Stmt) : (Watch.doRound we wx c body).Sustains held nothing :=
  bind (loopBody (hx body).hold) fun _ => branch _ (bind (he c).hold fun _ => done) done

theorem forRound (c update : Option Expr) (body : Stmt) :
    (Watch.forRound we wx c update body).Sustains held nothing :=
  bind (testFor he c) fun _ =>
    branch _ (bind (loopBody (hx body).hold) fun _ => branch _ (stepFor he update) done) done

end

variable (hx : ∀ s, (wx s).Sustains [] nothing)

include hx

theorem execList (body : List Stmt) : (Watch.execList wx body).Sustains held nothing :=
  bind (hoistFunctions body) fun _ => forM (fun s => (hx s).hold) body

theorem callClosure (hf : .function f ∈ held) (hargs : args ⊆ held) (span : Span) :
    (Watch.callClosure wx limits f args span).Sustains held single :=
  bind (step (checkDepth span)) fun _ => returned <| inFrame hf <|
    bind (bindParams f.params hargs) fun _ => bind (hoistVars f.body) fun _ => execList hx f.body

theorem call (hf : f ∈ held) (hargs : args ⊆ held) (callee : Option String) (span : Span) :
    (Watch.call wx limits f args callee span).Sustains held single := by
  intro J hJ c l hl hc
  have called : Sustained J c l ((Watch.call wx limits f args callee span).seen c).tail single
      (Cast.call limits exec f args callee span c) := by
    cases f with
    | command k => exact value (command k span) J hJ c l hl hc
    | function f => exact callClosure hx hf hargs span J hJ c l hl hc
    | _ => exact value (trap _) J hJ c l hl hc
  have inHand : J ⟨c, f :: args⟩ :=
    hJ.forget (List.Subset.trans (List.cons_subset.2 ⟨hf, hargs⟩) hl) hc
  exact { called with seen := List.forall_mem_cons.2 ⟨inHand, called.seen⟩ }

end

structure Below (limits : Limits) (n : Nat) : Prop where
  expr (e : Expr) : (Watch.eval limits n e).Sustains [] single
  stmt (s : Stmt) : (Watch.exec limits n s).Sustains [] nothing

theorem stmt (h : Below limits n) (s : Stmt) :
    (Watch.exec limits (n + 1) s).Sustains [] nothing := by
  obtain ⟨he, hx⟩ := h
  refine around (fun _ => List.Subset.refl _) ?_
  cases s with
  | declare d => exact ticked (declareAll he d)
  | branch _ c yes no =>
    refine ticked (bind (he c) fun v => branch _ (hx yes).hold ?_)
    cases no with
    | none => exact done
    | some no => exact (hx no).hold
  | while_ _ c body => exact ticked (repeatWhile (whileRound he hx c body) n)
  | doWhile _ body c => exact ticked (repeatWhile (doRound he hx c body) n)
  | for_ _ init c update body =>
    exact ticked <| inBlock <| bind (startFor he init) fun _ =>
      repeatWhile (forRound he hx c update body) n
  | block _ body => exact ticked (inBlock (execList hx body))
  | return_ _ value =>
    cases value with
    | none =>
      refine ticked (step (.throw ?_))
      rintro _ ⟨⟩
      exact .inr rfl
    | some e =>
      refine ticked (bind (he e) fun v => step (.throw ?_))
      rintro _ ⟨⟩
      exact .inl List.mem_cons_self
  | break_ | continue_ => exact ticked (step (.throw nofun))
  | expr _ e => exact ticked (discard (he e))
  | function | empty => exact ticked done

theorem expr (h : Below limits n) (e : Expr) :
    (Watch.eval limits (n + 1) e).Sustains [] single := by
  obtain ⟨he, hx⟩ := h
  refine around (fun _ => List.Subset.refl _) ?_
  cases e with
  | number | text | bool | null => exact ticked (hand (.inr rfl))
  | name span name => exact ticked (value (lookup name span))
  | call span callee args =>
    refine ticked (bind (he callee) fun f => bind (mapM he args) fun vs => ?_)
    have called : f ∈ id vs ++ (single f ++ []) := List.mem_append_right vs List.mem_cons_self
    exact call hx called (List.subset_append_left vs _) _ span
  | unary _ op e => cases op <;> exact ticked (bind (he e) fun _ => hand (.inr rfl))
  | binary span op a b =>
    exact ticked (bind (he a) fun x => bind (he b).hold fun y => value (binary op x y span))
  | logical _ op a b =>
    refine ticked (bind (he a) fun x => ?_)
    have left : (Watch.idle x).Sustains (single x ++ []) single := hand (.inl List.mem_cons_self)
    cases op <;> cases x.isTruthy <;> first | exact left | exact (he b).hold
  | conditional _ c a b => exact ticked (bind (he c) fun _ => branch _ (he a).hold (he b).hold)
  | assign _ op target e =>
    refine ticked (bind (assigned he op target e) fun v => ?_)
    have given : AtHand (single v ++ []) v := .inl List.mem_cons_self
    exact bind (step (assign target given)) fun _ => hand given
  | update _ op before target => exact ticked (update op before target)
  | paren _ e => exact ticked (he e)

theorem below (limits : Limits) (n : Nat) : Below limits n := by
  induction n with
  | zero => exact ⟨fun _ => overrun, fun _ => overrun⟩
  | succ n ih => exact ⟨expr ih, stmt ih⟩

end Sustains

theorem sustains_run (limits : Limits) (body : List Stmt) :
    (run limits body).Sustains [] nothing := by
  have below := Sustains.below limits limits.gas
  refine .around (fun _ => List.Subset.refl _) (.bind (.hoistVars body) fun _ => ?_)
  exact .discard (.returned (.execList below.stmt body))

theorem forall_seen_of_stable {J : Moment → Prop} (hJ : Stable J) {c : Casting} (hc : J ⟨c, []⟩)
    (limits : Limits) (body : List Stmt) : ∀ m ∈ (run limits body).seen c, J m :=
  (sustains_run limits body J hJ c [] (List.nil_subset _) hc).seen

end Spellcraft.Watch
