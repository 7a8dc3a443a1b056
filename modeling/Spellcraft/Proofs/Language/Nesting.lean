import Spellcraft.Proofs.Language.Levels
import Spellcraft.Proofs.Language.Results

/-!
The bound that the nesting limit sets to a parsed tree. The room of a parser is taken up level by
level, but a chain gives its levels back when it ends, and the whole chain may then stand to the
left in a chain of a looser tier. So the room bounds a tree that nests to its right, and each tier
may add the room once more to any other.
-/

namespace Spellcraft

namespace Parse

/-- The most levels of an expression in parentheses, read with this room. -/
def reach : Nat → Nat
  | 0 => 0
  | room + 1 => reach room + 7 * room + 1

def tierReach (n room : Nat) : Nat := reach room + (n + 1) * room

theorem reach_mono (h : r ≤ s) : reach r ≤ reach s := by
  induction h with
  | refl => exact Nat.le_refl _
  | step h ih => exact Nat.le_trans ih (by simp only [reach]; omega)

theorem tierReach_mono (n : Nat) (h : r ≤ s) : tierReach n r ≤ tierReach n s :=
  Nat.add_le_add (reach_mono h) (Nat.mul_le_mul_left _ h)

theorem tierReach_succ (n room : Nat) : tierReach (n + 1) room = tierReach n room + room := by
  simp only [tierReach, Nat.succ_mul, Nat.add_assoc]

def Inner (room : Nat) (e : Expr) : Prop := Fits (e.levels + 1) e.NestsRight (reach room) room

structure InTier (n room : Nat) (e : Expr) : Prop where
  fits : e.Fits (tierReach n room) room
  ends : ∀ j, n ≤ j → e.spine j = 0

structure Chained (n top room : Nat) (e : Expr) : Prop where
  most : e.levels + room ≤ tierReach n top + top
  tight : e.NestsRight → e.levels ≤ top
  spine : e.spine n + room = top
  ends : ∀ j, n < j → e.spine j = 0

structure Called (top room : Nat) (e : Expr) : Prop where
  most : e.levels + room ≤ reach top + top
  tight : e.NestsRight → e.levels ≤ top
  spine : e.callSpine + room = top
  ends : ∀ j, e.spine j = 0

theorem InTier.chained (h : InTier n top e) : Chained n top top e where
  most := Nat.add_le_add_right h.fits.most _
  tight := h.fits.tight
  spine := by rw [h.ends n (Nat.le_refl n), Nat.zero_add]
  ends j hj := h.ends j (Nat.le_of_lt hj)

theorem Chained.inTier (h : Chained n top room e) : InTier (n + 1) top e where
  fits := ⟨by have := h.most; rw [tierReach_succ]; omega, h.tight⟩
  ends := h.ends

theorem Called.inTier (h : Called top room e) : InTier 0 top e where
  fits := ⟨by have := h.most; simp only [tierReach]; omega, h.tight⟩
  ends j _ := h.ends j

theorem Chained.build {op : Operator} (hl : Chained n top (room + 1) l) (hr : InTier n room r)
    (hop : op.tier = n) : Chained n top room (op.build l r) := by
  have lt : room < top := by have := hl.spine; omega
  have wide : tierReach n room ≤ tierReach n top := tierReach_mono n (Nat.le_of_lt lt)
  have levels : (op.build l r).levels = max l.levels r.levels + 1 := by cases op <;> rfl
  have nests : (op.build l r).NestsRight →
      l.levels ≤ l.spine n + r.levels ∧ r.NestsRight := by
    subst hop
    cases op <;> exact fun h => ⟨h.1, h.2.2⟩
  have spine : (op.build l r).spine n = l.spine n + 1 := by
    cases op <;> exact if_pos hop
  have ends : ∀ j, n < j → (op.build l r).spine j = 0 := by
    intro j hj
    cases op <;> exact if_neg (by omega)
  have := hl.most
  have := hl.spine
  have := hr.fits.most
  refine ⟨by omega, fun h => ?_, by omega, ends⟩
  obtain ⟨left, right⟩ := nests h
  have := hr.fits.tight right
  omega

theorem Inner.fits (h : Inner room e) : e.Fits (reach room) room where
  most := Nat.le_of_succ_le h.most
  tight hn := Nat.le_of_succ_le (h.tight hn)

theorem Called.call {s : Span} (hf : Called top (room + 1) f) (ha : ∀ a ∈ args, Inner room a) :
    Called top room (.call s f args) := by
  have lt : room < top := by have := hf.spine; omega
  have wide : reach room ≤ reach top := reach_mono (Nat.le_of_lt lt)
  have arguments := fits_arguments fun a h => (ha a h).fits
  have := hf.most
  have := hf.spine
  have := arguments.most
  refine ⟨?_, fun h => ?_, ?_, fun _ => rfl⟩
  · simp only [Expr.levels]
    omega
  · simp only [Expr.NestsRight] at h
    simp only [Expr.levels]
    have := arguments.tight h.2.2
    omega
  · simp only [Expr.callSpine]
    omega

theorem literal_levels (h : literal? s k = some e) :
    e.levels = 0 ∧ e.callSpine = 0 ∧ ∀ j, e.spine j = 0 := by
  unfold literal? at h
  split at h <;> cases h <;> exact ⟨rfl, rfl, fun _ => rfl⟩

structure Grammar (room : Nat) : Prop where
  inner : Gives (Inner room) (expression room)
  tiers : ∀ n, Gives (InTier n room) (tier n room)

variable {room : Nat}

theorem conditional_fits (h : Grammar room) :
    Gives (fun e => e.Fits (tierReach 6 room) room) (conditional room) := by
  have branch : Gives (fun e => e.Fits (tierReach 6 room) room) (expression room) :=
    h.inner.mono fun e he => he.fits.mono (Nat.le_add_right _ _) (Nat.le_refl _)
  rw [conditional]
  refine (h.tiers 6).bind fun c hc => .after fun asks => ?_
  split
  · refine branch.bind fun yes hy => .after fun _ => branch.bind fun no hn => .pure ?_
    exact hc.fits.max (hy.max hn)
  · exact .pure hc.fits

theorem assignment_inner (h : Grammar room) : Gives (Inner (room + 1)) (assignment room) := by
  have top : tierReach 6 room + 1 = reach (room + 1) := by simp only [tierReach, reach]
  have wide : reach room ≤ reach (room + 1) := reach_mono (Nat.le_succ room)
  rw [assignment]
  refine (conditional_fits h).bind fun left hl => .after fun k => ?_
  split
  · exact .pure (hl.succ.mono (Nat.le_of_eq top) (Nat.le_refl _))
  · refine .after fun _ => .after fun _ => h.inner.bind fun value hv => .pure ?_
    exact hv.mono wide (Nat.le_succ room)

theorem expression_inner (h : ∀ r < room, Grammar r) : Gives (Inner room) (expression room) := by
  cases room with
  | zero =>
    rw [expression]
    exact .tooDeep
  | succ room =>
    rw [expression]
    exact assignment_inner (h room (Nat.lt_succ_self room))

theorem primary_called (h : Gives (Inner room) (expression room)) :
    Gives (Called room room) (primary room) := by
  rw [primary]
  refine Gives.after fun start => Gives.after fun k => ?_
  split
  case h_1 e he =>
    obtain ⟨levels, calls, ends⟩ := literal_levels he
    exact .after fun _ => .pure ⟨by omega, by omega, by omega, ends⟩
  split
  · refine .after fun _ => h.bind fun e he => .after fun _ => .after fun _ => .pure ?_
    exact ⟨Nat.add_le_add_right he.most _, he.tight, Nat.zero_add _, fun _ => rfl⟩
  · exact .refuse

theorem calls_inTier {room : Nat} (h : ∀ r < top, Gives (Inner r) (expression r))
    (hf : Called top room f) : Gives (InTier 0 top) (calls room f) := by
  rw [calls.eq_def]
  refine .after fun k => ?_
  split
  · cases room with
    | zero => exact .tooDeep
    | succ room =>
      have lt : room < top := by have := hf.spine; omega
      refine .after fun opened => .after fun _ => (h room lt).arguments.bind fun args ha =>
        .after fun _ => ?_
      exact calls_inTier h (hf.call ha)
  · exact .after fun _ => .after fun _ => .failure
  · exact .after fun _ => .after fun _ => .failure
  · exact .pure hf.inTier
termination_by room

theorem suffixed_inTier (h : ∀ r ≤ room, Gives (Inner r) (expression r)) :
    Gives (InTier 0 room) (suffixed room) := by
  rw [suffixed]
  refine (primary_called (h room (Nat.le_refl room))).bind fun f hf => ?_
  refine (calls_inTier (fun r hr => h r (Nat.le_of_lt hr)) hf).bind fun e he => ?_
  refine .after fun k => .after fun s => ?_
  split
  · exact .after fun _ => .after fun _ => .after fun _ => .pure ⟨.zero, fun _ _ => rfl⟩
  · exact .pure he

theorem nested_fits (h : ∀ r < room, Gives (InTier 0 r) (unary r)) :
    Gives (fun e => 0 < room ∧ Fits (e.levels + 1) e.NestsRight (tierReach 0 room) room)
      (nested room) := by
  rw [nested.eq_def]
  cases room with
  | zero => exact .tooDeep
  | succ room =>
    refine (h room (Nat.lt_succ_self room)).mono fun e he => ⟨Nat.succ_pos room, ?_⟩
    refine he.fits.succ.mono ?_ (Nat.le_refl _)
    have : reach room ≤ reach (room + 1) := reach_mono (Nat.le_succ room)
    simp only [tierReach]
    omega

theorem unary_inTier (h : ∀ r ≤ room, Gives (Inner r) (expression r))
    (hu : ∀ r < room, Gives (InTier 0 r) (unary r)) : Gives (InTier 0 room) (unary room) := by
  rw [unary]
  refine .after fun start => .after fun k => ?_
  split
  · exact .after fun _ => (nested_fits hu).bind fun e he => .pure ⟨he.2, fun _ _ => rfl⟩
  · refine .after fun _ => (nested_fits hu).bind fun e he => .after fun _ => .pure ?_
    have most := Nat.le_trans (Nat.le_add_left 1 _) he.2.most
    exact ⟨⟨most, fun _ => he.1⟩, fun _ _ => rfl⟩
  · exact suffixed_inTier h

theorem chain_inTier {room : Nat} (h : ∀ r < top, Gives (InTier n r) (tier n r))
    (hl : Chained n top room l) : Gives (InTier (n + 1) top) (chain n room l) := by
  rw [chain.eq_def]
  refine .after fun k => ?_
  split
  · exact .pure hl.inTier
  case h_2 op hop =>
    cases room with
    | zero => exact .tooDeep
    | succ room =>
      have lt : room < top := by have := hl.spine; omega
      refine .after fun _ => (h room lt).bind fun r hr => ?_
      exact chain_inTier h (hl.build hr (Operator.tier_of_ofKind hop))
termination_by room

theorem tier_inTier (hu : Gives (InTier 0 room) (unary room))
    (h : ∀ r < room, ∀ n, Gives (InTier n r) (tier n r)) :
    ∀ n, Gives (InTier n room) (tier n room)
  | 0 => by
    rw [tier]
    exact hu
  | n + 1 => by
    rw [tier]
    refine (tier_inTier hu h n).bind fun l hl => ?_
    exact chain_inTier (fun r hr => h r hr n) hl.chained

theorem grammar (room : Nat) : Grammar room := by
  -- By induction on the room: whatever a rule reads inside, it reads with less room, or one
  -- rule down the grammar with the same.
  induction room using Nat.strongRecOn with
  | ind room ih =>
    have inner : ∀ r ≤ room, Gives (Inner r) (expression r) := fun r hr =>
      expression_inner fun q hq => ih q (Nat.lt_of_lt_of_le hq hr)
    have prefixed : ∀ r < room, Gives (InTier 0 r) (unary r) := fun r hr => by
      have := (ih r hr).tiers 0
      rwa [tier] at this
    exact ⟨inner room (Nat.le_refl room),
      tier_inTier (unary_inTier inner prefixed) fun r hr => (ih r hr).tiers⟩

/-- The most levels of what stands in a statement that leaves this room. -/
def partReach (room : Nat) : Nat := max room (reach room - 1)

def statementReach : Nat → Nat
  | 0 => 0
  | room + 1 => partReach room + 1

theorem statementReach_le (room : Nat) : statementReach room ≤ partReach room := by
  cases room with
  | zero => exact Nat.zero_le _
  | succ room => simp only [statementReach, partReach, reach]; omega

theorem expression_part : Gives (fun e => e.Fits (partReach room) room) (expression room) := by
  refine (grammar room).inner.mono fun e he => ⟨?_, he.fits.tight⟩
  have := he.most
  simp only [partReach]
  omega

theorem declaration_parts {k : DeclKind} :
    Gives (fun d => ∀ e ∈ d.values, e.Fits (partReach room) room) (declaration k room) := by
  have item : Gives (fun v => ∀ e ∈ v.init, e.Fits (partReach room) room)
      (declarator k room) := by
    refine .after fun n => .after fun given => ?_
    split
    · exact expression_part.bind fun e he => .pure fun _ h => by cases h; exact he
    · dsimp only
      split
      · exact .after fun _ => .pure fun _ h => by cases h
      · exact .pure fun _ h => by cases h
  refine .after fun _ => .after fun _ => item.commaList.bind fun ds hds => .after fun _ => .pure ?_
  intro e he
  obtain ⟨v, hv, hi⟩ := List.mem_filterMap.1 he
  exact hds v hv e hi

theorem parenCondition_part :
    Gives (fun e => e.Fits (partReach room) room) (parenCondition room) :=
  .after fun _ => expression_part.bind fun _ he => .after fun _ => .pure he

theorem forInit_parts :
    Gives (fun i => ∀ e ∈ i.values, e.Fits (partReach room) room) (forInit room) := by
  refine .after fun absent => ?_
  split
  · exact .pure (List.forall_mem_nil _)
  · refine .after fun k => ?_
    dsimp only
    split
    · exact .bind (declaration_parts.map fun _ hd => hd) fun _ hi => .after fun _ => .pure hi
    · refine .bind (expression_part.map fun e he => ?_) fun _ hi => .after fun _ => .pure hi
      exact List.forall_mem_singleton.2 he

theorem expressionUnless_part :
    Gives (fun o => ∀ e ∈ o.toList, e.Fits (partReach room) room) (expressionUnless s room) := by
  refine .after fun absent => ?_
  split
  · exact .pure (List.forall_mem_nil _)
  · exact expression_part.map fun e he => List.forall_mem_singleton.2 he

def Stands (room : Nat) (s : Stmt) : Prop := s.Fits (partReach room + 1) (room + 1)

theorem returnStatement_stands : Gives (Stands room) (returnStatement room) := by
  refine .after fun _ => .after fun _ => .after fun s => ?_
  dsimp only
  split
  · exact .given (.after fun _ => .after fun _ => .pure Fits.zero.succ)
  · refine .bind (P := fun value => ∀ e ∈ value.toList, e.Fits (partReach room) room) ?_ ?_
    · exact expression_part.map fun e he => List.forall_mem_singleton.2 he
    · exact fun _ hv => .after fun _ => .after fun _ => .pure (fits_arguments hv).succ

theorem jumpStatement_stands {build : Span → Stmt} (h : ∀ here, Stands room (build here)) :
    Gives (Stands room) (jumpStatement word inLoop build) := by
  refine .after fun here => .after fun _ => ?_
  dsimp only
  split
  · exact .after fun _ => .after fun _ => .pure (h here)
  · exact .after fun _ => .pure (h here)

section

variable {st : Parse Stmt} (hst : Gives (fun s => s.Fits (partReach room) room) st)
include hst

theorem functionStatement_stands : Gives (Stands room) (functionStatement st) := by
  refine .after fun _ => .after fun _ => .after fun nameless => ?_
  dsimp only
  split
  · exact .never .refuse
  · refine .after fun _ => .after fun _ => .after fun closes => ?_
    split <;> exact .after fun params => .after fun _ => hst.block.bind fun _ hb =>
      .pure (fits_body hb).succ

theorem branchStatement_stands : Gives (Stands room) (branchStatement room st) := by
  refine .after fun _ => .after fun _ => parenCondition_part.bind fun c hc => ?_
  refine hst.bind fun yes hy => .after fun k => ?_
  have whole {h : Span} {no : Option Stmt} (hn : ∀ s ∈ no, Stmt.Fits s (partReach room) room) :
      Gives (Stands room) (do return .branch (h.merge (← previousSpan)) c yes no) :=
    .after fun _ => .pure (hc.max (hy.max (fits_else hn))).succ
  dsimp only
  split
  · refine .after fun _ => .bind (P := fun no => ∀ s ∈ no, Stmt.Fits s (partReach room) room) ?_
      fun _ hn => whole hn
    exact hst.map fun s hs _ h => by cases h; exact hs
  · exact .given (whole fun _ h => by cases h)

theorem whileStatement_stands : Gives (Stands room) (whileStatement room st) :=
  .after fun _ => .after fun _ => parenCondition_part.bind fun _ hc => hst.bind fun _ hb =>
    .after fun _ => .pure (hc.max hb).succ

theorem doWhileStatement_stands : Gives (Stands room) (doWhileStatement room st) :=
  .after fun _ => .after fun _ => hst.bind fun _ hb => .after fun _ =>
    parenCondition_part.bind fun _ hc => .after fun _ => .after fun _ => .pure (hc.max hb).succ

theorem forStatement_stands : Gives (Stands room) (forStatement room st) := by
  refine .after fun _ => .after fun _ => .after fun _ => .after fun _ => ?_
  dsimp only
  split
  · exact .after fun _ => .after fun _ => .never .failure
  · refine forInit_parts.bind fun init hi => expressionUnless_part.bind fun c hc => .after fun _ =>
      expressionUnless_part.bind fun u hu => .after fun _ => hst.bind fun body hb =>
      .after fun _ => .pure ?_
    have heads : ∀ e ∈ init.values ++ c.toList ++ u.toList, e.Fits (partReach room) room :=
      List.forall_mem_append.2 ⟨List.forall_mem_append.2 ⟨hi, hc⟩, hu⟩
    exact ((fits_arguments heads).max hb).succ

end

theorem statement_stands (room : Nat) :
    ∀ inLoop, Gives (fun s => s.Fits (statementReach room) room) (statement room inLoop) := by
  induction room with
  | zero => exact fun _ => .tooDeep
  | succ room ih =>
    intro inLoop
    have part (inLoop : Bool) :
        Gives (fun s => s.Fits (partReach room) room) (statement room inLoop) :=
      (ih inLoop).mono fun s hs => hs.mono (statementReach_le room) (Nat.le_refl _)
    refine .after fun k => ?_
    dsimp only
    split
    · exact (part inLoop).block.bind fun _ hb => .pure (fits_body hb).succ
    · exact .after fun _ => .after fun _ => .pure Fits.zero.succ
    · exact functionStatement_stands (part false)
    · exact branchStatement_stands (part inLoop)
    · exact whileStatement_stands (part true)
    · exact doWhileStatement_stands (part true)
    · exact forStatement_stands (part true)
    · exact returnStatement_stands
    · exact jumpStatement_stands fun _ => Fits.zero.succ
    · exact jumpStatement_stands fun _ => Fits.zero.succ
    · exact .refuse
    · split
      · exact declaration_parts.bind fun d hd => .after fun _ => .pure (fits_arguments hd).succ
      · exact expression_part.bind fun _ he => .after fun _ => .pure he.succ

end Parse

/-- The nesting limit bounds a tree that nests to its right. A chain to the left of a looser
operator stands under levels that were never counted against it, and then only the wider bound
holds. -/
theorem Spell.parse_nesting (h : Spell.parse source = .ok p) :
    p.levels ≤ 13734 ∧ (p.NestsRight → p.levels ≤ nestingLimit) := by
  have body := fits_body (parse_gives (Parse.statement_stands nestingLimit false) h)
  exact ⟨Nat.le_trans body.most (by decide), body.tight⟩

theorem Spell.parse_nesting_sum : ∃ p, Spell.parse "a + b * f(c);" = .ok p ∧ p.NestsRight ∧
    p.levels = 4 ∧ p.levels ≤ nestingLimit := by
  have computed : (Spell.parse "a + b * f(c);").toOption.map
      (fun p => (decide p.NestsRight, p.levels)) = some (true, 4) := by decide +kernel
  rcases h : Spell.parse "a + b * f(c);" with e | p <;> rw [h] at computed
  · cases computed
  · simp only [Except.toOption, Option.map_some, Option.some.injEq, Prod.mk.injEq,
      decide_eq_true_eq] at computed
    exact ⟨p, rfl, computed.1, computed.2, (parse_nesting h).2 computed.1⟩

def Spell.leftDeep : String :=
  "a" ++ String.join (List.replicate 40 "*a") ++ String.join (List.replicate 25 "+a")

theorem Spell.parse_leftDeep :
    ∃ p, Spell.parse leftDeep = .ok p ∧ nestingLimit < p.levels := by
  have computed : (Spell.parse leftDeep).toOption.map Program.levels = some 66 := by
    decide +kernel
  rcases h : Spell.parse leftDeep with e | p <;> rw [h] at computed
  · cases computed
  · simp only [Except.toOption, Option.map_some, Option.some.injEq] at computed
    exact ⟨p, rfl, by rw [computed]; decide⟩

end Spellcraft
