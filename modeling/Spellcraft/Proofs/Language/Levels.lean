import Spellcraft.Language.Names
import Spellcraft.Language.ParseExpr

namespace Spellcraft

mutual

def Expr.levels : Expr → Nat
  | .number .. | .text .. | .bool .. | .null _ | .name .. => 0
  | .call _ callee args => max callee.levels (argumentLevels args) + 1
  | .unary _ _ e | .paren _ e => e.levels + 1
  | .binary _ _ a b | .logical _ _ a b => max a.levels b.levels + 1
  | .conditional _ c a b => max c.levels (max a.levels b.levels)
  | .assign _ _ _ value => value.levels
  | .update _ _ before _ => before.toNat

def argumentLevels : List Expr → Nat
  | [] => 0
  | e :: es => max e.levels (argumentLevels es)

end

def Declaration.values (d : Declaration) : List Expr := d.declarators.filterMap Declarator.init

theorem Declaration.forall_mem_values {d : Declaration} {P : Expr → Prop} :
    (∀ e ∈ d.values, P e) ↔ ∀ v ∈ d.declarators, ∀ e ∈ v.init, P e := by
  simp only [values, List.mem_filterMap, Option.mem_def]
  exact ⟨fun h v hv e he => h e ⟨v, hv, he⟩, fun h e ⟨v, hv, he⟩ => h v hv e he⟩

def ForInit.values : ForInit → List Expr
  | .absent => []
  | .declare d => d.values
  | .expr e => [e]

mutual

def Stmt.levels : Stmt → Nat
  | .declare d => argumentLevels d.values + 1
  | .function _ _ _ _ body | .block _ body => bodyLevels body + 1
  | .branch _ c yes no => max c.levels (max yes.levels (elseLevels no)) + 1
  | .while_ _ c body | .doWhile _ body c => max c.levels body.levels + 1
  | .for_ _ init c update body =>
    max (argumentLevels (init.values ++ c.toList ++ update.toList)) body.levels + 1
  | .return_ _ value => argumentLevels value.toList + 1
  | .expr _ e => e.levels + 1
  | .break_ _ | .continue_ _ | .empty _ => 1

def elseLevels : Option Stmt → Nat
  | none => 0
  | some s => s.levels

def bodyLevels : List Stmt → Nat
  | [] => 0
  | s :: rest => max s.levels (bodyLevels rest)

end

def Program.levels (p : Program) : Nat := bodyLevels p.body

namespace Operator

def tier : Operator → Nat
  | .binary .mul | .binary .div | .binary .rem => 0
  | .binary .add | .binary .sub => 1
  | .binary .less | .binary .greater | .binary .lessEq | .binary .greaterEq => 2
  | .binary .looseEq | .binary .looseNe | .binary .strictEq | .binary .strictNe => 3
  | .logical .and => 4
  | .logical .or => 5

theorem tier_of_ofKind (h : ofKind? n k = some op) : op.tier = n := by
  unfold ofKind? ofSymbol? at h
  split at h
  · split at h <;> cases h <;> rfl
  · cases h

end Operator

/-- The operators of tier `n` that follow one another from the root down to the left. -/
def Expr.spine (n : Nat) : Expr → Nat
  | .binary _ op a _ => if (Operator.binary op).tier = n then a.spine n + 1 else 0
  | .logical _ op a _ => if (Operator.logical op).tier = n then a.spine n + 1 else 0
  | _ => 0

def Expr.callSpine : Expr → Nat
  | .call _ callee _ => callee.callSpine + 1
  | _ => 0

mutual

/-- Whether no operator and no call has more nesting to its left than its own chain and what it
has to its right come to. -/
def Expr.NestsRight : Expr → Prop
  | .number .. | .text .. | .bool .. | .null _ | .name .. | .update .. => True
  | .call _ callee args =>
    callee.levels ≤ callee.callSpine + argumentLevels args ∧
      callee.NestsRight ∧ ArgumentsNestRight args
  | .unary _ _ e | .paren _ e | .assign _ _ _ e => e.NestsRight
  | .binary _ op a b =>
    a.levels ≤ a.spine (Operator.binary op).tier + b.levels ∧ a.NestsRight ∧ b.NestsRight
  | .logical _ op a b =>
    a.levels ≤ a.spine (Operator.logical op).tier + b.levels ∧ a.NestsRight ∧ b.NestsRight
  | .conditional _ c a b => c.NestsRight ∧ a.NestsRight ∧ b.NestsRight

def ArgumentsNestRight : List Expr → Prop
  | [] => True
  | e :: es => e.NestsRight ∧ ArgumentsNestRight es

end

mutual

def Expr.decidableNestsRight : (e : Expr) → Decidable e.NestsRight
  | .number .. | .text .. | .bool .. | .null _ | .name .. | .update .. => isTrue trivial
  | .call _ callee args =>
    have := callee.decidableNestsRight
    have := decidableArgumentsNestRight args
    inferInstanceAs (Decidable (_ ∧ _ ∧ _))
  | .unary _ _ e | .paren _ e | .assign _ _ _ e => e.decidableNestsRight
  | .binary _ _ a b | .logical _ _ a b =>
    have := a.decidableNestsRight
    have := b.decidableNestsRight
    inferInstanceAs (Decidable (_ ∧ _ ∧ _))
  | .conditional _ c a b =>
    have := c.decidableNestsRight
    have := a.decidableNestsRight
    have := b.decidableNestsRight
    inferInstanceAs (Decidable (_ ∧ _ ∧ _))

def decidableArgumentsNestRight : (es : List Expr) → Decidable (ArgumentsNestRight es)
  | [] => isTrue trivial
  | e :: es =>
    have := e.decidableNestsRight
    have := decidableArgumentsNestRight es
    inferInstanceAs (Decidable (_ ∧ _))

end

instance : DecidablePred Expr.NestsRight := Expr.decidableNestsRight

instance : DecidablePred ArgumentsNestRight := decidableArgumentsNestRight

mutual

def Stmt.NestsRight : Stmt → Prop
  | .declare d => ArgumentsNestRight d.values
  | .function _ _ _ _ body | .block _ body => BodyNestsRight body
  | .branch _ c yes no => c.NestsRight ∧ yes.NestsRight ∧ ElseNestsRight no
  | .while_ _ c body | .doWhile _ body c => c.NestsRight ∧ body.NestsRight
  | .for_ _ init c update body =>
    ArgumentsNestRight (init.values ++ c.toList ++ update.toList) ∧ body.NestsRight
  | .return_ _ value => ArgumentsNestRight value.toList
  | .expr _ e => e.NestsRight
  | .break_ _ | .continue_ _ | .empty _ => True

def ElseNestsRight : Option Stmt → Prop
  | none => True
  | some s => s.NestsRight

def BodyNestsRight : List Stmt → Prop
  | [] => True
  | s :: rest => s.NestsRight ∧ BodyNestsRight rest

end

mutual

def Stmt.decidableNestsRight : (s : Stmt) → Decidable s.NestsRight
  | .declare d => inferInstanceAs (Decidable (ArgumentsNestRight d.values))
  | .function _ _ _ _ body | .block _ body => decidableBodyNestsRight body
  | .branch _ _ yes no =>
    have := yes.decidableNestsRight
    have := decidableElseNestsRight no
    inferInstanceAs (Decidable (_ ∧ _ ∧ _))
  | .while_ _ _ body | .doWhile _ body _ | .for_ _ _ _ _ body =>
    have := body.decidableNestsRight
    inferInstanceAs (Decidable (_ ∧ _))
  | .return_ _ value => inferInstanceAs (Decidable (ArgumentsNestRight value.toList))
  | .expr _ e => e.decidableNestsRight
  | .break_ _ | .continue_ _ | .empty _ => isTrue trivial

def decidableElseNestsRight : (no : Option Stmt) → Decidable (ElseNestsRight no)
  | none => isTrue trivial
  | some s => s.decidableNestsRight

def decidableBodyNestsRight : (body : List Stmt) → Decidable (BodyNestsRight body)
  | [] => isTrue trivial
  | s :: rest =>
    have := s.decidableNestsRight
    have := decidableBodyNestsRight rest
    inferInstanceAs (Decidable (_ ∧ _))

end

def Program.NestsRight (p : Program) : Prop := BodyNestsRight p.body

instance : DecidablePred Program.NestsRight := fun p => decidableBodyNestsRight p.body

structure Fits (levels : Nat) (right : Prop) (wide deep : Nat) : Prop where
  most : levels ≤ wide
  tight : right → levels ≤ deep

namespace Fits

theorem mono (h : Fits n p w d) (hw : w ≤ w') (hd : d ≤ d') : Fits n p w' d' where
  most := Nat.le_trans h.most hw
  tight hp := Nat.le_trans (h.tight hp) hd

theorem succ (h : Fits n p w d) : Fits (n + 1) p (w + 1) (d + 1) where
  most := Nat.succ_le_succ h.most
  tight hp := Nat.succ_le_succ (h.tight hp)

protected theorem max (h : Fits m p w d) (k : Fits n q w d) : Fits (max m n) (p ∧ q) w d where
  most := Nat.max_le.2 ⟨h.most, k.most⟩
  tight hpq := Nat.max_le.2 ⟨h.tight hpq.1, k.tight hpq.2⟩

theorem zero : Fits 0 p w d := ⟨Nat.zero_le _, fun _ => Nat.zero_le _⟩

end Fits

abbrev Expr.Fits (e : Expr) : Nat → Nat → Prop := Spellcraft.Fits e.levels e.NestsRight

abbrev Stmt.Fits (s : Stmt) : Nat → Nat → Prop := Spellcraft.Fits s.levels s.NestsRight

theorem fits_arguments (h : ∀ e ∈ es, Expr.Fits e w d) :
    Fits (argumentLevels es) (ArgumentsNestRight es) w d := by
  induction es with
  | nil => exact .zero
  | cons e es ih =>
    obtain ⟨he, hes⟩ := List.forall_mem_cons.1 h
    exact he.max (ih hes)

theorem fits_else {no : Option Stmt} (h : ∀ s ∈ no, Stmt.Fits s w d) :
    Fits (elseLevels no) (ElseNestsRight no) w d := by
  cases no with
  | none => exact .zero
  | some s => exact h s rfl

theorem fits_body (h : ∀ s ∈ body, Stmt.Fits s w d) :
    Fits (bodyLevels body) (BodyNestsRight body) w d := by
  induction body with
  | nil => exact .zero
  | cons s rest ih =>
    obtain ⟨hs, hrest⟩ := List.forall_mem_cons.1 h
    exact hs.max (ih hrest)

end Spellcraft
