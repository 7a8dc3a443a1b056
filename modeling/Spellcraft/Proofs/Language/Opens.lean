import Spellcraft.Proofs.Language.Shape

/-!
The nesting levels that are open at one time while a tree is read. The operators of a chain open
one level after another, and so do the argument lists behind a callee; they are closed together.
-/

namespace Spellcraft

mutual

def Expr.opens : Expr → Nat
  | .number .. | .text .. | .bool .. | .null _ | .name .. => 0
  | .call _ callee args => max callee.opens (callee.callSpine + 1 + argumentsOpen args)
  | .unary _ _ e | .paren _ e | .assign _ _ _ e => e.opens + 1
  | .binary _ op a b => max a.opens (a.spine (Operator.binary op).tier + 1 + b.opens)
  | .logical _ op a b => max a.opens (a.spine (Operator.logical op).tier + 1 + b.opens)
  | .conditional _ c a b => max c.opens (max a.opens b.opens + 1)
  | .update _ _ before _ => before.toNat

def argumentsOpen : List Expr → Nat
  | [] => 0
  | e :: es => max (e.opens + 1) (argumentsOpen es)

end

theorem argumentsOpen_le : argumentsOpen es ≤ n ↔ ∀ e ∈ es, e.opens + 1 ≤ n := by
  induction es with
  | nil => simp [argumentsOpen]
  | cons e es ih => simp only [argumentsOpen, Nat.max_le, ih, List.forall_mem_cons]

mutual

def Stmt.opens : Stmt → Nat
  | .declare d => argumentsOpen d.values + 1
  | .function _ _ _ _ body | .block _ body => bodyOpens body + 1
  | .branch _ c yes no => max (c.opens + 1) (max yes.opens (elseOpens no)) + 1
  | .while_ _ c body | .doWhile _ body c => max (c.opens + 1) body.opens + 1
  | .for_ _ init c update body =>
    max (argumentsOpen (init.values ++ c.toList ++ update.toList)) body.opens + 1
  | .return_ _ value => argumentsOpen value.toList + 1
  | .expr _ e => e.opens + 2
  | .break_ _ | .continue_ _ | .empty _ => 1

def elseOpens : Option Stmt → Nat
  | none => 0
  | some s => s.opens

def bodyOpens : List Stmt → Nat
  | [] => 0
  | s :: rest => max s.opens (bodyOpens rest)

end

def Program.opens (p : Program) : Nat := bodyOpens p.body

end Spellcraft
