import Spellcraft.Proofs.Language.Writing

namespace Spellcraft

/-- How loosely an expression holds together: 0 what can be called, 1 behind it an update, 2 behind
a prefix, 3 to 8 around an infix operator by its tier, 9 a condition, 10 an assignment. -/
def Expr.looseness : Expr → Nat
  | .number .. | .text .. | .bool .. | .null _ | .name .. | .paren .. | .call .. => 0
  | .update _ _ false _ => 1
  | .update _ _ true _ | .unary .. => 2
  | .binary _ op _ _ => (Operator.binary op).tier + 3
  | .logical _ op _ _ => (Operator.logical op).tier + 3
  | .conditional .. => 9
  | .assign .. => 10

/-- Chains lean to the left: only there may an operator of the same tier stand. -/
def Operator.ranks (op : Operator) (a b : Expr) : Bool :=
  a.looseness ≤ op.tier + 3 && b.looseness < op.tier + 3

mutual

def Expr.isRanked : Expr → Bool
  | .number .. | .text .. | .bool .. | .null _ | .name .. | .update .. => true
  | .call _ callee args => callee.looseness = 0 && callee.isRanked && areRanked args
  | .unary _ _ e => e.looseness ≤ 2 && e.isRanked
  | .binary _ op a b => (Operator.binary op).ranks a b && a.isRanked && b.isRanked
  | .logical _ op a b => (Operator.logical op).ranks a b && a.isRanked && b.isRanked
  | .conditional _ c a b => c.looseness ≤ 8 && c.isRanked && a.isRanked && b.isRanked
  | .assign _ _ _ e | .paren _ e => e.isRanked

def areRanked : List Expr → Bool
  | [] => true
  | e :: es => e.isRanked && areRanked es

end

theorem areRanked_iff : areRanked es = true ↔ ∀ e ∈ es, e.isRanked = true := by
  induction es with
  | nil => simp [areRanked]
  | cons e es ih => simp [areRanked, ih]

mutual

def Stmt.isRanked : Stmt → Bool
  | .declare d => areRanked d.values
  | .function _ _ _ _ body | .block _ body => bodyIsRanked body
  | .branch _ c yes no => c.isRanked && yes.isRanked && elseIsRanked no
  | .while_ _ c body | .doWhile _ body c => c.isRanked && body.isRanked
  | .for_ _ init c update body =>
    areRanked (init.values ++ c.toList ++ update.toList) && body.isRanked
  | .return_ _ value => areRanked value.toList
  | .expr _ e => e.isRanked
  | .break_ _ | .continue_ _ | .empty _ => true

def elseIsRanked : Option Stmt → Bool
  | none => true
  | some s => s.isRanked

def bodyIsRanked : List Stmt → Bool
  | [] => true
  | s :: rest => s.isRanked && bodyIsRanked rest

end

mutual

/-- Whether every `break` and `continue` stands in the body of a loop, without a function between
them. With `inLoop` there is such a loop outside of the statement. -/
def Stmt.jumpsInLoops (inLoop : Bool) : Stmt → Bool
  | .break_ _ | .continue_ _ => inLoop
  | .function _ _ _ _ body => bodyJumpsInLoops false body
  | .block _ body => bodyJumpsInLoops inLoop body
  | .branch _ _ yes no => yes.jumpsInLoops inLoop && elseJumpsInLoops inLoop no
  | .while_ _ _ body | .doWhile _ body _ | .for_ _ _ _ _ body => body.jumpsInLoops true
  | .declare _ | .return_ .. | .expr .. | .empty _ => true

def elseJumpsInLoops (inLoop : Bool) : Option Stmt → Bool
  | none => true
  | some s => s.jumpsInLoops inLoop

def bodyJumpsInLoops (inLoop : Bool) : List Stmt → Bool
  | [] => true
  | s :: rest => s.jumpsInLoops inLoop && bodyJumpsInLoops inLoop rest

end

def Declaration.isComplete (d : Declaration) : Bool :=
  !d.declarators.isEmpty && (d.kind ≠ .const || d.declarators.all (·.init.isSome))

def ForInit.isComplete : ForInit → Bool
  | .declare d => d.isComplete
  | .absent | .expr _ => true

mutual

/-- Whether an `else` behind the statement would belong to an `if` at its end. -/
def Stmt.endsOpen : Stmt → Bool
  | .branch _ _ _ no => elseEndsOpen no
  | .while_ _ _ body | .for_ _ _ _ _ body => body.endsOpen
  | .declare _ | .function .. | .doWhile .. | .block .. | .return_ .. | .break_ _ | .continue_ _
  | .expr .. | .empty _ => false

def elseEndsOpen : Option Stmt → Bool
  | none => true
  | some s => s.endsOpen

end

mutual

def Stmt.isComplete : Stmt → Bool
  | .declare d => d.isComplete
  | .function _ _ _ _ body | .block _ body => bodyIsComplete body
  | .branch _ _ yes no => !(no.isSome && yes.endsOpen) && yes.isComplete && elseIsComplete no
  | .while_ _ _ body | .doWhile _ body _ => body.isComplete
  | .for_ _ init _ _ body => init.isComplete && body.isComplete
  | .return_ .. | .break_ _ | .continue_ _ | .expr .. | .empty _ => true

def elseIsComplete : Option Stmt → Bool
  | none => true
  | some s => s.isComplete

def bodyIsComplete : List Stmt → Bool
  | [] => true
  | s :: rest => s.isComplete && bodyIsComplete rest

end

namespace Program

def isRanked (p : Program) : Bool := bodyIsRanked p.body

def jumpsInLoops (p : Program) : Bool := bodyJumpsInLoops false p.body

def isComplete (p : Program) : Bool := bodyIsComplete p.body

structure WellFormed (p : Program) : Prop where
  ranked : p.isRanked = true
  jumps : p.jumpsInLoops = true
  complete : p.isComplete = true

end Program

end Spellcraft
