import Spellcraft.Proofs.Casting.Steps

/-!
Evaluation by a clock that knows nothing of gas: it bounds how deep evaluation goes and how often a
loop goes round, and where it stands still there is no outcome, `none`. A run ends if it has an
outcome on every clock that is set high enough. The gas counter counts as `count` says, so that it
may be a machine word.
-/

namespace Spellcraft

abbrev Clocked (α : Type) := ExceptT Exit (StateT Casting Option) α

namespace Clocked

def ofCast (p : Cast α) : Clocked α := fun c => some (p c)

def stopped : Clocked α := fun _ => none

def tick (count : Nat → Nat) (limits : Limits) : Cast Unit := do
  modify fun c => { c with gas := count c.gas }
  if limits.gas < (← get).gas then throw (.trap (.outOfGas limits.gas))

def settle (h : Except Exit α → Except Exit β) (q : Clocked α) : Clocked β := fun c => do
  let (r, d) ← q c
  return (h r, d)

def inBlock (q : Clocked Unit) : Clocked Unit := fun c => do
  let (r, d) ← q (c.enter ⟨[], some c.current, false⟩)
  return (r, { d with current := c.current })

def inFrame (scope : Nat) (q : Clocked Unit) : Clocked Unit := fun c => do
  let (r, d) ← q (Casting.enter { c with calls := c.calls + 1 } ⟨[], some scope, true⟩)
  return (r, { d with current := c.current, calls := c.calls })

def loopBody (q : Clocked Unit) : Clocked Bool := settle Cast.takeJump q

def loop (round : Clocked Bool) : Nat → Clocked Unit
  | 0 => stopped
  | n + 1 => do if ← round then loop round n

section

variable (eval : Expr → Clocked Value) (exec : Stmt → Clocked Unit)

def declareAll (d : Declaration) : Clocked Unit :=
  d.declarators.forM fun v => do
    match v.init with
    | none => ofCast (Cast.declare d.kind v.name none)
    | some e => ofCast (Cast.declare d.kind v.name (some (← eval e)))

def startFor : ForInit → Clocked Unit
  | .absent => pure ()
  | .declare d => declareAll eval d
  | .expr e => do let _ ← eval e

def testFor : Option Expr → Clocked Bool
  | none => return true
  | some c => do return (← eval c).isTruthy

def stepFor : Option Expr → Clocked Bool
  | none => return true
  | some e => do
    let _ ← eval e
    return true

def assigned (limits : Limits) (op : AssignOp) (target : Ident) (e : Expr) : Clocked Value :=
  match op.binary? with
  | none => eval e
  | some op => do
    let x ← ofCast (Cast.lookup target.name target.span)
    let y ← eval e
    ofCast (Cast.binary limits op x y (target.span.merge e.span))

def execList (body : List Stmt) : Clocked Unit := do
  ofCast (Cast.hoistFunctions body)
  body.forM exec

def callClosure (limits : Limits) (f : Closure) (args : List Value) (span : Span) :
    Clocked Value := do
  ofCast (Cast.checkDepth limits span)
  settle Cast.takeReturn <| inFrame f.scope do
    ofCast (Cast.bindParams f.params args)
    ofCast (Cast.hoistVars f.body)
    execList exec f.body

end

mutual

def exec (count : Nat → Nat) (limits : Limits) : Nat → Stmt → Clocked Unit
  | 0, _ => stopped
  | n + 1, s => do
    ofCast (tick count limits)
    match s with
    | .declare d => declareAll (eval count limits n) d
    | .branch _ c yes no =>
      if (← eval count limits n c).isTruthy then exec count limits n yes
      else match no with
        | some no => exec count limits n no
        | none => pure ()
    | .while_ _ c body =>
      let round : Clocked Bool := do
        if (← eval count limits n c).isTruthy then loopBody (exec count limits n body)
        else return false
      loop round n
    | .doWhile _ body c =>
      let round : Clocked Bool := do
        if ← loopBody (exec count limits n body) then return (← eval count limits n c).isTruthy
        else return false
      loop round n
    | .for_ _ init c update body =>
      let round : Clocked Bool := do
        if ← testFor (eval count limits n) c then
          if ← loopBody (exec count limits n body) then stepFor (eval count limits n) update
          else return false
        else return false
      inBlock do
        startFor (eval count limits n) init
        loop round n
    | .block _ body => inBlock (execList (exec count limits n) body)
    | .return_ _ (some e) => do throw (.return_ (← eval count limits n e))
    | .return_ _ none => throw (.return_ .undefined)
    | .break_ _ => throw .break_
    | .continue_ _ => throw .continue_
    | .expr _ e => do let _ ← eval count limits n e
    | .function .. | .empty _ => pure ()

def eval (count : Nat → Nat) (limits : Limits) : Nat → Expr → Clocked Value
  | 0, _ => stopped
  | n + 1, e => do
    ofCast (tick count limits)
    match e with
    | .number _ x => return .number x
    | .text _ s => return .text s
    | .bool _ b => return .bool b
    | .null _ => return .null
    | .name span name => ofCast (Cast.lookup name span)
    | .call span callee args => do
      let f ← eval count limits n callee
      let vs ← args.mapM (eval count limits n)
      match f with
      | .command k => ofCast (Cast.command k span)
      | .function g => callClosure (exec count limits n) limits g vs span
      | v => ofCast (Cast.fault (.notCallable callee.name? v.typeName) span)
    | .unary _ op e => do
      let v ← eval count limits n e
      match op with
      | .not => return .bool (!v.isTruthy)
      | .neg => return .number (-v.toNumber)
      | .plus => return .number v.toNumber
    | .binary span op a b => do
      let x ← eval count limits n a
      let y ← eval count limits n b
      ofCast (Cast.binary limits op x y span)
    | .logical _ op a b => do
      let x ← eval count limits n a
      match op, x.isTruthy with
      | .and, false | .or, true => return x
      | .and, true | .or, false => eval count limits n b
    | .conditional _ c a b =>
      if (← eval count limits n c).isTruthy then eval count limits n a else eval count limits n b
    | .assign _ op target e => do
      let v ← assigned (eval count limits n) limits op target e
      ofCast (Cast.assign target v)
      return v
    | .update _ op before target => ofCast (Cast.update op before target)
    | .paren _ e => eval count limits n e

end

def run (count : Nat → Nat) (limits : Limits) (body : List Stmt) (n : Nat) : Clocked Unit := do
  ofCast (Cast.hoistVars body)
  settle Cast.takeEnd (execList (exec count limits n) body)

end Clocked

end Spellcraft
