import Spellcraft.Casting.State

/-!
Evaluation. Every statement and every expression uses a unit of gas before it does anything else, so
that the gas left bounds how deep they can stand in each other: it is the argument that `exec` and
`eval` recurse on.
-/

namespace Spellcraft

def Expr.name? : Expr → Option String
  | .name _ n => some n
  | _ => none

namespace Cast

def declareAll (eval : Expr → Cast Value) (d : Declaration) : Cast Unit :=
  d.declarators.forM fun v => do
    match v.init with
    | none => declare d.kind v.name none
    | some e => declare d.kind v.name (some (← eval e))

def update (op : UpdateOp) (before : Bool) (target : Ident) : Cast Value := do
  let old := (← lookup target.name target.span).toNumber
  let new := match op with
    | .increment => old + 1.0
    | .decrement => old - 1.0
  assign target (.number new)
  return .number (if before then new else old)

-- A round says whether another one follows.
def whileRound (eval : Expr → Cast Value) (exec : Stmt → Cast Unit) (c : Expr) (body : Stmt) :
    Cast Bool := do
  if (← eval c).isTruthy then loopBody (exec body) else return false

def doRound (eval : Expr → Cast Value) (exec : Stmt → Cast Unit) (c : Expr) (body : Stmt) :
    Cast Bool := do
  if ← loopBody (exec body) then return (← eval c).isTruthy else return false

def startFor (eval : Expr → Cast Value) : ForInit → Cast Unit
  | .absent => pure ()
  | .declare d => declareAll eval d
  | .expr e => discard (eval e)

def testFor (eval : Expr → Cast Value) : Option Expr → Cast Bool
  | none => return true
  | some c => do return (← eval c).isTruthy

def stepFor (eval : Expr → Cast Value) : Option Expr → Cast Bool
  | none => return true
  | some e => do
    discard (eval e)
    return true

def forRound (eval : Expr → Cast Value) (exec : Stmt → Cast Unit) (c update : Option Expr)
    (body : Stmt) : Cast Bool := do
  if ← testFor eval c then
    if ← loopBody (exec body) then stepFor eval update else return false
  else return false

def assigned (limits : Limits) (eval : Expr → Cast Value) (op : AssignOp) (target : Ident)
    (e : Expr) : Cast Value :=
  match op.binary? with
  | none => eval e
  | some op => do
    let x ← lookup target.name target.span
    let y ← eval e
    binary limits op x y (target.span.merge e.span)

mutual

def exec (limits : Limits) : Nat → Stmt → Cast Unit
  | 0, _ => overrun limits
  | n + 1, s => do
    tick limits
    match s with
    | .declare d => declareAll (eval limits n) d
    | .branch _ c yes no =>
      if (← eval limits n c).isTruthy then exec limits n yes
      else match no with
        | some no => exec limits n no
        | none => pure ()
    | .while_ _ c body => repeatWhile limits (whileRound (eval limits n) (exec limits n) c body) n
    | .doWhile _ body c => repeatWhile limits (doRound (eval limits n) (exec limits n) c body) n
    | .for_ _ init c update body => inBlock do
      startFor (eval limits n) init
      repeatWhile limits (forRound (eval limits n) (exec limits n) c update body) n
    | .block _ body => inBlock (execList (exec limits n) body)
    | .return_ _ (some e) => do throw (.return_ (← eval limits n e))
    | .return_ _ none => throw (.return_ .undefined)
    | .break_ _ => throw .break_
    | .continue_ _ => throw .continue_
    | .expr _ e => discard (eval limits n e)
    | .function .. | .empty _ => pure ()

def eval (limits : Limits) : Nat → Expr → Cast Value
  | 0, _ => overrun limits
  | n + 1, e => do
    tick limits
    match e with
    | .number _ x => return .number x
    | .text _ s => return .text s
    | .bool _ b => return .bool b
    | .null _ => return .null
    | .name span name => lookup name span
    | .call span callee args =>
      let f ← eval limits n callee
      let vs ← args.mapM (eval limits n)
      call limits (exec limits n) f vs callee.name? span
    | .unary _ op e =>
      let v ← eval limits n e
      match op with
      | .not => return .bool (!v.isTruthy)
      | .neg => return .number (-v.toNumber)
      | .plus => return .number v.toNumber
    | .binary span op a b =>
      let x ← eval limits n a
      let y ← eval limits n b
      binary limits op x y span
    | .logical _ op a b =>
      let x ← eval limits n a
      match op, x.isTruthy with
      | .and, false | .or, true => return x
      | .and, true | .or, false => eval limits n b
    | .conditional _ c a b =>
      if (← eval limits n c).isTruthy then eval limits n a else eval limits n b
    | .assign _ op target e =>
      let v ← assigned limits (eval limits n) op target e
      assign target v
      return v
    | .update _ op before target => update op before target
    | .paren _ e => eval limits n e

end

/-- Runs a whole body; a `return` outside of every function ends it. -/
def runBody (exec : Stmt → Cast Unit) (body : List Stmt) : Cast Unit := do
  hoistVars body
  discard (returned (execList exec body))

def run (limits : Limits) (body : List Stmt) : Cast Unit := runBody (exec limits limits.gas) body

def evaluate (limits : Limits) (e : Expr) : Cast Value := do
  eval limits (limits.gas - (← get).gas) e

end Cast

end Spellcraft
