import Spellcraft.Casting.Scope
import Spellcraft.Casting.Trail
import Spellcraft.Language.Names

/-!
The state of a spell that is being cast, and the steps that evaluation is made of. A step that fails
leaves the state as it was when it failed; `return`, `break` and `continue` are failures too, which
the statement they belong to takes back.
-/

namespace Spellcraft

structure Limits where
  actions : Nat
  gas : Nat
  calls : Nat
  text : Nat
  deriving DecidableEq

def Limits.standard : Limits := ⟨1000, 1000000, 100, 65536⟩

structure Casting where
  store : Store
  current : Nat
  trail : Trail
  gas : Nat
  calls : Nat
  closures : Nat

inductive Exit
  | trap : Trap → Exit
  | unknown (name : String) (span : Span) : Exit
  | return_ : Value → Exit
  | break_ : Exit
  | continue_ : Exit

abbrev Cast := ExceptT Exit (StateM Casting)

def Casting.start (maze : Maze) (position : Position) (grant : Grant) (limits : Limits) : Casting :=
  { store := .initial grant
    current := Store.global
    trail := .start maze position limits.actions
    gas := 0
    calls := 0
    closures := 0 }

def Casting.enter (c : Casting) (scope : Scope) : Casting :=
  let inner := c.store.size
  { c with store := c.store.push scope, current := inner }

namespace Cast

def fault (f : TypeFault) (span : Span) : Cast α := throw (.trap (.typeFault f span))

def tick (limits : Limits) : Cast Unit := do
  modify fun c => { c with gas := c.gas + 1 }
  if limits.gas < (← get).gas then throw (.trap (.outOfGas limits.gas))

def overrun (limits : Limits) : Cast α := do
  tick limits
  throw (.trap (.outOfGas limits.gas))

def lookup (name : String) (span : Span) : Cast Value := do
  let c ← get
  match c.store.get? name c.current with
  | some b => return b.value
  | none => throw (.unknown name span)

def assign (target : Ident) (v : Value) : Cast Unit := do
  let c ← get
  match c.store.find? target.name c.current, c.store.get? target.name c.current with
  | some i, some b =>
    if b.constant then fault (.constant target.name) target.span
    else modify fun c => { c with store := c.store.bind i target.name ⟨v, false⟩ }
  | _, _ => throw (.unknown target.name target.span)

/-- Settles in the nearest hosting scope. A name that is there keeps its value unless one is given. -/
def declareVar (name : String) (v : Option Value) : Cast Unit :=
  modify fun c =>
    let i := c.store.host c.current
    if v.isNone && c.store.binds i name then c
    else { c with store := c.store.bind i name ⟨v.getD .undefined, false⟩ }

def declareLocal (name : Ident) (v : Option Value) (constant : Bool) : Cast Unit := do
  let c ← get
  if c.store.binds c.current name.name then fault (.redeclared name.name) name.span
  else modify fun c =>
    { c with store := c.store.bind c.current name.name ⟨v.getD .undefined, constant⟩ }

def declare (kind : DeclKind) (name : Ident) (v : Option Value) : Cast Unit :=
  match kind with
  | .var => declareVar name.name v
  | .let_ => declareLocal name v false
  | .const => declareLocal name v true

def declareFunction (name : Ident) (params : List Ident) (body : List Stmt) : Cast Unit :=
  modify fun c =>
    let f : Closure := ⟨c.closures, name.name, params, body, c.current⟩
    { c with
      store := c.store.bind c.current name.name ⟨.function f, false⟩
      closures := c.closures + 1 }

def hoistVars (body : List Stmt) : Cast Unit :=
  (bodyVars body).forM fun name => declareVar name none

/-- Makes the functions that stand in a list of statements themselves. -/
def hoistFunctions : List Stmt → Cast Unit
  | [] => pure ()
  | .function _ name params _ body :: rest => do
    declareFunction name params body
    hoistFunctions rest
  | _ :: rest => hoistFunctions rest

def bindParams : List Ident → List Value → Cast Unit
  | [], _ => pure ()
  | p :: ps, args => do
    declareVar p.name (some (args.head?.getD .undefined))
    bindParams ps args.tail

/-- Runs `p` in a new scope; however it ends, the old scope is current again. -/
def within (scope : Scope) (p : Cast α) : Cast α := fun c =>
  let here := c.current
  let (r, d) := p (c.enter scope)
  (r, { d with current := here })

def inBlock (p : Cast α) : Cast α := do
  let here := (← get).current
  within ⟨[], some here, false⟩ p

def inFrame (scope : Nat) (p : Cast α) : Cast α := fun c =>
  let calls := c.calls
  let (r, d) := within ⟨[], some scope, true⟩ p { c with calls := calls + 1 }
  (r, { d with calls })

def returned (p : Cast Unit) : Cast Value := fun c =>
  match p c with
  | (.ok _, d) => (.ok .undefined, d)
  | (.error (.return_ v), d) => (.ok v, d)
  | (.error e, d) => (.error e, d)

def loopBody (p : Cast Unit) : Cast Bool := fun c =>
  match p c with
  | (.ok _, d) | (.error .continue_, d) => (.ok true, d)
  | (.error .break_, d) => (.ok false, d)
  | (.error e, d) => (.error e, d)

/-- Rounds while they say so. A round uses gas, so that the gas left bounds their number. -/
def repeatWhile (limits : Limits) (round : Cast Bool) : Nat → Cast Unit
  | 0 => do if ← round then overrun limits
  | n + 1 => do if ← round then repeatWhile limits round n

def binary (limits : Limits) (op : BinaryOp) (a b : Value) (span : Span) : Cast Value :=
  match Value.apply op a b with
  | .text s =>
    if limits.text < s.utf8ByteSize then throw (.trap (.textTooLong limits.text span))
    else return .text s
  | v => return v

def follow (step : Trail → Except Trap Trail) : Cast Unit := do
  let c ← get
  match step c.trail with
  | .ok t => set { c with trail := t }
  | .error t => throw (.trap t)

/-- Commands ignore their arguments. -/
def command (k : Command) (span : Span) : Cast Value := do
  match k with
  | .look d => return .bool ((← get).trail.canMove d)
  | .move d =>
    follow (·.move d)
    return .undefined
  | .lightTorch =>
    follow (·.lightTorch span)
    return .undefined

def execList (exec : Stmt → Cast Unit) (body : List Stmt) : Cast Unit := do
  hoistFunctions body
  body.forM exec

def checkDepth (limits : Limits) (span : Span) : Cast Unit := do
  if limits.calls ≤ (← get).calls then throw (.trap (.tooManyCalls limits.calls span))

def callClosure (limits : Limits) (exec : Stmt → Cast Unit) (f : Closure) (args : List Value)
    (span : Span) : Cast Value := do
  checkDepth limits span
  returned <| inFrame f.scope do
    bindParams f.params args
    hoistVars f.body
    execList exec f.body

def call (limits : Limits) (exec : Stmt → Cast Unit) (f : Value) (args : List Value)
    (callee : Option String) (span : Span) : Cast Value :=
  match f with
  | .command k => command k span
  | .function g => callClosure limits exec g args span
  | v => fault (.notCallable callee v.typeName) span

end Cast

end Spellcraft
