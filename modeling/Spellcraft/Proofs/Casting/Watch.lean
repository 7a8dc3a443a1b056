import Spellcraft.Proofs.Casting.Steps

/-!
What a run goes through. A watch lists the states a computation passes, each with the values that
are in hand there: what an expression has come to, what a value is called with, what is returned.
It is put together along the evaluator and bound to the computation by its type, so that nothing is
evaluated twice in two ways.
-/

namespace Spellcraft

structure Moment where
  state : Casting
  held : List Value

structure Watch (p : Cast α) where
  seen : Casting → List Moment

namespace Watch

def finish (given : α → List Value) : Except Exit α × Casting → Moment
  | (.ok a, c) => ⟨c, given a⟩
  | (.error (.return_ v), c) => ⟨c, [v]⟩
  | (.error _, c) => ⟨c, []⟩

def nothing (_ : α) : List Value := []

def single (v : Value) : List Value := [v]

def around {p : Cast α} (given : α → List Value) (w : Watch p) : Watch p where
  seen c := ⟨c, []⟩ :: w.seen c ++ [finish given (p c)]

theorem finish_mem_around {p : Cast α} (given : α → List Value) (w : Watch p) (c : Casting) :
    finish given (p c) ∈ (around given w).seen c :=
  List.mem_append_right _ (List.mem_singleton_self _)

def step (p : Cast α) : Watch p := around nothing ⟨fun _ => []⟩

def value (p : Cast Value) : Watch p := around single ⟨fun _ => []⟩

def idle (a : α) : Watch (pure a) where
  seen _ := []

def bind {p : Cast α} {f : α → Cast β} (w : Watch p) (v : ∀ a, Watch (f a)) :
    Watch (p >>= f) where
  seen c := w.seen c ++ match p c with
    | (.ok a, d) => (v a).seen d
    | (.error _, _) => []

def ticked {p : Cast α} (limits : Limits) (w : Watch p) :
    Watch (Cast.tick limits >>= fun _ => p) :=
  (step _).bind fun _ => w

def branch {p q : Cast α} (b : Prop) [Decidable b] (w : Watch p) (v : Watch q) :
    Watch (if b then p else q) where
  seen c := if b then w.seen c else v.seen c

def ofEq {p q : Cast α} (_ : p = q) (w : Watch p) : Watch q where
  seen := w.seen

def settle {p : Cast α} (h : Except Exit α → Except Exit β) (w : Watch p) :
    Watch (Cast.settle h p) where
  seen := w.seen

def discard {p : Cast α} (w : Watch p) : Watch (Functor.discard p) :=
  .ofEq (Cast.discard_eq p).symm (w.bind fun _ => idle ())

def returned {p : Cast Unit} (w : Watch p) : Watch (Cast.returned p) :=
  .ofEq (Cast.returned_eq p).symm (w.settle _)

def loopBody {p : Cast Unit} (w : Watch p) : Watch (Cast.loopBody p) :=
  .ofEq (Cast.loopBody_eq p).symm (w.settle _)

def forM {f : α → Cast Unit} (w : ∀ x, Watch (f x)) : (xs : List α) → Watch (xs.forM f)
  | [] => idle ()
  | x :: xs => (w x).bind fun _ => forM w xs

def mapM {f : α → Cast β} (w : ∀ x, Watch (f x)) : (xs : List α) → Watch (xs.mapM f)
  | [] => idle []
  | x :: xs => .ofEq List.mapM_cons.symm
    ((w x).bind fun y => (mapM w xs).bind fun ys => idle (y :: ys))

def within {p : Cast α} (scope : Scope) (w : Watch p) : Watch (Cast.within scope p) :=
  around nothing ⟨fun c => ⟨c.enter scope, []⟩ :: w.seen (c.enter scope)⟩

def inBlock {p : Cast α} (w : Watch p) : Watch (Cast.inBlock p) :=
  (step get).bind fun c => within ⟨[], some c.current, false⟩ w

def inFrame {p : Cast α} (scope : Nat) (w : Watch p) : Watch (Cast.inFrame scope p) :=
  around nothing ⟨fun c => (w.within ⟨[], some scope, true⟩).seen { c with calls := c.calls + 1 }⟩

-- Each watch follows the function of its name. Which step stands where is left to its type.
def declareAll {eval : Expr → Cast Value} (he : ∀ e, Watch (eval e)) (d : Declaration) :
    Watch (Cast.declareAll eval d) :=
  forM (fun v => match v.init with
    | none => step _
    | some e => (he e).bind fun _ => step _) d.declarators

def update (op : UpdateOp) (before : Bool) (target : Ident) :
    Watch (Cast.update op before target) :=
  (value _).bind fun _ => (step _).bind fun _ => idle _

def hoistVars (body : List Stmt) : Watch (Cast.hoistVars body) := forM (fun _ => step _) _

def hoistFunctions : (body : List Stmt) → Watch (Cast.hoistFunctions body)
  | [] => idle ()
  | .function .. :: rest => (step _).bind fun _ => hoistFunctions rest
  | .declare _ :: rest | .branch .. :: rest | .while_ .. :: rest | .doWhile .. :: rest
  | .for_ .. :: rest | .block .. :: rest | .return_ .. :: rest | .break_ _ :: rest
  | .continue_ _ :: rest | .expr .. :: rest | .empty _ :: rest => hoistFunctions rest

def bindParams : (params : List Ident) → (args : List Value) → Watch (Cast.bindParams params args)
  | [], _ => idle ()
  | _ :: ps, args => (step _).bind fun _ => bindParams ps args.tail

def repeatWhile (limits : Limits) {round : Cast Bool} (w : Watch round) :
    (n : Nat) → Watch (Cast.repeatWhile limits round n)
  | 0 => w.bind fun go => branch (go = true) (step _) (idle _)
  | n + 1 => w.bind fun go => branch (go = true) (repeatWhile limits w n) (idle _)

section

variable {eval : Expr → Cast Value} {exec : Stmt → Cast Unit}
variable (he : ∀ e, Watch (eval e)) (hx : ∀ s, Watch (exec s))

def whileRound (c : Expr) (body : Stmt) : Watch (Cast.whileRound eval exec c body) :=
  (he c).bind fun _ => branch _ (loopBody (hx body)) (idle _)

def doRound (c : Expr) (body : Stmt) : Watch (Cast.doRound eval exec c body) :=
  (loopBody (hx body)).bind fun _ => branch _ ((he c).bind fun _ => idle _) (idle _)

def startFor : (init : ForInit) → Watch (Cast.startFor eval init)
  | .absent => idle _
  | .declare d => declareAll he d
  | .expr e => discard (he e)

def testFor : (c : Option Expr) → Watch (Cast.testFor eval c)
  | none => idle _
  | some c => (he c).bind fun _ => idle _

def stepFor : (e : Option Expr) → Watch (Cast.stepFor eval e)
  | none => idle _
  | some e => (discard (he e)).bind fun _ => idle _

def forRound (c update : Option Expr) (body : Stmt) :
    Watch (Cast.forRound eval exec c update body) :=
  (testFor he c).bind fun _ => branch _
    ((loopBody (hx body)).bind fun _ => branch _ (stepFor he update) (idle _)) (idle _)

def assigned (limits : Limits) (op : AssignOp) (target : Ident) (e : Expr) :
    Watch (Cast.assigned limits eval op target e) :=
  match op with
  | .set => he e
  | .add | .sub | .mul | .div | .rem =>
    (value _).bind fun _ => (he e).bind fun _ => value _

def execList (body : List Stmt) : Watch (Cast.execList exec body) :=
  (hoistFunctions body).bind fun _ => forM hx body

def callClosure (limits : Limits) (f : Closure) (args : List Value) (span : Span) :
    Watch (Cast.callClosure limits exec f args span) :=
  (step _).bind fun _ => returned <| inFrame f.scope <|
    (bindParams f.params args).bind fun _ => (hoistVars f.body).bind fun _ => execList hx f.body

def call (limits : Limits) (f : Value) (args : List Value) (callee : Option String) (span : Span) :
    Watch (Cast.call limits exec f args callee span) where
  seen c := ⟨c, f :: args⟩ :: match f with
    | .command k => (value (Cast.command k span)).seen c
    | .function g => (callClosure hx limits g args span).seen c
    | v => (value (Cast.fault (.notCallable callee v.typeName) span)).seen c

end

mutual

def exec (limits : Limits) : (n : Nat) → (s : Stmt) → Watch (Cast.exec limits n s)
  | 0, _ => step _
  | n + 1, s => around nothing <| match s with
    | .declare d => ticked limits <| declareAll (eval limits n) d
    | .branch _ c yes no => ticked limits <| (eval limits n c).bind fun _ =>
      branch _ (exec limits n yes) <| match no with
        | some no => exec limits n no
        | none => idle _
    | .while_ _ c body => ticked limits <|
      repeatWhile limits (whileRound (eval limits n) (exec limits n) c body) n
    | .doWhile _ body c => ticked limits <|
      repeatWhile limits (doRound (eval limits n) (exec limits n) c body) n
    | .for_ _ init c update body => ticked limits <| inBlock <|
      (startFor (eval limits n) init).bind fun _ =>
        repeatWhile limits (forRound (eval limits n) (exec limits n) c update body) n
    | .block _ body => ticked limits <| inBlock (execList (exec limits n) body)
    | .return_ _ (some e) => ticked limits <| (eval limits n e).bind fun _ => step _
    | .return_ _ none => ticked limits <| step _
    | .break_ _ => ticked limits <| step _
    | .continue_ _ => ticked limits <| step _
    | .expr _ e => ticked limits <| discard (eval limits n e)
    | .function .. => ticked limits <| idle _
    | .empty _ => ticked limits <| idle _

def eval (limits : Limits) : (n : Nat) → (e : Expr) → Watch (Cast.eval limits n e)
  | 0, _ => step _
  | n + 1, e => around single <| match e with
    | .number .. => ticked limits <| idle _
    | .text .. => ticked limits <| idle _
    | .bool .. => ticked limits <| idle _
    | .null _ => ticked limits <| idle _
    | .name .. => ticked limits <| value _
    | .call span callee args => ticked limits <| (eval limits n callee).bind fun f =>
      (mapM (eval limits n) args).bind fun vs =>
        call (exec limits n) limits f vs callee.name? span
    | .unary _ .not e => ticked limits <| (eval limits n e).bind fun _ => idle _
    | .unary _ .neg e => ticked limits <| (eval limits n e).bind fun _ => idle _
    | .unary _ .plus e => ticked limits <| (eval limits n e).bind fun _ => idle _
    | .binary _ _ a b => ticked limits <| (eval limits n a).bind fun _ =>
      (eval limits n b).bind fun _ => value _
    | .logical _ op a b => ticked limits <| (eval limits n a).bind fun x =>
      match op, x.isTruthy with
      | .and, false | .or, true => idle _
      | .and, true | .or, false => eval limits n b
    | .conditional _ c a b => ticked limits <| (eval limits n c).bind fun _ =>
      branch _ (eval limits n a) (eval limits n b)
    | .assign _ op target e => ticked limits <| (assigned (eval limits n) limits op target e).bind
      fun _ => (step _).bind fun _ => idle _
    | .update _ op before target => ticked limits <| update op before target
    | .paren _ e => ticked limits <| eval limits n e

end

def runBody {exec : Stmt → Cast Unit} (hx : ∀ s, Watch (exec s)) (body : List Stmt) :
    Watch (Cast.runBody exec body) :=
  around nothing <| (hoistVars body).bind fun _ => discard (returned (execList hx body))

def run (limits : Limits) (body : List Stmt) : Watch (Cast.run limits body) :=
  runBody (exec limits limits.gas) body

end Watch

end Spellcraft
