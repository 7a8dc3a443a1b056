import Spellcraft.Proofs.Casting.Steps

/-!
Visits. A run comes to pieces of the spell: statements, lists of statements, expressions,
declarations and calls of functions. Each visit tells in which state the run came there and how many
functions were being executed by then. Like a watch, the list of visits is put together along the
evaluator and bound to the computation by its type.
-/

namespace Spellcraft

/-- A piece of a spell, with the gas that bounds what is evaluated in it. -/
inductive Piece
  | stmt (n : Nat) (s : Stmt) : Piece
  | list (n : Nat) (body : List Stmt) : Piece
  | expr (n : Nat) (e : Expr) : Piece
  | declare (kind : DeclKind) (name : Ident) : Piece
  | call (n : Nat) (f : Closure) (args : List Value) (span : Span) : Piece

structure Visit where
  frames : Nat
  piece : Piece
  state : Casting

namespace Visit

def deeper (v : Visit) : Visit := { v with frames := v.frames + 1 }

def Calls (v : Visit) (span : Span) : Prop := ∃ n f args, v.piece = .call n f args span

end Visit

structure Visits (p : Cast α) where
  list : Casting → List Visit

namespace Visits

def quiet (p : Cast α) : Visits p where
  list _ := []

def note {p : Cast α} (piece : Piece) (w : Visits p) : Visits p where
  list c := ⟨0, piece, c⟩ :: w.list c

def bind {p : Cast α} {f : α → Cast β} (w : Visits p) (v : ∀ a, Visits (f a)) :
    Visits (p >>= f) where
  list c := w.list c ++ match p c with
    | (.ok a, d) => (v a).list d
    | (.error _, _) => []

def branch {p q : Cast α} (b : Prop) [Decidable b] (w : Visits p) (v : Visits q) :
    Visits (if b then p else q) where
  list c := if b then w.list c else v.list c

def ofEq {p q : Cast α} (_ : q = p) (w : Visits p) : Visits q where
  list := w.list

def settle {p : Cast α} (h : Except Exit α → Except Exit β) (w : Visits p) :
    Visits (Cast.settle h p) where
  list := w.list

def discard {p : Cast α} (w : Visits p) : Visits (Functor.discard p) :=
  .ofEq (Cast.discard_eq p) (w.bind fun _ => quiet _)

def returned {p : Cast Unit} (w : Visits p) : Visits (Cast.returned p) :=
  .ofEq (Cast.returned_eq p) (w.settle _)

def loopBody {p : Cast Unit} (w : Visits p) : Visits (Cast.loopBody p) :=
  .ofEq (Cast.loopBody_eq p) (w.settle _)

def forM {f : α → Cast Unit} (w : ∀ x, Visits (f x)) : (xs : List α) → Visits (xs.forM f)
  | [] => quiet _
  | x :: xs => (w x).bind fun _ => forM w xs

def mapM {f : α → Cast β} (w : ∀ x, Visits (f x)) : (xs : List α) → Visits (xs.mapM f)
  | [] => quiet _
  | x :: xs => .ofEq List.mapM_cons
    ((w x).bind fun _ => (mapM w xs).bind fun _ => quiet _)

def inBlock {p : Cast α} (w : Visits p) : Visits (Cast.inBlock p) where
  list c := w.list (c.enter ⟨[], some c.current, false⟩)

def inFrame {p : Cast α} (scope : Nat) (w : Visits p) : Visits (Cast.inFrame scope p) where
  list c := (w.list (Casting.enter { c with calls := c.calls + 1 } ⟨[], some scope, true⟩)).map
    Visit.deeper

-- Each list of visits follows the function of its name.
def ticked {p : Cast α} (limits : Limits) (w : Visits p) :
    Visits (Cast.tick limits >>= fun _ => p) :=
  (quiet _).bind fun _ => w

def overrun (limits : Limits) : Visits (Cast.overrun limits : Cast α) := ticked limits (quiet _)

def declare (kind : DeclKind) (name : Ident) (v : Option Value) :
    Visits (Cast.declare kind name v) := note (.declare kind name) (quiet _)

def declareAll {eval : Expr → Cast Value} (we : ∀ e, Visits (eval e)) (d : Declaration) :
    Visits (Cast.declareAll eval d) :=
  forM (fun v => match v.init with
    | none => declare d.kind v.name none
    | some e => (we e).bind fun x => declare d.kind v.name (some x)) d.declarators

def update (op : UpdateOp) (before : Bool) (target : Ident) :
    Visits (Cast.update op before target) :=
  (quiet _).bind fun _ => (quiet _).bind fun _ => quiet _

def repeatWhile (limits : Limits) {round : Cast Bool} (w : Visits round) :
    (n : Nat) → Visits (Cast.repeatWhile limits round n)
  | 0 => w.bind fun go => branch (go = true) (overrun limits) (quiet _)
  | n + 1 => w.bind fun go => branch (go = true) (repeatWhile limits w n) (quiet _)

section

variable {eval : Expr → Cast Value} {exec : Stmt → Cast Unit}
variable (we : ∀ e, Visits (eval e)) (wx : ∀ s, Visits (exec s))

def whileRound (c : Expr) (body : Stmt) : Visits (Cast.whileRound eval exec c body) :=
  (we c).bind fun _ => branch _ (loopBody (wx body)) (quiet _)

def doRound (c : Expr) (body : Stmt) : Visits (Cast.doRound eval exec c body) :=
  (loopBody (wx body)).bind fun _ => branch _ ((we c).bind fun _ => quiet _) (quiet _)

def startFor : (init : ForInit) → Visits (Cast.startFor eval init)
  | .absent => quiet _
  | .declare d => declareAll we d
  | .expr e => discard (we e)

def testFor : (c : Option Expr) → Visits (Cast.testFor eval c)
  | none => quiet _
  | some c => (we c).bind fun _ => quiet _

def stepFor : (e : Option Expr) → Visits (Cast.stepFor eval e)
  | none => quiet _
  | some e => (discard (we e)).bind fun _ => quiet _

def forRound (c update : Option Expr) (body : Stmt) :
    Visits (Cast.forRound eval exec c update body) :=
  (testFor we c).bind fun _ => branch _
    ((loopBody (wx body)).bind fun _ => branch _ (stepFor we update) (quiet _)) (quiet _)

def assigned (limits : Limits) (op : AssignOp) (target : Ident) (e : Expr) :
    Visits (Cast.assigned limits eval op target e) :=
  match op with
  | .set => we e
  | .add | .sub | .mul | .div | .rem =>
    (quiet _).bind fun _ => (we e).bind fun _ => quiet _

def execList (body : List Stmt) : Visits (Cast.execList exec body) :=
  (quiet _).bind fun _ => forM wx body

def listed (n : Nat) (body : List Stmt) : Visits (Cast.execList exec body) :=
  note (.list n body) (execList wx body)

def callClosure (limits : Limits) (n : Nat) (f : Closure) (args : List Value) (span : Span) :
    Visits (Cast.callClosure limits exec f args span) :=
  note (.call n f args span) <| (quiet _).bind fun _ => returned <| inFrame f.scope <|
    (quiet _).bind fun _ => (quiet _).bind fun _ => listed wx n f.body

def call (limits : Limits) (n : Nat) (f : Value) (args : List Value) (callee : Option String)
    (span : Span) : Visits (Cast.call limits exec f args callee span) :=
  match f with
  | .function g => callClosure wx limits n g args span
  | .number _ | .text _ | .bool _ | .null | .undefined | .command _ => quiet _

end

mutual

def exec (limits : Limits) : (n : Nat) → (s : Stmt) → Visits (Cast.exec limits n s)
  | 0, s => note (.stmt 0 s) <| overrun _
  | n + 1, s => note (.stmt (n + 1) s) <| match s with
    | .declare d => ticked limits <| declareAll (eval limits n) d
    | .branch _ c yes no => ticked limits <| (eval limits n c).bind fun _ =>
      branch _ (exec limits n yes) <| match no with
        | some no => exec limits n no
        | none => quiet _
    | .while_ _ c body => ticked limits <|
      repeatWhile limits (whileRound (eval limits n) (exec limits n) c body) n
    | .doWhile _ body c => ticked limits <|
      repeatWhile limits (doRound (eval limits n) (exec limits n) c body) n
    | .for_ _ init c update body => ticked limits <| inBlock <|
      (startFor (eval limits n) init).bind fun _ =>
        repeatWhile limits (forRound (eval limits n) (exec limits n) c update body) n
    | .block _ body => ticked limits <| inBlock (listed (exec limits n) n body)
    | .return_ _ (some e) => ticked limits <| (eval limits n e).bind fun _ => quiet _
    | .return_ _ none => ticked limits <| quiet _
    | .break_ _ => ticked limits <| quiet _
    | .continue_ _ => ticked limits <| quiet _
    | .expr _ e => ticked limits <| discard (eval limits n e)
    | .function .. => ticked limits <| quiet _
    | .empty _ => ticked limits <| quiet _

def eval (limits : Limits) : (n : Nat) → (e : Expr) → Visits (Cast.eval limits n e)
  | 0, e => note (.expr 0 e) <| overrun _
  | n + 1, e => note (.expr (n + 1) e) <| match e with
    | .number .. => ticked limits <| quiet _
    | .text .. => ticked limits <| quiet _
    | .bool .. => ticked limits <| quiet _
    | .null _ => ticked limits <| quiet _
    | .name .. => ticked limits <| quiet _
    | .call span callee args => ticked limits <| (eval limits n callee).bind fun f =>
      (mapM (eval limits n) args).bind fun vs =>
        call (exec limits n) limits n f vs callee.name? span
    | .unary _ .not e => ticked limits <| (eval limits n e).bind fun _ => quiet _
    | .unary _ .neg e => ticked limits <| (eval limits n e).bind fun _ => quiet _
    | .unary _ .plus e => ticked limits <| (eval limits n e).bind fun _ => quiet _
    | .binary _ _ a b => ticked limits <| (eval limits n a).bind fun _ =>
      (eval limits n b).bind fun _ => quiet _
    | .logical _ op a b => ticked limits <| (eval limits n a).bind fun x =>
      match op, x.isTruthy with
      | .and, false | .or, true => quiet _
      | .and, true | .or, false => eval limits n b
    | .conditional _ c a b => ticked limits <| (eval limits n c).bind fun _ =>
      branch _ (eval limits n a) (eval limits n b)
    | .assign _ op target e => ticked limits <| (assigned (eval limits n) limits op target e).bind
      fun _ => (quiet _).bind fun _ => quiet _
    | .update _ op before target => ticked limits <| update op before target
    | .paren _ e => ticked limits <| eval limits n e

end

def run (limits : Limits) (body : List Stmt) : Visits (Cast.run limits body) :=
  (quiet _).bind fun _ => discard (returned (listed (exec limits limits.gas) limits.gas body))

end Visits

end Spellcraft
