import Spellcraft.Language.Parse
import Spellcraft.Language.Tree

/-!
Parsing expressions. Infix operators stand in six tiers, the tightest first; each chain of one tier
leans to the left. Nesting is bounded: `room` is the number of levels that may still be opened, and
every nested expression, prefix operator, infix operator and call opens one.
-/

namespace Spellcraft

def nestingLimit : Nat := 64

inductive Operator
  | binary : BinaryOp → Operator
  | logical : LogicalOp → Operator
  deriving DecidableEq

namespace Operator

/-- The operators of a tier. Tier 0 binds tightest. -/
def ofSymbol? : Nat → Symbol → Option Operator
  | 0, .star => some (.binary .mul)
  | 0, .slash => some (.binary .div)
  | 0, .percent => some (.binary .rem)
  | 1, .plus => some (.binary .add)
  | 1, .minus => some (.binary .sub)
  | 2, .less => some (.binary .less)
  | 2, .greater => some (.binary .greater)
  | 2, .lessEq => some (.binary .lessEq)
  | 2, .greaterEq => some (.binary .greaterEq)
  | 3, .looseEq => some (.binary .looseEq)
  | 3, .looseNe => some (.binary .looseNe)
  | 3, .strictEq => some (.binary .strictEq)
  | 3, .strictNe => some (.binary .strictNe)
  | 4, .and => some (.logical .and)
  | 5, .or => some (.logical .or)
  | _, _ => none

def ofKind? (tier : Nat) : Kind → Option Operator
  | .symbol s => ofSymbol? tier s
  | _ => none

def build (op : Operator) (left right : Expr) : Expr :=
  match op with
  | .binary op => .binary (left.span.merge right.span) op left right
  | .logical op => .logical (left.span.merge right.span) op left right

end Operator

def AssignOp.ofKind? : Kind → Option AssignOp
  | .symbol .assign => some .set
  | .symbol .plusAssign => some .add
  | .symbol .minusAssign => some .sub
  | .symbol .starAssign => some .mul
  | .symbol .slashAssign => some .div
  | .symbol .percentAssign => some .rem
  | _ => none

def UnaryOp.ofKind? : Kind → Option UnaryOp
  | .symbol .not => some .not
  | .symbol .minus => some .neg
  | .symbol .plus => some .plus
  | _ => none

def UpdateOp.ofKind? : Kind → Option UpdateOp
  | .symbol .plusPlus => some .increment
  | .symbol .minusMinus => some .decrement
  | _ => none

namespace Parse

def tooDeep : Parse α := refuse (.tooDeep nestingLimit)

def target (p : Problem) : Expr → Parse Ident
  | .name span name => return ⟨name, span⟩
  | .paren _ inner => target p inner
  | e => do
    complain p e.span
    failure

def literal? (span : Span) : Kind → Option Expr
  | .number x => some (.number span x)
  | .text s => some (.text span s)
  | .name n => some (.name span n)
  | .keyword .true_ => some (.bool span true)
  | .keyword .false_ => some (.bool span false)
  | .keyword .null => some (.null span)
  | _ => none

def notAnExpression : Kind → Problem
  | .symbol .openBracket => .arrayLiteral
  | .symbol .openBrace => .objectLiteral
  | .keyword .function => .functionExpression
  | k => .missingExpression k.shown

def argumentRounds (item : Parse Expr) : Nat → Parse (List Expr)
  | 0 => return []
  | n + 1 => do
    if ← sees .closeParen then return []
    let a ← item
    if ← eat .comma then return a :: (← argumentRounds item n)
    else return [a]

def arguments (item : Parse Expr) (opened : Span) : Parse (List Expr) := do
  let args ← argumentRounds item ((← tokensLeft) + 1)
  expectClosing .closeParen opened
  return args

mutual

def expression (room : Nat) : Parse Expr :=
  match room with
  | 0 => tooDeep
  | room + 1 => assignment room
termination_by 32 * room

def assignment (room : Nat) : Parse Expr := do
  let left ← conditional room
  match AssignOp.ofKind? (← kind) with
  | none => return left
  | some op =>
    advance
    let name ← target .assignmentTarget left
    let value ← expression room
    return .assign (left.span.merge value.span) op name value
termination_by 32 * room + 31

def conditional (room : Nat) : Parse Expr := do
  let condition ← tier 6 room
  if ← eat .question then
    let yes ← expression room
    let _ ← expect .colon
    let no ← expression room
    return .conditional (condition.span.merge no.span) condition yes no
  else return condition
termination_by 32 * room + 30

def tier (n room : Nat) : Parse Expr :=
  match n with
  | 0 => unary room
  | n + 1 => do chain n room (← tier n room)
termination_by 32 * room + 2 * n + 10

def chain (n room : Nat) (left : Expr) : Parse Expr := do
  match Operator.ofKind? n (← kind) with
  | none => return left
  | some op =>
    match room with
    | 0 => tooDeep
    | room + 1 =>
      advance
      let right ← tier n room
      chain n room (op.build left right)
termination_by 32 * room + 2 * n + 11

def unary (room : Nat) : Parse Expr := do
  let start ← span
  let k ← kind
  match UnaryOp.ofKind? k, UpdateOp.ofKind? k with
  | some op, _ =>
    advance
    let operand ← nested room
    return .unary (start.merge operand.span) op operand
  | none, some op =>
    advance
    let operand ← nested room
    let name ← target .updateTarget operand
    return .update (start.merge operand.span) op true name
  | none, none => suffixed room
termination_by 32 * room + 9

def nested (room : Nat) : Parse Expr :=
  match room with
  | 0 => tooDeep
  | room + 1 => unary room
termination_by 32 * room + 8

def suffixed (room : Nat) : Parse Expr := do
  let e ← calls room (← primary room)
  match UpdateOp.ofKind? (← kind), (← get).onNewLine with
  | some op, false =>
    let stop ← span
    advance
    let name ← target .updateTarget e
    return .update (e.span.merge stop) op false name
  | _, _ => return e
termination_by 32 * room + 7

def calls (room : Nat) (callee : Expr) : Parse Expr := do
  match ← kind with
  | .symbol .openParen =>
    match room with
    | 0 => tooDeep
    | room + 1 =>
      let opened ← span
      advance
      let args ← arguments (expression room) opened
      let stop ← previousSpan
      calls room (.call (callee.span.merge stop) callee args)
  | .symbol .dot =>
    complain .memberAccess (callee.span.merge (← span))
    failure
  | .symbol .openBracket =>
    complain .indexing (callee.span.merge (← span))
    failure
  | _ => return callee
termination_by 32 * room + 6

def primary (room : Nat) : Parse Expr := do
  let start ← span
  let k ← kind
  match literal? start k with
  | some e =>
    advance
    return e
  | none =>
    if k.isSymbol .openParen then
      advance
      let inner ← expression room
      expectClosing .closeParen start
      let stop ← previousSpan
      return .paren (start.merge stop) inner
    else refuse (notAnExpression k)
termination_by 32 * room + 5

end

end Parse

end Spellcraft
