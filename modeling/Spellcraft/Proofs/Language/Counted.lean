import Spellcraft.Proofs.Language.Cursor

namespace Spellcraft

namespace Counted

def target (p : Problem) : Expr → Counted Ident
  | .name span name => return ⟨name, span⟩
  | .paren _ inner => target p inner
  | e => do
    complain p e.span
    failure

def linked (levels : Nat) (q : Counted α) (f : α → Counted (Option β × Nat)) :
    Counted (Option β × Nat) := do
  match ← result q with
  | some a => f a
  | none => return (none, levels)

def chainRounds (operand : Counted Expr) (operator : Kind → Option Operator) :
    Nat → Expr → Nat → Counted (Option Expr × Nat)
  | 0, _, _ => stuck
  | n + 1, left, levels => do
    match operator (← kind) with
    | none => return (some left, levels)
    | some op =>
      if ← enter then
        let _ ← advance
        linked (levels + 1) operand fun right =>
          chainRounds operand operator n (op.build left right) (levels + 1)
      else return (none, levels)

def leftAssoc (clock : Nat) (operand : Counted Expr) (operator : Kind → Option Operator) :
    Counted Expr := do
  let left ← operand
  let (r, levels) ← chainRounds operand operator clock left 0
  leaveAll levels
  give r

def argumentRounds (item : Counted Expr) : Nat → Counted (List Expr)
  | 0 => stuck
  | n + 1 => do
    if ← sees .closeParen then return []
    let a ← item
    if ← eat .comma then return a :: (← argumentRounds item n) else return [a]

def arguments (clock : Nat) (item : Counted Expr) (opened : Span) : Counted (List Expr) := do
  let args ← argumentRounds item clock
  expectClosing .closeParen opened
  return args

section

variable (clock : Nat) (expression : Counted Expr)

def primary : Counted Expr := do
  let start ← span
  let k ← kind
  match Parse.literal? start k with
  | some e =>
    let _ ← advance
    return e
  | none =>
    if k.isSymbol .openParen then
      let _ ← advance
      let inner ← expression
      expectClosing .closeParen start
      let stop ← previousSpan
      return .paren (start.merge stop) inner
    else refuse (Parse.notAnExpression k)

def callRounds : Nat → Expr → Nat → Counted (Option Expr × Nat)
  | 0, _, _ => stuck
  | n + 1, callee, levels => do
    match ← kind with
    | .symbol .openParen =>
      if ← enter then
        let opened ← advance
        linked (levels + 1) (arguments clock expression opened.span) fun args => do
          let stop ← previousSpan
          callRounds n (.call (callee.span.merge stop) callee args) (levels + 1)
      else return (none, levels)
    | .symbol .dot =>
      complain .memberAccess (callee.span.merge (← span))
      return (none, levels)
    | .symbol .openBracket =>
      complain .indexing (callee.span.merge (← span))
      return (none, levels)
    | _ => return (some callee, levels)

def calls : Counted Expr := do
  let callee ← primary expression
  let (r, levels) ← callRounds clock expression clock callee 0
  leaveAll levels
  give r

def suffixed : Counted Expr := do
  let e ← calls clock expression
  match UpdateOp.ofKind? (← kind), (← onNewLine) with
  | some op, false =>
    let stop ← advance
    let name ← target .updateTarget e
    return .update (e.span.merge stop.span) op false name
  | _, _ => return e

def unary : Nat → Counted Expr
  | 0 => stuck
  | n + 1 => do
    let start ← span
    let k ← kind
    match UnaryOp.ofKind? k, UpdateOp.ofKind? k with
    | some op, _ =>
      let _ ← advance
      let operand ← levelled (unary n)
      return .unary (start.merge operand.span) op operand
    | none, some op =>
      let _ ← advance
      let operand ← levelled (unary n)
      let name ← target .updateTarget operand
      return .update (start.merge operand.span) op true name
    | none, none => suffixed clock expression

def tier : Nat → Counted Expr
  | 0 => unary clock expression clock
  | n + 1 => leftAssoc clock (tier n) (Operator.ofKind? n)

def conditional : Counted Expr := do
  let condition ← tier clock expression 6
  if ← eat .question then
    let yes ← expression
    let _ ← expect .colon
    let no ← expression
    return .conditional (condition.span.merge no.span) condition yes no
  else return condition

def assignment : Counted Expr := do
  let left ← conditional clock expression
  match AssignOp.ofKind? (← kind) with
  | none => return left
  | some op =>
    let _ ← advance
    let name ← target .assignmentTarget left
    let value ← expression
    return .assign (left.span.merge value.span) op name value

end

def expression : Nat → Counted Expr
  | 0 => stuck
  | n + 1 => levelled (assignment n (expression n))

def name : Counted Ident := do
  match ← kind with
  | .name n => return ⟨n, (← advance).span⟩
  | .keyword k => refuse (.reservedName k.text)
  | k => refuse (.missingName k.shown)

def looksForEach : Counted Bool := do
  let n := if (DeclKind.ofKind? (← kind)).isSome then 1 else 0
  if (← kindAt n).isName then
    match ← kindAt (n + 1) with
    | .keyword k => return k = .in_
    | .name w => return w = "of"
    | _ => return false
  else return false

section

variable (clock : Nat)

def declarator (kind : DeclKind) : Counted Declarator := do
  let n ← name
  if ← eat .assign then return ⟨n, some (← expression clock)⟩
  if kind = .const then complain (.missingInitializer n.name) n.span
  return ⟨n, none⟩

def declaration (kind : DeclKind) : Counted Declaration := do
  let start ← span
  let _ ← advance
  let ds ← commaRounds (declarator clock kind) clock
  return ⟨kind, ds, start.merge (← previousSpan)⟩

def parenCondition : Counted Expr := do
  let opened ← expect .openParen
  let condition ← expression clock
  expectClosing .closeParen opened
  return condition

def forInit : Counted ForInit := do
  if ← eat .semicolon then return .absent
  let init ← match DeclKind.ofKind? (← kind) with
    | some k => ForInit.declare <$> declaration clock k
    | none => ForInit.expr <$> expression clock
  let _ ← expect .semicolon
  return init

def expressionUnless (s : Symbol) : Counted (Option Expr) := do
  if ← sees s then return none else some <$> expression clock

def returnStatement : Counted Stmt := do
  let start ← advance
  let value ←
    if (← sees .semicolon) || (← sees .closeBrace) || (← atEnd) || (← onNewLine) then pure none
    else some <$> expression clock
  let stop ← previousSpan
  endStatement
  return .return_ (start.span.merge stop) value

def jumpStatement (word : Keyword) (build : Span → Stmt) : Counted Stmt := do
  let here ← advance
  if (← get).loops = 0 then complain (.jumpOutsideLoop word.text) here.span
  endStatement
  return build here.span

def expressionStatement : Counted Stmt := do
  let e ← expression clock
  endStatement
  return .expr e.span e

variable (statement : Counted Stmt)

def blockRounds : Nat → Counted (List Stmt)
  | 0 => stuck
  | n + 1 => do
    if (← sees .closeBrace) || (← atEnd) then return []
    if ← isFull then return []
    match ← attempt clock statement with
    | some stmt => return stmt :: (← blockRounds n)
    | none => blockRounds n

def block : Counted (Span × List Stmt) := do
  let start ← span
  let _ ← expect .openBrace
  let body ← blockRounds clock statement clock
  expectClosing .closeBrace start
  return (start.merge (← previousSpan), body)

def functionStatement : Counted Stmt := do
  let start ← span
  let _ ← advance
  if ← sees .openParen then refuse .namelessFunction
  let n ← name
  let opened ← expect .openParen
  let params ← if ← sees .closeParen then pure [] else commaRounds name clock
  expectClosing .closeParen opened
  let (bodySpan, body) ← inFunction (block clock statement)
  return .function (start.merge bodySpan) n params bodySpan body

def branchStatement : Counted Stmt := do
  let start ← span
  let _ ← advance
  let condition ← parenCondition clock
  let yes ← statement
  let no ← if (← kind).isKeyword .else_ then
      let _ ← advance
      some <$> statement
    else pure none
  return .branch (start.merge (← previousSpan)) condition yes no

def whileStatement : Counted Stmt := do
  let start ← span
  let _ ← advance
  let condition ← parenCondition clock
  let body ← inLoop statement
  return .while_ (start.merge (← previousSpan)) condition body

def doWhileStatement : Counted Stmt := do
  let start ← span
  let _ ← advance
  let body ← inLoop statement
  let _ ← expectKeyword .while_
  let condition ← parenCondition clock
  let _ ← eat .semicolon
  return .doWhile (start.merge (← previousSpan)) body condition

def forStatement : Counted Stmt := do
  let start ← span
  let _ ← advance
  let opened ← expect .openParen
  if ← looksForEach then
    complain .forEach (start.merge (← span))
    failure
  let init ← forInit clock
  let condition ← expressionUnless clock .semicolon
  let _ ← expect .semicolon
  let update ← expressionUnless clock .closeParen
  expectClosing .closeParen opened
  let body ← inLoop statement
  return .for_ (start.merge (← previousSpan)) init condition update body

def statementForm : Counted Stmt := do
  match ← kind with
  | .symbol .openBrace =>
    let (here, body) ← block clock statement
    return .block here body
  | .symbol .semicolon => return .empty (← advance).span
  | .keyword .function => functionStatement clock statement
  | .keyword .if_ => branchStatement clock statement
  | .keyword .while_ => whileStatement clock statement
  | .keyword .do_ => doWhileStatement clock statement
  | .keyword .for_ => forStatement clock statement
  | .keyword .return_ => returnStatement clock
  | .keyword .break_ => jumpStatement .break_ .break_
  | .keyword .continue_ => jumpStatement .continue_ .continue_
  | .keyword .else_ => refuse .strayElse
  | k =>
    match DeclKind.ofKind? k with
    | some kind =>
      let d ← declaration clock kind
      endStatement
      return .declare d
    | none => expressionStatement clock

end

def statement : Nat → Counted Stmt
  | 0 => stuck
  | n + 1 => levelled (statementForm n (statement n))

def programRounds (clock : Nat) : Nat → Counted (List Stmt)
  | 0 => stuck
  | n + 1 => do
    if ← atEnd then return []
    if ← isFull then return []
    if ← sees .closeBrace then
      complain .unmatchedBrace (← span)
      let _ ← advance
      programRounds clock n
    else match ← attempt clock (statement clock) with
      | some stmt => return stmt :: (← programRounds clock n)
      | none => programRounds clock n

def program (clock : Nat) : Counted Program := do
  let start ← span
  let body ← programRounds clock clock
  return ⟨body, start.merge (← previousSpan)⟩

end Counted

end Spellcraft
