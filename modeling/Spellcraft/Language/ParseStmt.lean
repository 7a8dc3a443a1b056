import Spellcraft.Language.ParseExpr
import Spellcraft.Language.Scan

/-!
Parsing statements. A statement opens a nesting level like an expression; what stands inside it is
parsed with the room that is left. After a failed statement the stream is set right and reading
goes on, so that one pass finds more than one error.
-/

namespace Spellcraft

def DeclKind.ofKind? : Kind → Option DeclKind
  | .keyword .let_ => some .let_
  | .keyword .const => some .const
  | .keyword .var => some .var
  | _ => none

namespace Parse

def name : Parse Ident := do
  match ← kind with
  | .name n =>
    let here ← span
    advance
    return ⟨n, here⟩
  | .keyword k => refuse (.reservedName k.text)
  | k => refuse (.missingName k.shown)

/-- A constant without a value is reported and kept. -/
def declarator (kind : DeclKind) (room : Nat) : Parse Declarator := do
  let n ← name
  if ← eat .assign then return ⟨n, some (← expression room)⟩
  if kind = .const then complain (.missingInitializer n.name) n.span
  return ⟨n, none⟩

def declaration (kind : DeclKind) (room : Nat) : Parse Declaration := do
  let start ← span
  advance
  let ds ← commaList (declarator kind room)
  return ⟨kind, ds, start.merge (← previousSpan)⟩

def parenCondition (room : Nat) : Parse Expr := do
  let opened ← expect .openParen
  let condition ← expression room
  expectClosing .closeParen opened
  return condition

def blockRounds (statement : Parse Stmt) : Nat → Parse (List Stmt)
  | 0 => return []
  | n + 1 => do
    let s ← get
    if s.kind.isSymbol .closeBrace || s.atEnd || s.report.isFull then return []
    match ← attempt statement with
    | some stmt => return stmt :: (← blockRounds statement n)
    | none => blockRounds statement n

def block (statement : Parse Stmt) : Parse (Span × List Stmt) := do
  let start ← span
  let _ ← expect .openBrace
  let body ← blockRounds statement (← tokensLeft)
  expectClosing .closeBrace start
  return (start.merge (← previousSpan), body)

def functionStatement (statement : Parse Stmt) : Parse Stmt := do
  let start ← span
  advance
  if ← sees .openParen then refuse .namelessFunction
  let n ← name
  let opened ← expect .openParen
  let params ← if ← sees .closeParen then pure [] else commaList name
  expectClosing .closeParen opened
  let (bodySpan, body) ← block statement
  return .function (start.merge bodySpan) n params bodySpan body

def branchStatement (room : Nat) (statement : Parse Stmt) : Parse Stmt := do
  let start ← span
  advance
  let condition ← parenCondition room
  let yes ← statement
  let no ← if (← kind).isKeyword .else_ then
      advance
      some <$> statement
    else pure none
  return .branch (start.merge (← previousSpan)) condition yes no

def whileStatement (room : Nat) (statement : Parse Stmt) : Parse Stmt := do
  let start ← span
  advance
  let condition ← parenCondition room
  let body ← statement
  return .while_ (start.merge (← previousSpan)) condition body

def doWhileStatement (room : Nat) (statement : Parse Stmt) : Parse Stmt := do
  let start ← span
  advance
  let body ← statement
  let _ ← expectKeyword .while_
  let condition ← parenCondition room
  let _ ← eat .semicolon
  return .doWhile (start.merge (← previousSpan)) body condition

def looksForEach (s : Stream) : Bool :=
  let n := if (DeclKind.ofKind? s.kind).isSome then 1 else 0
  (s.kindAt n).isName && match s.kindAt (n + 1) with
    | .keyword k => k = .in_
    | .name w => w = "of"
    | _ => false

def forInit (room : Nat) : Parse ForInit := do
  if ← eat .semicolon then return .absent
  let init ← match DeclKind.ofKind? (← kind) with
    | some k => ForInit.declare <$> declaration k room
    | none => ForInit.expr <$> expression room
  let _ ← expect .semicolon
  return init

def expressionUnless (s : Symbol) (room : Nat) : Parse (Option Expr) := do
  if ← sees s then return none
  else some <$> expression room

def forStatement (room : Nat) (statement : Parse Stmt) : Parse Stmt := do
  let start ← span
  advance
  let opened ← expect .openParen
  if looksForEach (← get) then
    complain .forEach (start.merge (← span))
    failure
  let init ← forInit room
  let condition ← expressionUnless .semicolon room
  let _ ← expect .semicolon
  let update ← expressionUnless .closeParen room
  expectClosing .closeParen opened
  let body ← statement
  return .for_ (start.merge (← previousSpan)) init condition update body

def returnStatement (room : Nat) : Parse Stmt := do
  let start ← span
  advance
  let s ← get
  let value ←
    if s.kind.isSymbol .semicolon || s.kind.isSymbol .closeBrace || s.atEnd || s.onNewLine then
      pure none
    else some <$> expression room
  let stop ← previousSpan
  endStatement
  return .return_ (start.merge stop) value

/-- A jump outside every loop is reported and kept. -/
def jumpStatement (word : Keyword) (inLoop : Bool) (build : Span → Stmt) : Parse Stmt := do
  let here ← span
  advance
  if !inLoop then complain (.jumpOutsideLoop word.text) here
  endStatement
  return build here

def expressionStatement (room : Nat) : Parse Stmt := do
  let e ← expression room
  endStatement
  return .expr e.span e

/-- `inLoop` holds within a loop of the same function. -/
def statement : Nat → Bool → Parse Stmt
  | 0, _ => tooDeep
  | room + 1, inLoop => do
    match ← kind with
    | .symbol .openBrace =>
      let (here, body) ← block (statement room inLoop)
      return .block here body
    | .symbol .semicolon =>
      let here ← span
      advance
      return .empty here
    | .keyword .function => functionStatement (statement room false)
    | .keyword .if_ => branchStatement room (statement room inLoop)
    | .keyword .while_ => whileStatement room (statement room true)
    | .keyword .do_ => doWhileStatement room (statement room true)
    | .keyword .for_ => forStatement room (statement room true)
    | .keyword .return_ => returnStatement room
    | .keyword .break_ => jumpStatement .break_ inLoop .break_
    | .keyword .continue_ => jumpStatement .continue_ inLoop .continue_
    | .keyword .else_ => refuse .strayElse
    | k =>
      match DeclKind.ofKind? k with
      | some kind =>
        let d ← declaration kind room
        endStatement
        return .declare d
      | none => expressionStatement room

/-- Statements up to the end or a full report; a closing brace without an opening one is reported
and passed over. -/
def programRounds : Nat → Parse (List Stmt)
  | 0 => return []
  | n + 1 => do
    let s ← get
    if s.atEnd || s.report.isFull then return []
    if s.kind.isSymbol .closeBrace then
      complain .unmatchedBrace s.span
      advance
      programRounds n
    else match ← attempt (statement nestingLimit false) with
      | some stmt => return stmt :: (← programRounds n)
      | none => programRounds n

def program : Parse Program := do
  let start ← span
  let body ← programRounds (← tokensLeft)
  return ⟨body, start.merge (← previousSpan)⟩

end Parse

/-- What could be made of the tokens, and the report on them. The tree means the tokens only where
the report is clean. -/
def parseTokens (ts : List Token) : Program × Report Diagnostic :=
  let s := Stream.ofTokens ts
  match Parse.program s with
  | (some p, t) => (p, t.report)
  | (none, t) => (⟨[], s.span⟩, t.report)

def parseText (source : String) : Program × Report Diagnostic × Report Diagnostic :=
  let (ts, words) := scan source
  let (p, form) := parseTokens ts
  (p, words, form)

end Spellcraft
