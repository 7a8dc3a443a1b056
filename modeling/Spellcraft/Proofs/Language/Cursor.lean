import Spellcraft.Language.ParseStmt

/-!
Parsing by a cursor. The tokens stay where they are and a cursor moves along them; nesting and loops
are counted up and down. A token may be asked for that is not there, and a loop goes round until it
is done: where a token is missing or the clock has run down there is no outcome, `none`.
-/

namespace Spellcraft

structure Cursor where
  tokens : List Token
  pos : Nat
  report : Report Diagnostic
  depth : Nat
  loops : Nat

/-- An `eof` is put behind the tokens where they do not end in one. -/
def Cursor.ofTokens (ts : List Token) : Cursor where
  tokens := match ts.getLast? with
    | none => [⟨.eof, .point .origin⟩]
    | some t => if t.kind.isEof then ts else ts ++ [⟨.eof, t.span⟩]
  pos := 0
  report := .empty
  depth := 0
  loops := 0

abbrev Counted (α : Type) := OptionT (StateT Cursor Option) α

namespace Counted

def stuck : Counted α := fun _ => none

def token (i : Nat) : Counted Token := fun c => c.tokens[i]?.map fun t => (some t, c)

def peek : Counted Token := do
  let c ← get
  token (min c.pos (c.tokens.length - 1))

def kind : Counted Kind := return (← peek).kind

def span : Counted Span := return (← peek).span

def advance : Counted Token := do
  let t ← peek
  modify fun c => if c.pos < c.tokens.length then { c with pos := c.pos + 1 } else c
  return t

def previousSpan : Counted Span := do
  let c ← get
  if 0 < c.pos then return (← token (c.pos - 1)).span else return .point .origin

def kindAt (n : Nat) : Counted Kind := do
  let c ← get
  return (c.tokens[c.pos + n]?.map Token.kind).getD .eof

def atEnd : Counted Bool := return (← kind).isEof

def sees (s : Symbol) : Counted Bool := return (← kind).isSymbol s

def onNewLine : Counted Bool := do
  if 0 < (← get).pos then return (← previousSpan).last.line < (← span).first.line else return false

def isFull : Counted Bool := return (← get).report.isFull

def complain (p : Problem) (here : Span) : Counted Unit :=
  modify fun c => { c with report := c.report.push (p.located here) }

def refuse (p : Problem) : Counted α := do
  complain p (← span)
  failure

def eat (s : Symbol) : Counted Bool := do
  if ← sees s then
    let _ ← advance
    return true
  else return false

def expectKind (present : Kind → Bool) (wanted : String) : Counted Span := do
  let k ← kind
  if present k then return (← advance).span else refuse (.missing wanted k.shown)

def expect (s : Symbol) : Counted Span := expectKind (·.isSymbol s) s.text

def expectKeyword (w : Keyword) : Counted Span := expectKind (·.isKeyword w) w.text

def expectClosing (s : Symbol) (opened : Span) : Counted Unit := do
  if ← eat s then return ()
  else refuse (.unclosed s.text (← kind).shown opened.first.line (← atEnd))

def endStatement : Counted Unit := do
  if ← eat .semicolon then return ()
  if (← atEnd) || (← sees .closeBrace) || (← onNewLine) then return ()
  complain (.missingSemicolon (← kind).shown) (← span)

def result (q : Counted α) : Counted (Option α) := fun c => do
  let (r, d) ← q c
  return (some r, d)

def give : Option α → Counted α
  | some a => return a
  | none => failure

def enter : Counted Bool := do
  if nestingLimit ≤ (← get).depth then
    complain (.tooDeep nestingLimit) (← span)
    return false
  else
    modify fun c => { c with depth := c.depth + 1 }
    return true

def leave : Counted Unit := modify fun c => { c with depth := c.depth - 1 }

def leaveAll : Nat → Counted Unit
  | 0 => return ()
  | n + 1 => do
    leave
    leaveAll n

/-- `q` one level deeper; the level is left however `q` ends. -/
def levelled (q : Counted α) : Counted α := do
  if ← enter then
    let r ← result q
    leave
    give r
  else failure

def inLoop (q : Counted α) : Counted α := do
  modify fun c => { c with loops := c.loops + 1 }
  let r ← result q
  modify fun c => { c with loops := c.loops - 1 }
  give r

def inFunction (q : Counted α) : Counted α := do
  let outer := (← get).loops
  modify fun c => { c with loops := 0 }
  let r ← result q
  modify fun c => { c with loops := outer }
  give r

def synchronize : Nat → Counted Unit
  | 0 => stuck
  | n + 1 => do
    if ← atEnd then return ()
    let k ← kind
    if k.isSymbol .semicolon then
      let _ ← advance
    else if Stream.resumes k then return ()
    else
      let _ ← advance
      synchronize n

def recoverFrom (clock before : Nat) : Counted Unit := do
  synchronize clock
  if (← get).pos = before && !(← atEnd) && !(← sees .closeBrace) then
    let _ ← advance

def attempt (clock : Nat) (q : Counted α) : Counted (Option α) := do
  let before := (← get).pos
  match ← result q with
  | some a => return some a
  | none =>
    recoverFrom clock before
    return none

def commaRounds (item : Counted α) : Nat → Counted (List α)
  | 0 => stuck
  | n + 1 => do
    let a ← item
    if ← eat .comma then return a :: (← commaRounds item n) else return [a]

end Counted

end Spellcraft
