import Spellcraft.Language.Problem
import Spellcraft.Language.Token

/-!
The ground of the parser: a stream of tokens with the report on it. A parser that gives no result
has reported why.
-/

namespace Spellcraft

structure Stream where
  previous : Option Span
  rest : List Token
  close : Span
  report : Report Diagnostic

namespace Stream

/-- The tokens up to the first `eof`; a list without one ends where its last token stands. -/
def ofTokens (ts : List Token) : Stream :=
  { previous := none
    rest := ts.takeWhile (!·.kind.isEof)
    close := match ts.dropWhile (!·.kind.isEof) with
      | t :: _ => t.span
      | [] => (ts.getLast?.map Token.span).getD (.point .origin)
    report := .empty }

def kind (s : Stream) : Kind := (s.rest.head?.map Token.kind).getD .eof

def kindAt (s : Stream) (n : Nat) : Kind := (s.rest[n]?.map Token.kind).getD .eof

def span (s : Stream) : Span := (s.rest.head?.map Token.span).getD s.close

def previousSpan (s : Stream) : Span := s.previous.getD (.point .origin)

def atEnd (s : Stream) : Bool := s.rest.isEmpty

def onNewLine (s : Stream) : Bool :=
  s.previous.any fun p => p.last.line < s.span.first.line

def advance (s : Stream) : Stream :=
  match s.rest with
  | [] => s
  | t :: rest => { s with previous := some t.span, rest }

def complain (s : Stream) (p : Problem) (span : Span) : Stream :=
  { s with report := s.report.push (p.located span) }

def resumes : Kind → Bool
  | .keyword k => k ∈ [.let_, .const, .var, .function, .if_, .while_, .do_, .for_, .return_, .break_,
      .continue_]
  | .symbol s => s = .closeBrace
  | _ => false

/-- After an error: on to the start of a statement, or past a semicolon. -/
def resync (s : Stream) : Stream :=
  match _h : s.rest with
  | [] => s
  | t :: _ =>
    if t.kind.isSymbol .semicolon then s.advance
    else if resumes t.kind then s
    else s.advance.resync
termination_by s.rest.length
decreasing_by simp [advance, _h]

/-- `resync` for a statement that began with `before` tokens left; it never stands still, except at
a closing brace. -/
def recover (s : Stream) (before : Nat) : Stream :=
  let t := s.resync
  if t.rest.length = before && !t.atEnd && !t.kind.isSymbol .closeBrace then t.advance else t

end Stream

abbrev Parse := OptionT (StateM Stream)

namespace Parse

def kind : Parse Kind := return (← get).kind

def span : Parse Span := return (← get).span

def previousSpan : Parse Span := return (← get).previousSpan

def sees (s : Symbol) : Parse Bool := return (← get).kind.isSymbol s

def advance : Parse Unit := modify Stream.advance

def complain (p : Problem) (span : Span) : Parse Unit := modify (·.complain p span)

def refuse (p : Problem) : Parse α := do
  complain p (← span)
  failure

def eat (s : Symbol) : Parse Bool := do
  if ← sees s then
    advance
    return true
  else return false

def expectKind (present : Kind → Bool) (wanted : String) : Parse Span := do
  let k ← kind
  if present k then
    let here ← span
    advance
    return here
  else refuse (.missing wanted k.shown)

def expect (s : Symbol) : Parse Span := expectKind (·.isSymbol s) s.text

def expectKeyword (w : Keyword) : Parse Span := expectKind (·.isKeyword w) w.text

def expectClosing (s : Symbol) (opened : Span) : Parse Unit := do
  if ← eat s then return ()
  else refuse (.unclosed s.text (← kind).shown opened.first.line (← get).atEnd)

/-- A semicolon may be left out before a line break, a closing brace or the end. -/
def endStatement : Parse Unit := do
  if ← eat .semicolon then return ()
  let s ← get
  if s.atEnd || s.kind.isSymbol .closeBrace || s.onNewLine then return ()
  complain (.missingSemicolon s.kind.shown) s.span

def tokensLeft : Parse Nat := return (← get).rest.length

def attempt (p : Parse α) : Parse (Option α) := fun s =>
  match p s with
  | (some a, t) => (some (some a), t)
  | (none, t) => (some none, t.recover s.rest.length)

/-- `item`, and another after each comma. Every round takes a comma, so the tokens left bound the
rounds. -/
def commaRounds (item : Parse α) : Nat → Parse (List α)
  | 0 => return [← item]
  | n + 1 => do
    let a ← item
    if ← eat .comma then return a :: (← commaRounds item n)
    else return [a]

def commaList (item : Parse α) : Parse (List α) := do commaRounds item (← tokensLeft)

end Parse

end Spellcraft
