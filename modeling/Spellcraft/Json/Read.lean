import Spellcraft.Json.Value

namespace Spellcraft.Json

def isSpace (c : Char) : Bool := c = ' ' || c = '\t' || c = '\n' || c = '\r'

def skipSpace (cs : List Char) : List Char := cs.dropWhile isSpace

def wholePart (cs : List Char) : Option (List Char × List Char) :=
  match cs with
  | '0' :: rest => some (['0'], rest)
  | _ =>
    let ds := cs.takeWhile Char.isDigit
    if ds = [] then none else some (ds, cs.dropWhile Char.isDigit)

def fractionPart : List Char → Option (List Char × List Char)
  | '.' :: cs =>
    let ds := cs.takeWhile Char.isDigit
    if ds = [] then none else some (ds, cs.dropWhile Char.isDigit)
  | cs => some ([], cs)

def exponentPart (cs : List Char) : Option (Option Int × List Char) :=
  match cs with
  | e :: tail =>
    if e = 'e' ∨ e = 'E' then
      let (negative, digits) := Number.takeSign tail
      let ds := digits.takeWhile Char.isDigit
      let n : Int := Number.natOfDigits ds
      if ds = [] then none
      else some (some (if negative then -n else n), digits.dropWhile Char.isDigit)
    else some (none, cs)
  | [] => some (none, [])

/-- A number after its sign. Minus zero is no integer. -/
def magnitude (negative : Bool) (cs : List Char) : Option (Json × List Char) := do
  let (whole, cs) ← wholePart cs
  let (fraction, cs) ← fractionPart cs
  let (exponent, cs) ← exponentPart cs
  let n := Number.natOfDigits (whole ++ fraction)
  if fraction = [] ∧ exponent = none ∧ ¬(negative ∧ n = 0) then
    some (.integer (if negative then -(n : Int) else n), cs)
  else some (.real ⟨negative, n, exponent.getD 0 - fraction.length⟩, cs)

def number (cs : List Char) : Option (Json × List Char) :=
  match cs with
  | '-' :: rest => magnitude true rest
  | _ => magnitude false cs

def hexValue (c : Char) : Option Nat :=
  if c.isDigit then some (c.toNat - '0'.toNat)
  else if 'a' ≤ c ∧ c ≤ 'f' then some (c.toNat - 'a'.toNat + 10)
  else if 'A' ≤ c ∧ c ≤ 'F' then some (c.toNat - 'A'.toNat + 10)
  else none

def unit (a b c d : Char) : Option Nat := do
  return 4096 * (← hexValue a) + 256 * (← hexValue b) + 16 * (← hexValue c) + (← hexValue d)

def isHigh (u : Nat) : Bool := 0xD800 ≤ u && u < 0xDC00

def isLow (u : Nat) : Bool := 0xDC00 ≤ u && u < 0xE000

def simpleEscape? : Char → Option Char
  | '"' => some '"'
  | '\\' => some '\\'
  | '/' => some '/'
  | 'b' => some '\x08'
  | 'f' => some '\x0c'
  | 'n' => some '\n'
  | 'r' => some '\r'
  | 't' => some '\t'
  | _ => none

inductive Piece
  | char : Char → Piece
  | high : Nat → Piece
  | low : Nat → Piece

def Piece.ofUnit (u : Nat) : Piece :=
  if isHigh u then .high u else if isLow u then .low u else .char (Char.ofNat u)

def pieces : List Char → Option (List Piece × List Char)
  | [] => none
  | '"' :: rest => some ([], rest)
  | '\\' :: 'u' :: a :: b :: c :: d :: rest => do
    let u ← unit a b c d
    let (ps, rest) ← pieces rest
    return (.ofUnit u :: ps, rest)
  | '\\' :: e :: rest => do
    let c ← simpleEscape? e
    let (ps, rest) ← pieces rest
    return (.char c :: ps, rest)
  | c :: rest => do
    if c.toNat < 32 ∨ c = '\\' then none
    let (ps, rest) ← pieces rest
    return (.char c :: ps, rest)

/-- The text of the pieces, if every half has its other half behind it. -/
def joinPieces : List Piece → Option (List Char)
  | [] => some []
  | .char c :: ps => (joinPieces ps).map (c :: ·)
  | .high h :: .low l :: ps =>
    (joinPieces ps).map (Char.ofNat (0x10000 + (h - 0xD800) * 1024 + (l - 0xDC00)) :: ·)
  | _ :: _ => none

def string (cs : List Char) : Option (Json × List Char) := do
  let (ps, rest) ← pieces cs
  match joinPieces ps with
  | some t => some (.text (String.ofList t), rest)
  | none => some (.unpaired, rest)

def word (expected : List Char) (j : Json) (cs : List Char) : Option (Json × List Char) :=
  if expected.isPrefixOf cs then some (j, cs.drop expected.length) else none

def objectOf (ms : List (Option String × Json)) : Json :=
  match ms.mapM fun m => m.1.map (·, m.2) with
  | some ms => .object ms
  | none => .unpaired

mutual

/-- A value at the head of `cs`. Every nested call has taken a character, so that the length of the
text bounds their depth. -/
def value : Nat → List Char → Option (Json × List Char)
  | 0, _ => none
  | n + 1, cs =>
    match cs with
    | '"' :: rest => string rest
    | '[' :: rest =>
      match skipSpace rest with
      | ']' :: rest => some (.array [], rest)
      | rest => do
        let (xs, rest) ← items n rest
        return (.array xs, rest)
    | '\x7b' :: rest =>
      match skipSpace rest with
      | '\x7d' :: rest => some (.object [], rest)
      | rest => do
        let (ms, rest) ← members n rest
        return (objectOf ms, rest)
    | 't' :: _ => word ['t', 'r', 'u', 'e'] (.bool true) cs
    | 'f' :: _ => word ['f', 'a', 'l', 's', 'e'] (.bool false) cs
    | 'n' :: _ => word ['n', 'u', 'l', 'l'] .null cs
    | _ => number cs

def items : Nat → List Char → Option (List Json × List Char)
  | 0, _ => none
  | n + 1, cs => do
    let (x, rest) ← value n (skipSpace cs)
    match skipSpace rest with
    | ',' :: rest => do
      let (xs, rest) ← items n rest
      return (x :: xs, rest)
    | ']' :: rest => return ([x], rest)
    | _ => none

def members : Nat → List Char → Option (List (Option String × Json) × List Char)
  | 0, _ => none
  | n + 1, cs => do
    match skipSpace cs with
    | '"' :: rest => do
      let (name, rest) ← string rest
      let name := match name with
        | .text s => some s
        | _ => none
      match skipSpace rest with
      | ':' :: rest => do
        let (x, rest) ← value n (skipSpace rest)
        match skipSpace rest with
        | ',' :: rest => do
          let (ms, rest) ← members n rest
          return ((name, x) :: ms, rest)
        | '\x7d' :: rest => return ([(name, x)], rest)
        | _ => none
      | _ => none
    | _ => none

end

def readHead? (source : String) : Option (Json × List Char) :=
  let cs := source.toList
  value (cs.length + 1) (skipSpace cs)

def read? (source : String) : Option Json := do
  let (j, rest) ← readHead? source
  if skipSpace rest = [] then some j else none

end Spellcraft.Json
