import Spellcraft.Number.Decimal

/-!
JSON values as they are written: members keep their order and repetitions, and a number is an
integer only if it is written as one.
-/

namespace Spellcraft

inductive Json
  | null : Json
  | bool : Bool → Json
  | integer : Int → Json
  | real : Number.Decimal → Json
  | text : String → Json
  /-- A string that escapes half of a surrogate pair, and so is no text; or an object with such a
  name. -/
  | unpaired : Json
  | array : List Json → Json
  | object : List (String × Json) → Json
  deriving Inhabited

namespace Json

def ofNat (n : Nat) : Json := .integer n

def ofOption (encode : α → Json) : Option α → Json
  | none => .null
  | some a => encode a

def ofList (encode : α → Json) (as : List α) : Json := .array (as.map encode)

def hexDigit (n : Nat) : Char := (Nat.digitChar (n % 16))

def quoteChar (c : Char) : List Char :=
  if c = '"' then ['\\', '"']
  else if c = '\\' then ['\\', '\\']
  else if c.toNat < 32 then
    ['\\', 'u', '0', '0', hexDigit (c.toNat / 16), hexDigit c.toNat]
  else [c]

def quoted (s : String) : String :=
  String.ofList ('"' :: (s.toList.flatMap quoteChar ++ ['"']))

mutual

def render : Json → String
  | .null => "null"
  | .bool true => "true"
  | .bool false => "false"
  | .integer n => toString n
  | .real d => (if d.negative then "-" else "") ++ s!"{d.coefficient}e{d.exponent}"
  | .text s => quoted s
  | .unpaired => "\"\\ud800\""
  | .array xs => "[" ++ renderItems xs ++ "]"
  | .object ms => "\x7b" ++ renderMembers ms ++ "\x7d"

def renderItems : List Json → String
  | [] => ""
  | [x] => x.render
  | x :: xs => x.render ++ "," ++ renderItems xs

def renderMembers : List (String × Json) → String
  | [] => ""
  | [(k, v)] => quoted k ++ ":" ++ v.render
  | (k, v) :: ms => quoted k ++ ":" ++ v.render ++ "," ++ renderMembers ms

end

end Json

end Spellcraft
