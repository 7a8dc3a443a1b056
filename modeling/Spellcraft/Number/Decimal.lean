
namespace Spellcraft.Number

def infinity : Float := 1.0 / 0.0

def notANumber : Float := 0.0 / 0.0

structure Decimal where
  negative : Bool
  coefficient : Nat
  exponent : Int
  deriving DecidableEq

/-- Beyond these magnitudes every double is zero or infinite, whatever the digits. -/
def Decimal.toFloat (d : Decimal) : Float :=
  let size : Int := (Nat.toDigits 10 d.coefficient).length + d.exponent
  let magnitude :=
    if d.coefficient = 0 then 0.0
    else if 400 < size then infinity
    else if size < -400 then 0.0
    else if 0 ≤ d.exponent then Float.ofScientific d.coefficient false d.exponent.toNat
    else Float.ofScientific d.coefficient true (-d.exponent).toNat
  if d.negative then -magnitude else magnitude

def digitValue (c : Char) : Nat := c.toNat - '0'.toNat

def natOfDigits (cs : List Char) : Nat := cs.foldl (fun n c => 10 * n + digitValue c) 0

def takeSign : List Char → Bool × List Char
  | '-' :: cs => (true, cs)
  | '+' :: cs => (false, cs)
  | cs => (false, cs)

def exponent? : List Char → Option Int
  | [] => some 0
  | e :: cs =>
    if e = 'e' ∨ e = 'E' then
      let (negative, ds) := takeSign cs
      if ds ≠ [] ∧ ds.all Char.isDigit then
        some (if negative then -(natOfDigits ds : Int) else natOfDigits ds)
      else none
    else none

def Decimal.unsigned? (negative : Bool) (cs : List Char) : Option Decimal :=
  let whole := cs.takeWhile Char.isDigit
  let (fraction, rest) := match cs.dropWhile Char.isDigit with
    | '.' :: tail => (tail.takeWhile Char.isDigit, tail.dropWhile Char.isDigit)
    | tail => ([], tail)
  if whole ++ fraction = [] then none
  else (exponent? rest).map fun e => ⟨negative, natOfDigits (whole ++ fraction), e - fraction.length⟩

def named? (cs : List Char) : Option Float :=
  match String.ofList (cs.map Char.toLower) with
  | "inf" | "infinity" => some infinity
  | "nan" => some notANumber
  | _ => none

def ofText? (cs : List Char) : Option Float :=
  let (negative, magnitude) := takeSign cs
  match named? magnitude with
  | some x => some (if negative then -x else x)
  | none => (Decimal.unsigned? negative magnitude).map Decimal.toFloat

def ofLiteral (cs : List Char) : Float :=
  ((Decimal.unsigned? false cs).map Decimal.toFloat).getD 0.0

end Spellcraft.Number
