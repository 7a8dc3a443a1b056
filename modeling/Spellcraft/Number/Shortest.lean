/-!
The fewest decimal digits that read back as a given double. A double is decoded into `m * 2 ^ q`;
the decimals that round to it fill an interval around it, closed when `m` is even. On ever finer
decimal grids the two neighbours of the value are tried, and the first grid with one of them in the
interval gives the digits.
-/

namespace Spellcraft.Number

inductive Shape
  | nan : Shape
  | infinite (negative : Bool) : Shape
  | finite (negative : Bool) (m : Nat) (q : Int) : Shape
  deriving DecidableEq

def raise (b : Nat) (e : Int) : Nat := b.pow e.toNat

def hiddenBit : Nat := 1 <<< 52

def shape (x : Float) : Shape :=
  let bits := x.toBits.toNat
  let negative := bits >>> 63 = 1
  let exponent : Nat := bits >>> 52 % 2048
  let fraction : Nat := bits % hiddenBit
  if exponent = 2047 then
    if fraction = 0 then .infinite negative else .nan
  else if exponent = 0 then .finite negative fraction (-1074)
  else .finite negative (hiddenBit + fraction) (Int.ofNat exponent - 1075)

structure Interval where
  low : Nat
  value : Nat
  high : Nat
  unit : Nat
  closed : Bool

/-- Below a power of two the doubles are twice as dense. -/
def interval (m : Nat) (q : Int) : Interval :=
  let up := raise 2 (q - 2)
  { low := (if m = hiddenBit then 4 * m - 1 else 4 * m - 2) * up
    value := 4 * m * up
    high := (4 * m + 2) * up
    unit := raise 2 (2 - q)
    closed := m % 2 = 0 }

def Interval.has (i : Interval) (d : Nat) (k : Int) : Bool :=
  let x := d * raise 10 k * i.unit
  let s := raise 10 (-k)
  if i.closed then i.low * s ≤ x && x ≤ i.high * s else i.low * s < x && x < i.high * s

/-- The multiple of `10 ^ k` that stands for the value on that grid, if one does: the nearer of the
two neighbours in the interval, the upper one where both are equally near. -/
def Interval.onGrid (i : Interval) (k : Int) : Option Nat :=
  let num := i.value * raise 10 (-k)
  let den := i.unit * raise 10 k
  let below := num / den
  let rest := num % den
  match i.has below k, i.has (below + 1) k with
  | true, true => some (if 2 * rest < den then below else below + 1)
  | true, false => some below
  | false, true => some (below + 1)
  | false, false => none

def Interval.search (i : Interval) : Nat → Int → Nat × Int
  | 0, k => (i.value * raise 10 (-k) / (i.unit * raise 10 k), k)
  | n + 1, k => match i.onGrid k with
    | some d => (d, k)
    | none => i.search n (k - 1)

def Interval.scale (i : Interval) : Nat → Int → Int
  | 0, e => e
  | n + 1, e =>
    if i.value * raise 10 (-e) < i.unit * raise 10 e then e else i.scale n (e + 1)

/-- Digits `d` and exponent `k`: the shortest decimal of `m * 2 ^ q` is `d * 10 ^ k`. -/
def shortest (m : Nat) (q : Int) : Nat × Int :=
  let i := interval m q
  let guess := (Int.ofNat (Nat.log2 m) + q) * 30103 / 100000
  i.search 17 (i.scale 4 (guess - 1) - 1)

def positional (d : Nat) (k : Int) : List Char :=
  let digits := (Nat.toDigits 10 d)
  let trimmed := (digits.reverse.dropWhile (· = '0')).reverse
  let point : Int := digits.length + k
  if point ≤ 0 then '0' :: '.' :: (List.replicate (-point).toNat '0' ++ trimmed)
  else if trimmed.length ≤ point.toNat then
    trimmed ++ List.replicate (point.toNat - trimmed.length) '0'
  else trimmed.take point.toNat ++ '.' :: trimmed.drop point.toNat

structure Spelling where
  nan : String
  infinity : String
  signedZero : Bool

def render (spelling : Spelling) (x : Float) : String :=
  let sign (negative : Bool) := if negative then "-" else ""
  match shape x with
  | .nan => spelling.nan
  | .infinite negative => sign negative ++ spelling.infinity
  | .finite negative m q =>
    if m = 0 then sign (negative && spelling.signedZero) ++ "0"
    else
      let (d, k) := shortest m q
      sign negative ++ String.ofList (positional d k)

end Spellcraft.Number
