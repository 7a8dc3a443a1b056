import Spellcraft.Json.Value

/-!
Decoding. A record is written as an object, whose unknown members do not count and whose known
members stand once, or as the array of its fields in order.
-/

namespace Spellcraft.Json

def toBool? : Json → Option Bool
  | .bool b => some b
  | _ => none

def toText? : Json → Option String
  | .text s => some s
  | _ => none

def toList? (decode : Json → Option α) : Json → Option (List α)
  | .array xs => xs.mapM decode
  | _ => none

def toInt? (low high : Int) : Json → Option Int
  | .integer n => if low ≤ n ∧ n ≤ high then some n else none
  | _ => none

def toNat? (bits : Nat) : Json → Option Nat
  | .integer n => if 0 ≤ n ∧ n.toNat < Nat.pow 2 bits then some n.toNat else none
  | _ => none

def toFloat? : Json → Option Float
  | .integer n => some (Number.Decimal.toFloat ⟨n < 0, n.natAbs, 0⟩)
  | .real d => some d.toFloat
  | _ => none

def toOption? (decode : Json → Option α) : Json → Option (Option α)
  | .null => some none
  | j => (decode j).map some

/-- The only member of a name: none if there is none, and no answer if there are several. -/
def single? (members : List (String × Json)) (name : String) : Option (Option Json) :=
  match members.filter fun m => m.1 = name with
  | [] => some none
  | [m] => some (some m.2)
  | _ => none

def fields? (names : List String) : Json → Option (List (Option Json))
  | .object ms => names.mapM (single? ms)
  | .array xs =>
    if xs.length ≤ names.length then
      some (xs.map some ++ List.replicate (names.length - xs.length) none)
    else none
  | _ => none

def required? (decode : Json → Option α) : Option Json → Option α
  | some j => decode j
  | none => none

def defaulted? (decode : Json → Option α) (default : α) : Option Json → Option α
  | some j => decode j
  | none => some default

def optional? (decode : Json → Option α) : Option Json → Option (Option α)
  | some j => toOption? decode j
  | none => some none

/-- A record that names its kind in the member `tag`, or in its first item: the kind and the rest. -/
def tagged? (tag : String) : Json → Option (String × Json)
  | .object ms => do
    let kind ← (← single? ms tag).bind toText?
    return (kind, .object (ms.filter fun m => m.1 ≠ tag))
  | .array (.text kind :: xs) => some (kind, .array xs)
  | _ => none

/-- Whether nothing is left of a kind without fields: members do not count, items do. -/
def isBare : Json → Bool
  | .array xs => xs.isEmpty
  | _ => true

def present (name : String) : Option Json → List (String × Json)
  | some j => [(name, j)]
  | none => []

mutual

/-- Of members with one name the last one counts. -/
def settle : Json → Json
  | .array xs => .array (settleItems xs)
  | .object ms => .object (settleMembers ms)
  | j => j

def settleItems : List Json → List Json
  | [] => []
  | x :: xs => x.settle :: settleItems xs

def settleMembers : List (String × Json) → List (String × Json)
  | [] => []
  | (k, v) :: ms =>
    let rest := settleMembers ms
    if rest.any fun m => m.1 = k then rest else (k, v.settle) :: rest

end

end Spellcraft.Json
