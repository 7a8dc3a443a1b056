import Spellcraft.Casting.Command
import Spellcraft.Language.Tree
import Spellcraft.Number.Remainder
import Spellcraft.Text.Blank

/-!
The values of a running spell and the operators on them. A function knows the scope it was declared
in; two functions are the same only if one declaration made both at one time, which `id` tells.
-/

namespace Spellcraft

structure Closure where
  id : Nat
  name : String
  params : List Ident
  body : List Stmt
  scope : Nat

inductive Value
  | number : Float → Value
  | text : String → Value
  | bool : Bool → Value
  | null : Value
  | undefined : Value
  | function : Closure → Value
  | command : Command → Value
  deriving Inhabited

def Number.spoken : Number.Spelling := ⟨"NaN", "Infinity", false⟩

namespace Value

def isTruthy : Value → Bool
  | .number x => x != 0.0 && !x.isNaN
  | .text s => !s.isEmpty
  | .bool b => b
  | .null | .undefined => false
  | .function _ | .command _ => true

def typeName : Value → String
  | .number _ => "number"
  | .text _ => "string"
  | .bool _ => "boolean"
  | .null => "null"
  | .undefined => "undefined"
  | .function _ | .command _ => "function"

def isCallable : Value → Bool
  | .function _ | .command _ => true
  | _ => false

def numberOfText (s : String) : Float :=
  let cs := trimBlanks s.toList
  if cs = [] then 0.0 else (Number.ofText? cs).getD Number.notANumber

def toNumber : Value → Float
  | .number x => x
  | .text s => numberOfText s
  | .bool true => 1.0
  | .bool false | .null => 0.0
  | .undefined | .function _ | .command _ => Number.notANumber

def strictEq : Value → Value → Bool
  | .number x, .number y => x == y
  | .text s, .text t => s == t
  | .bool a, .bool b => a == b
  | .null, .null | .undefined, .undefined => true
  | .function f, .function g => f.id == g.id
  | .command c, .command d => c == d
  | _, _ => false

/-- `null` and `undefined` are loosely equal; otherwise as `strictEq`. -/
def looseEq : Value → Value → Bool
  | .null, .undefined | .undefined, .null => true
  | a, b => a.strictEq b

def toText : Value → String
  | .number x => Number.render Number.spoken x
  | .text s => s
  | .bool true => "true"
  | .bool false => "false"
  | .null => "null"
  | .undefined => "undefined"
  | .function f => s!"function {f.name}() \x7b ... \x7d"
  | .command c => s!"function {c.name}() \x7b [spell command] \x7d"

def joins : Value → Bool
  | .text _ | .function _ | .command _ => true
  | _ => false

inductive Comparison
  | less | greater | lessEq | greaterEq

def Comparison.floats : Comparison → Float → Float → Bool
  | .less, x, y => x < y
  | .greater, x, y => y < x
  | .lessEq, x, y => x ≤ y
  | .greaterEq, x, y => y ≤ x

def Comparison.texts : Comparison → String → String → Bool
  | .less, s, t => s < t
  | .greater, s, t => t < s
  | .lessEq, s, t => s ≤ t
  | .greaterEq, s, t => t ≤ s

def compare (c : Comparison) : Value → Value → Bool
  | .text s, .text t => c.texts s t
  | a, b => c.floats a.toNumber b.toNumber

def arithmetic (f : Float → Float → Float) (a b : Value) : Value :=
  .number (f a.toNumber b.toNumber)

def apply (op : BinaryOp) (a b : Value) : Value :=
  match op with
  | .add => if a.joins || b.joins then .text (a.toText ++ b.toText) else arithmetic (· + ·) a b
  | .sub => arithmetic (· - ·) a b
  | .mul => arithmetic (· * ·) a b
  | .div => arithmetic (· / ·) a b
  | .rem => arithmetic Number.remainder a b
  | .looseEq => .bool (a.looseEq b)
  | .looseNe => .bool (!a.looseEq b)
  | .strictEq => .bool (a.strictEq b)
  | .strictNe => .bool (!a.strictEq b)
  | .less => .bool (compare .less a b)
  | .greater => .bool (compare .greater a b)
  | .lessEq => .bool (compare .lessEq a b)
  | .greaterEq => .bool (compare .greaterEq a b)

end Value

end Spellcraft
