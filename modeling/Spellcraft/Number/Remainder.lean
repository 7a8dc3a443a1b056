import Spellcraft.Number.Decimal
import Spellcraft.Number.Shortest

/-!
The remainder of a division that is cut toward zero. It has the sign of the dividend and is always
a double, so that it is computed on integers without rounding.
-/

namespace Spellcraft.Number

/-- `(m * 2 ^ q) % (n * 2 ^ r)` as a multiple of the smaller of the two powers. -/
def remainderOf (m : Nat) (q : Int) (n : Nat) (r : Int) : Nat × Int :=
  let least := min q r
  (m * raise 2 (q - least) % (n * raise 2 (r - least)), least)

def remainder (x y : Float) : Float :=
  match shape x, shape y with
  | .nan, _ | _, .nan | .infinite _, _ => notANumber
  | .finite .., .infinite _ => x
  | .finite negative m q, .finite _ n r =>
    if n = 0 then notANumber
    else
      let (d, k) := remainderOf m q n r
      let magnitude := (Float.ofNat d).scaleB k
      if negative then -magnitude else magnitude

end Spellcraft.Number
