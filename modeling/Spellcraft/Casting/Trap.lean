import Spellcraft.Maze.Position
import Spellcraft.Text.Diagnostic

namespace Spellcraft

inductive TypeFault
  | redeclared (name : String)
  | constant (name : String)
  | notCallable (callee : Option String) (kind : String)
  | strayJump (word : String)
  deriving DecidableEq

def TypeFault.text : TypeFault → String
  | .redeclared name => s!"`{name}` has already been declared in this block."
  | .constant name => s!"`{name}` cannot be changed. Use `let` for values that change."
  | .notCallable (some name) kind => s!"`{name}` is not a function, it is {kind}."
  | .notCallable none kind => s!"This value is not a function, it is {kind}."
  | .strayJump word => s!"`{word}` used outside of its statement"

inductive Trap
  | noTorch (spot : Position) (span : Span)
  | tooManyActions (limit : Nat)
  | outOfGas (limit : Nat)
  | tooManyCalls (limit : Nat) (span : Span)
  | typeFault (fault : TypeFault) (span : Span)
  | textTooLong (limit : Nat) (span : Span)
  deriving DecidableEq

namespace Trap

def text : Trap → String
  | .noTorch spot _ => s!"You must be standing on a torch to light it (you are at {spot.text})."
  | .tooManyActions limit =>
    s!"Your spell produced more than {limit} actions. Did you write an infinite loop?"
  | .outOfGas _ => "Your spell ran for too long without finishing. Check for an infinite loop."
  | .tooManyCalls limit _ =>
    s!"Your spell called its own functions more than {limit} levels deep."
  | .typeFault fault _ => fault.text
  | .textTooLong limit _ =>
    s!"Your spell built a piece of text longer than {limit} characters."

def code : Trap → Code
  | .noTorch .. => .torchNotUnderfoot
  | .tooManyActions _ => .actionCeiling
  | .outOfGas _ => .watchdog
  | .tooManyCalls .. => .recursionLimit
  | .typeFault .. => .typeFault
  | .textTooLong .. => .textTooLong

def span? : Trap → Option Span
  | .noTorch _ s | .tooManyCalls _ s | .typeFault _ s | .textTooLong _ s => some s
  | .tooManyActions _ | .outOfGas _ => none

end Trap

end Spellcraft
