import Spellcraft.Text.Span
import Spellcraft.Text.Report

namespace Spellcraft

inductive Category
  | form | scope | trap
  deriving DecidableEq

def Category.text : Category → String
  | .form => "syntax"
  | .scope => "scope"
  | .trap => "trap"

structure Code where
  number : Nat
  deriving DecidableEq, Inhabited

namespace Code

def unexpectedToken : Code := ⟨100⟩
def unclosedDelimiter : Code := ⟨101⟩
def unterminatedText : Code := ⟨102⟩
def unsupportedForm : Code := ⟨103⟩
def invalidTarget : Code := ⟨104⟩
def nestingLimit : Code := ⟨105⟩
def missingInitializer : Code := ⟨106⟩
def jumpOutsideLoop : Code := ⟨107⟩
def unknownCommand : Code := ⟨200⟩
def torchNotUnderfoot : Code := ⟨300⟩
def actionCeiling : Code := ⟨301⟩
def watchdog : Code := ⟨302⟩
def recursionLimit : Code := ⟨303⟩
def typeFault : Code := ⟨304⟩
def textTooLong : Code := ⟨305⟩

def category (c : Code) : Category :=
  if 200 ≤ c.number ∧ c.number ≤ 299 then .scope
  else if 300 ≤ c.number ∧ c.number ≤ 399 then .trap
  else .form

def text (c : Code) : String := s!"E{c.number}"

end Code

structure Diagnostic where
  code : Code
  message : String
  span : Span
  suggestion : Option String
  deriving DecidableEq, Inhabited

namespace Diagnostic

def text (d : Diagnostic) : String :=
  s!"{d.span.text}: {d.code.text} [{d.code.category.text}] {d.message}"

/-- The line a diagnostic starts on; empty where the source has no such line. -/
def sourceLine (d : Diagnostic) (source : String) : String :=
  (lineOf? source d.span.first.line).getD ""

end Diagnostic

end Spellcraft
