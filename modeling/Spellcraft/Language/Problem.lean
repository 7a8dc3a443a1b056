import Spellcraft.Text.Diagnostic

namespace Spellcraft

inductive Problem
  | openComment
  | templateText
  | halfOperator (c : Char)
  | strangeCharacter (c : Char)
  | openText (quote : Char)
  | strangeEscape (c : Char)
  | cutEscape
  | missingSemicolon (got : String)
  | missing (wanted got : String)
  | unclosed (wanted got : String) (openLine : Nat) (atEnd : Bool)
  | reservedName (word : String)
  | missingName (got : String)
  | tooDeep (limit : Nat)
  | unmatchedBrace
  | strayElse
  | missingInitializer (name : String)
  | namelessFunction
  | forEach
  | jumpOutsideLoop (word : String)
  | assignmentTarget
  | updateTarget
  | memberAccess
  | indexing
  | arrayLiteral
  | objectLiteral
  | functionExpression
  | missingExpression (got : String)
  deriving DecidableEq

namespace Problem

def code : Problem → Code
  | .openComment => .unclosedDelimiter
  | .templateText => .unsupportedForm
  | .halfOperator _ | .strangeCharacter _ | .strangeEscape _ => .unexpectedToken
  | .openText _ | .cutEscape => .unterminatedText
  | .missingSemicolon _ | .missing .. | .reservedName _ | .missingName _ => .unexpectedToken
  | .unclosed _ _ _ atEnd => if atEnd then .unclosedDelimiter else .unexpectedToken
  | .tooDeep _ => .nestingLimit
  | .unmatchedBrace | .strayElse | .namelessFunction | .missingExpression _ => .unexpectedToken
  | .missingInitializer _ => .missingInitializer
  | .jumpOutsideLoop _ => .jumpOutsideLoop
  | .assignmentTarget | .updateTarget => .invalidTarget
  | .forEach | .memberAccess | .indexing | .arrayLiteral | .objectLiteral
  | .functionExpression => .unsupportedForm

def message : Problem → String
  | .openComment => "Unterminated block comment"
  | .templateText => "Template strings are not available in spells"
  | .halfOperator c | .strangeCharacter c => s!"Unexpected character '{c}'"
  | .openText _ => "Unterminated string literal"
  | .strangeEscape c => "Invalid escape sequence '\\" ++ c.toString ++ "'"
  | .cutEscape => "Unexpected end of spell in escape sequence"
  | .missingSemicolon got => s!"expected ';' after statement, got '{got}'"
  | .missing wanted got | .unclosed wanted got _ _ => s!"expected '{wanted}', got '{got}'"
  | .reservedName word => s!"'{word}' is a reserved word and cannot be used as a name"
  | .missingName got => s!"expected a name, got '{got}'"
  | .tooDeep limit => s!"spell is nested too deeply (more than {limit} levels)"
  | .unmatchedBrace => "unmatched '\x7d'"
  | .strayElse => "'else' must follow the statement of an 'if'"
  | .missingInitializer name => s!"const '{name}' must be given a value"
  | .namelessFunction => "a function needs a name"
  | .forEach => "for...in and for...of loops are not available in spells"
  | .jumpOutsideLoop word => s!"'{word}' can only be used inside a loop"
  | .assignmentTarget => "you can only assign to a variable name"
  | .updateTarget => "'++' and '--' only work on a variable name"
  | .memberAccess => "'.' (member access) is not available in spells"
  | .indexing => "indexing with '[ ]' is not available in spells"
  | .arrayLiteral => "array literals are not available in spells"
  | .objectLiteral => "object literals are not available in spells"
  | .functionExpression => "function expressions are not available in spells"
  | .missingExpression got => s!"expected an expression, got '{got}'"

def suggestion : Problem → Option String
  | .openComment => some "Close the comment with */"
  | .templateText => some "Use \"double\" or 'single' quotes"
  | .halfOperator c => some s!"Did you mean '{c}{c}'?"
  | .openText quote => some s!"Close the string with {quote}"
  | .unclosed _ _ openLine _ => some s!"the opening bracket is on line {openLine}"
  | .missingInitializer name => some s!"write it as: const {name} = ...;"
  | .namelessFunction => some "write it as: function name() \x7b ... \x7d"
  | .forEach => some "use a counting loop: for (let i = 0; i < 3; i++) \x7b ... \x7d"
  | .assignmentTarget | .updateTarget => some "put a variable name there, like: steps = steps + 1"
  | .memberAccess => some "call spell commands directly, like moveRight()"
  | .indexing | .objectLiteral => some "keep each value in its own variable"
  | .arrayLiteral => some "repeat commands with a loop instead of a list"
  | .functionExpression => some "declare a named function: function name() \x7b ... \x7d"
  | _ => none

def located (p : Problem) (span : Span) : Diagnostic := ⟨p.code, p.message, span, p.suggestion⟩

end Problem

end Spellcraft
