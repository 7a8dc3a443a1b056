import Spellcraft.Text.Span
import Spellcraft.Number.Decimal
import Spellcraft.Number.Shortest

namespace Spellcraft

inductive Keyword
  | let_ | const | var | function
  | if_ | else_ | while_ | do_ | for_ | return_ | break_ | continue_ | in_
  | true_ | false_ | null
  deriving DecidableEq, Inhabited

namespace Keyword

def all : List Keyword :=
  [.let_, .const, .var, .function, .if_, .else_, .while_, .do_, .for_, .return_, .break_,
   .continue_, .in_, .true_, .false_, .null]

def text : Keyword → String
  | .let_ => "let"
  | .const => "const"
  | .var => "var"
  | .function => "function"
  | .if_ => "if"
  | .else_ => "else"
  | .while_ => "while"
  | .do_ => "do"
  | .for_ => "for"
  | .return_ => "return"
  | .break_ => "break"
  | .continue_ => "continue"
  | .in_ => "in"
  | .true_ => "true"
  | .false_ => "false"
  | .null => "null"

def ofText? (s : String) : Option Keyword := all.find? fun k => k.text = s

@[simp] theorem ofText?_text (k : Keyword) : ofText? k.text = some k := by cases k <;> decide

end Keyword

inductive Symbol
  | plus | minus | star | slash | percent | plusPlus | minusMinus
  | assign | plusAssign | minusAssign | starAssign | slashAssign | percentAssign
  | looseEq | strictEq | looseNe | strictNe | less | greater | lessEq | greaterEq
  | and | or | not | question | colon
  | openParen | closeParen | openBrace | closeBrace | comma | semicolon
  | dot | openBracket | closeBracket
  deriving DecidableEq, Inhabited

namespace Symbol

/-- Longer spellings stand before those they begin with. -/
def all : List Symbol :=
  [.strictEq, .strictNe,
   .plusPlus, .minusMinus, .plusAssign, .minusAssign, .starAssign, .slashAssign, .percentAssign,
   .looseEq, .looseNe, .lessEq, .greaterEq, .and, .or,
   .plus, .minus, .star, .slash, .percent, .assign, .less, .greater, .not, .question, .colon,
   .openParen, .closeParen, .openBrace, .closeBrace, .comma, .semicolon, .dot, .openBracket,
   .closeBracket]

def text : Symbol → String
  | .plus => "+"
  | .minus => "-"
  | .star => "*"
  | .slash => "/"
  | .percent => "%"
  | .plusPlus => "++"
  | .minusMinus => "--"
  | .assign => "="
  | .plusAssign => "+="
  | .minusAssign => "-="
  | .starAssign => "*="
  | .slashAssign => "/="
  | .percentAssign => "%="
  | .looseEq => "=="
  | .strictEq => "==="
  | .looseNe => "!="
  | .strictNe => "!=="
  | .less => "<"
  | .greater => ">"
  | .lessEq => "<="
  | .greaterEq => ">="
  | .and => "&&"
  | .or => "||"
  | .not => "!"
  | .question => "?"
  | .colon => ":"
  | .openParen => "("
  | .closeParen => ")"
  | .openBrace => "\x7b"
  | .closeBrace => "\x7d"
  | .comma => ","
  | .semicolon => ";"
  | .dot => "."
  | .openBracket => "["
  | .closeBracket => "]"

def read? (cs : List Char) : Option Symbol := all.find? fun s => s.text.toList.isPrefixOf cs

theorem mem_all (s : Symbol) : s ∈ all := by cases s <;> decide

end Symbol

def Number.plain : Number.Spelling := ⟨"NaN", "inf", true⟩

inductive Kind
  | number : Float → Kind
  | text : String → Kind
  | name : String → Kind
  | keyword : Keyword → Kind
  | symbol : Symbol → Kind
  | eof : Kind
  deriving Inhabited

namespace Kind

def shown : Kind → String
  | .number x => Number.render Number.plain x
  | .text s => "\"" ++ s ++ "\""
  | .name s => s
  | .keyword k => k.text
  | .symbol s => s.text
  | .eof => "end of file"

def isSymbol (k : Kind) (s : Symbol) : Bool :=
  match k with
  | .symbol t => t = s
  | _ => false

def isKeyword (k : Kind) (w : Keyword) : Bool :=
  match k with
  | .keyword v => v = w
  | _ => false

def isName : Kind → Bool
  | .name _ => true
  | _ => false

def isEof : Kind → Bool
  | .eof => true
  | _ => false

def ofWord (s : String) : Kind :=
  match Keyword.ofText? s with
  | some k => .keyword k
  | none => .name s

end Kind

structure Token where
  kind : Kind
  span : Span
  deriving Inhabited

end Spellcraft
