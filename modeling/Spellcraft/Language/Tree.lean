import Spellcraft.Text.Span

namespace Spellcraft

structure Ident where
  name : String
  span : Span
  deriving DecidableEq, Inhabited

inductive UnaryOp
  | not | neg | plus
  deriving DecidableEq

inductive BinaryOp
  | add | sub | mul | div | rem
  | looseEq | looseNe | strictEq | strictNe
  | less | greater | lessEq | greaterEq
  deriving DecidableEq

inductive LogicalOp
  | and | or
  deriving DecidableEq

inductive AssignOp
  | set | add | sub | mul | div | rem
  deriving DecidableEq

def AssignOp.binary? : AssignOp → Option BinaryOp
  | .set => none
  | .add => some .add
  | .sub => some .sub
  | .mul => some .mul
  | .div => some .div
  | .rem => some .rem

inductive UpdateOp
  | increment | decrement
  deriving DecidableEq

inductive Expr
  | number : Span → Float → Expr
  | text : Span → String → Expr
  | bool : Span → Bool → Expr
  | null : Span → Expr
  | name : Span → String → Expr
  | call : Span → Expr → List Expr → Expr
  | unary : Span → UnaryOp → Expr → Expr
  | binary : Span → BinaryOp → Expr → Expr → Expr
  | logical : Span → LogicalOp → Expr → Expr → Expr
  | conditional : Span → Expr → Expr → Expr → Expr
  | assign : Span → AssignOp → Ident → Expr → Expr
  | update (span : Span) (op : UpdateOp) (before : Bool) (target : Ident) : Expr
  | paren : Span → Expr → Expr
  deriving Inhabited

def Expr.span : Expr → Span
  | .number s _ | .text s _ | .bool s _ | .null s | .name s _ | .call s _ _ | .unary s _ _
  | .binary s _ _ _ | .logical s _ _ _ | .conditional s _ _ _ | .assign s _ _ _
  | .update s _ _ _ | .paren s _ => s

inductive DeclKind
  | let_ | const | var
  deriving DecidableEq

structure Declarator where
  name : Ident
  init : Option Expr
  deriving Inhabited

structure Declaration where
  kind : DeclKind
  declarators : List Declarator
  span : Span

inductive ForInit
  | absent : ForInit
  | declare : Declaration → ForInit
  | expr : Expr → ForInit

inductive Stmt
  | declare : Declaration → Stmt
  | function (span : Span) (name : Ident) (params : List Ident) (bodySpan : Span)
      (body : List Stmt) : Stmt
  | branch : Span → Expr → Stmt → Option Stmt → Stmt
  | while_ : Span → Expr → Stmt → Stmt
  | doWhile : Span → Stmt → Expr → Stmt
  | for_ : Span → ForInit → Option Expr → Option Expr → Stmt → Stmt
  | block : Span → List Stmt → Stmt
  | return_ : Span → Option Expr → Stmt
  | break_ : Span → Stmt
  | continue_ : Span → Stmt
  | expr : Span → Expr → Stmt
  | empty : Span → Stmt
  deriving Inhabited

def Stmt.span : Stmt → Span
  | .declare d => d.span
  | .function s _ _ _ _ | .branch s _ _ _ | .while_ s _ _ | .doWhile s _ _ | .for_ s _ _ _ _
  | .block s _ | .return_ s _ | .break_ s | .continue_ s | .expr s _ | .empty s => s

structure Program where
  body : List Stmt
  span : Span
  deriving Inhabited

end Spellcraft
