import Spellcraft.Language.ParseStmt
import Spellcraft.Proofs.Language.Levels

/-!
A tree written out: the kinds of its tokens in reading order, with a semicolon behind each simple
statement and behind `do stmt while (cond)`. Beside it what a writing leaves of a tree, which is all
but the spans, and what is left of a writing without the marks that only hold its parts together.
-/

namespace Spellcraft

def Operator.symbol : Operator → Symbol
  | .binary .add => .plus
  | .binary .sub => .minus
  | .binary .mul => .star
  | .binary .div => .slash
  | .binary .rem => .percent
  | .binary .looseEq => .looseEq
  | .binary .looseNe => .looseNe
  | .binary .strictEq => .strictEq
  | .binary .strictNe => .strictNe
  | .binary .less => .less
  | .binary .greater => .greater
  | .binary .lessEq => .lessEq
  | .binary .greaterEq => .greaterEq
  | .logical .and => .and
  | .logical .or => .or

theorem Operator.eq_symbol (h : ofKind? n k = some op) : k = .symbol op.symbol := by
  unfold ofKind? ofSymbol? at h
  split at h
  · split at h <;> cases h <;> rfl
  · cases h

def AssignOp.symbol : AssignOp → Symbol
  | .set => .assign
  | .add => .plusAssign
  | .sub => .minusAssign
  | .mul => .starAssign
  | .div => .slashAssign
  | .rem => .percentAssign

theorem AssignOp.eq_symbol (h : ofKind? k = some op) : k = .symbol op.symbol := by
  unfold ofKind? at h
  split at h <;> cases h <;> rfl

def UnaryOp.symbol : UnaryOp → Symbol
  | .not => .not
  | .neg => .minus
  | .plus => .plus

theorem UnaryOp.eq_symbol (h : ofKind? k = some op) : k = .symbol op.symbol := by
  unfold ofKind? at h
  split at h <;> cases h <;> rfl

def UpdateOp.symbol : UpdateOp → Symbol
  | .increment => .plusPlus
  | .decrement => .minusMinus

theorem UpdateOp.eq_symbol (h : ofKind? k = some op) : k = .symbol op.symbol := by
  unfold ofKind? at h
  split at h <;> cases h <;> rfl

def DeclKind.keyword : DeclKind → Keyword
  | .let_ => .let_
  | .const => .const
  | .var => .var

theorem DeclKind.eq_keyword (h : ofKind? k = some kind) : k = .keyword kind.keyword := by
  unfold ofKind? at h
  split at h <;> cases h <;> rfl

def commas : List (List Kind) → List Kind
  | [] => []
  | w :: ws => w ++ ws.flatMap (.symbol .comma :: ·)

mutual

def Expr.writing : Expr → List Kind
  | .number _ x => [.number x]
  | .text _ s => [.text s]
  | .bool _ b => [.keyword (if b then .true_ else .false_)]
  | .null _ => [.keyword .null]
  | .name _ n => [.name n]
  | .call _ callee args =>
    callee.writing ++ .symbol .openParen :: commas (argumentWritings args) ++ [.symbol .closeParen]
  | .unary _ op e => .symbol op.symbol :: e.writing
  | .binary _ op a b => a.writing ++ .symbol (Operator.binary op).symbol :: b.writing
  | .logical _ op a b => a.writing ++ .symbol (Operator.logical op).symbol :: b.writing
  | .conditional _ c a b =>
    c.writing ++ .symbol .question :: a.writing ++ .symbol .colon :: b.writing
  | .assign _ op target value => .name target.name :: .symbol op.symbol :: value.writing
  | .update _ op true target => [.symbol op.symbol, .name target.name]
  | .update _ op false target => [.name target.name, .symbol op.symbol]
  | .paren _ e => .symbol .openParen :: e.writing ++ [.symbol .closeParen]

def argumentWritings : List Expr → List (List Kind)
  | [] => []
  | e :: es => e.writing :: argumentWritings es

end

theorem argumentWritings_eq (es : List Expr) : argumentWritings es = es.map Expr.writing := by
  induction es with
  | nil => rfl
  | cons e es ih => rw [argumentWritings, ih, List.map_cons]

def optionWriting : Option Expr → List Kind
  | none => []
  | some e => e.writing

def Declarator.writing (v : Declarator) : List Kind :=
  .name v.name.name :: match v.init with
    | none => []
    | some e => .symbol .assign :: e.writing

def Declaration.writing (d : Declaration) : List Kind :=
  .keyword d.kind.keyword :: commas (d.declarators.map Declarator.writing)

def ForInit.writing : ForInit → List Kind
  | .absent => []
  | .declare d => d.writing
  | .expr e => e.writing

def parenthesised (c : Expr) : List Kind :=
  .symbol .openParen :: c.writing ++ [.symbol .closeParen]

def semicolon : List Kind := [.symbol .semicolon]

mutual

def Stmt.writing : Stmt → List Kind
  | .declare d => d.writing ++ semicolon
  | .function _ name params _ body =>
    .keyword .function :: .name name.name :: .symbol .openParen ::
      commas (params.map fun p => [.name p.name]) ++
      .symbol .closeParen :: .symbol .openBrace :: bodyWriting body ++ [.symbol .closeBrace]
  | .branch _ c yes no => .keyword .if_ :: parenthesised c ++ yes.writing ++ elseWriting no
  | .while_ _ c body => .keyword .while_ :: parenthesised c ++ body.writing
  | .doWhile _ body c =>
    .keyword .do_ :: body.writing ++ .keyword .while_ :: parenthesised c ++ semicolon
  | .for_ _ init c update body =>
    .keyword .for_ :: .symbol .openParen :: init.writing ++ semicolon ++ optionWriting c ++
      semicolon ++ optionWriting update ++ .symbol .closeParen :: body.writing
  | .block _ body => .symbol .openBrace :: bodyWriting body ++ [.symbol .closeBrace]
  | .return_ _ value => .keyword .return_ :: optionWriting value ++ semicolon
  | .break_ _ => .keyword .break_ :: semicolon
  | .continue_ _ => .keyword .continue_ :: semicolon
  | .expr _ e => e.writing ++ semicolon
  | .empty _ => semicolon

def elseWriting : Option Stmt → List Kind
  | none => []
  | some s => .keyword .else_ :: s.writing

def bodyWriting : List Stmt → List Kind
  | [] => []
  | s :: rest => s.writing ++ bodyWriting rest

end

theorem bodyWriting_eq (body : List Stmt) : bodyWriting body = body.flatMap Stmt.writing := by
  induction body with
  | nil => rfl
  | cons s rest ih => rw [bodyWriting, ih, List.flatMap_cons]

def Program.writing (p : Program) : List Kind := bodyWriting p.body

theorem Expr.writing_ne_nil (e : Expr) : e.writing ≠ [] := by
  cases e with
  | update _ _ before => cases before <;> simp [writing]
  | _ => simp [writing]

theorem Stmt.writing_ne_nil (s : Stmt) : s.writing ≠ [] := by
  cases s <;> simp [writing, Declaration.writing, semicolon]

/-- Semicolons, commas and parentheses; all but the last may stand or be left out in places. -/
def Kind.isMark (k : Kind) : Bool :=
  k.isSymbol .semicolon || k.isSymbol .comma || k.isSymbol .openParen || k.isSymbol .closeParen

def skeleton (ks : List Kind) : List Kind := ks.filter (!·.isMark)

@[simp] theorem skeleton_nil : skeleton [] = [] := rfl

@[simp] theorem skeleton_append (ks ls : List Kind) :
    skeleton (ks ++ ls) = skeleton ks ++ skeleton ls := List.filter_append ..

theorem skeleton_cons (k : Kind) (ks : List Kind) :
    skeleton (k :: ks) = skeleton [k] ++ skeleton ks := skeleton_append [k] ks

@[simp] theorem Kind.isMark_symbol (s : Symbol) : (symbol s).isMark =
    (s = .semicolon || s = .comma || s = .openParen || s = .closeParen) := rfl

@[simp] theorem skeleton_mark {k : Kind} (ks : List Kind) (h : k.isMark = true) :
    skeleton (k :: ks) = skeleton ks := List.filter_cons_of_neg (by simpa using h)

theorem skeleton_commas (ws : List (List Kind)) : skeleton (commas ws) = skeleton ws.flatten := by
  have follows (ws : List (List Kind)) :
      skeleton (ws.flatMap (.symbol .comma :: ·)) = skeleton ws.flatten := by
    induction ws with
    | nil => rfl
    | cons w ws ih => simp [ih]
  cases ws with
  | nil => rfl
  | cons w ws => simp [commas, follows]

def Ident.bare (i : Ident) : Ident := ⟨i.name, .point .origin⟩

mutual

def Expr.bare : Expr → Expr
  | .number _ x => .number (.point .origin) x
  | .text _ s => .text (.point .origin) s
  | .bool _ b => .bool (.point .origin) b
  | .null _ => .null (.point .origin)
  | .name _ n => .name (.point .origin) n
  | .call _ callee args => .call (.point .origin) callee.bare (bareArguments args)
  | .unary _ op e => .unary (.point .origin) op e.bare
  | .binary _ op a b => .binary (.point .origin) op a.bare b.bare
  | .logical _ op a b => .logical (.point .origin) op a.bare b.bare
  | .conditional _ c a b => .conditional (.point .origin) c.bare a.bare b.bare
  | .assign _ op target value => .assign (.point .origin) op target.bare value.bare
  | .update _ op before target => .update (.point .origin) op before target.bare
  | .paren _ e => .paren (.point .origin) e.bare

def bareArguments : List Expr → List Expr
  | [] => []
  | e :: es => e.bare :: bareArguments es

end

theorem bareArguments_eq (es : List Expr) : bareArguments es = es.map Expr.bare := by
  induction es with
  | nil => rfl
  | cons e es ih => rw [bareArguments, ih, List.map_cons]

def Declarator.bare (v : Declarator) : Declarator := ⟨v.name.bare, v.init.map Expr.bare⟩

def Declaration.bare (d : Declaration) : Declaration :=
  ⟨d.kind, d.declarators.map Declarator.bare, .point .origin⟩

def ForInit.bare : ForInit → ForInit
  | .absent => .absent
  | .declare d => .declare d.bare
  | .expr e => .expr e.bare

mutual

def Stmt.bare : Stmt → Stmt
  | .declare d => .declare d.bare
  | .function _ name params _ body =>
    .function (.point .origin) name.bare (params.map Ident.bare) (.point .origin) (bareBody body)
  | .branch _ c yes no => .branch (.point .origin) c.bare yes.bare (bareElse no)
  | .while_ _ c body => .while_ (.point .origin) c.bare body.bare
  | .doWhile _ body c => .doWhile (.point .origin) body.bare c.bare
  | .for_ _ init c update body =>
    .for_ (.point .origin) init.bare (c.map Expr.bare) (update.map Expr.bare) body.bare
  | .block _ body => .block (.point .origin) (bareBody body)
  | .return_ _ value => .return_ (.point .origin) (value.map Expr.bare)
  | .break_ _ => .break_ (.point .origin)
  | .continue_ _ => .continue_ (.point .origin)
  | .expr _ e => .expr (.point .origin) e.bare
  | .empty _ => .empty (.point .origin)

def bareElse : Option Stmt → Option Stmt
  | none => none
  | some s => some s.bare

def bareBody : List Stmt → List Stmt
  | [] => []
  | s :: rest => s.bare :: bareBody rest

end

theorem bareBody_eq (body : List Stmt) : bareBody body = body.map Stmt.bare := by
  induction body with
  | nil => rfl
  | cons s rest ih => rw [bareBody, ih, List.map_cons]

def Program.bare (p : Program) : Program := ⟨bareBody p.body, .point .origin⟩

end Spellcraft
