import Spellcraft.Language.Tree

namespace Spellcraft

mutual

def Expr.references : Expr → List Ident
  | .number .. | .text .. | .bool .. | .null _ => []
  | .name span n => [⟨n, span⟩]
  | .call _ callee args => callee.references ++ argumentReferences args
  | .unary _ _ e | .paren _ e => e.references
  | .binary _ _ a b | .logical _ _ a b => a.references ++ b.references
  | .conditional _ c a b => c.references ++ a.references ++ b.references
  | .assign _ _ target value => target :: value.references
  | .update _ _ _ target => [target]

def argumentReferences : List Expr → List Ident
  | [] => []
  | e :: es => e.references ++ argumentReferences es

end

def optionReferences : Option Expr → List Ident
  | none => []
  | some e => e.references

def Declaration.references (d : Declaration) : List Ident :=
  d.declarators.flatMap fun v => optionReferences v.init

def Declaration.names (d : Declaration) : List String := d.declarators.map (·.name.name)

def ForInit.references : ForInit → List Ident
  | .absent => []
  | .declare d => d.references
  | .expr e => e.references

def ForInit.declared : ForInit → List String
  | .declare d => d.names
  | .absent | .expr _ => []

def Declaration.vars (d : Declaration) : List String :=
  if d.kind = .var then d.names else []

def ForInit.vars : ForInit → List String
  | .declare d => d.vars
  | .absent | .expr _ => []

mutual

def Stmt.references : Stmt → List Ident
  | .declare d => d.references
  | .function _ _ _ _ body => bodyReferences body
  | .branch _ c yes no => c.references ++ yes.references ++ elseReferences no
  | .while_ _ c body => c.references ++ body.references
  | .doWhile _ body c => body.references ++ c.references
  | .for_ _ init c update body =>
    init.references ++ optionReferences c ++ optionReferences update ++ body.references
  | .block _ body => bodyReferences body
  | .return_ _ value => optionReferences value
  | .expr _ e => e.references
  | .break_ _ | .continue_ _ | .empty _ => []

def elseReferences : Option Stmt → List Ident
  | none => []
  | some s => s.references

def bodyReferences : List Stmt → List Ident
  | [] => []
  | s :: rest => s.references ++ bodyReferences rest

end

mutual

def Stmt.declared : Stmt → List String
  | .declare d => d.names
  | .function _ name params _ body => name.name :: (params.map Ident.name ++ bodyDeclared body)
  | .branch _ _ yes no => yes.declared ++ elseDeclared no
  | .while_ _ _ body | .doWhile _ body _ => body.declared
  | .for_ _ init _ _ body => init.declared ++ body.declared
  | .block _ body => bodyDeclared body
  | .return_ .. | .break_ _ | .continue_ _ | .expr .. | .empty _ => []

def elseDeclared : Option Stmt → List String
  | none => []
  | some s => s.declared

def bodyDeclared : List Stmt → List String
  | [] => []
  | s :: rest => s.declared ++ bodyDeclared rest

end

mutual

/-- The `var` names of a statement, those in its blocks and loops included, those of the functions
in it not. -/
def Stmt.vars : Stmt → List String
  | .declare d => d.vars
  | .branch _ _ yes no => yes.vars ++ elseVars no
  | .while_ _ _ body | .doWhile _ body _ => body.vars
  | .for_ _ init _ _ body => init.vars ++ body.vars
  | .block _ body => bodyVars body
  | .function .. | .return_ .. | .break_ _ | .continue_ _ | .expr .. | .empty _ => []

def elseVars : Option Stmt → List String
  | none => []
  | some s => s.vars

def bodyVars : List Stmt → List String
  | [] => []
  | s :: rest => s.vars ++ bodyVars rest

end

def Program.references (p : Program) : List Ident := bodyReferences p.body

def Program.declared (p : Program) : List String := bodyDeclared p.body

end Spellcraft
