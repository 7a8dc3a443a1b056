import Spellcraft.Language.Scan

namespace Spellcraft

structure Usage where
  keywords : List Keyword
  calls : List String
  choice : Bool

namespace Usage

def calledNames : List Token → List String
  | ⟨.name n, _⟩ :: rest =>
    match rest with
    | ⟨.symbol .openParen, _⟩ :: _ => n :: calledNames rest
    | _ => calledNames rest
  | _ :: rest => calledNames rest
  | [] => []

def ofTokens (ts : List Token) : Usage :=
  { keywords := ts.filterMap fun t => match t.kind with
      | .keyword k => some k
      | _ => none
    calls := calledNames ts
    choice := ts.any fun t => t.kind.isSymbol .question }

def conceptWords : List Keyword :=
  [.while_, .for_, .if_, .else_, .do_, .function, .return_, .break_, .continue_, .let_, .const,
   .var]

def hasAny (u : Usage) (ks : List Keyword) : Bool := ks.any fun k => k ∈ u.keywords

/-- A keyword, a group of keywords, or else the name of something that is called. -/
def meets (u : Usage) (concept : String) : Bool :=
  if concept = "loop" then u.hasAny [.while_, .for_, .do_]
  else if concept = "conditional" then u.hasAny [.if_] || u.choice
  else if concept = "variable" then u.hasAny [.let_, .const, .var]
  else match conceptWords.find? fun k => k.text = concept with
    | some k => u.hasAny [k]
    | none => u.calls.contains concept

end Usage

namespace Spell

def missingConcepts (source : String) (required : List String) : List String :=
  let u := Usage.ofTokens (scan source).1
  required.filter fun concept => !u.meets concept

end Spell

end Spellcraft
