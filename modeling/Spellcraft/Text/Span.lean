/-!
Where something stands in a text: places are lines and columns from 1, a column is one character.
A span runs from the place of its first character to the place of its last.
-/

namespace Spellcraft

structure Place where
  line : Nat
  col : Nat
  deriving DecidableEq, Inhabited

namespace Place

def origin : Place := ⟨1, 1⟩

protected def Le (p q : Place) : Prop := p.line < q.line ∨ p.line = q.line ∧ p.col ≤ q.col

instance : LE Place := ⟨Place.Le⟩

instance (p q : Place) : Decidable (p ≤ q) :=
  inferInstanceAs (Decidable (p.line < q.line ∨ p.line = q.line ∧ p.col ≤ q.col))

theorem le_def {p q : Place} :
    p ≤ q ↔ p.line < q.line ∨ p.line = q.line ∧ p.col ≤ q.col := Iff.rfl

def earlier (p q : Place) : Place := if p ≤ q then p else q

def later (p q : Place) : Place := if p ≤ q then q else p

def next (p : Place) (c : Char) : Place :=
  if c = '\n' then ⟨p.line + 1, 1⟩ else ⟨p.line, p.col + 1⟩

def after (p : Place) (cs : List Char) : Place := cs.foldl next p

def back (p : Place) : Place := ⟨p.line, max (p.col - 1) 1⟩

@[simp] theorem after_nil (p : Place) : p.after [] = p := rfl

@[simp] theorem after_cons (p : Place) (c : Char) (cs : List Char) :
    p.after (c :: cs) = (p.next c).after cs := rfl

theorem after_append (p : Place) (cs ds : List Char) :
    p.after (cs ++ ds) = (p.after cs).after ds := List.foldl_append

end Place

structure Span where
  first : Place
  last : Place
  deriving DecidableEq, Inhabited

namespace Span

def point (p : Place) : Span := ⟨p, p⟩

def merge (a b : Span) : Span := ⟨a.first.earlier b.first, a.last.later b.last⟩

def text (s : Span) : String := s!"{s.first.line}:{s.first.col}"

end Span

/-- The lines of a text, each without the newline that ends it. -/
def splitLines : List Char → List (List Char)
  | [] => [[]]
  | c :: cs =>
    if c = '\n' then [] :: splitLines cs
    else match splitLines cs with
      | [] => [[c]]
      | line :: rest => (c :: line) :: rest

def dropReturn : List Char → List Char
  | [] => []
  | ['\r'] => []
  | c :: cs => c :: dropReturn cs

def lineOf? (source : String) : Nat → Option String
  | 0 => none
  | n + 1 => (splitLines source.toList)[n]?.map fun line => String.ofList (dropReturn line)

end Spellcraft
