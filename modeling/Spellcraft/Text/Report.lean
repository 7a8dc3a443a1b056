
namespace Spellcraft

structure Report (α : Type u) where
  kept : List α
  total : Nat
  deriving DecidableEq, Inhabited

namespace Report

def capacity : Nat := 20

def empty : Report α := ⟨[], 0⟩

def push (r : Report α) (a : α) : Report α :=
  ⟨if r.kept.length < capacity then r.kept ++ [a] else r.kept, r.total + 1⟩

def ofList (as : List α) : Report α := as.foldl push empty

/-- What `s` counted without keeping is counted here as well. -/
def extend (r s : Report α) : Report α :=
  let merged := s.kept.foldl push r
  { merged with total := merged.total + (s.total - s.kept.length) }

def isFull (r : Report α) : Bool := capacity ≤ r.total

def isClean (r : Report α) : Bool := r.total = 0

end Report

end Spellcraft
