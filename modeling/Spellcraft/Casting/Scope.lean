import Spellcraft.Casting.Value

/-!
Scopes. A store only grows: a new scope is put at its end, and its parent was there before it. Names
are looked up outward from the current scope. The outermost scope holds what the spell was granted;
the one in it, the global scope, takes the spell's own declarations.
-/

namespace Spellcraft

structure Binding where
  value : Value
  constant : Bool
  deriving Inhabited

structure Scope where
  bindings : List (String × Binding)
  parent : Option Nat
  /-- Whether `var` declarations settle here. -/
  hosts : Bool
  deriving Inhabited

namespace Scope

def get? (s : Scope) (name : String) : Option Binding := s.bindings.lookup name

def setIn (name : String) (b : Binding) : List (String × Binding) → List (String × Binding)
  | [] => [(name, b)]
  | (n, c) :: rest => if n = name then (n, b) :: rest else (n, c) :: setIn name b rest

def set (s : Scope) (name : String) (b : Binding) : Scope :=
  { s with bindings := setIn name b s.bindings }

theorem lookup_setIn (name other : String) (b : Binding) (bs : List (String × Binding)) :
    (setIn name b bs).lookup other = if other = name then some b else bs.lookup other := by
  induction bs with
  | nil =>
    by_cases h : other = name
    · simp [setIn, h]
    · simp [setIn, List.lookup_cons, h, beq_eq_false_iff_ne.2 h]
  | cons head rest ih =>
    obtain ⟨n, c⟩ := head
    by_cases hn : n = name
    · subst hn
      by_cases h : other = n
      · simp [setIn, h]
      · simp [setIn, List.lookup_cons, h, beq_eq_false_iff_ne.2 h]
    · by_cases h : other = n
      · subst h; simp [setIn, hn]
      · simp [setIn, List.lookup_cons, hn, beq_eq_false_iff_ne.2 h, ih]

theorem get?_set (s : Scope) (name other : String) (b : Binding) :
    (s.set name b).get? other = if other = name then some b else s.get? other :=
  lookup_setIn name other b s.bindings

end Scope

abbrev Store := Array Scope

namespace Store

def builtins (grant : Grant) : Scope :=
  { bindings := (Grant.undefinedName, ⟨.undefined, true⟩)
      :: grant.commands.map fun c => (c.name, ⟨.command c, true⟩)
    parent := none
    hosts := false }

def initial (grant : Grant) : Store := #[builtins grant, ⟨[], some 0, true⟩]

def global : Nat := 1

def find? (st : Store) (name : String) (i : Nat) : Option Nat :=
  match st[i]? with
  | none => none
  | some s =>
    if (s.get? name).isSome then some i
    else match s.parent with
      | none => none
      | some p => if p < i then find? st name p else none
termination_by i

/-- The nearest scope from `i` outward that hosts `var` declarations. -/
def host (st : Store) (i : Nat) : Nat :=
  match st[i]? with
  | none => i
  | some s =>
    if s.hosts then i
    else match s.parent with
      | none => i
      | some p => if p < i then host st p else i
termination_by i

def get? (st : Store) (name : String) (i : Nat) : Option Binding := do
  let j ← st.find? name i
  (← st[j]?).get? name

def bind (st : Store) (i : Nat) (name : String) (b : Binding) : Store :=
  st.modify i (·.set name b)

def binds (st : Store) (i : Nat) (name : String) : Bool :=
  (st[i]?.bind (·.get? name)).isSome

end Store

end Spellcraft
