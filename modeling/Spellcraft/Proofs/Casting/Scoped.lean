import Spellcraft.Proofs.Casting.Steps

namespace Spellcraft

def Exit.isWatchdog : Exit → Bool
  | .trap (.outOfGas _) => true
  | _ => false

namespace Cast

def isOver : Except Exit α → Bool
  | .error e => e.isWatchdog
  | .ok _ => false

structure Scoped (p : Cast α) : Prop where
  apart (c : Casting) (trail : Trail) (gas calls : Nat) :
    p { c with trail, gas, calls } = ((p c).1, { (p c).2 with trail, gas, calls })
  isOver_eq (c : Casting) : isOver (p c).1 = false

namespace Scoped

theorem lookup (name : String) (span : Span) : Scoped (lookup name span) := by
  constructor
  · intro c trail gas calls
    simp only [Cast.lookup, get_bind_apply]
    cases c.store.get? name c.current <;> rfl
  · intro c
    simp only [Cast.lookup, get_bind_apply]
    cases c.store.get? name c.current <;> rfl

theorem assign (target : Ident) (v : Value) : Scoped (assign target v) := by
  constructor
  · intro c trail gas calls
    simp only [Cast.assign, get_bind_apply]
    cases c.store.find? target.name c.current with
    | none => rfl
    | some i =>
      cases c.store.get? target.name c.current with
      | none => rfl
      | some b => cases hb : b.constant <;> simp [hb, fault]
  · intro c
    simp only [Cast.assign, get_bind_apply]
    cases c.store.find? target.name c.current with
    | none => rfl
    | some i =>
      cases c.store.get? target.name c.current with
      | none => rfl
      | some b => cases hb : b.constant <;> simp [hb, fault, isOver, Exit.isWatchdog]

theorem declareVar (name : String) (v : Option Value) : Scoped (declareVar name v) := by
  constructor
  · intro c trail gas calls
    simp only [Cast.declareVar, modify_apply]
    split <;> rfl
  · intro c
    rfl

theorem declareLocal (name : Ident) (v : Option Value) (constant : Bool) :
    Scoped (declareLocal name v constant) := by
  constructor
  · intro c trail gas calls
    simp only [Cast.declareLocal, get_bind_apply]
    split <;> rfl
  · intro c
    simp only [Cast.declareLocal, get_bind_apply]
    split <;> rfl

theorem declareFunction (name : Ident) (params : List Ident) (body : List Stmt) :
    Scoped (declareFunction name params body) :=
  ⟨fun _ _ _ _ => rfl, fun _ => rfl⟩

variable {p : Cast α}

theorem trail_eq (h : Scoped p) (c : Casting) : (p c).2.trail = c.trail :=
  congrArg (·.2.trail) (h.apart c c.trail c.gas c.calls)

theorem gas_eq (h : Scoped p) (c : Casting) : (p c).2.gas = c.gas :=
  congrArg (·.2.gas) (h.apart c c.trail c.gas c.calls)

theorem calls_eq (h : Scoped p) (c : Casting) : (p c).2.calls = c.calls :=
  congrArg (·.2.calls) (h.apart c c.trail c.gas c.calls)

theorem apart_trail (h : Scoped p) (c : Casting) (trail : Trail) :
    p { c with trail } = ((p c).1, { (p c).2 with trail }) := by
  calc
    p { c with trail } = ((p c).1, { (p c).2 with trail, gas := c.gas, calls := c.calls }) :=
      h.apart c trail c.gas c.calls
    _ = ((p c).1, { (p c).2 with trail }) := by rw [← h.gas_eq c, ← h.calls_eq c]

end Scoped

end Cast

end Spellcraft
