import Spellcraft.Casting.Eval

namespace Spellcraft.Cast

@[simp] theorem pure_apply (a : α) (c : Casting) : (pure a : Cast α) c = (.ok a, c) := rfl

@[simp] theorem throw_apply (e : Exit) (c : Casting) : (throw e : Cast α) c = (.error e, c) := rfl

@[simp] theorem get_apply (c : Casting) : (get : Cast Casting) c = (.ok c, c) := rfl

@[simp] theorem set_apply (c d : Casting) : (set d : Cast Unit) c = (.ok (), d) := rfl

@[simp] theorem modify_apply (f : Casting → Casting) (c : Casting) :
    (modify f : Cast Unit) c = (.ok (), f c) := rfl

def next (f : α → Cast β) : Except Exit α × Casting → Except Exit β × Casting
  | (.ok a, c) => f a c
  | (.error e, c) => (.error e, c)

theorem bind_apply (p : Cast α) (f : α → Cast β) (c : Casting) : (p >>= f) c = next f (p c) := by
  change (ExceptT.bindCont f (p c).1 : StateM Casting _) (p c).2 = _
  rcases p c with ⟨_ | _, d⟩ <;> rfl

@[simp] theorem get_bind_apply (f : Casting → Cast β) (c : Casting) : (get >>= f) c = f c c := rfl

@[simp] theorem modify_bind_apply (g : Casting → Casting) (f : Unit → Cast β) (c : Casting) :
    (modify g >>= f) c = f () (g c) := rfl

theorem discard_eq (p : Cast α) : discard p = p >>= fun _ => pure () := by
  change (fun _ => ()) <$> p = _
  rw [map_eq_pure_bind]

def settle (h : Except Exit α → Except Exit β) (p : Cast α) : Cast β :=
  fun c => (h (p c).1, (p c).2)

def takeReturn : Except Exit Unit → Except Exit Value
  | .ok _ => .ok .undefined
  | .error (.return_ v) => .ok v
  | .error e => .error e

def takeEnd : Except Exit Unit → Except Exit Unit
  | .error (.return_ _) => .ok ()
  | r => r

def takeJump : Except Exit Unit → Except Exit Bool
  | .ok _ | .error .continue_ => .ok true
  | .error .break_ => .ok false
  | .error e => .error e

theorem returned_eq (p : Cast Unit) : returned p = settle takeReturn p := by
  funext c
  simp only [returned, settle]
  rcases p c with ⟨e | _, d⟩
  · cases e <;> rfl
  · rfl

theorem loopBody_eq (p : Cast Unit) : loopBody p = settle takeJump p := by
  funext c
  simp only [loopBody, settle]
  rcases p c with ⟨e | _, d⟩
  · cases e <;> rfl
  · rfl

theorem runBody_eq (exec : Stmt → Cast Unit) (body : List Stmt) :
    runBody exec body = hoistVars body >>= fun _ => settle takeEnd (execList exec body) := by
  rw [runBody, discard_eq, returned_eq]
  congr 1
  funext _ c
  rw [bind_apply]
  simp only [settle]
  rcases execList exec body c with ⟨e | _, d⟩
  · cases e <;> rfl
  · rfl

theorem tick_apply (limits : Limits) (c : Casting) :
    tick limits c =
      (if limits.gas < c.gas + 1 then .error (.trap (.outOfGas limits.gas)) else .ok (),
        { c with gas := c.gas + 1 }) := by
  simp only [tick, modify_bind_apply, get_bind_apply]
  split <;> rfl

theorem follow_apply (step : Trail → Except Trap Trail) (c : Casting) :
    follow step c =
      match step c.trail with
      | .ok t => (.ok (), { c with trail := t })
      | .error e => (.error (.trap e), c) := by
  simp only [follow, get_bind_apply]
  cases step c.trail <;> rfl

end Spellcraft.Cast
