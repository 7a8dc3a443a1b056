import Spellcraft.Proofs.Casting.VisitLaws

namespace Spellcraft

def Visit.Traps (limits : Limits) (v : Visit) (t : Trap) (d : Casting) : Prop :=
  ∃ n e, v.piece = .expr n e ∧ Cast.eval limits n e v.state = (.error (.trap t), d)

def Cast.Trapped (t : Trap) (d : Casting) (x : Except Exit α × Casting) : Prop :=
  ∃ current calls, x = (.error (.trap t), { d with current, calls })

namespace Cast.Trapped

variable {t : Trap} {d : Casting} {x : Except Exit α × Casting}

theorem next (h : Trapped t d x) (f : α → Cast β) : Trapped t d (Cast.next f x) := by
  obtain ⟨current, calls, rfl⟩ := h
  exact ⟨current, calls, rfl⟩

theorem settle {f : Except Exit α → Except Exit β} (h : Trapped t d x) (spares : Visits.Sparing f) :
    Trapped t d (f x.1, x.2) := by
  obtain ⟨current, calls, rfl⟩ := h
  exact ⟨current, calls, by rw [(spares _ t).2 rfl]⟩

theorem leave (h : Trapped t d x) (current : Nat) :
    Trapped t d (x.1, { x.2 with current }) := by
  obtain ⟨_, calls, rfl⟩ := h
  exact ⟨current, calls, rfl⟩

theorem leaveFrame (h : Trapped t d x) (current calls : Nat) :
    Trapped t d (x.1, { x.2 with current, calls }) := by
  obtain ⟨_, _, rfl⟩ := h
  exact ⟨current, calls, rfl⟩

end Cast.Trapped

namespace Visits

/-- A trap in any expression on the way is how the computation ends. -/
def Fatal (limits : Limits) (_ : Setting) {α : Type} {p : Cast α} (w : Visits p) : Prop :=
  ∀ c, ∀ v ∈ w.list c, ∀ t d, v.Traps limits t d → Cast.Trapped t d (p c)

namespace Fatal

variable {limits : Limits} {σ : Setting} {α β : Type} {p : Cast α} {w : Visits p}

theorem quiet (p : Cast α) : Fatal limits σ (quiet p) := fun _ => List.forall_mem_nil _

theorem bind {f : α → Cast β} {v : ∀ a, Visits (f a)} (hw : Fatal limits σ w)
    (hv : ∀ a, Fatal limits σ (v a)) : Fatal limits σ (w.bind v) := by
  intro c u hu t d traps
  rw [Cast.bind_apply]
  rcases List.mem_append.1 hu with hu | hu
  · exact (hw c u hu t d traps).next f
  · -- the rest is visited only where `p` has come to a value
    rcases hp : p c with ⟨e | a, c'⟩ <;> rw [hp] at hu
    · cases hu
    · exact hv a c' u hu t d traps

theorem settle {h : Except Exit α → Except Exit β} (spares : Sparing h) (hw : Fatal limits σ w) :
    Fatal limits σ (w.settle h) := fun c u hu t d traps => (hw c u hu t d traps).settle spares

theorem note {piece : Piece} (runs : piece.Runs limits p) (hw : Fatal limits σ w) :
    Fatal limits σ (w.note piece) := by
  intro c u hu t d traps
  rcases List.mem_cons.1 hu with rfl | hu
  · obtain ⟨n, e, hpiece, he⟩ := traps
    cases hpiece
    cases runs
    exact ⟨d.current, d.calls, he⟩
  · exact hw c u hu t d traps

theorem inBlock (hw : Fatal limits σ w) : Fatal limits σ w.inBlock :=
  fun c u hu t d traps => (hw _ u hu t d traps).leave c.current

theorem inFrame (scope : Nat) (hw : Fatal limits .frame w) :
    Fatal limits σ (Visits.inFrame scope w) := by
  intro c u hu t d traps
  obtain ⟨v, hv, rfl⟩ := List.mem_map.1 hu
  exact (hw _ v hv t d traps).leaveFrame c.current c.calls

theorem call {p : Cast Unit} {w : Visits p} (n : Nat) (f : Closure) (args : List Value)
    (span : Span) (hw : Fatal limits .frame w) : Fatal limits σ (Visits.note (.call n f args span)
      ((Visits.quiet (Cast.checkDepth limits span)).bind fun _ =>
        returned (Visits.inFrame f.scope w))) := by
  intro c u hu t d traps
  rcases List.mem_cons.1 hu with rfl | hu
  · obtain ⟨_, _, hpiece, -⟩ := traps
    cases hpiece
  · have inside : Fatal limits σ (returned (Visits.inFrame f.scope w)) :=
      Lawful.ofEq _ (settle sparing_takeReturn (inFrame f.scope hw))
    exact bind (quiet _) (fun _ => inside) c u hu t d traps

theorem lawful (limits : Limits) : Lawful limits (Fatal limits) where
  pure _ _ _ := .quiet _
  throw _ _ _ _ := .quiet _
  tick _ := .quiet _
  lookup _ _ _ := .quiet _
  assign _ _ _ := .quiet _
  binary _ _ _ _ _ := .quiet _
  command _ _ _ := .quiet _
  declare _ _ _ _ _ := .quiet _
  hoistFunctions _ _ := .quiet _
  bindParams _ _ := .quiet _
  hoistVars _ hw := .bind (.quiet _) fun _ => hw
  bind := .bind
  settle := .settle
  note _ := .note
  inBlock := .inBlock
  call := .call
  anywhere := id
  widen := id

end Fatal

end Visits

end Spellcraft
