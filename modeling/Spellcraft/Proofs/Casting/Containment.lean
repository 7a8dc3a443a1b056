import Mathlib.Control.Monad.Basic
import Spellcraft.Language.ParseStmt
import Spellcraft.Proofs.Casting.Steering
import Spellcraft.Proofs.Casting.Frames

namespace Spellcraft

namespace Casting

def Writes (c : Casting) (i : Nat) (d : Casting) : Prop :=
  ∀ j, j ≠ i → ∀ name, d.store.at? j name = c.store.at? j name

namespace Writes

variable {c d e : Casting}

theorem refl (c : Casting) (i : Nat) : c.Writes i c := fun _ _ _ => rfl

theorem trans (h : c.Writes i d) (h' : d.Writes i e) : c.Writes i e :=
  fun j hj name => (h' j hj name).trans (h j hj name)

theorem bind (c : Casting) (i : Nat) (name : String) (b : Binding) (closures : Nat) :
    c.Writes i { c with store := c.store.bind i name b, closures } := by
  intro j hj other
  rw [Store.at?_bind, if_neg fun h => hj h.1.symm]

theorem binds (h : c.Writes i d) (hj : j ≠ i) (name : String) :
    d.store.binds j name = c.store.binds j name := by
  rw [Store.binds_eq, Store.binds_eq, h j hj name]

end Writes

structure Holds (names : List String) (c : Casting) : Prop where
  inside : c.current < c.store.size
  bound : ∀ name ∈ names, c.store.binds (c.store.host c.current) name = true

structure Framed (c : Casting) : Prop where
  inside : c.current < c.store.size
  hosting : c.Hosting

namespace Kept

variable {c d : Casting}

theorem inside (h : c.Kept d) (hc : c.current < c.store.size) : d.current < d.store.size := by
  rw [h.current]
  exact Nat.lt_of_lt_of_le hc h.grown.size

theorem holds (h : c.Kept d) (hc : c.Holds names) : d.Holds names where
  inside := h.inside hc.inside
  bound name hn := by
    rw [h.current, h.grown.host_eq hc.inside]
    exact h.grown.binds (hc.bound name hn)

theorem framed (h : c.Kept d) (hc : c.Framed) : d.Framed where
  inside := h.inside hc.inside
  hosting := by
    rw [Hosting, h.current, h.grown.host_eq hc.inside]
    exact hc.hosting

end Kept

end Casting

namespace Cast

open Casting (Writes Framed)

def site (kind : DeclKind) (c : Casting) : Nat :=
  match kind with
  | .var => c.store.host c.current
  | .let_ | .const => c.current

theorem declareVar_writes (name : String) (v : Option Value) (c : Casting) :
    c.Writes (c.store.host c.current) (declareVar name v c).2 := by
  simp only [declareVar, modify_apply]
  split
  · exact .refl c _
  · exact .bind c _ _ _ _

theorem declareLocal_writes (name : Ident) (v : Option Value) (constant : Bool) (c : Casting) :
    c.Writes c.current (declareLocal name v constant c).2 := by
  simp only [declareLocal, get_bind_apply]
  split
  · exact .refl c _
  · exact .bind c _ _ _ _

theorem declare_writes (kind : DeclKind) (name : Ident) (v : Option Value) (c : Casting) :
    c.Writes (site kind c) (declare kind name v c).2 := by
  cases kind with
  | var => exact declareVar_writes name.name v c
  | let_ | const => exact declareLocal_writes name v _ c

theorem hoistFunctions_writes (body : List Stmt) (c : Casting) :
    c.Writes c.current (hoistFunctions body c).2 := by
  induction body generalizing c with
  | nil => exact .refl c _
  | cons s rest ih =>
    cases s with
    | function _ name params _ body => exact .trans (.bind c _ _ _ _) (ih _)
    | _ => exact ih c

theorem writes_next {p : Cast Unit} {f : Unit → Cast α} {c : Casting} (hp : Calm p)
    (hc : c.Framed) (first : c.Writes (c.store.host c.current) (p c).2)
    (rest : ∀ d : Casting, d.Framed → d.Writes d.current (f () d).2) :
    c.Writes c.current ((p >>= f) c).2 := by
  have kept := hp.kept c
  rw [bind_apply]
  rw [hc.hosting] at first
  generalize p c = x at kept first ⊢
  rcases x with ⟨e | a, d⟩
  · exact first
  · have then' := rest d (kept.framed hc)
    rw [kept.current] at then'
    exact first.trans then'

theorem bindParams_writes (params : List Ident) (args : List Value) {c : Casting}
    (hc : c.Framed) : c.Writes c.current (bindParams params args c).2 := by
  induction params generalizing args c with
  | nil => exact .refl c _
  | cons p ps ih =>
    exact writes_next (.declareVar ..) hc (declareVar_writes _ _ c) fun d hd => ih args.tail hd

theorem hoistNames_writes (names : List String) {c : Casting} (hc : c.Framed) :
    c.Writes c.current (names.forM (fun name => declareVar name none) c).2 := by
  induction names generalizing c with
  | nil => exact .refl c _
  | cons name names ih =>
    exact writes_next (.declareVar ..) hc (declareVar_writes _ _ c) fun d hd => ih hd

theorem declareVar_binds (name : String) (v : Option Value) {c : Casting}
    (inside : c.current < c.store.size) :
    (declareVar name v c).2.store.binds (c.store.host c.current) name = true := by
  simp only [declareVar, modify_apply]
  split
  next h => exact (Bool.and_eq_true_iff.1 h).2
  · rw [Store.binds_eq, Store.at?_bind, if_pos ⟨rfl, rfl, Store.host_lt_size inside⟩]
    rfl

theorem hoistNames_holds (names : List String) {c : Casting}
    (inside : c.current < c.store.size) :
    (names.forM (fun name => declareVar name none) c).2.Holds names := by
  induction names generalizing c with
  | nil => exact ⟨inside, List.forall_mem_nil _⟩
  | cons name names ih =>
    have first := (Calm.declareVar name none).kept c
    have bound := declareVar_binds name none inside
    rw [← first.grown.host_eq inside, ← first.current] at bound
    have rest := ih (first.inside inside)
    have later := (Calm.forM (fun name => .declareVar name none) names).kept
      (declareVar name none c).2
    exact ⟨rest.inside, List.forall_mem_cons.2
      ⟨(later.holds ⟨first.inside inside, List.forall_mem_singleton.2 bound⟩).bound name
        List.mem_cons_self, rest.bound⟩⟩

end Cast

def Piece.vars : Piece → List String
  | .stmt _ s => s.vars
  | .list _ body => bodyVars body
  | .declare .var name => [name.name]
  | .declare .let_ _ | .declare .const _ | .expr .. | .call .. => []

def Piece.site (c : Casting) : Piece → Option Nat
  | .list .. | .declare .let_ _ | .declare .const _ => some c.current
  | .call .. => some c.store.size
  | .declare .var _ | .stmt .. | .expr .. => none

def Visit.site (v : Visit) : Option Nat := v.piece.site v.state

namespace Setting

def Stands (c : Casting) : Setting → Prop
  | .closed names | .opened names => c.Holds names
  | .frame => c.Framed

def Opens : Setting → Prop
  | .closed _ => False
  | .opened _ | .frame => True

theorem Stands.inside {σ : Setting} (h : σ.Stands c) : c.current < c.store.size := by
  cases σ with
  | closed | opened => exact Casting.Holds.inside h
  | frame => exact Casting.Framed.inside h

theorem Fits.reserved {σ : Setting} {piece : Piece} (h : σ.Fits piece) (hc : σ.Stands c) :
    ∀ name ∈ piece.vars, c.store.binds (c.store.host c.current) name = true := by
  intro name hn
  cases σ with
  | closed names =>
    cases piece with
    | stmt => exact hc.bound name (h hn)
    | expr => cases hn
    | list | declare | call => exact h.elim
  | opened names =>
    cases piece with
    | stmt | list => exact hc.bound name (h hn)
    | declare kind other =>
      cases kind with
      | var => exact hc.bound name (List.mem_singleton.1 hn ▸ h rfl)
      | let_ | const => cases hn
    | expr => cases hn
    | call => exact h.elim
  | frame =>
    cases piece with
    | expr => cases hn
    | stmt | list | declare | call => exact h.elim

theorem Fits.site {σ : Setting} {piece : Piece} (h : σ.Fits piece)
    (hi : piece.site c = some i) : σ.Opens ∧ i = c.current := by
  cases σ with
  | closed | frame =>
    cases piece with
    | stmt | expr => cases hi
    | list | declare | call => exact h.elim
  | opened =>
    cases piece with
    | stmt | expr => cases hi
    | call => exact h.elim
    | list =>
      cases hi
      exact ⟨trivial, rfl⟩
    | declare kind =>
      cases kind <;> cases hi <;> exact ⟨trivial, rfl⟩

theorem Stands.kept {σ : Setting} (h : σ.Stands c) (hk : c.Kept d) : σ.Stands d := by
  cases σ with
  | closed | opened => exact hk.holds h
  | frame => exact hk.framed h

end Setting

structure Contained (σ : Setting) (c : Casting) (l : List Visit) (d : Casting) : Prop where
  names : ∀ i < c.store.size, (σ.Opens → i ≠ c.current) →
    ∀ name, d.store.binds i name = c.store.binds i name
  held : ∀ v ∈ l, v.state.Holds v.piece.vars
  sites : ∀ v ∈ l, ∀ i, v.site = some i → c.store.size ≤ i ∨ σ.Opens ∧ i = c.current

namespace Contained

variable {σ : Setting} {c d e : Casting} {l l' : List Visit}

theorem of_names (h : ∀ i < c.store.size, (σ.Opens → i ≠ c.current) →
    ∀ name, d.store.binds i name = c.store.binds i name) : Contained σ c [] d :=
  ⟨h, List.forall_mem_nil _, List.forall_mem_nil _⟩

theorem of_store (h : d.store = c.store) : Contained σ c [] d :=
  .of_names fun _ _ _ _ => by rw [h]

theorem of_writes (h : c.Writes c.current d) (hσ : σ.Opens) : Contained σ c [] d :=
  .of_names fun _ _ hi name => h.binds (hi hσ) name

theorem append (hk : c.Kept d) (h : Contained σ c l d) (h' : Contained σ d l' e) :
    Contained σ c (l ++ l') e where
  names i hi ho name := by
    rw [h'.names i (Nat.lt_of_lt_of_le hi hk.grown.size) (fun hσ => hk.current ▸ ho hσ) name]
    exact h.names i hi ho name
  held := List.forall_mem_append.2 ⟨h.held, h'.held⟩
  sites := by
    refine List.forall_mem_append.2 ⟨h.sites, fun v hv i hi => ?_⟩
    rw [← hk.current]
    exact (h'.sites v hv i hi).imp_left (Nat.le_trans hk.grown.size)

theorem note {piece : Piece} (fits : σ.Fits piece) (stands : σ.Stands c)
    (h : Contained σ c l d) : Contained σ c (⟨0, piece, c⟩ :: l) d where
  names := h.names
  held := List.forall_mem_cons.2 ⟨⟨stands.inside, fits.reserved stands⟩, h.held⟩
  sites := List.forall_mem_cons.2 ⟨fun _ hi => .inr (fits.site hi), h.sites⟩

theorem inBlock {names : List String}
    (h : Contained (.opened names) (c.enter ⟨[], some c.current, false⟩) l d) :
    Contained (.closed names) c l { d with current := c.current } where
  names i hi _ name := by
    have old : i ≠ c.store.size := Nat.ne_of_lt hi
    rw [h.names i (by simp [Casting.enter]; omega) (fun _ => old) name]
    rw [Store.binds_eq, Store.binds_eq, Casting.enter, Store.at?_push, if_neg old]
  held := h.held
  sites v hv i hi := by
    have site := h.sites v hv i hi
    simp only [Casting.enter, Array.size_push] at site
    omega

theorem inFrame {scope n : Nat} {f : Closure} {args : List Value} {span : Span}
    (inside : c.current < c.store.size)
    (h : Contained .frame
      (Casting.enter { c with calls := c.calls + 1 } ⟨[], some scope, true⟩) l d) :
    Contained σ c (⟨0, .call n f args span, c⟩ :: l.map Visit.deeper)
      { d with current := c.current, calls := c.calls } where
  names i hi _ name := by
    have old : i ≠ c.store.size := Nat.ne_of_lt hi
    rw [h.names i (by simp [Casting.enter]; omega) (fun _ => old) name]
    rw [Store.binds_eq, Store.binds_eq, Casting.enter, Store.at?_push, if_neg old]
  held := List.forall_mem_cons.2 ⟨⟨inside, List.forall_mem_nil _⟩, List.forall_mem_map.2 h.held⟩
  sites := by
    refine List.forall_mem_cons.2 ⟨?_, List.forall_mem_map.2 fun v hv i hi => ?_⟩
    · rintro i ⟨⟩
      exact .inl (Nat.le_refl _)
    · have site := h.sites v hv i hi
      simp only [Casting.enter, Array.size_push] at site
      omega

theorem refused {n : Nat} {f : Closure} {args : List Value} {span : Span}
    (inside : c.current < c.store.size) : Contained σ c [⟨0, .call n f args span, c⟩] c where
  names _ _ _ _ := rfl
  held := List.forall_mem_singleton.2 ⟨inside, List.forall_mem_nil _⟩
  sites := List.forall_mem_singleton.2 <| by
    rintro i ⟨⟩
    exact .inl (Nat.le_refl _)

theorem weaken {names : List String} (h : Contained (.closed names) c l d) :
    Contained σ c l d where
  names i hi _ name := h.names i hi nofun name
  held := h.held
  sites v hv i hi := (h.sites v hv i hi).imp_right nofun

end Contained

theorem Store.binds_bind_of_binds {st : Store} (h : st.binds i name = true) (b : Binding) (j : Nat)
    (other : String) : (st.bind i name b).binds j other = st.binds j other := by
  rw [binds_eq, binds_eq, at?_bind]
  split
  next hj =>
    obtain ⟨rfl, rfl, -⟩ := hj
    exact h.symm
  · rfl

namespace Cast

theorem lookup_state (name : String) (span : Span) (c : Casting) : (lookup name span c).2 = c := by
  simp only [lookup, get_bind_apply]
  cases c.store.get? name c.current <;> rfl

theorem assign_binds (target : Ident) (v : Value) (c : Casting) (i : Nat) (name : String) :
    (assign target v c).2.store.binds i name = c.store.binds i name := by
  simp only [assign, get_bind_apply]
  cases hj : c.store.find? target.name c.current with
  | none => rfl
  | some j =>
    cases hb : c.store.get? target.name c.current with
    | none => rfl
    | some b =>
      dsimp only
      split
      · rfl
      · refine Store.binds_bind_of_binds ?_ _ i name
        simp only [Store.get?, hj, Option.bind_eq_bind, Option.bind_some] at hb
        exact congrArg Option.isSome hb

end Cast

namespace Visits

structure Contains (limits : Limits) (σ : Setting) {α : Type} {p : Cast α} (w : Visits p) :
    Prop where
  level : Level limits σ w
  contained (c : Casting) : σ.Stands c → Contained σ c (w.list c) (p c).2

namespace Contains

open Cast (Calm Blind)

variable {limits : Limits} {σ : Setting} {names : List String}
variable {α β : Type} {p : Cast α} {w : Visits p}

theorem blind (calm : Calm p) (h : Blind p) : Contains limits σ (quiet p) :=
  ⟨.quiet calm, fun c _ => .of_store (h.store_eq c)⟩

theorem writes (calm : Calm p) (hσ : σ.Opens)
    (h : ∀ c, σ.Stands c → c.Writes c.current (p c).2) : Contains limits σ (quiet p) :=
  ⟨.quiet calm, fun c hc => .of_writes (h c hc) hσ⟩

theorem assign (target : Ident) (v : Value) :
    Contains limits σ (quiet (Cast.assign target v)) :=
  ⟨.quiet (.assign target v), fun c _ => .of_names fun i _ _ => Cast.assign_binds target v c i⟩

theorem declare (kind : DeclKind) (name : Ident) (v : Option Value)
    (reserved : kind = .var → name.name ∈ names) :
    Contains limits (.opened names) (quiet (Cast.declare kind name v)) := by
  refine ⟨.quiet (.declare kind name v), fun c hc => .of_names fun i hi ho other => ?_⟩
  have writes := Cast.declare_writes kind name v c
  cases kind with
  | let_ | const => exact writes.binds (ho trivial) other
  | var =>
    by_cases host : i = c.store.host c.current
    · subst host
      simp only [Cast.declare, Cast.declareVar, Cast.modify_apply]
      split
      · rfl
      · exact Store.binds_bind_of_binds (hc.bound _ (reserved rfl)) _ _ other
    · exact writes.binds host other

theorem bind {f : α → Cast β} {v : ∀ a, Visits (f a)} (hw : Contains limits σ w)
    (hv : ∀ a, Contains limits σ (v a)) : Contains limits σ (w.bind v) := by
  refine ⟨.bind hw.level fun a => (hv a).level, fun c hc => ?_⟩
  have kept := (hw.level c).kept
  have first := hw.contained c hc
  rw [Cast.bind_apply]
  simp only [Visits.bind]
  generalize p c = x at kept first ⊢
  rcases x with ⟨e | a, d⟩
  · rw [List.append_nil]
    exact first
  · exact first.append kept ((hv a).contained d (hc.kept kept))

theorem hoistVars {p : Cast α} {w : Visits p} (body : List Stmt)
    (hw : Contains limits (.opened (bodyVars body)) w) :
    Contains limits .frame ((quiet (Cast.hoistVars body)).bind fun _ => w) := by
  have calm : Calm (Cast.hoistVars body) := .hoistVars body
  refine ⟨.bind (.quiet calm) fun _ => hw.level, fun c hc => ?_⟩
  have kept := calm.kept c
  have first : Contained .frame c [] (Cast.hoistVars body c).2 :=
    .of_writes (Cast.hoistNames_writes (bodyVars body) hc) trivial
  have holds : (Cast.hoistVars body c).2.Holds (bodyVars body) :=
    Cast.hoistNames_holds (bodyVars body) hc.inside
  rw [Cast.bind_apply]
  simp only [Visits.bind]
  generalize Cast.hoistVars body c = x at kept first holds ⊢
  rcases x with ⟨e | a, d⟩
  · exact first
  · have rest := hw.contained d holds
    exact first.append kept ⟨rest.names, rest.held, rest.sites⟩

theorem inBlock (hw : Contains limits (.opened names) w) :
    Contains limits (.closed names) w.inBlock := by
  refine ⟨hw.level.inBlock, fun c hc => (hw.contained _ ⟨?_, fun name hn => ?_⟩).inBlock⟩
  · simp [Casting.enter]
  · simp only [Casting.enter, Store.host_push_block hc.inside]
    exact (Store.Grows.push _ _).binds (hc.bound name hn)

theorem call {p : Cast Unit} {w : Visits p} (n : Nat) (f : Closure) (args : List Value)
    (span : Span) (hw : Contains limits .frame w) : Contains limits σ (note (.call n f args span)
      ((quiet (Cast.checkDepth limits span)).bind fun _ => returned (inFrame f.scope w))) := by
  refine ⟨.call n f args span hw.level, fun c hc => ?_⟩
  rw [Cast.bind_apply]
  simp only [note, Visits.bind, quiet, Cast.checkDepth, Cast.get_bind_apply, List.nil_append,
    Cast.returned_eq]
  by_cases full : limits.calls ≤ c.calls
  · rw [if_pos full]
    exact .refused hc.inside
  · rw [if_neg full]
    have entered := hw.contained
      (Casting.enter { c with calls := c.calls + 1 } ⟨[], some f.scope, true⟩)
      ⟨by simp [Casting.enter], Store.host_push_frame _ _ _⟩
    apply entered.inFrame hc.inside

theorem lawful (limits : Limits) : Lawful limits (Contains limits) where
  pure _ _ a := .blind (.pure a) (.pure a)
  throw _ _ e he := .blind (.throw he) (.throw e)
  tick _ := .blind (.tick limits) (.tick limits)
  lookup _ name span :=
    ⟨.quiet (.lookup name span), fun _ _ => .of_store (congrArg (·.store) (Cast.lookup_state ..))⟩
  assign _ := .assign
  binary _ _ _ _ _ := .blind (.binary ..) (.binary ..)
  command _ k span := .blind (.command k span) (.command k span)
  declare _ := .declare
  hoistFunctions _ body :=
    .writes (.hoistFunctions body) trivial fun c _ => Cast.hoistFunctions_writes body c
  bindParams params args :=
    .writes (.bindParams params args) trivial fun _ hc => Cast.bindParams_writes params args hc
  hoistVars := .hoistVars
  bind := .bind
  settle spares hw := ⟨.settle spares hw.level, hw.contained⟩
  note fits runs hw := ⟨(Level.lawful limits).note fits runs hw.level,
    fun c hc => (hw.contained c hc).note fits hc⟩
  inBlock := .inBlock
  call := .call
  anywhere hw := ⟨hw.level, fun c hc => (hw.contained c ⟨hc.inside, List.forall_mem_nil _⟩).weaken⟩
  widen hw := ⟨hw.level, fun c hc => (hw.contained c hc).weaken⟩

end Contains

end Visits

/-- Where declarations, functions and parameters are bound. -/
structure Cast.Sites (c : Casting) : Prop where
  declare (kind : DeclKind) (name : Ident) (v : Option Value) :
    c.Writes (site kind c) (declare kind name v c).2
  functions (body : List Stmt) : c.Writes c.current (hoistFunctions body c).2
  params (scope : Nat) (params : List Ident) (args : List Value) :
    let inner := c.enter ⟨[], some scope, true⟩
    inner.Writes c.store.size (bindParams params args inner).2

theorem Cast.sites (c : Casting) : Sites c where
  declare kind name v := declare_writes kind name v c
  functions body := hoistFunctions_writes body c
  params _ params args :=
    bindParams_writes params args ⟨by simp [Casting.enter], Store.host_push_frame _ _ _⟩

/-- No scope that was there takes a new name, and what is declared on the way is bound in others. -/
structure Casting.Apart (c : Casting) (l : List Visit) (d : Casting) : Prop where
  names : ∀ i < c.store.size, ∀ name, d.store.binds i name = c.store.binds i name
  sites : ∀ v ∈ l, ∀ i, v.site = some i → c.store.size ≤ i

theorem Contained.apart {names : List String} (h : Contained (.closed names) c l d) :
    c.Apart l d :=
  ⟨fun i hi => h.names i hi nofun, fun v hv i hi => (h.sites v hv i hi).resolve_right (·.1)⟩

end Spellcraft
