import Spellcraft.Proofs.Language.Writing

namespace Spellcraft

def Expr.parts : Expr → List Expr
  | .number .. | .text .. | .bool .. | .null _ | .name .. | .update .. => []
  | .call _ callee args => callee :: args
  | .unary _ _ e | .paren _ e | .assign _ _ _ e => [e]
  | .binary _ _ a b | .logical _ _ a b => [a, b]
  | .conditional _ c a b => [c, a, b]

mutual

def Expr.inner : Expr → List Expr
  | .number .. | .text .. | .bool .. | .null _ | .name .. | .update .. => []
  | .call _ callee args => (callee :: callee.inner) ++ argumentNodes args
  | .unary _ _ e | .paren _ e | .assign _ _ _ e => e :: e.inner
  | .binary _ _ a b | .logical _ _ a b => (a :: a.inner) ++ (b :: b.inner)
  | .conditional _ c a b => (c :: c.inner) ++ (a :: a.inner) ++ (b :: b.inner)

def argumentNodes : List Expr → List Expr
  | [] => []
  | e :: es => (e :: e.inner) ++ argumentNodes es

end

def Expr.nodes (e : Expr) : List Expr := e :: e.inner

theorem argumentNodes_eq (es : List Expr) : argumentNodes es = es.flatMap Expr.nodes := by
  induction es with
  | nil => rfl
  | cons e es ih => rw [argumentNodes, ih, List.flatMap_cons]; rfl

namespace Expr

theorem inner_eq (e : Expr) : e.inner = e.parts.flatMap nodes := by
  cases e <;> simp [inner, parts, nodes, argumentNodes_eq]

theorem mem_nodes {e x : Expr} : x ∈ e.nodes ↔ x = e ∨ ∃ a ∈ e.parts, x ∈ a.nodes := by
  rw [nodes, List.mem_cons, inner_eq, List.mem_flatMap]

theorem sizeOf_lt {e x : Expr} (h : x ∈ e.parts) : sizeOf x < sizeOf e := by
  cases e <;> simp only [parts, List.mem_cons, List.not_mem_nil, or_false] at h
  case call span callee args =>
    rcases h with rfl | h
    · simp only [call.sizeOf_spec]
      omega
    · have := List.sizeOf_lt_of_mem h
      simp only [call.sizeOf_spec]
      omega
  case unary | paren | assign =>
    subst h
    simp only [unary.sizeOf_spec, paren.sizeOf_spec, assign.sizeOf_spec]
    omega
  case binary | logical =>
    simp only [binary.sizeOf_spec, logical.sizeOf_spec]
    rcases h with rfl | rfl <;> omega
  case conditional =>
    simp only [conditional.sizeOf_spec]
    rcases h with rfl | rfl | rfl <;> omega

theorem everywhere {W N : Expr → Prop} (step : ∀ e, W e ↔ N e ∨ ∃ x ∈ e.parts, W x) (e : Expr) :
    W e ↔ ∃ x ∈ e.nodes, N x := by
  rw [step]
  constructor
  · rintro (h | ⟨a, ha, h⟩)
    · exact ⟨e, mem_nodes.2 (.inl rfl), h⟩
    · obtain ⟨x, hx, h⟩ := (everywhere step a).1 h
      exact ⟨x, mem_nodes.2 (.inr ⟨a, ha, hx⟩), h⟩
  · rintro ⟨x, hx, h⟩
    rcases mem_nodes.1 hx with rfl | ⟨a, ha, hx⟩
    · exact .inl h
    · exact .inr ⟨a, ha, (everywhere step a).2 ⟨x, hx, h⟩⟩
termination_by sizeOf e
decreasing_by all_goals exact sizeOf_lt ‹_›

end Expr

def Stmt.values : Stmt → List Expr
  | .declare d => d.values
  | .branch _ c _ _ | .while_ _ c _ | .doWhile _ _ c => [c]
  | .for_ _ init c update _ => init.values ++ c.toList ++ update.toList
  | .return_ _ value => value.toList
  | .expr _ e => [e]
  | .function .. | .block .. | .break_ _ | .continue_ _ | .empty _ => []

def ForInit.declarations : ForInit → List Declaration
  | .declare d => [d]
  | .absent | .expr _ => []

def Stmt.declarations : Stmt → List Declaration
  | .declare d => [d]
  | .for_ _ init _ _ _ => init.declarations
  | _ => []

def Stmt.parts : Stmt → List Stmt
  | .function _ _ _ _ body | .block _ body => body
  | .branch _ _ yes no => yes :: no.toList
  | .while_ _ _ body | .doWhile _ body _ | .for_ _ _ _ _ body => [body]
  | .declare _ | .return_ .. | .break_ _ | .continue_ _ | .expr .. | .empty _ => []

mutual

def Stmt.inner : Stmt → List Stmt
  | .function _ _ _ _ body | .block _ body => bodyNodes body
  | .branch _ _ yes no => (yes :: yes.inner) ++ elseNodes no
  | .while_ _ _ body | .doWhile _ body _ | .for_ _ _ _ _ body => body :: body.inner
  | .declare _ | .return_ .. | .break_ _ | .continue_ _ | .expr .. | .empty _ => []

def elseNodes : Option Stmt → List Stmt
  | none => []
  | some s => s :: s.inner

def bodyNodes : List Stmt → List Stmt
  | [] => []
  | s :: rest => (s :: s.inner) ++ bodyNodes rest

end

def Stmt.nodes (s : Stmt) : List Stmt := s :: s.inner

theorem bodyNodes_eq (body : List Stmt) : bodyNodes body = body.flatMap Stmt.nodes := by
  induction body with
  | nil => rfl
  | cons s rest ih => rw [bodyNodes, ih, List.flatMap_cons]; rfl

namespace Stmt

theorem inner_eq (s : Stmt) : s.inner = s.parts.flatMap nodes := by
  cases s with
  | branch _ _ yes no => cases no <;> simp [inner, parts, nodes, elseNodes]
  | _ => simp [inner, parts, nodes, bodyNodes_eq]

theorem mem_nodes {s t : Stmt} : t ∈ s.nodes ↔ t = s ∨ ∃ u ∈ s.parts, t ∈ u.nodes := by
  rw [nodes, List.mem_cons, inner_eq, List.mem_flatMap]

theorem sizeOf_lt {s t : Stmt} (h : t ∈ s.parts) : sizeOf t < sizeOf s := by
  cases s <;> simp only [parts, List.mem_cons, List.not_mem_nil, or_false] at h
  case function | block =>
    have := List.sizeOf_lt_of_mem h
    simp only [function.sizeOf_spec, block.sizeOf_spec]
    omega
  case branch span c yes no =>
    rcases h with rfl | h
    · simp only [branch.sizeOf_spec]
      omega
    · obtain rfl := Option.mem_toList.1 h
      simp only [branch.sizeOf_spec, Option.some.sizeOf_spec]
      omega
  case while_ | doWhile | for_ =>
    subst h
    simp only [while_.sizeOf_spec, doWhile.sizeOf_spec, for_.sizeOf_spec]
    omega

theorem everywhere {W N : Stmt → Prop} (step : ∀ s, W s ↔ N s ∨ ∃ t ∈ s.parts, W t) (s : Stmt) :
    W s ↔ ∃ t ∈ s.nodes, N t := by
  rw [step]
  constructor
  · rintro (h | ⟨u, hu, h⟩)
    · exact ⟨s, mem_nodes.2 (.inl rfl), h⟩
    · obtain ⟨t, ht, h⟩ := (everywhere step u).1 h
      exact ⟨t, mem_nodes.2 (.inr ⟨u, hu, ht⟩), h⟩
  · rintro ⟨t, ht, h⟩
    rcases mem_nodes.1 ht with rfl | ⟨u, hu, ht⟩
    · exact .inl h
    · exact .inr ⟨u, hu, (everywhere step u).2 ⟨t, ht, h⟩⟩
termination_by sizeOf s
decreasing_by all_goals exact sizeOf_lt ‹_›

end Stmt

namespace Program

def statements (p : Program) : List Stmt := bodyNodes p.body

def expressions (p : Program) : List Expr :=
  p.statements.flatMap fun s => s.values.flatMap Expr.nodes

def declarations (p : Program) : List Declaration := p.statements.flatMap Stmt.declarations

theorem everywhere {W N : Stmt → Prop} {V M : Expr → Prop} (p : Program)
    (stmt : ∀ s, W s ↔ ∃ t ∈ s.nodes, N t ∨ ∃ e ∈ t.values, V e)
    (expr : ∀ e, V e ↔ ∃ x ∈ e.nodes, M x) :
    (∃ s ∈ p.body, W s) ↔ (∃ s ∈ p.statements, N s) ∨ ∃ e ∈ p.expressions, M e := by
  simp only [stmt, expr, statements, expressions, bodyNodes_eq, List.mem_flatMap]
  constructor
  · rintro ⟨s, hs, t, ht, own | ⟨e, he, x, hx, hm⟩⟩
    · exact .inl ⟨t, ⟨s, hs, ht⟩, own⟩
    · exact .inr ⟨x, ⟨t, ⟨s, hs, ht⟩, e, he, hx⟩, hm⟩
  · rintro (⟨t, ⟨s, hs, ht⟩, own⟩ | ⟨x, ⟨t, ⟨s, hs, ht⟩, e, he, hx⟩, hm⟩)
    · exact ⟨s, hs, t, ht, .inl own⟩
    · exact ⟨s, hs, t, ht, .inr ⟨e, he, x, hx, hm⟩⟩

end Program

/-- Keywords and the question mark: what only one sort of node writes. -/
def Kind.isWord : Kind → Bool
  | .keyword _ => true
  | .symbol s => s = .question
  | _ => false

def Expr.words : Expr → List Kind
  | .bool _ b => [.keyword (if b then .true_ else .false_)]
  | .null _ => [.keyword .null]
  | .conditional .. => [.symbol .question]
  | _ => []

def Declaration.words (d : Declaration) : List Kind := [.keyword d.kind.keyword]

def Stmt.words : Stmt → List Kind
  | .declare d => d.words
  | .function .. => [.keyword .function]
  | .branch _ _ _ no => .keyword .if_ :: no.toList.map fun _ => .keyword .else_
  | .while_ .. => [.keyword .while_]
  | .doWhile .. => [.keyword .do_, .keyword .while_]
  | .for_ _ init _ _ _ => .keyword .for_ :: init.declarations.flatMap Declaration.words
  | .return_ .. => [.keyword .return_]
  | .break_ _ => [.keyword .break_]
  | .continue_ _ => [.keyword .continue_]
  | .block .. | .expr .. | .empty _ => []

section

variable {k : Kind} (h : k.isWord = true)
include h

theorem Kind.not_isMark : k.isMark = false := by
  unfold isWord at h
  split at h
  · rfl
  · obtain rfl := of_decide_eq_true h
    rfl
  · cases h

theorem mem_skeleton {ks : List Kind} : k ∈ skeleton ks ↔ k ∈ ks := by
  simp [skeleton, Kind.not_isMark h]

theorem Kind.ne_of_isWord :
    (∀ n, k ≠ .name n) ∧ (∀ x, k ≠ .number x) ∧ (∀ s, k ≠ .text s) ∧
      ∀ s, s ≠ .question → k ≠ .symbol s := by
  refine ⟨?_, ?_, ?_, ?_⟩
  · rintro n rfl
    cases h
  · rintro x rfl
    cases h
  · rintro s rfl
    cases h
  · rintro s hs rfl
    exact hs (of_decide_eq_true h)

theorem mem_commas {as : List α} {w : α → List Kind} :
    k ∈ commas (as.map w) ↔ ∃ a ∈ as, k ∈ w a := by
  obtain ⟨-, -, -, symbols⟩ := Kind.ne_of_isWord h
  cases as with
  | nil => simp [commas]
  | cons a as => simp [commas, symbols, List.flatMap_map]

theorem Expr.mem_writing (e : Expr) : k ∈ e.writing ↔ ∃ x ∈ e.nodes, k ∈ x.words := by
  refine everywhere (W := fun e => k ∈ e.writing) (N := fun e => k ∈ e.words) (fun e => ?_) e
  obtain ⟨names, numbers, texts, symbols⟩ := Kind.ne_of_isWord h
  cases e with
  | number => simp [writing, words, parts, numbers]
  | text => simp [writing, words, parts, texts]
  | bool | null => simp [writing, words, parts]
  | name => simp [writing, words, parts, names]
  | call => simp [writing, words, parts, symbols, mem_commas h, argumentWritings_eq]
  | unary _ op => simp [writing, words, parts, symbols op.symbol (by cases op <;> decide)]
  | binary _ op =>
    simp [writing, words, parts, symbols (Operator.binary op).symbol (by cases op <;> decide)]
  | logical _ op =>
    simp [writing, words, parts, symbols (Operator.logical op).symbol (by cases op <;> decide)]
  | conditional => simp [writing, words, parts, symbols, or_left_comm]
  | assign _ op => simp [writing, words, parts, names, symbols op.symbol (by cases op <;> decide)]
  | update _ op before =>
    cases before <;>
      simp [writing, words, parts, names, symbols op.symbol (by cases op <;> decide)]
  | paren => simp [writing, words, parts, symbols]

theorem Declarator.mem_writing {v : Declarator} :
    k ∈ v.writing ↔ ∃ e ∈ v.init, k ∈ e.writing := by
  obtain ⟨names, -, -, symbols⟩ := Kind.ne_of_isWord h
  unfold writing
  split
  · next hv => simp [hv, names]
  · next e hv => simp [hv, names, symbols]

theorem Declaration.mem_writing {d : Declaration} :
    k ∈ d.writing ↔ k ∈ d.words ∨ ∃ e ∈ d.values, k ∈ e.writing := by
  simp only [writing, words, List.mem_cons, List.not_mem_nil, or_false, mem_commas h, values,
    List.mem_filterMap, Declarator.mem_writing h]
  refine or_congr_right ⟨?_, ?_⟩
  · rintro ⟨v, hv, e, he, hk⟩
    exact ⟨e, ⟨v, hv, he⟩, hk⟩
  · rintro ⟨e, ⟨v, hv, he⟩, hk⟩
    exact ⟨v, hv, e, he, hk⟩

theorem ForInit.mem_writing {init : ForInit} :
    k ∈ init.writing ↔ k ∈ init.declarations.flatMap Declaration.words ∨
      ∃ e ∈ init.values, k ∈ e.writing := by
  cases init with
  | absent => simp [writing, declarations, values]
  | declare d => simp [writing, declarations, values, d.mem_writing h]
  | expr e => simp [writing, declarations, values]

omit h in
theorem mem_optionWriting {o : Option Expr} :
    k ∈ optionWriting o ↔ ∃ e ∈ o.toList, k ∈ e.writing := by
  cases o <;> simp [optionWriting]

theorem Stmt.mem_writing (s : Stmt) :
    k ∈ s.writing ↔ ∃ t ∈ s.nodes, k ∈ t.words ∨ ∃ e ∈ t.values, k ∈ e.writing := by
  refine everywhere (W := fun s => k ∈ s.writing)
    (N := fun s => k ∈ s.words ∨ ∃ e ∈ s.values, k ∈ e.writing) (fun s => ?_) s
  obtain ⟨names, -, -, symbols⟩ := Kind.ne_of_isWord h
  cases s with
  | declare d => simp [writing, words, values, parts, semicolon, symbols, d.mem_writing h]
  | function _ _ params =>
    simp [writing, words, values, parts, symbols, names, mem_commas h, bodyWriting_eq]
  | branch _ c yes no =>
    cases no with
    | none => simp [writing, words, values, parts, parenthesised, symbols, elseWriting, or_assoc]
    | some no =>
      simp only [writing, words, values, parts, parenthesised, elseWriting]
      grind
  | while_ => simp [writing, words, values, parts, parenthesised, symbols, or_assoc]
  | doWhile =>
    simp only [writing, words, values, parts, parenthesised, semicolon]
    grind
  | for_ _ init =>
    simp only [writing, words, values, parts, semicolon]
    grind [init.mem_writing h, mem_optionWriting]
  | block => simp [writing, words, values, parts, symbols, bodyWriting_eq]
  | return_ => simp [writing, words, values, parts, symbols, semicolon, mem_optionWriting]
  | break_ | continue_ | empty => simp [writing, words, values, parts, symbols, semicolon]
  | expr => simp [writing, words, values, parts, symbols, semicolon]

theorem Program.mem_writing (p : Program) : k ∈ p.writing ↔
    (∃ s ∈ p.statements, k ∈ s.words) ∨ ∃ e ∈ p.expressions, k ∈ e.words := by
  rw [writing, bodyWriting_eq, List.mem_flatMap]
  exact p.everywhere (Stmt.mem_writing h) (Expr.mem_writing h)

end

end Spellcraft
