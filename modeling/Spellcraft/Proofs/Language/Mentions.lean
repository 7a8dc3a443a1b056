import Spellcraft.Proofs.Language.Nodes
import Spellcraft.Proofs.Language.Reading
import Spellcraft.Spell.Requirements

namespace Spellcraft

inductive Mention
  | call : String → Mention
  | declared : String → Mention

def Expr.head : Expr → List Mention
  | .name _ n => [.call n]
  | _ => []

mutual

def Expr.mentions : Expr → List Mention
  | .number .. | .text .. | .bool .. | .null _ | .name .. | .update .. => []
  | .call _ callee args => callee.head ++ callee.mentions ++ argumentMentions args
  | .unary _ _ e | .paren _ e | .assign _ _ _ e => e.mentions
  | .binary _ _ a b | .logical _ _ a b => a.mentions ++ b.mentions
  | .conditional _ c a b => c.mentions ++ a.mentions ++ b.mentions

def argumentMentions : List Expr → List Mention
  | [] => []
  | e :: es => e.mentions ++ argumentMentions es

end

theorem argumentMentions_eq (es : List Expr) : argumentMentions es = es.flatMap Expr.mentions := by
  induction es with
  | nil => rfl
  | cons e es ih => rw [argumentMentions, ih, List.flatMap_cons]

def optionMentions : Option Expr → List Mention
  | none => []
  | some e => e.mentions

def Declarator.mentions (v : Declarator) : List Mention :=
  match v.init with
  | none => [.declared v.name.name]
  | some e => e.mentions

def Declaration.mentions (d : Declaration) : List Mention :=
  d.declarators.flatMap Declarator.mentions

def ForInit.mentions : ForInit → List Mention
  | .absent => []
  | .declare d => d.mentions
  | .expr e => e.mentions

mutual

def Stmt.mentions : Stmt → List Mention
  | .declare d => d.mentions
  | .function _ name _ _ body => .declared name.name :: bodyMentions body
  | .branch _ c yes no => c.mentions ++ yes.mentions ++ elseMentions no
  | .while_ _ c body => c.mentions ++ body.mentions
  | .doWhile _ body c => body.mentions ++ c.mentions
  | .for_ _ init c update body =>
    init.mentions ++ optionMentions c ++ optionMentions update ++ body.mentions
  | .block _ body => bodyMentions body
  | .return_ _ value => optionMentions value
  | .expr _ e => e.mentions
  | .break_ _ | .continue_ _ | .empty _ => []

def elseMentions : Option Stmt → List Mention
  | none => []
  | some s => s.mentions

def bodyMentions : List Stmt → List Mention
  | [] => []
  | s :: rest => s.mentions ++ bodyMentions rest

end

theorem bodyMentions_eq (body : List Stmt) : bodyMentions body = body.flatMap Stmt.mentions := by
  induction body with
  | nil => rfl
  | cons s rest ih => rw [bodyMentions, ih, List.flatMap_cons]

/-- What an expression itself mentions. -/
def Expr.mention : Expr → List Mention
  | .call _ callee _ => callee.head
  | _ => []

def Declaration.unset (d : Declaration) : List Mention :=
  d.declarators.flatMap fun v => if v.init.isNone then [.declared v.name.name] else []

def Stmt.mention : Stmt → List Mention
  | .function _ name _ _ _ => [.declared name.name]
  | s => s.declarations.flatMap Declaration.unset

variable {m : Mention}

theorem Expr.mem_mentions (e : Expr) : m ∈ e.mentions ↔ ∃ x ∈ e.nodes, m ∈ x.mention := by
  refine everywhere (W := fun e => m ∈ e.mentions) (N := fun e => m ∈ e.mention) (fun e => ?_) e
  cases e with
  | call => simp [mentions, mention, parts, argumentMentions_eq]
  | _ => simp [mentions, mention, parts]

theorem Declaration.mem_mentions {d : Declaration} :
    m ∈ d.mentions ↔ m ∈ d.unset ∨ ∃ e ∈ d.values, m ∈ e.mentions := by
  simp only [mentions, unset, List.mem_flatMap, values, List.mem_filterMap]
  have declarator (v : Declarator) : m ∈ v.mentions ↔
      m ∈ (if v.init.isNone then [.declared v.name.name] else []) ∨
        ∃ e, v.init = some e ∧ m ∈ e.mentions := by
    unfold Declarator.mentions
    split
    · next h => simp [h]
    · next e h => simp [h]
  simp only [declarator]
  constructor
  · rintro ⟨v, hv, hm | ⟨e, he, hm⟩⟩
    · exact .inl ⟨v, hv, hm⟩
    · exact .inr ⟨e, ⟨v, hv, he⟩, hm⟩
  · rintro (⟨v, hv, hm⟩ | ⟨e, ⟨v, hv, he⟩, hm⟩)
    · exact ⟨v, hv, .inl hm⟩
    · exact ⟨v, hv, .inr ⟨e, he, hm⟩⟩

theorem ForInit.mem_mentions {init : ForInit} : m ∈ init.mentions ↔
    m ∈ init.declarations.flatMap Declaration.unset ∨ ∃ e ∈ init.values, m ∈ e.mentions := by
  cases init with
  | declare d => simp [mentions, declarations, values, d.mem_mentions]
  | _ => simp [mentions, declarations, values]

theorem mem_optionMentions {o : Option Expr} :
    m ∈ optionMentions o ↔ ∃ e ∈ o.toList, m ∈ e.mentions := by
  cases o <;> simp [optionMentions]

theorem Stmt.mem_mentions (s : Stmt) :
    m ∈ s.mentions ↔ ∃ t ∈ s.nodes, m ∈ t.mention ∨ ∃ e ∈ t.values, m ∈ e.mentions := by
  refine everywhere (W := fun s => m ∈ s.mentions)
    (N := fun t => m ∈ t.mention ∨ ∃ e ∈ t.values, m ∈ e.mentions) (fun s => ?_) s
  cases s with
  | declare d => simp [mentions, mention, parts, values, declarations, d.mem_mentions]
  | function | block => simp [mentions, mention, parts, values, declarations, bodyMentions_eq]
  | branch _ c yes no =>
    cases no <;> simp [mentions, mention, parts, values, declarations, elseMentions]
  | while_ => simp [mentions, mention, parts, values, declarations]
  | doWhile => simp [mentions, mention, parts, values, declarations, or_comm]
  | for_ _ init =>
    simp only [mentions, mention, parts, values, declarations]
    grind [init.mem_mentions, mem_optionMentions]
  | return_ => simp [mentions, mention, parts, values, declarations, mem_optionMentions]
  | break_ | continue_ | empty | expr => simp [mentions, mention, parts, values, declarations]

theorem Program.mem_mentions (p : Program) : m ∈ bodyMentions p.body ↔
    (∃ s ∈ p.statements, m ∈ s.mention) ∨ ∃ e ∈ p.expressions, m ∈ e.mention := by
  rw [bodyMentions_eq, List.mem_flatMap]
  exact p.everywhere Stmt.mem_mentions Expr.mem_mentions

theorem Expr.call_mem_mention {e : Expr} : .call n ∈ e.mention ↔
    ∃ span here args, e = .call span (.name here n) args := by
  cases e with
  | call span callee args => cases callee <;> simp [mention, head, eq_comm]
  | _ => simp [mention]

theorem Declaration.declared_mem_unset {d : Declaration} : .declared n ∈ d.unset ↔
    ∃ v ∈ d.declarators, v.name.name = n ∧ v.init = none := by
  rw [unset, List.mem_flatMap]
  refine exists_congr fun v => and_congr_right fun _ => ?_
  cases v.init <;> simp [eq_comm]

theorem Stmt.declared_mem_mention {s : Stmt} : .declared n ∈ s.mention ↔
    (∃ span name params bodySpan body, s = .function span name params bodySpan body ∧
      name.name = n) ∨
    ∃ d ∈ s.declarations, ∃ v ∈ d.declarators, v.name.name = n ∧ v.init = none := by
  cases s with
  | function span name params bodySpan body =>
    simp only [mention, declarations, List.mem_singleton, Mention.declared.injEq]
    refine ⟨fun h => .inl ⟨span, name, params, bodySpan, body, rfl, h.symm⟩, ?_⟩
    rintro (⟨_, _, _, _, _, ⟨⟩, h⟩ | ⟨_, ⟨⟩, _⟩)
    exact h.symm
  | _ => simp [mention, declarations, Declaration.declared_mem_unset]

theorem Stmt.call_not_mem_mention (s : Stmt) : ¬.call n ∈ s.mention := by
  have unset (d : Declaration) : ¬.call n ∈ d.unset := by simp [Declaration.unset]
  cases s <;> simp [mention, declarations, unset]

theorem Expr.declared_not_mem_mention (e : Expr) : ¬.declared n ∈ e.mention := by
  cases e with
  | call _ callee => cases callee <;> simp [mention, head]
  | _ => simp [mention]

end Spellcraft
