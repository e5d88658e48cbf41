import ContextFree.Proofs.Cyk
import ContextFree.Proofs.Growth

/-!
The bottom-up parser decides the language of its grammar when the table has no conflicts.

A word is accepted only if it is generated, since at every moment the part of the word that is read belongs to the form
on the stack (`Justified`). For the other direction, `Delivers` says that with a word of a symbol ahead the parser moves
the dot of any item over that symbol, provided that the item expects what comes after the word:

- `delivers_of_mem_words`: the parser moves the dot over any symbol, since it builds a tree for the word;
- `accepted_iff`: the words it accepts are those that the grammar generates;
- `parse_iff_generates`: this is so for the parser as a whole, and the tabular parser agrees.
-/

namespace ContextFree.Lr

open Relation

variable {g : Grammar} {a : Augmented} {m : Automaton} {start s x : Symbol} {i : Item} {p : Production}
  {γ β η u v w rest word : List Symbol} {stack : List Entry} {c d : Configuration}

namespace Automaton

open Augmented

/-! ## Everything generated is accepted -/

/-- With the word ahead, the parser moves a dot over the symbol. -/
def Delivers (m : Automaton) (s : Symbol) (v : List Symbol) : Prop :=
  ∀ ⦃γ : List Symbol⦄ ⦃stack : List Entry⦄ ⦃i : Item⦄ (rest : List Symbol), m.Stacked γ stack →
    m.augmented.Reads γ i → m.augmented.behind i = some s → m.augmented.Expects i.advance (rest.headD endMark) →
    ∃ stack', ReflTransGen m.Goes ⟨stack, v ++ rest⟩ ⟨stack', rest⟩ ∧ m.Stacked (γ ++ [s]) stack'

section

variable (wf : g.WellFormed) (made : ofGrammar g = .ok m)

include wf made

/-- **The parser moves a dot over every symbol** whose word is ahead. -/
theorem delivers_of_mem_words (lr1 : m.isLr1) (h : v ∈ words m.augmented.productions s) : m.Delivers s v := by
  intro γ stack i rest stacked reads behind expects
  obtain ⟨stack', steps, stacked', -⟩ := walk wf made lr1 (β := [s]) rest stacked reads (drop_of_behind behind)
    (Reading.form_singleton (I := words m.augmented.productions) ▸ h) expects
  exact ⟨stack', steps, stacked'⟩

theorem accepts_of_generates (lr1 : m.isLr1) (h : g.Generates word) :
    ∃ d, ReflTransGen m.Goes (.start word) d ∧ m.step d = .finished .accepted := by
  obtain ⟨start, aug⟩ := exists_augments made
  have derived : word ∈ words m.augmented.productions g.start :=
    words_mono (fun p mem => aug.mem_of_mem_rules mem) g.start h
  have behind : m.augmented.behind Item.start = some g.start := by
    rw [Augmented.behind, Item.start, aug.right_zero]
    rfl
  obtain ⟨stack, steps, stacked⟩ := delivers_of_mem_words wf made lr1 derived [endMark] .bottom .start behind
    (expects_of_drop_eq_nil (i := Item.start.advance) (by simp [Item.advance, Item.start, aug.right_zero]))
  refine ⟨_, steps, step_accept wf made lr1 stacked (.advance .start behind) rfl ?_⟩
  rw [Augmented.behind, Item.advance, Item.start, aug.right_zero]
  rfl

/-! ## Nothing else is accepted -/

omit wf made in
/-- The part of the word that is read belongs to the form on the stack. -/
def Justified (g : Grammar) (m : Automaton) (word : List Symbol) (c : Configuration) : Prop :=
  ∃ γ u, m.Stacked γ c.stack ∧ u ∈ (words g.rules).form γ ∧ word ++ [endMark] = u ++ c.input

omit wf made in
theorem justified_start : Justified g m word (.start word) :=
  ⟨[], [], .bottom, Language.nil_mem_one, rfl⟩

/-- A step keeps the part that is read justified. -/
theorem Justified.step (lr1 : m.isLr1) (h : Justified g m word c) (goes : m.Goes c d) : Justified g m word d := by
  obtain ⟨start, aug⟩ := exists_augments made
  obtain ⟨γ, u, stacked, derived, eq⟩ := h
  have turn := turn wf made lr1 stacked
  rw [show m.step c = .running d from goes] at turn
  cases turn with
  | @shift i x t rest _ _ terminal input above =>
    refine ⟨γ ++ [x], u ++ [x], above, ?_, ?_⟩
    · exact Reading.mem_form_append.2 ⟨u, derived, [x],
        Reading.form_singleton (I := words g.rules) ▸ singleton_mem_words terminal, rfl⟩
    · rw [eq, input, List.append_cons]
  | @reduce δ i p t whole _ found _ inner _ above =>
    subst whole
    obtain ⟨u, below, v, top, rfl⟩ := Reading.mem_form_append.1 derived
    have mem := aug.mem_rules_of_ne_zero found inner
    refine ⟨δ ++ [p.left], u ++ v, above, ?_, eq⟩
    exact Reading.mem_form_append.2 ⟨u, below, v,
      Reading.form_singleton (I := words g.rules) ▸ form_le_words mem top, rfl⟩

theorem Justified.steps (lr1 : m.isLr1) (h : Justified g m word c) (steps : ReflTransGen m.Goes c d) :
    Justified g m word d := by
  induction steps with
  | refl => exact h
  | tail _ goes ih => exact ih.step wf made lr1 goes

theorem generates_of_accepts (lr1 : m.isLr1) (steps : ReflTransGen m.Goes (.start word) d)
    (last : m.step d = .finished .accepted) : g.Generates word := by
  obtain ⟨γ, u, stacked, derived, eq⟩ := justified_start.steps wf made lr1 steps
  obtain ⟨rfl, length⟩ := stacked.accepted wf made lr1 last
  rw [Reading.form_singleton] at derived
  obtain ⟨rfl, -⟩ := List.append_inj' eq (by rw [length]; rfl)
  exact derived

/-- **The parser accepts** exactly the words of the grammar. -/
theorem accepted_iff (lr1 : m.isLr1) (word : List Symbol) :
    (∃ trace, m.parse word = some (.ok ⟨.accepted, trace⟩)) ↔ g.Generates word := by
  rw [parse, if_pos lr1, run_eq_ok_iff]
  constructor
  · rintro ⟨d, steps, last⟩
    exact generates_of_accepts wf made lr1 steps last
  · exact accepts_of_generates wf made lr1

end

end Automaton

/-- **The bottom-up parser decides the language of the grammar** when the table has no conflicts: it comes to accept
exactly the words that are generated, whatever symbols the word is made of. The tabular parser accepts the same words
as soon as it has a grammar to work with. -/
theorem parse_iff_generates (wf : g.WellFormed) (made : Automaton.ofGrammar g = .ok m) (lr1 : m.isLr1)
    (word : List Symbol) :
    ((∃ trace, m.parse word = some (.ok ⟨.accepted, trace⟩)) ↔ g.Generates word) ∧
    ∀ h, Cyk.workingGrammar g = .ok h →
      ((∃ trace, m.parse word = some (.ok ⟨.accepted, trace⟩)) ↔ (Cyk.parse h word).verdict.isAccepted) := by
  have generates := Automaton.accepted_iff wf made lr1 word
  refine ⟨generates, fun h working => ?_⟩
  rw [generates, Cyk.isAccepted_parse_iff wf working]

set_option maxRecDepth 100000 in
/-- The table for brackets has no conflicts; the end marker inside a word is like any other foreign symbol. -/
theorem parse_brackets : brackets.WellFormed ∧ ∃ m, Automaton.ofGrammar brackets = .ok m ∧ m.isLr1 ∧
    ((∃ trace, m.parse ['a', endMark, 'b'] = some (.ok ⟨.accepted, trace⟩)) ↔
      brackets.Generates ['a', endMark, 'b']) ∧
    ∀ h, Cyk.workingGrammar brackets = .ok h →
      ((∃ trace, m.parse ['a', endMark, 'b'] = some (.ok ⟨.accepted, trace⟩)) ↔
        (Cyk.parse h ['a', endMark, 'b']).verdict.isAccepted) := by
  obtain ⟨m, made, lr1⟩ : ∃ m, Automaton.ofGrammar brackets = .ok m ∧ m.isLr1 :=
    Automaton.exists_lr1 (by decide +kernel)
  exact ⟨brackets_wellFormed, m, made, lr1, parse_iff_generates brackets_wellFormed made lr1 ['a', endMark, 'b']⟩

end ContextFree.Lr
