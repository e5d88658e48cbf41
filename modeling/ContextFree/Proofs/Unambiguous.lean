import ContextFree.Proofs.Recognition

/-!
A grammar whose table has no conflicts is unambiguous. The parser builds every derivation tree of the word that it reads
(`grows_of_forest`), and it has no choice in what it does (`Grows.unique`); so there is only one tree, and only one
rightmost derivation.

- `Automaton.grows_to_acceptance`: a growth with any tree of the word ends in acceptance;
- `Automaton.forest_unique`: so all trees of the word are the same, with the same productions;
- `Automaton.rightmost_unique`: so the word has no two rightmost derivations;
- `existsUnique_rightmost`: every word of the language has exactly one rightmost derivation and one derivation tree.
-/

namespace ContextFree.Lr

open Relation

variable {g : Grammar} {m : Automaton} {word : List Symbol} {t u : Tree} {ps qs : List Production}

namespace Automaton

open Augmented

theorem Grows.end_unique {x y z : Growth} (h : ReflTransGen m.Grows x y) (k : ReflTransGen m.Grows x z)
    (last : ∀ e, ¬ m.Grows y e) (last' : ∀ e, ¬ m.Grows z e) : y = z := by
  rcases ReflTransGen.total_of_right_unique (fun _ _ _ one other => one.unique other) h k with onward | onward
  · rcases onward.cases_head with eq | ⟨e, step, -⟩
    · exact eq
    · exact absurd step (last e)
  · rcases onward.cases_head with eq | ⟨e, step, -⟩
    · exact eq.symm
    · exact absurd step (last' e)

theorem not_grows_of_finished {x e : Growth} {verdict : Verdict} (last : m.step x.configuration = .finished verdict) :
    ¬ m.Grows x e := by
  intro step
  have goes := step.goes
  rw [Goes, last] at goes
  cases goes

section

variable (wf : g.WellFormed) (made : ofGrammar g = .ok m) (lr1 : m.isLr1)

include wf made lr1

theorem grows_to_acceptance (forest : Forest g.rules [t] [g.start] ps word) : ∃ stack,
    ReflTransGen m.Grows ⟨.start word, [], []⟩ ⟨⟨stack, [endMark]⟩, [t], ps⟩ ∧
    m.step ⟨stack, [endMark]⟩ = .finished .accepted := by
  obtain ⟨start, aug⟩ := exists_augments made
  have forest := forest.mono fun p mem => aug.mem_of_mem_rules mem
  have ahead : (m.augmented.right Item.start.production).drop Item.start.dot = [g.start] ++ [] := by
    rw [Item.start, aug.right_zero]
    rfl
  have ends : (m.augmented.right 0).drop 1 = [] := by rw [aug.right_zero]; rfl
  obtain ⟨stack, steps, stacked, reads⟩ := grows_of_forest wf made lr1 forest [endMark] .bottom .start ahead
    (expects_of_drop_eq_nil (i := ⟨0, 1, endMark⟩) ends)
  refine ⟨stack, by simpa [Configuration.start] using steps [] [], step_accept wf made lr1 stacked reads rfl ?_⟩
  rw [Augmented.behind, ← List.head?_drop]
  exact congrArg List.head? ends

/-- **A word has one derivation tree**, and one list of productions that builds it. -/
theorem forest_unique (h : Forest g.rules [t] [g.start] ps word) (k : Forest g.rules [u] [g.start] qs word) :
    t = u ∧ ps = qs := by
  obtain ⟨stack, steps, last⟩ := grows_to_acceptance wf made lr1 h
  obtain ⟨stack', steps', last'⟩ := grows_to_acceptance wf made lr1 k
  have same := Grows.end_unique steps steps' (fun e => not_grows_of_finished last) fun e => not_grows_of_finished last'
  exact ⟨(List.cons.inj (congrArg Growth.trees same)).1, congrArg Growth.productions same⟩

/-- **A word has one rightmost derivation**, since each of them builds a tree. -/
theorem rightmost_unique (isWord : IsWord word) (h : RightmostDerivation g.rules [g.start] ps word)
    (k : RightmostDerivation g.rules [g.start] qs word) : ps = qs := by
  obtain ⟨ts, forest⟩ := exists_forest_of_rightmost wf.lefts h isWord
  obtain ⟨us, other⟩ := exists_forest_of_rightmost wf.lefts k isWord
  obtain ⟨t, rfl⟩ := List.length_eq_one_iff.1 forest.length_eq
  obtain ⟨u, rfl⟩ := List.length_eq_one_iff.1 other.length_eq
  exact (forest_unique wf made lr1 forest other).2

end

end Automaton

/-- **A grammar whose table has no conflicts is unambiguous**: every word of its language has exactly one rightmost
derivation from the start symbol, and exactly one derivation tree. -/
theorem existsUnique_rightmost (wf : g.WellFormed) (made : Automaton.ofGrammar g = .ok m) (lr1 : m.isLr1)
    (generates : g.Generates word) :
    (∃! ps, RightmostDerivation g.rules [g.start] ps word) ∧
    ∃! t, ∃ ps, Forest g.rules [t] [g.start] ps word := by
  obtain ⟨isWord, derives⟩ := generates
  have single : ∀ {ts ps}, Forest g.rules ts [g.start] ps word → ∃ t, ts = [t] := fun forest =>
    List.length_eq_one_iff.1 forest.length_eq
  obtain ⟨ts, ps, forest⟩ := exists_forest derives isWord
  obtain ⟨t, rfl⟩ := single forest
  refine ⟨⟨ps, forest.rightmost, fun qs derivation => ?_⟩, t, ⟨ps, forest⟩, ?_⟩
  · exact Automaton.rightmost_unique wf made lr1 isWord derivation forest.rightmost
  · rintro u ⟨qs, other⟩
    exact (Automaton.forest_unique wf made lr1 other forest).1

theorem brackets_generates : brackets.Generates ['a', 'b'] := by
  have empty : (⟨'S', []⟩ : Production) ∈ brackets.rules := by decide +kernel
  have pair : (⟨'S', ['S', 'a', 'S', 'b']⟩ : Production) ∈ brackets.rules := by decide +kernel
  have a : Symbol.isTerminal 'a' := by decide +kernel
  have b : Symbol.isTerminal 'b' := by decide +kernel
  have children := Forest.node empty .nil (.leaf a (.node empty .nil (.leaf b .nil)))
  have forest := Forest.node pair children .nil
  exact ⟨forest.isWord, forest.rightmost.derives⟩

set_option maxRecDepth 100000 in
/-- Empty right sides do no harm: the pair of brackets has one derivation. -/
theorem existsUnique_rightmost_brackets : brackets.WellFormed ∧ brackets.Generates ['a', 'b'] ∧
    (∃ m, Automaton.ofGrammar brackets = .ok m ∧ m.isLr1) ∧
    (∃! ps, RightmostDerivation brackets.rules [brackets.start] ps ['a', 'b']) ∧
    ∃! t, ∃ ps, Forest brackets.rules [t] [brackets.start] ps ['a', 'b'] := by
  obtain ⟨m, made, lr1⟩ : ∃ m, Automaton.ofGrammar brackets = .ok m ∧ m.isLr1 :=
    Automaton.exists_lr1 (by decide +kernel)
  exact ⟨brackets_wellFormed, brackets_generates, ⟨m, made, lr1⟩,
    existsUnique_rightmost brackets_wellFormed made lr1 brackets_generates⟩

end ContextFree.Lr
