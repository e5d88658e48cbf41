import ContextFree.Proofs.Leading
import ContextFree.Proofs.Table

/-!
The table is that of the canonical collection. The items are numbered and made the states of an automaton with empty
moves, and the states of the table come out of its subset construction; none of this shows in the result. The initial
state is the closure of the start item, every state leads on a symbol to the closure of its items with the dot moved over
that symbol, and a cell holds what the items of its state call for.

- `mem_follow_iff_canFollow`: what the FIRST sets put behind a dot is what derivations put there;
- `closure_start_iff`, `closure_advanced_iff`: the items that a parse may be at are closures;
- `state_cases`: every state comes after some symbols;
- `canonical_of_ok`: the collection and its table.
-/

namespace ContextFree.Lr

open Relation

variable {g : Grammar} {a : Augmented} {m : Automaton} {start s x : Symbol} {i : Item} {γ u v : List Symbol} {q : Nat}
  {act : Action} {kernel : Item → Prop}

/-! ## Closures -/

namespace Augments

open Augmented

variable (aug : Augments g a start)

include aug

theorem extends_grammar : a.Extends g := by
  obtain ⟨upper, unused, ne, -⟩ := Grammar.fresh_of_mem_supply aug.fresh
  exact ⟨start, upper, unused, ne, aug.productions⟩

theorem derives_iff : Derives (grammar g start).rules u v ↔ Derives a.productions u v := by
  have same : ∀ p, p ∈ (grammar g start).rules ↔ p ∈ a.productions := fun p =>
    Grammar.mem_rules.trans aug.mem_productions.symm
  exact ⟨Derives.mono fun p => (same p).1, Derives.mono fun p => (same p).2⟩

/-- **What can follow the symbol behind a dot** is read off the FIRST sets. -/
theorem mem_follow_iff_canFollow (wf : g.WellFormed) : x ∈ a.follow i ↔ a.CanFollow i x := by
  rw [mem_follow_iff, Expects, aug.first, Grammar.mem_ofForm_iff (aug.lefts_rules wf), Grammar.ofForm_nullable_iff]
  simp only [BeginsWith, aug.derives_iff]
  rfl

theorem reads_of_closure (wf : g.WellFormed) (reads : ∀ i, kernel i → a.Reads γ i) (h : a.Closure kernel i) :
    a.Reads γ i := by
  induction h with
  | kernel mem => exact reads _ mem
  | @predict i n p x _ behind found follows ih =>
    have upper := aug.lefts wf p (List.mem_of_getElem? found)
    exact .predict ih behind upper (mem_predicted.2 ⟨p, found, rfl, rfl, (aug.mem_follow_iff_canFollow wf).2 follows⟩)

theorem closure_of_reads (wf : g.WellFormed) (h : a.Reads γ i) (first : γ = [] → kernel Item.start)
    (later : ∀ δ s i, γ = δ ++ [s] → a.Reads δ i → a.behind i = some s → kernel i.advance) : a.Closure kernel i := by
  induction h with
  | start => exact .kernel (first rfl)
  | advance reads behind _ => exact .kernel (later _ _ _ rfl reads behind)
  | predict _ behind _ mem ih =>
    obtain ⟨p, found, rfl, dot, follows⟩ := mem_predicted.1 mem
    have predicted := (ih first later).predict behind found ((aug.mem_follow_iff_canFollow wf).1 follows)
    rwa [← dot] at predicted

theorem closure_start_iff (wf : g.WellFormed) : a.Closure (· = Item.start) i ↔ a.Reads [] i := by
  refine ⟨aug.reads_of_closure wf fun j eq => eq ▸ .start, fun h => aug.closure_of_reads wf h (fun _ => rfl) ?_⟩
  intro δ s j eq
  exact absurd eq.symm (List.append_ne_nil_of_right_ne_nil δ (List.cons_ne_nil s []))

theorem closure_advanced_iff (wf : g.WellFormed) :
    a.Closure (a.Advanced (a.Reads γ) s) i ↔ a.Reads (γ ++ [s]) i := by
  refine ⟨aug.reads_of_closure wf ?_, fun h => aug.closure_of_reads wf h ?_ ?_⟩
  · intro j advanced
    obtain ⟨i, reads, behind, rfl⟩ := advanced
    exact .advance reads behind
  · exact fun eq => absurd eq (List.append_ne_nil_of_right_ne_nil γ (List.cons_ne_nil s []))
  · intro δ r j eq reads behind
    obtain ⟨rfl, one⟩ := List.append_inj' eq rfl
    obtain ⟨rfl, -⟩ := List.cons.inj one
    exact ⟨j, reads, behind, rfl⟩

end Augments

theorem Augmented.Closure.exists_kernel (h : a.Closure kernel i) : ∃ j, kernel j := by
  induction h with
  | kernel mem => exact ⟨_, mem⟩
  | predict _ _ _ _ ih => exact ih

namespace Automaton

/-! ## States -/

section

variable (wf : g.WellFormed) (made : ofGrammar g = .ok m)

include made

/-- Every state comes after some symbols; a number that is not a state has no items, no moves and no actions. -/
theorem state_cases (q : Nat) : (∃ γ, m.dfa.run γ = some q) ∨
    m.itemsOf q = [] ∧ (∀ s, m.dfa.next q s = none) ∧ ∀ s, m.actions? q s = none := by
  obtain ⟨-, -, dfa, table⟩ := built_of_ok made
  cases found : m.dfa.states.get? q with
  | some state =>
    rw [dfa] at found ⊢
    exact .inl (Nfa.exists_word_of_state found)
  | none =>
    refine .inr ⟨by rw [itemsOf, found], fun s => ?_, fun s => ?_⟩
    · rw [dfa] at found ⊢
      exact Nfa.next_toDfa_of_get?_eq_none found
    · have beyond : m.table[q]? = none := by
        rw [table, stateRows, List.getElem?_map, List.getElem?_zipIdx, show m.dfa.states.list[q]? = none from found]
        rfl
      rw [actions?, beyond]
      rfl

include wf

theorem exists_reads (run : m.dfa.run γ = some q) : ∃ i, m.augmented.Reads γ i := by
  obtain ⟨start, aug⟩ := exists_augments made
  obtain ⟨-, -, dfa, -⟩ := built_of_ok made
  have path : ∃ t, (itemNfa m.augmented m.augmented.items).Path 0 γ t := by
    rw [dfa] at run
    refine Classical.byContradiction fun none => ?_
    have stuck := Nfa.run_toDfa_eq_none_iff.2 fun t path => none ⟨t, path⟩
    cases stuck.symm.trans run
  obtain ⟨t, path⟩ := path
  obtain ⟨i, -, reads⟩ := aug.reads_of_path wf path aug.itemZero .start
  exact ⟨i, reads⟩

omit wf made in
theorem next_eq_run (run : m.dfa.run γ = some q) (s : Symbol) : m.dfa.next q s = m.dfa.run (γ ++ [s]) := by
  rw [Dfa.run_concat, run, Option.bind_some]

theorem itemsOf_eq_reads (run : m.dfa.run γ = some q) : (· ∈ m.itemsOf q) = m.augmented.Reads γ :=
  funext fun _ => propext (mem_itemsOf wf made run)

/-- What the items and the moves of a state call for is what is asked for after the symbols that lead to it. -/
theorem calls_iff_asked (run : m.dfa.run γ = some q) : m.Calls q s act ↔ m.Asked γ s act := by
  have next := next_eq_run run
  have items : ∀ i, i ∈ m.itemsOf q ↔ m.augmented.Reads γ i := fun i => mem_itemsOf wf made run
  have complete : ∀ i, m.augmented.isComplete i ↔ m.augmented.behind i = none := fun i => Option.isNone_iff_eq_none
  refine ⟨fun h => ?_, fun h => ?_⟩
  · cases h with
    | shift mem behind terminal known => exact .shift ((items _).1 mem) behind terminal (next _ ▸ known)
    | reduce mem ends inner => exact .reduce ((items _).1 mem) ((complete _).1 ends) inner
    | accept mem ends top => exact .accept ((items _).1 mem) ((complete _).1 ends) top
    | goto upper known => exact .goto upper (next _ ▸ known)
  · cases h with
    | shift reads behind terminal known => exact .shift ((items _).2 reads) behind terminal ((next _).trans known)
    | reduce reads ends inner => exact .reduce ((items _).2 reads) ((complete _).2 ends) inner
    | accept reads ends top => exact .accept ((items _).2 reads) ((complete _).2 ends) top
    | goto upper known => exact .goto upper ((next _).trans known)

/-- **The cells of the table** hold what the items and the moves of their states call for. -/
theorem mem_actions_iff_calls (q : Nat) (s : Symbol) (act : Action) :
    act ∈ (m.actions? q s).getD ∅ ↔ m.Calls q s act := by
  rcases state_cases made q with ⟨γ, run⟩ | ⟨none, still, empty⟩
  · rw [calls_iff_asked wf made run, ← offers_iff wf made run, Offers]
    cases m.actions? q s with
    | none => simp
    | some actions => simp
  · rw [empty s]
    refine iff_of_false (by simp) fun h => ?_
    cases h with
    | shift mem => exact absurd (none ▸ mem) List.not_mem_nil
    | reduce mem => exact absurd (none ▸ mem) List.not_mem_nil
    | accept mem => exact absurd (none ▸ mem) List.not_mem_nil
    | goto _ known => cases (still s).symm.trans known

/-- A state leads somewhere on a symbol when the symbol stands behind a dot. -/
theorem exists_next_iff (q : Nat) (s : Symbol) :
    (∃ t, m.dfa.next q s = some t) ↔ ∃ i, m.augmented.Advanced (· ∈ m.itemsOf q) s i := by
  obtain ⟨start, aug⟩ := exists_augments made
  rcases state_cases made q with ⟨γ, run⟩ | ⟨none, still, -⟩
  · rw [next_eq_run run, itemsOf_eq_reads wf made run]
    refine ⟨fun h => ?_, fun h => ?_⟩
    · obtain ⟨t, run'⟩ := h
      obtain ⟨i, reads⟩ := exists_reads wf made run'
      exact ((aug.closure_advanced_iff wf).2 reads).exists_kernel
    · obtain ⟨i, advanced⟩ := h
      exact exists_run wf made ((aug.closure_advanced_iff wf).1 (.kernel advanced))
  · rw [still s, none]
    refine iff_of_false (fun h => nomatch h) fun h => ?_
    obtain ⟨-, i, mem, -⟩ := h
    exact List.not_mem_nil mem

/-- **A state leads on a symbol** to the closure of its items with the dot moved over the symbol. -/
theorem mem_itemsOf_next {t : Nat} (next : m.dfa.next q s = some t) :
    i ∈ m.itemsOf t ↔ m.augmented.Closure (m.augmented.Advanced (· ∈ m.itemsOf q) s) i := by
  obtain ⟨start, aug⟩ := exists_augments made
  rcases state_cases made q with ⟨γ, run⟩ | ⟨-, still, -⟩
  · rw [next_eq_run run] at next
    rw [itemsOf_eq_reads wf made run, aug.closure_advanced_iff wf, mem_itemsOf wf made next]
  · cases (still s).symm.trans next

end

end Automaton

/-- **The states are the canonical collection**, and the table is the one that belongs to it, for every grammar with an
automaton, with conflicts or without. -/
theorem canonical_of_ok (wf : g.WellFormed) (made : Automaton.ofGrammar g = .ok m) : m.Canonical g := by
  obtain ⟨start, aug⟩ := exists_augments made
  refine ⟨aug.extends_grammar, fun i => ?_, Automaton.exists_next_iff wf made,
    fun q s t next i => Automaton.mem_itemsOf_next wf made next, Automaton.mem_actions_iff_calls wf made⟩
  rw [mem_itemsOf wf made (γ := []) rfl, aug.closure_start_iff wf]

set_option maxRecDepth 100000 in
/-- The grammar of brackets has an automaton. -/
theorem canonical_brackets : brackets.WellFormed ∧ ∃ m, Automaton.ofGrammar brackets = .ok m ∧ m.Canonical brackets := by
  obtain ⟨m, made, -⟩ : ∃ m, Automaton.ofGrammar brackets = .ok m ∧ m.isLr1 := Automaton.exists_lr1 (by decide +kernel)
  exact ⟨brackets_wellFormed, m, made, canonical_of_ok brackets_wellFormed made⟩

end ContextFree.Lr
