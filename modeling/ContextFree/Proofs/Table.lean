import ContextFree.Proofs.Items

/-!
What the cells of the table hold. `Asked` lists the four reasons for an action, in terms of the items that a parse may
be at and of the runs of the automaton; a cell holds the actions that are asked for, and the only one in a table without
conflicts.

- `mem_cells`, `offers_iff`: the cells of the table;
- `action?_iff`, `goto?_iff`: the look-ups of the parser.
-/

namespace ContextFree

open Std (ExtTreeMap ExtTreeSet)

namespace Lr

variable {g : Grammar} {m : Automaton} {γ : List Symbol} {q t : Nat} {s : Symbol} {i : Item} {act other : Action}

/-! ## Rows -/

theorem mem_getD_ofEntries {entries : List (Symbol × Action)} :
    act ∈ (Row.ofEntries entries).getD s ∅ ↔ (s, act) ∈ entries := by
  have from_row : ∀ (entries : List (Symbol × Action)) (row : Row), act ∈ (entries.foldl (fun row e =>
      row.insert e.1 ((row.getD e.1 ∅).insert e.2)) row).getD s ∅ ↔ act ∈ row.getD s ∅ ∨ (s, act) ∈ entries := by
    intro entries
    induction entries with
    | nil => simp
    | cons e entries ih =>
      intro row
      rw [List.foldl_cons, ih, List.mem_cons, ← or_assoc]
      refine or_congr_left ?_
      obtain ⟨r, action⟩ := e
      by_cases same : r = s
      · subst same
        simp only [ExtTreeMap.getD_insert_self, ExtTreeSet.mem_insert, Std.compare_eq_iff_eq, Prod.mk.injEq, true_and]
        rw [or_comm, eq_comm]
      · simp [ExtTreeMap.getD_insert, same, Ne.symm same]
  rw [Row.ofEntries]
  refine (from_row entries ∅).trans ?_
  simp

/-- There is an action in every cell. -/
theorem exists_mem_of_ofEntries {entries : List (Symbol × Action)} {actions : FiniteSet Action}
    (found : (Row.ofEntries entries)[s]? = some actions) : ∃ act, act ∈ actions := by
  have kept : ∀ (entries : List (Symbol × Action)) (row : Row),
      (∀ actions, row[s]? = some actions → ∃ act, act ∈ actions) →
      ∀ actions, (entries.foldl (fun row e => row.insert e.1 ((row.getD e.1 ∅).insert e.2)) row)[s]? = some actions →
        ∃ act, act ∈ actions := by
    intro entries
    induction entries with
    | nil => exact fun row inhabited => inhabited
    | cons e entries ih =>
      intro row inhabited
      refine ih _ fun actions found => ?_
      rw [ExtTreeMap.getElem?_insert] at found
      split at found
      · cases found
        exact ⟨e.2, ExtTreeSet.mem_insert_self⟩
      · exact inhabited actions found
  exact kept entries ∅ (by simp) actions found

namespace Automaton

/-- Some cell of the table holds the action. -/
def Offers (m : Automaton) (q : Nat) (s : Symbol) (act : Action) : Prop :=
  ∃ actions, m.actions? q s = some actions ∧ act ∈ actions

/-- the reasons for an action after a list of symbols -/
inductive Asked (m : Automaton) (γ : List Symbol) : Symbol → Action → Prop
  | shift {i : Item} {s : Symbol} {t : Nat} : m.augmented.Reads γ i → m.augmented.behind i = some s →
    Symbol.isTerminal s → m.dfa.run (γ ++ [s]) = some t → Asked m γ s (.shift t)
  | reduce {i : Item} : m.augmented.Reads γ i → m.augmented.behind i = none → i.production ≠ 0 →
    Asked m γ i.lookahead (.reduce i.production)
  | accept {i : Item} : m.augmented.Reads γ i → m.augmented.behind i = none → i.production = 0 →
    Asked m γ i.lookahead .accept
  | goto {s : Symbol} {t : Nat} : Symbol.isNonTerminal s → m.dfa.run (γ ++ [s]) = some t → Asked m γ s (.goto t)

theorem itemEntry_iff (run : m.dfa.run γ = some q) :
    (∃ i, m.augmented.Reads γ i ∧ itemEntry m.augmented (m.dfa.next q) i = some (s, act)) ∨
      (∃ t, m.dfa.next q s = some t ∧ Symbol.isNonTerminal s ∧ act = .goto t) ↔ m.Asked γ s act := by
  have next : ∀ s, m.dfa.next q s = m.dfa.run (γ ++ [s]) := fun s => by rw [Dfa.run_concat, run, Option.bind_some]
  constructor
  · rintro (⟨i, reads, entry⟩ | ⟨t, known, hs, rfl⟩)
    · unfold itemEntry at entry
      split at entry
      · rename_i r behind
        split at entry
        · rename_i terminal
          obtain ⟨t, known, eq⟩ := Option.map_eq_some_iff.1 entry
          cases eq
          exact .shift reads behind terminal (next _ ▸ known)
        · cases entry
      · rename_i complete
        split at entry
        · rename_i top
          cases entry
          exact .accept reads complete top
        · rename_i inner
          cases entry
          exact .reduce reads complete inner
    · exact .goto hs (next s ▸ known)
  · rintro (⟨reads, behind, terminal, known⟩ | ⟨reads, complete, inner⟩ | ⟨reads, complete, top⟩ | ⟨hs, known⟩)
    · refine .inl ⟨_, reads, ?_⟩
      simp only [itemEntry, behind]
      rw [if_pos terminal, next, known]
      rfl
    · refine .inl ⟨_, reads, ?_⟩
      simp only [itemEntry, complete]
      rw [if_neg inner]
    · refine .inl ⟨_, reads, ?_⟩
      simp only [itemEntry, complete]
      rw [if_pos top]
    · exact .inr ⟨_, next s ▸ known, hs, rfl⟩

/-- **The cells of the table** hold the actions that are asked for. -/
theorem offers_iff (wf : g.WellFormed) (made : Automaton.ofGrammar g = .ok m) (run : m.dfa.run γ = some q) :
    m.Offers q s act ↔ m.Asked γ s act := by
  obtain ⟨state, found, mem⟩ := mem_items_of_run wf made run
  obtain ⟨-, -, -, table⟩ := built_of_ok made
  have row : m.table[q]? = some (stateRow m.augmented m.items m.dfa q state) := by
    rw [table, stateRows, List.getElem?_map, List.getElem?_zipIdx, show m.dfa.states.list[q]? = some state from found]
    simp
  have cell : m.Offers q s act ↔ act ∈ (stateRow m.augmented m.items m.dfa q state).getD s ∅ := by
    rw [Offers, actions?, row, Option.bind_some, ExtTreeMap.getD_eq_getD_getElem?]
    cases (stateRow m.augmented m.items m.dfa q state)[s]? with
    | none => simp
    | some actions => simp
  rw [cell, stateRow, mem_getD_ofEntries, ← itemEntry_iff run, List.mem_append]
  refine or_congr ?_ ?_
  · simp only [List.mem_filterMap, ExtTreeSet.mem_toList]
    simp only [← mem]
  · simp only [List.mem_filterMap, Prod.exists, ExtTreeMap.mem_toList_iff_getElem?_eq_some]
    constructor
    · rintro ⟨r, t, known, eq⟩
      split at eq
      · rename_i hs
        cases eq
        exact ⟨t, known, hs, rfl⟩
      · cases eq
    · rintro ⟨t, known, hs, rfl⟩
      exact ⟨s, t, known, by rw [if_pos hs]⟩

/-! ## Look-ups -/

theorem exists_lr1 (h : (ofGrammar g).toOption.any isLr1) : ∃ m, ofGrammar g = .ok m ∧ m.isLr1 := by
  cases made : ofGrammar g with
  | ok m =>
    rw [made] at h
    exact ⟨m, rfl, h⟩
  | error e =>
    rw [made] at h
    cases h

theorem mem_cells {actions : FiniteSet Action} : (q, s, actions) ∈ m.cells ↔ m.actions? q s = some actions := by
  simp [cells, actions?, List.mem_zipIdx_iff_getElem?, ExtTreeMap.mem_toList_iff_getElem?_eq_some,
    Option.bind_eq_some_iff]

theorem size_le_of_isLr1 (lr1 : m.isLr1) {actions : FiniteSet Action} (known : m.actions? q s = some actions) :
    actions.size ≤ 1 := by
  simpa using List.all_eq_true.1 lr1 _ (mem_cells.2 known)

theorem action?_eq_iff (lr1 : m.isLr1) : m.action? q s = some act ↔ m.Offers q s act := by
  rw [Offers, action?]
  cases known : m.actions? q s with
  | none => simp
  | some actions =>
    have short : actions.toList.length ≤ 1 := by
      rw [ExtTreeSet.length_toList]
      exact size_le_of_isLr1 lr1 known
    simp only [Option.map_some, Option.some.injEq, exists_eq_left', ← ExtTreeSet.mem_toList]
    match actions.toList, short with
    | [], _ => simp
    | [one], _ => simp [eq_comm]

/-- **The action of the parser**: the only one that is asked for. -/
theorem action?_iff (wf : g.WellFormed) (made : Automaton.ofGrammar g = .ok m) (lr1 : m.isLr1)
    (run : m.dfa.run γ = some q) : m.action? q s = some act ↔ m.Asked γ s act := by
  rw [action?_eq_iff lr1, offers_iff wf made run]

/-- **The goto of the parser** is the move of the automaton. -/
theorem goto?_iff (wf : g.WellFormed) (made : Automaton.ofGrammar g = .ok m) (run : m.dfa.run γ = some q)
    (hs : Symbol.isNonTerminal s) : m.goto? q s = some t ↔ m.dfa.run (γ ++ [s]) = some t := by
  have offered : ∀ t, m.Offers q s (.goto t) ↔ m.dfa.run (γ ++ [s]) = some t := by
    intro t
    rw [offers_iff wf made run]
    constructor
    · rintro (_ | _ | _ | ⟨-, known⟩)
      exact known
    · exact fun known => .goto hs known
  rw [goto?, Option.bind_eq_some_iff]
  constructor
  · rintro ⟨actions, known, first⟩
    obtain ⟨action, mem, eq⟩ := List.exists_of_findSome?_eq_some first
    split at eq
    · cases eq
      exact (offered t).1 ⟨actions, known, ExtTreeSet.mem_toList.1 mem⟩
    · cases eq
  · intro move
    obtain ⟨actions, known, mem⟩ := (offered t).2 move
    refine ⟨actions, known, ?_⟩
    generalize search : actions.toList.findSome? _ = result
    cases result with
    | none => exact absurd (List.findSome?_eq_none_iff.1 search _ (ExtTreeSet.mem_toList.2 mem)) (by simp)
    | some target =>
      obtain ⟨action, mem, eq⟩ := List.exists_of_findSome?_eq_some search
      split at eq
      · cases eq
        have also := (offered target).1 ⟨actions, known, ExtTreeSet.mem_toList.1 mem⟩
        exact also.symm.trans move
      · cases eq

end Automaton

end Lr

end ContextFree
