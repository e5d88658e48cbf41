import ContextFree.Layout.Entries
import ContextFree.Proofs.Collection

/-!
The sheet shows the table, except for the gotos on a symbol without a production. The columns are not taken from the
table: they are headed by the terminals of the right sides and by the left sides. So every symbol of a cell has to be
found among them: a lookahead is one of the terminals, since FIRST sets hold no others, and a symbol behind a dot
stands on a right side. A non-terminal there need not be a left side, and then it has no column.

- `actionsAt_sheet`, `targetAt_sheet`: what the entries are;
- `nodup_headings`: no symbol has two columns;
- `Asked.mem_terminals`, `Asked.goto_of_nonTerminal`: which symbols have cells, and what is in those of a
  non-terminal;
- `sheet_reflects`: the sheet reflects the table for the terminals and the left sides, and for all symbols when every
  non-terminal has a production;
- `sheet_deadEnd`: it does not when there is a non-terminal without one.
-/

namespace ContextFree

open Std (ExtTreeSet)

namespace Lr

variable {g : Grammar} {a : Augmented} {m : Automaton} {start s : Symbol} {γ : List Symbol} {q t column : Nat}
  {act : Action} {actions : FiniteSet Action}

/-! ## The headings -/

namespace Augments

open Augmented

variable (aug : Augments g a start)

include aug

theorem mem_nonTerminals : s ∈ a.nonTerminals ↔ s ∈ g.lefts := by
  have unused : ∀ p ∈ g.productions, p.left ≠ start := by
    rintro p mem rfl
    obtain ⟨-, unused, -, -⟩ := Grammar.fresh_of_mem_supply aug.fresh
    exact unused (Grammar.mem_symbols.2 ⟨p, mem, .inl rfl⟩)
  simp only [nonTerminals, aug.productions, ExtTreeSet.mem_toList, ExtTreeSet.mem_erase, FiniteSet.mem_ofList,
    List.mem_map, Grammar.mem_rules, Grammar.mem_lefts, ne_eq, Std.compare_eq_iff_eq]
  constructor
  · rintro ⟨-, p, mem, rfl⟩
    exact ⟨p.right, mem⟩
  · rintro ⟨right, mem⟩
    exact ⟨fun h => unused _ mem h.symm, _, mem, rfl⟩

theorem nonTerminal_of_mem_nonTerminals (wf : g.WellFormed) (h : s ∈ a.nonTerminals) : Symbol.isNonTerminal s := by
  obtain ⟨right, mem⟩ := Grammar.mem_lefts.1 (aug.mem_nonTerminals.1 h)
  exact wf.left_nonTerminal _ mem

theorem nodup_headings (wf : g.WellFormed) : (a.terminals ++ a.nonTerminals).Nodup := by
  have terminals : a.terminals.Nodup := by
    refine List.nodup_append.2 ⟨FiniteSet.nodup_toList, List.nodup_singleton _, ?_⟩
    intro x mem y mark
    rw [ExtTreeSet.mem_toList, ExtTreeSet.mem_erase, ne_eq, Std.compare_eq_iff_eq] at mem
    rw [List.mem_singleton.1 mark]
    exact Ne.symm mem.1
  have nonTerminals : a.nonTerminals.Nodup := by
    rw [Augmented.nonTerminals, aug.productions]
    exact FiniteSet.nodup_toList
  refine List.nodup_append.2 ⟨terminals, nonTerminals, fun x mem y mem' => ?_⟩
  exact Symbol.ne_of_isTerminal (isTerminal_of_mem_terminals mem) (aug.nonTerminal_of_mem_nonTerminals wf mem')

end Augments

namespace Automaton

open Augmented

/-! ## The cells -/

section Cells

variable (wf : g.WellFormed) (made : ofGrammar g = .ok m)

include made

theorem actions?_eq_none (beyond : m.dfa.states.list.length ≤ q) : m.actions? q s = none := by
  obtain ⟨-, -, -, table⟩ := built_of_ok made
  have row : m.table[q]? = none := by
    rw [List.getElem?_eq_none_iff, table]
    simpa [stateRows] using beyond
  rw [actions?, row]
  rfl

include wf

/-- **A cell holds what is asked for** after some symbols, and it holds something. -/
theorem exists_asked_of_cell (cell : (q, s, actions) ∈ m.cells) : ∃ γ, m.dfa.run γ = some q ∧
    (∃ act, act ∈ actions) ∧ ∀ act, act ∈ actions ↔ m.Asked γ s act := by
  rw [mem_cells] at cell
  rcases state_cases made q with ⟨γ, run⟩ | ⟨-, -, empty⟩
  · refine ⟨γ, run, ?_, fun act => ?_⟩
    · obtain ⟨row, known, found⟩ := Option.bind_eq_some_iff.1 cell
      obtain ⟨-, -, -, table⟩ := built_of_ok made
      rw [table, stateRows, List.getElem?_map] at known
      obtain ⟨⟨state, id⟩, -, rfl⟩ := Option.map_eq_some_iff.1 known
      exact exists_mem_of_ofEntries found
    · rw [← offers_iff wf made run, Offers, cell]
      simp
  · cases (empty s).symm.trans cell

theorem Asked.mem_terminals (asked : m.Asked γ s act) (terminal : Symbol.isTerminal s) :
    s ∈ m.augmented.terminals := by
  obtain ⟨start, aug⟩ := exists_augments made
  cases asked with
  | shift reads behind =>
    obtain ⟨p, known, at_dot⟩ := exists_of_behind behind
    exact Augmented.mem_terminals.2 (.inr ⟨terminal, p, List.mem_of_getElem? known, List.mem_of_getElem? at_dot⟩)
  | reduce reads => exact aug.mem_terminals_of_reads wf reads
  | accept reads => exact aug.mem_terminals_of_reads wf reads
  | goto hs => exact absurd hs (Symbol.isTerminal_iff_not.1 terminal)

theorem Asked.goto_of_nonTerminal (asked : m.Asked γ s act) (hs : Symbol.isNonTerminal s) :
    ∃ t, act = .goto t ∧ m.dfa.run (γ ++ [s]) = some t := by
  obtain ⟨start, aug⟩ := exists_augments made
  cases asked with
  | shift _ _ terminal => exact absurd hs (Symbol.isTerminal_iff_not.1 terminal)
  | reduce reads => exact absurd hs (Symbol.isTerminal_iff_not.1 (reads.terminal_lookahead aug wf))
  | accept reads => exact absurd hs (Symbol.isTerminal_iff_not.1 (reads.terminal_lookahead aug wf))
  | goto _ run => exact ⟨_, rfl, run⟩

/-- **A cell of a non-terminal** holds one goto, to where the automaton leads. -/
theorem toList_of_cell (cell : (q, s, actions) ∈ m.cells) (hs : Symbol.isNonTerminal s) :
    ∃ t, actions.toList = [.goto t] ∧ m.goto? q s = some t := by
  obtain ⟨γ, run, ⟨act, mem⟩, asked⟩ := exists_asked_of_cell wf made cell
  obtain ⟨t, rfl, next⟩ := ((asked act).1 mem).goto_of_nonTerminal wf made hs
  refine ⟨t, ?_, (goto?_iff wf made run hs).2 next⟩
  rw [← List.perm_singleton, List.perm_ext_iff_of_nodup FiniteSet.nodup_toList (List.nodup_singleton _)]
  intro act
  rw [ExtTreeSet.mem_toList, List.mem_singleton]
  refine ⟨fun other => ?_, fun eq => eq ▸ mem⟩
  obtain ⟨u, rfl, next'⟩ := ((asked act).1 other).goto_of_nonTerminal wf made hs
  rw [Option.some.inj (next.symm.trans next')]

/-- A non-terminal with a cell stands behind a dot, so it is the start symbol or one of the grammar. -/
theorem mem_nonTerminals_of_cell (cell : (q, s, actions) ∈ m.cells) (hs : Symbol.isNonTerminal s) :
    s = g.start ∨ s ∈ g.nonTerminals := by
  obtain ⟨start, aug⟩ := exists_augments made
  obtain ⟨γ, run, ⟨act, mem⟩, asked⟩ := exists_asked_of_cell wf made cell
  obtain ⟨t, -, next⟩ := ((asked act).1 mem).goto_of_nonTerminal wf made hs
  obtain ⟨-, i, -, behind, -⟩ := (exists_next_iff wf made q s).1 ⟨t, (next_eq_run run s).trans next⟩
  obtain ⟨p, known, at_dot⟩ := exists_of_behind behind
  have right : s ∈ p.right := List.mem_of_getElem? at_dot
  have known := List.mem_of_getElem? known
  rw [aug.productions] at known
  rcases List.mem_cons.1 known with rfl | known
  · exact .inl (List.mem_singleton.1 right)
  · exact .inr (Grammar.mem_nonTerminals.2 ⟨Grammar.mem_symbols.2 ⟨p, Grammar.mem_rules.1 known, .inr right⟩, hs⟩)

end Cells

/-! ## The entries -/

theorem getD_entry {β : Type} {n : Nat} {headings : List Symbol} {f : Nat → Symbol → β} {blank : β}
    (beyond : n ≤ q → ∀ s, f q s = blank) :
    ((((List.range n).map fun id => headings.map (f id))[q]?).bind (·[column]?)).getD blank =
      ((headings[column]?).map (f q)).getD blank := by
  by_cases inside : q < n
  · simp [inside]
  · cases known : headings[column]? with
    | none => simp [inside]
    | some s => simp [inside, beyond (Nat.le_of_not_lt inside) s]

section Entries

variable (made : ofGrammar g = .ok m)

include made

/-- **The entries of terminals** list the actions of their cells. -/
theorem actionsAt_sheet : m.sheet.actionsAt q column =
    ((m.augmented.terminals[column]?).map fun s => ((m.actions? q s).map (·.toList)).getD []).getD [] := by
  refine getD_entry (f := fun q s => ((m.actions? q s).map (·.toList)).getD []) fun beyond s => ?_
  rw [actions?_eq_none made beyond]
  rfl

/-- **The entries of non-terminals** are the gotos on them. -/
theorem targetAt_sheet : m.sheet.targetAt q column =
    ((m.augmented.nonTerminals[column]?).map (m.goto? q)).getD none := by
  refine getD_entry (f := m.goto?) fun beyond s => ?_
  rw [goto?, actions?_eq_none made beyond]
  rfl

end Entries

section Sheet

variable (wf : g.WellFormed) (made : ofGrammar g = .ok m)

include wf made

/-- **A cell is shown** when its symbol is a terminal or a left side. -/
theorem shows_of_cell (cell : (q, s, actions) ∈ m.cells) (known : Symbol.isTerminal s ∨ s ∈ g.lefts) :
    m.sheet.Shows q s actions.toList := by
  obtain ⟨start, aug⟩ := exists_augments made
  have looked := mem_cells.1 cell
  have nodup := aug.nodup_headings wf
  by_cases hs : Symbol.isNonTerminal s
  · have left := known.resolve_left fun h => Symbol.isTerminal_iff_not.1 h hs
    have mem := aug.mem_nonTerminals.2 left
    obtain ⟨column, heading⟩ := List.getElem?_of_mem mem
    obtain ⟨t, single, target⟩ := toList_of_cell wf made cell hs
    refine ⟨List.count_eq_one_of_mem nodup (List.mem_append_right _ mem),
      fun h => absurd hs (Symbol.isTerminal_iff_not.1 h), fun _ => ⟨column, t, heading, single, ?_⟩⟩
    rw [targetAt_sheet made, heading]
    exact target
  · have terminal := Symbol.isTerminal_iff_not.2 hs
    obtain ⟨γ, -, ⟨act, asks⟩, asked⟩ := exists_asked_of_cell wf made cell
    have mem := ((asked act).1 asks).mem_terminals wf made terminal
    obtain ⟨column, heading⟩ := List.getElem?_of_mem mem
    refine ⟨List.count_eq_one_of_mem nodup (List.mem_append_left _ mem), fun _ => ⟨column, heading, ?_⟩,
      fun h => absurd h hs⟩
    rw [actionsAt_sheet made, heading]
    simp [looked]

omit wf in
theorem known_of_heading (mem : s ∈ m.sheet.headings) : Symbol.isTerminal s ∨ s ∈ g.lefts := by
  obtain ⟨start, aug⟩ := exists_augments made
  rcases List.mem_append.1 mem with mem | mem
  · exact .inl (isTerminal_of_mem_terminals mem)
  · exact .inr (aug.mem_nonTerminals.1 mem)

/-- The sheet reflects the table for any symbols that are known, provided that those with cells are the terminals and
the left sides. -/
theorem reflects {known : Symbol → Prop} (headed : ∀ s, Symbol.isTerminal s ∨ s ∈ g.lefts → known s)
    (covered : ∀ q s actions, (q, s, actions) ∈ m.cells → known s → Symbol.isTerminal s ∨ s ∈ g.lefts) :
    m.sheet.Reflects m known where
  actionRows := by simp [sheet]
  gotoRows := by simp [sheet]
  shown q s actions cell hs := shows_of_cell wf made cell (covered q s actions cell hs)
  missing q s actions _ unknown mem := unknown (headed s (known_of_heading made mem))
  actions q column entry := by
    rw [actionsAt_sheet made] at entry
    cases heading : m.augmented.terminals[column]? with
    | none => simp [heading] at entry
    | some s =>
      cases looked : m.actions? q s with
      | none => simp [heading, looked] at entry
      | some actions => exact ⟨s, actions, heading, mem_cells.2 looked⟩
  targets q column entry := by
    rw [targetAt_sheet made] at entry
    cases heading : m.augmented.nonTerminals[column]? with
    | none => simp [heading] at entry
    | some s =>
      cases looked : m.actions? q s with
      | none => simp [heading, goto?, looked] at entry
      | some actions => exact ⟨s, actions, heading, mem_cells.2 looked⟩

end Sheet

end Automaton

/-- **The sheet reflects the table** for the terminals and the left sides: their cells are shown, each in the only
column of its symbol, and there is nothing else on the sheet. A symbol without a production has no column, although it
has a cell wherever it stands behind a dot; so nothing is lost when every non-terminal has a production. -/
theorem sheet_reflects (wf : g.WellFormed) (made : Automaton.ofGrammar g = .ok m) :
    m.sheet.Reflects m (fun s => Symbol.isTerminal s ∨ s ∈ g.lefts) ∧
      ((∀ s, s = g.start ∨ s ∈ g.nonTerminals → s ∈ g.lefts) → m.sheet.Reflects m fun _ => True) := by
  refine ⟨Automaton.reflects wf made (fun _ => id) fun _ _ _ _ => id, fun productive => ?_⟩
  refine Automaton.reflects wf made (fun _ _ => trivial) fun q s actions cell _ => ?_
  by_cases hs : Symbol.isNonTerminal s
  · exact .inr (productive s (Automaton.mem_nonTerminals_of_cell wf made cell hs))
  · exact .inl (Symbol.isTerminal_iff_not.2 hs)

set_option maxRecDepth 100000 in
/-- Nothing of the table for brackets is lost. -/
theorem sheet_reflects_brackets : brackets.WellFormed ∧ ∃ m, Automaton.ofGrammar brackets = .ok m ∧
    m.sheet.Reflects m (fun s => Symbol.isTerminal s ∨ s ∈ brackets.lefts) ∧ m.sheet.Reflects m fun _ => True := by
  obtain ⟨m, made, -⟩ : ∃ m, Automaton.ofGrammar brackets = .ok m ∧ m.isLr1 := Automaton.exists_lr1 (by decide +kernel)
  obtain ⟨known, all⟩ := sheet_reflects brackets_wellFormed made
  have productive : (brackets.start :: brackets.nonTerminals.toList).all (· ∈ brackets.lefts) := by decide +kernel
  refine ⟨brackets_wellFormed, m, made, known, all fun s hs => of_decide_eq_true (List.all_eq_true.1 productive s ?_)⟩
  rwa [List.mem_cons, ExtTreeSet.mem_toList]

/-- a start symbol whose only production leads to a symbol without one -/
def deadEnd : Grammar := ⟨'S', 'ε', .ofList [⟨'S', ['B']⟩]⟩

set_option maxRecDepth 100000 in
/-- **A goto is lost**: the initial state goes to another one on the symbol without a production, and no column tells
this. -/
theorem sheet_deadEnd : deadEnd.WellFormed ∧ ∃ m, Automaton.ofGrammar deadEnd = .ok m ∧
    ¬ m.sheet.Reflects m fun _ => True := by
  have wf : deadEnd.WellFormed :=
    .ofList (by decide +kernel) (by decide +kernel) (by decide +kernel) (by decide +kernel)
  have lost : (Automaton.ofGrammar deadEnd).toOption.any fun m =>
      (m.actions? 0 'B').isSome ∧ 'B' ∉ m.sheet.headings := by decide +kernel
  cases made : Automaton.ofGrammar deadEnd with
  | error e =>
    rw [made] at lost
    cases lost
  | ok m =>
    rw [made] at lost
    obtain ⟨cell, unheaded⟩ := of_decide_eq_true lost
    obtain ⟨actions, cell⟩ := Option.isSome_iff_exists.1 cell
    refine ⟨wf, m, rfl, fun reflects => unheaded ?_⟩
    have once := (reflects.shown 0 'B' actions (Automaton.mem_cells.2 cell) trivial).once
    exact List.count_pos_iff.1 (once ▸ Nat.one_pos)

end Lr

end ContextFree
