import ContextFree.Layout.Sheet

/-!
What a sheet tells of the table. An entry is looked up by the number of its state and the number of its column. A sheet
`Shows` a cell when one column, and no other, is headed by the symbol of the cell and the entry there tells its actions;
it `Reflects` the table for some of the symbols when it shows their cells and nothing else.
-/

namespace ContextFree.Lr.Sheet

variable (t : Sheet)

/-- the symbols above the columns, from left to right -/
def headings : List Symbol := t.terminals ++ t.nonTerminals

/-- the actions of a state in the column of a terminal, none outside of the sheet -/
def actionsAt (q column : Nat) : List Action := ((t.action[q]?).bind (·[column]?)).getD []

/-- the state gone to in the column of a non-terminal, none outside of the sheet -/
def targetAt (q column : Nat) : Option Nat := ((t.goto[q]?).bind (·[column]?)).getD none

/-- There is one column for the symbol. If this is a terminal, the entry of the state lists the actions; if it is a
non-terminal, the only action is a goto, and the entry is its target. -/
structure Shows (q : Nat) (s : Symbol) (actions : List Action) : Prop where
  once : t.headings.count s = 1
  action : Symbol.isTerminal s → ∃ column, t.terminals[column]? = some s ∧ t.actionsAt q column = actions
  goto : Symbol.isNonTerminal s → ∃ column target, t.nonTerminals[column]? = some s ∧ actions = [.goto target] ∧
    t.targetAt q column = some target

/-- The sheet has a row for every state; it shows the cells of the known symbols, and it has no column for another
symbol that has a cell; an entry without a cell is empty. -/
structure Reflects (m : Automaton) (known : Symbol → Prop) : Prop where
  actionRows : t.action.length = m.dfa.states.list.length ∧ ∀ row ∈ t.action, row.length = t.terminals.length
  gotoRows : t.goto.length = m.dfa.states.list.length ∧ ∀ row ∈ t.goto, row.length = t.nonTerminals.length
  shown : ∀ q s actions, (q, s, actions) ∈ m.cells → known s → t.Shows q s actions.toList
  missing : ∀ q s actions, (q, s, actions) ∈ m.cells → ¬ known s → s ∉ t.headings
  /-- An entry in the column of a terminal belongs to a cell. -/
  actions : ∀ q column, t.actionsAt q column ≠ [] →
    ∃ s actions, t.terminals[column]? = some s ∧ (q, s, actions) ∈ m.cells
  /-- An entry in the column of a non-terminal belongs to a cell. -/
  targets : ∀ q column, t.targetAt q column ≠ none →
    ∃ s actions, t.nonTerminals[column]? = some s ∧ (q, s, actions) ∈ m.cells

end ContextFree.Lr.Sheet
