import ContextFree.Lr.Item
import ContextFree.Automaton.Dfa

/-!
The canonical LR(1) automaton and its table. The items are the states of an automaton with empty moves, and its subset
construction gives the states of the table; so a state stands for the set of items in which a parse may be after the
same symbols.

A cell of the table holds every action that some item of the state asks for; a grammar is LR(1) when no cell holds two.
-/

namespace ContextFree

namespace Lr

open Std

inductive Action where
  /-- push the terminal and go to a state -/
  | shift (state : Nat)
  /-- replace the right side of a production by its left side -/
  | reduce (production : Nat)
  /-- where a state leads on a non-terminal -/
  | goto (state : Nat)
  | accept
  deriving DecidableEq, Repr

namespace Action

def rank : Action → Nat
  | shift _ => 0
  | reduce _ => 1
  | goto _ => 2
  | accept => 3

def number : Action → Nat
  | shift n | reduce n | goto n => n
  | accept => 0

/-- Shifts come first, then reductions, gotos and acceptance; actions of one kind by their number. -/
instance : Ord Action := ⟨compareLex (compareOn rank) (compareOn number)⟩

instance : TransOrd Action := inferInstanceAs (TransCmp (compareLex (compareOn rank) (compareOn number)))

instance : LawfulEqOrd Action where
  eq_of_compare {a b} h := by
    have h : (compare a.rank b.rank).then (compare a.number b.number) = .eq := h
    rw [Ordering.then_eq_eq, Std.compare_eq_iff_eq, Std.compare_eq_iff_eq] at h
    cases a <;> cases b <;> simp_all [rank, number]

end Action

/-- the actions of one state, by the next symbol -/
abbrev Row := ExtTreeMap Symbol (FiniteSet Action) compare

/-- the row with all actions of a list -/
def Row.ofEntries (entries : List (Symbol × Action)) : Row :=
  entries.foldl (fun row (s, action) => row.insert s ((row.getD s ∅).insert action)) ∅

structure Automaton where
  augmented : Augmented
  epsilon : Symbol
  /-- the item of every state of `nfa` -/
  items : List Item
  nfa : Nfa
  dfa : Dfa
  /-- one row for every state of `dfa` -/
  table : List Row

/-- what one item asks of its state -/
def itemEntry (a : Augmented) (next : Symbol → Option Nat) (i : Item) : Option (Symbol × Action) :=
  match a.behind i with
  | some s => if Symbol.isTerminal s then (next s).map (s, .shift ·) else none
  | none => some (i.lookahead, if i.production = 0 then .accept else .reduce i.production)

/-- the row of one state -/
def stateRow (a : Augmented) (items : List Item) (dfa : Dfa) (id : Nat) (state : State) : Row :=
  let own := state.identity.toList.filterMap fun n => items[n]?
  let gotos := (dfa.moves.out id).toList.filterMap fun (s, target) =>
    if Symbol.isNonTerminal s then some (s, Action.goto target) else none
  .ofEntries (own.filterMap (itemEntry a (dfa.next id)) ++ gotos)

/-- one row for every state -/
def stateRows (a : Augmented) (items : List Item) (dfa : Dfa) : List Row :=
  dfa.states.list.zipIdx.map fun (state, id) => stateRow a items dfa id state

/-- the item automaton, given the items with their successors -/
def itemNfa (a : Augmented) (rows : List (Item × List (Option Symbol × Item))) : Nfa :=
  .ofRows ((rows.map Prod.fst).map a.isComplete) (Search.numbered rows)

namespace Automaton

def ofGrammar (g : Grammar) : Except GrammarError Automaton := do
  let a ← Augmented.ofGrammar g
  let rows := a.items
  let items := rows.map Prod.fst
  let nfa := itemNfa a rows
  let dfa := nfa.toDfa
  return ⟨a, g.epsilon, items, nfa, dfa, stateRows a items dfa⟩

variable (m : Automaton)

def production? (n : Nat) : Option Production := m.augmented.productions[n]?

/-- the items of a state in order, none for an unknown number -/
def itemsOf (id : Nat) : List Item :=
  match m.dfa.states.get? id with
  | some state => (FiniteSet.ofList (state.identity.toList.filterMap fun n => m.items[n]?)).toList
  | none => []

/-- the actions in a cell, if there are any -/
def actions? (id : Nat) (s : Symbol) : Option (FiniteSet Action) := (m.table[id]?).bind (·[s]?)

/-- the action in a cell with exactly one -/
def action? (id : Nat) (s : Symbol) : Option Action :=
  match (m.actions? id s).map (·.toList) with
  | some [action] => some action
  | _ => none

/-- where a state leads on a non-terminal -/
def goto? (id : Nat) (s : Symbol) : Option Nat :=
  (m.actions? id s).bind fun actions => actions.toList.findSome? fun
    | .goto target => some target
    | _ => none

/-- every cell with its actions, by state and then by symbol -/
def cells : List (Nat × Symbol × FiniteSet Action) :=
  m.table.zipIdx.flatMap fun (row, id) => row.toList.map (id, ·)

/-- the cells with two actions or more -/
def conflicts : List (Nat × Symbol × FiniteSet Action) := m.cells.filter fun (_, _, actions) => 1 < actions.size

def isLr1 : Bool := m.cells.all fun (_, _, actions) => actions.size ≤ 1

end Automaton

end Lr

/-- whether a grammar is LR(1), if it has an automaton at all -/
def Grammar.isLr1? (g : Grammar) : Option Bool := (Lr.Automaton.ofGrammar g).toOption.map (·.isLr1)

end ContextFree
