import ContextFree.Automaton.Nfa
import ContextFree.Automaton.States

/-!
Deterministic automata and the subset construction. A state of the deterministic automaton stands for the set of states
in which the other one may be after the same word; the sets are found breadth first, symbols in ascending order, and
numbered as they are found. The empty set is left out, so a run over a word may get stuck.
-/

namespace ContextFree

structure Dfa where
  states : States := {}
  alphabet : FiniteSet Symbol := ∅
  moves : DetMoves := {}

namespace Dfa

/-- the number of the initial state -/
def initial : Nat := 0

def next (d : Dfa) (id : Nat) (s : Symbol) : Option Nat := d.moves.next id s

/-- the state in which a run from a state over a word ends -/
def runFrom (d : Dfa) (id : Nat) : List Symbol → Option Nat
  | [] => some id
  | s :: word => (d.next id s).bind (d.runFrom · word)

def run (d : Dfa) (word : List Symbol) : Option Nat := d.runFrom initial word

def isFinal (d : Dfa) (id : Nat) : Bool := (d.states.get? id).any (·.final)

def accepts (d : Dfa) (word : List Symbol) : Bool := (d.run word).any d.isFinal

end Dfa

namespace Nfa

/-- the symbols of a list on which a set of states can move, and the sets that they lead to -/
def successors (n : Nfa) (symbols : List Symbol) (set : FiniteSet Nat) : List (Symbol × FiniteSet Nat) :=
  symbols.filterMap fun s =>
    let target := n.step set s
    if target.isEmpty then none else some (s, target)

/-- the sets of states in which the automaton can be, with their successors. Each holds only the initial state and
targets of moves, which bounds their number. -/
def subsets (n : Nfa) : List (FiniteSet Nat × List (Symbol × FiniteSet Nat)) :=
  Search.discover (n.successors n.alphabet.toList) (Nat.pow 2 (n.moves.size + 1) + 1) [n.initial]

/-- the state that stands for a set, given its number -/
def subsetState (n : Nfa) (identity : FiniteSet Nat) (id : Nat) : State where
  identity := identity
  initial := id == Dfa.initial
  final := identity.any n.isFinal

def toDfa (n : Nfa) : Dfa where
  states := {
    list := n.subsets.zipIdx.map fun row => n.subsetState row.1.1 row.2
    distinct := by
      have same : (n.subsets.zipIdx.map fun row => n.subsetState row.1.1 row.2).map (·.identity) =
          n.subsets.map Prod.fst := by
        apply List.ext_getElem <;> simp [subsetState]
      rw [same]
      exact Search.nodup_discover }
  alphabet := n.alphabet
  moves := .ofRows (Search.numbered n.subsets)

end Nfa

end ContextFree
