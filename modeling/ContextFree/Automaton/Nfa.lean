import ContextFree.Automaton.Moves
import ContextFree.Search

/-!
Finite automata with empty moves. The states are the numbers below the length of `final`; state 0 is the initial one
and always there. Moves may name numbers that are not states, and such a number is then passed through like a state,
but it is never final.
-/

namespace ContextFree

structure Nfa where
  /-- for every state, whether it is final -/
  final : List Bool := [false]
  moves : Moves := {}

namespace Nfa

/-- one more state, whose number is the number of states so far -/
def addState (n : Nfa) (final : Bool) : Nfa := { n with final := n.final ++ [final] }

/-- Makes a state final or not; an unknown number changes nothing. -/
def setFinal (n : Nfa) (id : Nat) (final : Bool) : Nfa := { n with final := n.final.set id final }

def addMove (n : Nfa) (source : Nat) (move : Move) : Nfa := { n with moves := n.moves.add source move }

/-- the symbols that some move reads -/
def alphabet (n : Nfa) : FiniteSet Symbol := .ofList (n.moves.toList.filterMap (·.2.label))

/-- The state with number `n` has the `n`-th finality and the `n`-th list of moves. -/
def ofRows (final : List Bool) (rows : List (List (Option Symbol × Nat))) : Nfa :=
  ⟨final, .ofRows (rows.map fun row => row.map fun (label, target) => ⟨label, target⟩)⟩

def isFinal (n : Nfa) (id : Nat) : Bool := n.final.getD id false

def finals (n : Nfa) : FiniteSet Nat := .ofList ((n.final.zipIdx.filter Prod.fst).map Prod.snd)

/-- the states that empty moves lead to from a set -/
def closure (n : Nfa) (set : FiniteSet Nat) : FiniteSet Nat :=
  .ofList (Search.reach (n.moves.written · none) (set.size + n.moves.size + 1) set.toList)

/-- the states that a symbol leads to from a set, empty moves afterwards included -/
def step (n : Nfa) (set : FiniteSet Nat) (s : Symbol) : FiniteSet Nat :=
  n.closure (.ofList (set.toList.flatMap (n.moves.written · (some s))))

/-- the states in which a run may begin -/
def initial (n : Nfa) : FiniteSet Nat := n.closure (.ofList [0])

/-- the states in which a run over a word may end -/
def run (n : Nfa) (word : List Symbol) : FiniteSet Nat := word.foldl n.step n.initial

def accepts (n : Nfa) (word : List Symbol) : Bool := (n.run word).any n.isFinal

end Nfa

end ContextFree
