import Std.Data.ExtTreeMap
import ContextFree.FiniteSet
import ContextFree.Symbol

/-!
The moves of a finite automaton. States are named by numbers, which need not be registered anywhere. `Moves` may lead
from a state to several others on one symbol and also without reading one; every state has such an empty move to
itself, which is not written down. `DetMoves` lead to at most one state on every symbol.
-/

namespace ContextFree

open Std

/-- where a move leads and what it reads, if anything -/
structure Move where
  label : Option Symbol
  target : Nat
  deriving DecidableEq, Repr

namespace Move

/-- Empty moves come first, then moves by symbol, then by target. -/
instance : Ord Move := ⟨compareLex (compareOn label) (compareOn target)⟩

instance : TransOrd Move := inferInstanceAs (TransCmp (compareLex (compareOn label) (compareOn target)))

instance : LawfulEqOrd Move where
  eq_of_compare {a b} h := by
    have h : (compare a.label b.label).then (compare a.target b.target) = .eq := h
    rw [Ordering.then_eq_eq] at h
    cases a
    cases b
    simp_all

end Move

/-- the moves out of every state -/
structure Moves where
  outgoing : ExtTreeMap Nat (FiniteSet Move) compare := ∅

namespace Moves

/-- the moves out of one state -/
def out (m : Moves) (source : Nat) : FiniteSet Move := m.outgoing.getD source ∅

def add (m : Moves) (source : Nat) (move : Move) : Moves := ⟨m.outgoing.insert source ((m.out source).insert move)⟩

/-- The moves out of state `n` are listed in row `n`. -/
def ofRows (rows : List (List Move)) : Moves :=
  ⟨ExtTreeMap.ofList (rows.zipIdx.map fun (row, source) => (source, FiniteSet.ofList row)) compare⟩

/-- the states that one written move reaches, ascending -/
def written (m : Moves) (source : Nat) (label : Option Symbol) : List Nat :=
  ((m.out source).toList.filter (·.label = label)).map (·.target)

/-- the states that one move reaches, the state itself included when nothing is read -/
def targets (m : Moves) (source : Nat) (label : Option Symbol) : FiniteSet Nat :=
  .ofList (if label.isNone then source :: m.written source label else m.written source label)

/-- every move that is written down, with its source -/
def toList (m : Moves) : List (Nat × Move) :=
  m.outgoing.toList.flatMap fun (source, moves) => moves.toList.map (source, ·)

/-- the number of moves that are written down -/
def size (m : Moves) : Nat := m.outgoing.foldl (fun n _ moves => n + moves.size) 0

end Moves

/-- the one state that every state moves to on a symbol -/
structure DetMoves where
  outgoing : ExtTreeMap Nat (ExtTreeMap Symbol Nat compare) compare := ∅

namespace DetMoves

/-- the moves out of one state, in the order of their symbols -/
def out (m : DetMoves) (source : Nat) : ExtTreeMap Symbol Nat compare := m.outgoing.getD source ∅

def next (m : DetMoves) (source : Nat) (s : Symbol) : Option Nat := (m.out source)[s]?

/-- Adds a move unless the state already moves on the symbol. -/
def add (m : DetMoves) (source : Nat) (s : Symbol) (target : Nat) : DetMoves :=
  match m.next source s with
  | some _ => m
  | none => ⟨m.outgoing.insert source ((m.out source).insert s target)⟩

def holds (m : DetMoves) (source : Nat) (s : Symbol) (target : Nat) : Bool := m.next source s == some target

/-- The moves out of state `n` are listed in row `n`. -/
def ofRows (rows : List (List (Symbol × Nat))) : DetMoves :=
  ⟨ExtTreeMap.ofList (rows.zipIdx.map fun (row, source) => (source, ExtTreeMap.ofList row compare)) compare⟩

def toList (m : DetMoves) : List (Nat × Symbol × Nat) :=
  m.outgoing.toList.flatMap fun (source, moves) => moves.toList.map (source, ·)

def size (m : DetMoves) : Nat := m.outgoing.foldl (fun n _ moves => n + moves.size) 0

end DetMoves

end ContextFree
