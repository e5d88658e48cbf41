import ContextFree.FiniteSet
import ContextFree.Symbol

/-!
Productions `left -> right`. A right side is the list of its symbols, so the empty word is the empty list and needs no
symbol of its own; a written grammar shows it by its epsilon sentinel, which `without` takes out and `rightText` puts
back.

Productions are ordered by their left side and then by their right side, both by code point.
-/

namespace ContextFree

open Std

structure Production where
  left : Symbol
  right : List Symbol
  deriving DecidableEq, Repr

namespace Production

instance : Ord Production := ⟨compareLex (compareOn left) (compareOn right)⟩

instance : TransOrd Production := inferInstanceAs (TransCmp (compareLex (compareOn left) (compareOn right)))

instance : LawfulEqOrd Production where
  eq_of_compare {p q} h := by
    have h : (compare p.left q.left).then (compare p.right q.right) = .eq := h
    rw [Ordering.then_eq_eq] at h
    cases p
    cases q
    simp_all

/-- the production with every occurrence of the sentinel taken out of its right side -/
def without (epsilon : Symbol) (p : Production) : Production := ⟨p.left, p.right.filter (· ≠ epsilon)⟩

/-- The right side is the empty word. -/
def isEpsilon (p : Production) : Bool := p.right.isEmpty

/-- The right side is a single non-terminal. -/
def isUnit (p : Production) : Bool :=
  match p.right with
  | [s] => Symbol.isNonTerminal s
  | _ => false

/-- The symbol stands on one of the two sides. -/
def mentions (p : Production) (s : Symbol) : Bool := p.left == s || p.right.contains s

/-- the right side as characters, the empty word written as the sentinel -/
def rightText (epsilon : Symbol) (p : Production) : List Char :=
  match p.right with
  | [] => [epsilon]
  | right => right

/-- the production as characters, such as `S->aSb` -/
def text (epsilon : Symbol) (p : Production) : List Char := p.left :: '-' :: '>' :: p.rightText epsilon

end Production

end ContextFree
