import ContextFree.Analysis.First
import ContextFree.Iteration

/-!
The search for left recursion once more, depth first. What is still to be looked at lies on a stack, and what was looked
at is not looked at again; the symbol that the search is to come back to is not among what was seen. That the stack runs
empty, or the symbol turns up, needs a proof, so results are optional here.
-/

namespace ContextFree

namespace Search

variable {α : Type} [DecidableEq α] (next : α → List α) (goal : α)

/-- One look at the top of the stack, beside what was seen before. -/
def look : List α × List α → List α × List α ⊕ Bool
  | (_, []) => .inr false
  | (seen, a :: stack) =>
    if a = goal then .inr true
    else if a ∈ seen then .inl (seen, stack)
    else .inl (a :: seen, (next a).reverse ++ stack)

/-- Whether the goal turns up among the values of the stack and what follows from them. -/
def finds (seen stack : List α) : Option Bool := iterate (look next goal) (seen, stack)

variable {next goal} {a : α} {seen stack : List α}

theorem finds_nil : finds next goal seen [] = some false := iterate_inr rfl

theorem finds_goal : finds next goal seen (goal :: stack) = some true := iterate_inr (if_pos rfl)

theorem finds_old (other : a ≠ goal) (old : a ∈ seen) :
    finds next goal seen (a :: stack) = finds next goal seen stack :=
  iterate_inl ((if_neg other).trans (if_pos old))

theorem finds_new (other : a ≠ goal) (new : a ∉ seen) :
    finds next goal seen (a :: stack) = finds next goal (a :: seen) ((next a).reverse ++ stack) :=
  iterate_inl ((if_neg other).trans (if_neg new))

end Search

namespace Grammar

/-- the non-terminals that a right side of the symbol can begin with, production by production -/
def leadingNonTerminals (g : Grammar) (s : Symbol) : List Symbol :=
  (leads g.nullableSymbols g.index s).filter Symbol.isNonTerminal

/-- Some non-terminal comes back to itself by a depth-first search along leading symbols. -/
def comesBack (g : Grammar) : Option Bool :=
  g.lefts.anyM fun s => Search.finds g.leadingNonTerminals s [] (g.leadingNonTerminals s).reverse

end Grammar

end ContextFree
