import ContextFree.Analysis.First
import ContextFree.Iteration

/-!
The sets of the analysis once more, filled in place: a pass takes the productions in order and writes into the very sets
that it reads, so that a production already meets what those before it have added in the same pass. Passes follow each
other until one of them changes nothing. That there is such a pass needs a proof, so results are optional here.
-/

namespace ContextFree

deriving instance DecidableEq for FirstSets

section

variable {α : Type} [DecidableEq α] (pass : α → α)

/-- Repeats a pass until it changes nothing; there is no result when every pass changes something. -/
def repeatPass (a : α) : Option α :=
  iterate (fun a => if pass a = a then .inr a else .inl (pass a)) a

variable {pass} {a : α}

theorem repeatPass_still (same : pass a = a) : repeatPass pass a = some a := iterate_inr (if_pos same)

theorem repeatPass_again (other : pass a ≠ a) : repeatPass pass a = repeatPass pass (pass a) :=
  iterate_inl (if_neg other)

end

/-- Takes the left side of a production into the set as soon as its whole right side is there. -/
def absorb (s : FiniteSet Symbol) (p : Production) : FiniteSet Symbol :=
  if p.left ∉ s ∧ p.right.all (· ∈ s) then s.insert p.left else s

/-- Adds FIRST of the right side, as far as it is known, to that of the left side. -/
def FirstSets.extend (sets : FirstSets) (p : Production) : FirstSets :=
  { sets with heads := sets.heads.insert p.left (sets.heads.getD p.left ∅ ∪ (sets.ofForm p.right).1) }

/-- the least set above `s` that is closed under the productions, by passes -/
def saturate (rules : List Production) (s : FiniteSet Symbol) : Option (FiniteSet Symbol) :=
  repeatPass (fun s => rules.foldl absorb s) s

/-- the FIRST sets by passes: first the nullable symbols, then FIRST of every non-terminal from the empty sets on -/
def Grammar.firstByPasses (g : Grammar) : Option FirstSets := do
  let nullable ← saturate g.rules ∅
  repeatPass (fun sets => g.rules.foldl FirstSets.extend sets)
    ⟨nullable, .ofList (g.nonTerminals.toList.map fun s => (s, ∅)) compare⟩

end ContextFree
