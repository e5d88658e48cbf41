import ContextFree.Transformation.Proper
import ContextFree.Transformation.Limits

/-!
Removal of left recursion. The non-terminals of a proper grammar are put in order, the start symbol first. One after
the other, every alternative that begins with an earlier non-terminal is replaced by what that non-terminal stands
for, and direct recursion `A -> Aα | β` becomes `A -> β | βZ`, `Z -> α | αZ` with a fresh `Z`. Afterwards an alternative
begins with a terminal or with a later non-terminal.

The number of productions made so far counts against the limit; it is what bounds the substitution.
-/

namespace ContextFree.Grammar

open Std

/-- the alternatives of one non-terminal, sorted out -/
structure Alternatives where
  /-- those that do not begin with the non-terminal or an earlier one -/
  kept : List (List Symbol)
  /-- what follows the non-terminal in those that begin with it -/
  recursive : List (List Symbol)
  /-- the productions made so far -/
  total : Nat

/-- the alternatives, each with the same symbols behind it -/
def followedBy (alternatives : List (List Symbol)) (rest : List Symbol) : List (List Symbol) :=
  alternatives.map (· ++ rest)

@[simp] theorem length_followedBy {alternatives : List (List Symbol)} {rest : List Symbol} :
    (followedBy alternatives rest).length = alternatives.length := List.length_map _

/-- Sorts alternatives out and replaces a leading earlier non-terminal, whose alternatives are in `done`, until none is
left. -/
def sortOut (limits : Limits) (done : ExtTreeMap Symbol (List (List Symbol)) compare) (left : Symbol)
    (pending : List (List Symbol)) (sorted : Alternatives) : Except GrammarError Alternatives :=
  match pending with
  | [] => .ok sorted
  | [] :: pending => sortOut limits done left pending { sorted with kept := [] :: sorted.kept }
  | (s :: rest) :: pending =>
    match done[s]? with
    | some heads =>
      let total := sorted.total + heads.length
      if limits.maxProductions < total then .error (.tooManyProductions limits.maxProductions)
      else sortOut limits done left (followedBy heads rest ++ pending) { sorted with total }
    | none =>
      if s = left then
        let recursive := if rest.isEmpty then sorted.recursive else rest :: sorted.recursive
        sortOut limits done left pending { sorted with recursive }
      else sortOut limits done left pending { sorted with kept := (s :: rest) :: sorted.kept }
termination_by 2 * (limits.maxProductions - sorted.total) + pending.length
decreasing_by all_goals simp_all; try omega

/-- the alternatives, and those that are not empty with a symbol at their end -/
def withTail (tail : Symbol) (alternatives : List (List Symbol)) : List (List Symbol) :=
  alternatives ++ (alternatives.filter (!·.isEmpty)).map (· ++ [tail])

/-- how far the removal has come -/
structure Untangling where
  /-- the final alternatives of the non-terminals dealt with -/
  done : ExtTreeMap Symbol (List (List Symbol)) compare := ∅
  /-- the alternatives of the fresh symbols -/
  tails : List (Symbol × List (List Symbol)) := []
  supply : Supply
  total : Nat

namespace Untangling

/-- deals with one non-terminal, given its alternatives -/
def step (limits : Limits) (u : Untangling) (left : Symbol) (rights : List (List Symbol)) :
    Except GrammarError Untangling := do
  let sorted ← sortOut limits u.done left rights ⟨[], [], u.total⟩
  if sorted.recursive.isEmpty then
    return { u with done := u.done.insert left (FiniteSet.ofList sorted.kept).toList, total := sorted.total }
  else
    let (tail, supply) ← u.supply.draw
    let kept := withTail tail sorted.kept
    let recursive := withTail tail sorted.recursive
    let total := sorted.total + (kept.length + recursive.length)
    limits.check total
    return {
      done := u.done.insert left (FiniteSet.ofList kept).toList
      tails := (tail, recursive) :: u.tails
      supply
      total }

/-- deals with the non-terminals of a list, in order -/
def run (limits : Limits) (rights : Symbol → List (List Symbol)) (u : Untangling) :
    List Symbol → Except GrammarError Untangling
  | [] => .ok u
  | left :: lefts => do
    let u ← u.step limits left (rights left)
    u.run limits rights lefts

/-- all productions made -/
def productions (u : Untangling) : List Production :=
  (u.done.toList ++ u.tails).flatMap fun (left, rights) => rights.map (⟨left, ·⟩)

end Untangling

/-- removes the left recursion of a grammar without cycles and, the start symbol apart, without empty right sides -/
def removeLeftRecursion (limits : Limits) (g : Grammar) : Except GrammarError Grammar := do
  let u : Untangling := { supply := g.supply, total := g.productions.size }
  let u ← u.run limits g.rightsOf g.lefts
  return g.withProductions (.ofList u.productions)

/-- removes left recursion from any grammar, by way of its proper form -/
def eliminateLeftRecursion (limits : Limits) (g : Grammar) : Except GrammarError Grammar :=
  if g.hasStartRule then g.proper.bind (removeLeftRecursion limits) else .ok g

end ContextFree.Grammar
