import ContextFree.Transformation.Chomsky

/-!
Binarization once more, production by production. A terminal gets its letter where it first stands on a right side of
two or more symbols. A lifted right side is taken off from the front, and what is left of it is looked up each time: if
it has a letter the chain stops there, for the rest of it was written down when that letter was drawn.
-/

namespace ContextFree.Grammar

open Std

/-- the letters still free, those of terminals and of suffixes, and the productions so far -/
structure Binarizing where
  supply : Supply
  lifted : ExtTreeMap Symbol Symbol compare := ∅
  chains : ExtTreeMap (List Symbol) Symbol compare := ∅
  productions : FiniteSet Production := ∅

namespace Binarizing

def add (b : Binarizing) (left : Symbol) (right : List Symbol) : Binarizing :=
  { b with productions := b.productions.insert ⟨left, right⟩ }

/-- the non-terminal for a symbol; a terminal gets one when it has none -/
def lift (b : Binarizing) (s : Symbol) : Except GrammarError (Symbol × Binarizing) :=
  if Symbol.isNonTerminal s then .ok (s, b)
  else
    match b.lifted[s]? with
    | some letter => .ok (letter, b)
    | none => do
      let (letter, supply) ← b.supply.draw
      return (letter, { b with supply, lifted := b.lifted.insert s letter })

def liftAll (b : Binarizing) : List Symbol → Except GrammarError (List Symbol × Binarizing)
  | [] => .ok ([], b)
  | s :: rest => do
    let (symbol, b) ← b.lift s
    let (symbols, b) ← b.liftAll rest
    return (symbol :: symbols, b)

/-- Writes down what derives a lifted right side, up to a suffix that has a letter. -/
def chain (b : Binarizing) (left : Symbol) : List Symbol → Except GrammarError Binarizing
  | s :: t :: u :: rest =>
    match b.chains[t :: u :: rest]? with
    | some shared => .ok (b.add left [s, shared])
    | none => do
      let (letter, supply) ← b.supply.draw
      let b := { b with supply, chains := b.chains.insert (t :: u :: rest) letter }
      chain (b.add left [s, letter]) letter (t :: u :: rest)
  | short => .ok (b.add left short)

/-- Takes one production of the grammar. -/
def take (b : Binarizing) (p : Production) : Except GrammarError Binarizing :=
  if p.right.length ≤ 1 then .ok (b.add p.left p.right)
  else do
    let (right, b) ← b.liftAll p.right
    b.chain p.left right

end Binarizing

/-- Takes the productions in order; the letters of terminals get theirs at the end. -/
def binarizeInTurn (g : Grammar) : Except GrammarError Grammar := do
  let b ← g.rules.foldlM Binarizing.take { supply := g.supply }
  let lifted := b.lifted.toList.map fun (a, letter) => Production.mk letter [a]
  return g.withProductions (b.productions ∪ .ofList lifted)

end ContextFree.Grammar
