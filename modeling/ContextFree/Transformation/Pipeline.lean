import ContextFree.Transformation

/-!
Pipelines: transformations one after the other, each under limits of its own.

Beside what a transformation gives stands what it draws. Letters are drawn in four places: for a new start symbol, for
the pieces of right sides, for the tails of left-recursive non-terminals, and for trailing terminals. Each place takes
them from the supply of the grammar before it, which is a later one than the transformation was given.
-/

namespace ContextFree

/-- the letters drawn in one place, and the grammar that they are added to -/
structure Drawing where
  grammar : Grammar
  letters : List Symbol

/-- the letters drawn in all places -/
def Drawing.lettersOf (drawings : List Drawing) : List Symbol := drawings.flatMap (·.letters)

namespace Grammar

/-- The start symbol, or a symbol of some production. -/
def Mentions (g : Grammar) (s : Symbol) : Prop := s = g.start ∨ s ∈ g.symbols

/-- the letters of a naming -/
def PieceNames.letters (names : PieceNames) : List Symbol := names.toList.map (·.2)

/-- draws a letter for every different piece -/
def nameDrawing (g : Grammar) (pieces : List (List Symbol)) : Except GrammarError Drawing := do
  let names ← namePieces g.supply pieces
  return ⟨g, names.letters⟩

/-- what the proper form draws: a new start symbol, if there is to be one -/
def startDrawing (g : Grammar) : Except GrammarError Drawing :=
  let g := g.removeUseless
  if g.hasStartRule ∧ g.start ∈ g.nullableSymbols ∧ g.startOnRight then do
    let (start, _) ← g.supply.draw
    return ⟨g, [start]⟩
  else .ok ⟨g, []⟩

/-- what binarization draws -/
def pieceDrawing (g : Grammar) : Except GrammarError Drawing :=
  let long := g.rules.filter fun p => 2 ≤ p.right.length
  g.nameDrawing (long.flatMap fun p => pieces p.right)

/-- what the removal of left recursion draws -/
def tailDrawing (limits : Limits) (g : Grammar) : Except GrammarError Drawing := do
  let u : Untangling := { supply := g.supply, total := g.productions.size }
  let u ← u.run limits g.rightsOf g.lefts
  return ⟨g, u.tails.map (·.1)⟩

/-- what the lifting of trailing terminals draws -/
def trailingDrawing (g : Grammar) : Except GrammarError Drawing :=
  let trailing := g.rules.flatMap fun p => p.right.tail.filter Symbol.isTerminal
  g.nameDrawing (trailing.map ([·]))

def leftRecursionDrawings (limits : Limits) (g : Grammar) : Except GrammarError (List Drawing) := do
  let start ← g.startDrawing
  let g ← g.proper
  let tails ← g.tailDrawing limits
  return [start, tails]

def chomskyDrawings (g : Grammar) : Except GrammarError (List Drawing) := do
  let start ← g.startDrawing
  let g ← g.proper
  let pieces ← g.pieceDrawing
  return [start, pieces]

def greibachDrawings (limits : Limits) (g : Grammar) : Except GrammarError (List Drawing) := do
  let drawings ← g.chomskyDrawings
  let g ← g.toChomsky
  let tails ← g.tailDrawing limits
  let g ← g.removeLeftRecursion limits
  let g ← g.substituteLeading limits
  let trailing ← g.trailingDrawing
  return drawings ++ [tails] ++ [trailing]

/-- One grammar is made from another with these drawings. -/
structure Introduces (g h : Grammar) (drawings : List Drawing) : Prop where
  /-- A letter is a non-terminal, and not yet a symbol of the grammar that it is added to. -/
  fresh : ∀ d ∈ drawings, ∀ a ∈ d.letters,
    Symbol.isNonTerminal a ∧ ¬ d.grammar.Mentions a ∧ a ≠ d.grammar.epsilon
  /-- No two letters are the same, in whatever places they were drawn. -/
  distinct : (Drawing.lettersOf drawings).Nodup
  /-- No other symbol is new. -/
  complete : ∀ s, h.Mentions s → g.Mentions s ∨ s ∈ Drawing.lettersOf drawings

end Grammar

namespace Transformation

/-- everything that a transformation draws, place by place -/
def drawings (limits : Limits) (g : Grammar) : Transformation → Except GrammarError (List Drawing)
  | eliminateLeftRecursion => if g.hasStartRule then g.leftRecursionDrawings limits else .ok []
  | toChomsky => if g.hasStartRule then g.chomskyDrawings else .ok []
  | toGreibach => if g.hasStartRule then g.greibachDrawings limits else .ok []
  | removeUngenerative | removeUnreachable | removeUseless | removeEpsilonProductions | removeUnitProductions => .ok []

/-- applies transformations one after the other, up to the first that fails -/
def applyAll (g : Grammar) : List (Limits × Transformation) → Except GrammarError Grammar
  | [] => .ok g
  | (limits, t) :: steps => do
    let g ← t.apply limits g
    applyAll g steps

end Transformation

end ContextFree
