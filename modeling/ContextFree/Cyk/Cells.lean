import ContextFree.Cyk
import ContextFree.Derivation

/-!
What the cells of a triangle should be. A triangle `Tabulates` a word when it has a cell for every part of the word, and
for nothing else, and the cell holds the non-terminals that derive the part.

The rows are built here once more with every look-up checked: as soon as a row or a column is named that is not there,
nothing is built.
-/

namespace ContextFree.Cyk

namespace Triangle

/-- The cells are those of the parts of a word that is not empty, by length and position. -/
structure Tabulates (t : Triangle) (g : Grammar) (word : List Symbol) : Prop where
  rows : t.rows.length = word.length
  row : ∀ length, 1 ≤ length → length ≤ word.length →
    ∃ cells, t.rows[length - 1]? = some cells ∧ cells.length = word.length - length + 1
  get : ∀ length position, (t.get? length position).isSome ↔
    (1 ≤ length ∧ length ≤ word.length) ∧ 1 ≤ position ∧ position ≤ word.length - length + 1
  /-- A cell holds the non-terminals that derive its part as a word. -/
  cell : ∀ length position cell, t.get? length position = some cell → ∀ s, s ∈ cell ↔
    Symbol.isNonTerminal s ∧ IsWord ((word.drop (position - 1)).take length) ∧
      Derives g.rules [s] ((word.drop (position - 1)).take length)

/-- The only cell is that of the empty word; it holds the start symbol if that derives the empty word, and nothing
else. -/
structure TabulatesEmpty (t : Triangle) (g : Grammar) : Prop where
  rows : ∃ cell, t.rows = [[cell]]
  get : ∀ length position, (t.get? length position).isSome ↔ length = 0 ∧ position = 1
  cell : ∀ cell, t.get? 0 1 = some cell → ∀ s, s ∈ cell ↔ s = g.start ∧ Derives g.rules [s] []

end Triangle

/-- a cell among rows, if it is there -/
def cellAt? (rows : List (List Cell)) (row column : Nat) : Option Cell := (rows[row]?).bind (·[column]?)

/-- the cell for a part of length `rows.length + 1`, if both cells of every split are there -/
def longerCell? (rules : List Production) (rows : List (List Cell)) (column : Nat) : Option Cell := do
  let found ← (List.range rows.length).mapM fun i => do
    let left ← cellAt? rows i column
    let right ← cellAt? rows (rows.length - 1 - i) (column + i + 1)
    return combine rules left right
  return .ofList found.flatten

/-- adds rows until there is one for the length of the word, if every cell that is looked up is there -/
def addRows? (rules : List Production) (rows : List (List Cell)) : Nat → Option (List (List Cell))
  | 0 => some rows
  | missing + 1 => do
    let row ← (List.range (missing + 1)).mapM (longerCell? rules rows)
    addRows? rules (rows ++ [row]) missing

/-- the triangle of a word, if every cell that is looked up is there -/
def triangle? (g : Grammar) (word : List Symbol) : Option Triangle :=
  match word with
  | [] => some ⟨[], [[if g.hasStartEpsilon then .ofList [g.start] else ∅]]⟩
  | a :: rest => (addRows? g.rules [(a :: rest).map (unitCell g.rules)] rest.length).map (⟨a :: rest, ·⟩)

end ContextFree.Cyk
