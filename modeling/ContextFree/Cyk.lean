import ContextFree.Transformation.Chomsky
import ContextFree.Verdict

/-!
The tabular parser for grammars in Chomsky normal form. The cell for a length and a position holds the non-terminals
that derive the part of the word of that length from that position on; cells are computed by increasing length, each
from the ways to split its part in two.
-/

namespace ContextFree.Cyk

open Std

abbrev Cell := FiniteSet Symbol

/-- the cells of a word; row `l` lists the parts of length `l + 1` from left to right. The empty word has one cell. -/
structure Triangle where
  word : List Symbol
  rows : List (List Cell)

namespace Triangle

/-- the cell for a length and a position, both counted from one; that of the empty word has length 0 and position 1 -/
def get? (t : Triangle) (length position : Nat) : Option Cell :=
  let row := if t.word.isEmpty then some length else if length = 0 then none else some (length - 1)
  if position = 0 then none else (row.bind (t.rows[·]?)).bind (·[position - 1]?)

/-- the cell for the whole word -/
def top? (t : Triangle) : Option Cell := t.rows.getLast?.bind (·.head?)

end Triangle

/-- a cell among rows, empty where there is none -/
def cellAt (rows : List (List Cell)) (row column : Nat) : Cell := ((rows[row]?).bind (·[column]?)).getD ∅

/-- the non-terminals with two parts in given cells -/
def combine (rules : List Production) (left right : Cell) : List Symbol :=
  if left.isEmpty ∨ right.isEmpty then []
  else
    rules.filterMap fun p =>
      match p.right with
      | [b, c] => if b ∈ left ∧ c ∈ right then some p.left else none
      | _ => none

/-- the non-terminals of one terminal -/
def unitCell (rules : List Production) (a : Symbol) : Cell :=
  .ofList ((rules.filter (·.right = [a])).map (·.left))

/-- the cell for a part of length `rows.length + 1` from a column on, given the rows of all shorter parts -/
def longerCell (rules : List Production) (rows : List (List Cell)) (column : Nat) : Cell :=
  .ofList <| (List.range rows.length).flatMap fun i =>
    combine rules (cellAt rows i column) (cellAt rows (rows.length - 1 - i) (column + i + 1))

/-- adds rows until there is one for the length of the word; `missing` is their number -/
def addRows (rules : List Production) (rows : List (List Cell)) : Nat → List (List Cell)
  | 0 => rows
  | missing + 1 =>
    addRows rules (rows ++ [(List.range (missing + 1)).map (longerCell rules rows)]) missing

def triangle (g : Grammar) (word : List Symbol) : Triangle where
  word := word
  rows :=
    match word with
    | [] => [[if g.hasStartEpsilon then .ofList [g.start] else ∅]]
    | _ :: rest => addRows g.rules [word.map (unitCell g.rules)] rest.length

structure Parse where
  verdict : Verdict
  triangle : Triangle

/-- Parses a word with a grammar in Chomsky normal form. -/
def parse (g : Grammar) (word : List Symbol) : Parse :=
  let t := triangle g word
  ⟨if t.top?.any (g.start ∈ ·) then .accepted else .rejected .notDerived, t⟩

/-- the grammar to work with: the given one if it is in Chomsky normal form, else its conversion -/
def workingGrammar (g : Grammar) : Except GrammarError Grammar := if g.isChomsky then .ok g else g.toChomsky

end ContextFree.Cyk
