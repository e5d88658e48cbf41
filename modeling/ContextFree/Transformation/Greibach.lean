import ContextFree.Transformation.Chomsky
import ContextFree.Transformation.LeftRecursion

/-!
Greibach normal form: every right side is one terminal followed by non-terminals only, and the start symbol may have
an empty right side while it stands on no right side.

The way there leads through Chomsky normal form and the removal of left recursion. After these a leading non-terminal
can be replaced by its alternatives, all at once and round by round, until every right side begins with a terminal.
-/

namespace ContextFree.Grammar

open Std

def isGreibach (g : Grammar) : Bool :=
  let startOnRight := g.startOnRight
  g.rules.all fun p =>
    match p.right with
    | [] => p.left == g.start && !startOnRight
    | a :: rest => Symbol.isTerminal a && rest.all Symbol.isNonTerminal

/-- The right side is empty or begins with a terminal. -/
def isSettled (p : Production) : Bool := p.right.head?.all Symbol.isTerminal

/-- Replaces every leading non-terminal by each of its alternatives. -/
def expandLeading (g : Grammar) : Grammar :=
  let index := g.index
  g.withProductions <| .ofList <| g.rules.flatMap fun p =>
    match p.right with
    | [] => [p]
    | s :: rest => if Symbol.isTerminal s then [p] else (index.getD s []).map fun right => ⟨p.left, right ++ rest⟩

/-- Expands leading non-terminals until every right side is settled, for at most so many rounds. -/
def settle (limits : Limits) : Nat → Grammar → Except GrammarError Grammar
  | 0, _ => .error (.tooManyRounds limits.maxRounds)
  | rounds + 1, g =>
    if g.rules.all isSettled then .ok g
    else do
      let g := g.expandLeading
      limits.check g.productions.size
      settle limits rounds g

def substituteLeading (limits : Limits) (g : Grammar) : Except GrammarError Grammar :=
  settle limits limits.maxRounds g

/-- Keeps the first symbol of every right side and replaces the terminals behind it by fresh non-terminals. -/
def liftTrailingTerminals (g : Grammar) : Except GrammarError Grammar := do
  let trailing := g.rules.flatMap fun p => p.right.tail.filter Symbol.isTerminal
  let names ← namePieces g.supply (trailing.map ([·]))
  let lifted := g.rules.map fun p =>
    Production.mk p.left (p.right.take 1 ++ p.right.tail.map fun s => names.symbolOf [s])
  let named := names.toList.map fun (piece, letter) => Production.mk letter piece
  return g.withProductions (.ofList (lifted ++ named))

def toGreibach (limits : Limits) (g : Grammar) : Except GrammarError Grammar :=
  if g.hasStartRule then do
    let g ← g.toChomsky
    let g ← g.removeLeftRecursion limits
    let g ← g.substituteLeading limits
    let g ← g.liftTrailingTerminals
    return g.removeUseless
  else .ok g

end ContextFree.Grammar
