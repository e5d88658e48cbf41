import ContextFree.Transformation.Proper

/-!
Chomsky normal form: every right side is one terminal or two non-terminals, and the start symbol may have an empty
right side while it stands on no right side.

Beyond the proper form it takes one pass, `binarize`. The pieces of a grammar are the terminals inside right sides of
two or more symbols and the proper suffixes, of two or more symbols, of such right sides. Each piece gets one fresh
letter, however often it occurs; a production then refers to its first symbol and to the rest by their letters, and so
does the one production of every suffix.
-/

namespace ContextFree.Grammar

open Std

def isChomsky (g : Grammar) : Bool :=
  let startOnRight := g.startOnRight
  g.rules.all fun p =>
    match p.right with
    | [] => p.left == g.start && !startOnRight
    | [a] => Symbol.isTerminal a
    | [b, c] => Symbol.isNonTerminal b && Symbol.isNonTerminal c
    | _ => false

/-- the proper suffixes of two or more symbols, longest first -/
def longSuffixes : List Symbol → List (List Symbol)
  | [] => []
  | _ :: rest => if 2 ≤ rest.length then rest :: longSuffixes rest else []

/-- the pieces of one right side: its terminals from left to right, then its suffixes -/
def pieces (right : List Symbol) : List (List Symbol) :=
  (right.filter Symbol.isTerminal).map ([·]) ++ longSuffixes right

/-- letters for the pieces of a grammar -/
abbrev PieceNames := ExtTreeMap (List Symbol) Symbol compare

/-- draws a letter for every different piece, in the order in which they first occur -/
def namePieces (supply : Supply) (pieces : List (List Symbol)) : Except GrammarError PieceNames := do
  let names ← supply.name (Search.unseen ∅ pieces).1
  return ExtTreeMap.ofList names compare

/-- the non-terminal that stands for a piece; a single non-terminal stands for itself -/
def PieceNames.symbolOf (names : PieceNames) (piece : List Symbol) : Symbol :=
  match piece with
  | [s] => if Symbol.isNonTerminal s then s else names.getD [s] s
  | _ => names.getD piece endMark

/-- the right side in two parts, or the right side itself when it has fewer than two symbols -/
def PieceNames.halve (names : PieceNames) (right : List Symbol) : List Symbol :=
  match right with
  | s :: t :: rest => [names.symbolOf [s], names.symbolOf (t :: rest)]
  | _ => right

/-- Takes the terminals out of right sides of two or more symbols and splits longer ones. -/
def binarize (g : Grammar) : Except GrammarError Grammar := do
  let long := g.rules.filter fun p => 2 ≤ p.right.length
  let names ← namePieces g.supply (long.flatMap fun p => pieces p.right)
  let halved := g.rules.map fun p => Production.mk p.left (names.halve p.right)
  let named := names.toList.map fun (piece, letter) => Production.mk letter (names.halve piece)
  return g.withProductions (.ofList (halved ++ named))

def toChomsky (g : Grammar) : Except GrammarError Grammar :=
  if g.hasStartRule then g.proper.bind binarize else .ok g

end ContextFree.Grammar
