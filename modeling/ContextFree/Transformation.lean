import ContextFree.Transformation.Greibach
import ContextFree.Symbol.Blank

/-!
The transformations that can be chosen by name.
-/

namespace ContextFree

inductive Transformation where
  | removeUngenerative
  | removeUnreachable
  | removeUseless
  | removeEpsilonProductions
  | removeUnitProductions
  | eliminateLeftRecursion
  | toChomsky
  | toGreibach
  deriving DecidableEq, Repr

namespace Transformation

def all : List Transformation :=
  [removeUngenerative, removeUnreachable, removeUseless, removeEpsilonProductions, removeUnitProductions,
    eliminateLeftRecursion, toChomsky, toGreibach]

def name : Transformation → String
  | removeUngenerative => "remove-ungenerative"
  | removeUnreachable => "remove-unreachable"
  | removeUseless => "remove-useless"
  | removeEpsilonProductions => "remove-epsilon-productions"
  | removeUnitProductions => "remove-unit-productions"
  | eliminateLeftRecursion => "eliminate-left-recursion"
  | toChomsky => "to-cnf"
  | toGreibach => "to-gnf"

def apply (limits : Limits) (g : Grammar) : Transformation → Except GrammarError Grammar
  | removeUngenerative => .ok g.removeUngenerative
  | removeUnreachable => .ok g.removeUnreachable
  | removeUseless => .ok g.removeUseless
  | removeEpsilonProductions => .ok g.removeEpsilonProductions
  | removeUnitProductions => .ok g.removeUnitProductions
  | eliminateLeftRecursion => g.eliminateLeftRecursion limits
  | toChomsky => g.toChomsky
  | toGreibach => g.toGreibach limits

/-- the text without blanks at its ends -/
def trimBlanks (text : List Char) : List Char :=
  ((text.dropWhile isBlank).reverse.dropWhile isBlank).reverse

/-- Looks a name up: blanks around it, the case of ASCII letters, and the choice between `-` and `_` do not matter. -/
def ofName (name : String) : Except GrammarError Transformation :=
  let key := (trimBlanks name.toList).map fun c => if c = '_' then '-' else c.toLower
  match all.find? fun t => t.name.toList = key with
  | some t => .ok t
  | none => .error (.unknownTransformation name)

end Transformation

end ContextFree
