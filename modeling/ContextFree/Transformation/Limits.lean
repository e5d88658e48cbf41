import ContextFree.Error

/-!
Limits on the growth of a grammar under a transformation.
-/

namespace ContextFree

structure Limits where
  maxProductions : Nat := 10000
  maxRounds : Nat := 1000
  deriving DecidableEq, Repr

/-- refuses a number of productions above the limit -/
def Limits.check (limits : Limits) (productions : Nat) : Except GrammarError Unit :=
  if limits.maxProductions < productions then .error (.tooManyProductions limits.maxProductions) else .ok ()

end ContextFree
