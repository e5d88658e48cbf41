import ContextFree.Symbol

/-!
What can go wrong, as causes. The wording of every cause is in `RuleFault.message` and `GrammarError.message`.
-/

namespace ContextFree

/-- what is wrong with one rule of a written grammar -/
inductive RuleFault where
  | missingArrow
  | repeatedArrow
  | emptyLeft
  | invalidLeft (left : String)
  | emptyAlternative
  | missingTerminator
  | trailingInput (rest : String)
  deriving DecidableEq, Repr

def RuleFault.message : RuleFault → String
  | missingArrow => "missing \"->\""
  | repeatedArrow => "too many \"->\""
  | emptyLeft => "empty left side"
  | invalidLeft left => "left side `" ++ left ++ "` is not a single non-terminal"
  | emptyAlternative => "empty alternative"
  | missingTerminator => "grammar is not terminated by \".\""
  | trailingInput rest => "unexpected input after \".\": `" ++ rest ++ "`"

/-- why an operation on a grammar has no result -/
inductive GrammarError where
  /-- The rule with this number, counted from one, cannot be read. -/
  | malformedRule (rule : Nat) (fault : RuleFault)
  | wrongClass (symbol : Symbol) (expected : SymbolClass)
  /-- The sentinel for the empty word is a non-terminal. -/
  | invalidEpsilon (symbol : Symbol)
  | reservedSymbol (symbol : Symbol)
  /-- Every upper-case letter is taken. -/
  | symbolsExhausted
  | tooManyProductions (limit : Nat)
  | tooManyRounds (limit : Nat)
  | unknownTransformation (name : String)
  | unknownParser (name : String)
  /-- A reduction by this production found other symbols on the stack. -/
  | stackMismatch (production : Nat)
  deriving DecidableEq, Repr

def GrammarError.message : GrammarError → String
  | malformedRule rule fault => "rule " ++ toString rule ++ ": " ++ fault.message
  | wrongClass symbol expected => "symbol `" ++ symbol.toString ++ "` is not a " ++ expected.text
  | invalidEpsilon symbol => "epsilon sentinel `" ++ symbol.toString ++ "` must not be an upper-case letter"
  | reservedSymbol symbol => "symbol `" ++ symbol.toString ++ "` is reserved as the end-of-input marker"
  | symbolsExhausted => "no fresh non-terminal symbol is available"
  | tooManyProductions limit => "transformation exceeded the limit of " ++ toString limit ++ " productions"
  | tooManyRounds limit => "transformation exceeded the limit of " ++ toString limit ++ " rounds"
  | unknownTransformation name => "unknown transformation `" ++ name ++ "`"
  | unknownParser name => "unknown parser `" ++ name ++ "`"
  | stackMismatch production =>
    "parser stack does not match the right side of production " ++ toString production

end ContextFree
