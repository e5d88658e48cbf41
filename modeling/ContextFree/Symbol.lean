import ContextFree.Symbol.UpperCase

/-!
Grammar symbols. A symbol is one character; upper-case letters are the non-terminals and every other character is a
terminal, so the two classes need no declaration.
-/

namespace ContextFree

/-- a terminal or a non-terminal -/
abbrev Symbol := Char

/-- the end marker of a word under bottom-up parsing -/
def endMark : Symbol := '$'

inductive SymbolClass where
  | terminal
  | nonTerminal
  deriving DecidableEq, Repr

def SymbolClass.text : SymbolClass → String
  | .terminal => "terminal"
  | .nonTerminal => "non-terminal"

namespace Symbol

def isNonTerminal (s : Symbol) : Bool := UpperCase.isUpper s

def isTerminal (s : Symbol) : Bool := !isNonTerminal s

def symbolClass (s : Symbol) : SymbolClass := if isNonTerminal s then .nonTerminal else .terminal

end Symbol

end ContextFree
