import ContextFree.Cyk
import ContextFree.Lr.Run

/-!
The two parsers, by name.
-/

namespace ContextFree

inductive ParserKind where
  | cyk
  | lr1
  deriving DecidableEq, Repr

namespace ParserKind

def name : ParserKind → String
  | cyk => "cyk"
  | lr1 => "lr1"

/-- the lower-case form of a character, as far as it is an ASCII letter: besides `A` to `Z` only the Kelvin sign has
one -/
def lower (c : Char) : Char := if c = '\u212A' then 'k' else c.toLower

/-- Looks a name up without regard to case. -/
def ofName (name : String) : Except GrammarError ParserKind :=
  let key := String.ofList (name.toList.map lower)
  if key = "cyk" then .ok cyk
  else if key = "lr1" ∨ key = "lr(1)" ∨ key = "lr-1" then .ok lr1
  else .error (.unknownParser name)

/-- whether the parser accepts a word under a grammar; there is no answer when it does not come to an end -/
def recognize (g : Grammar) (word : List Symbol) : ParserKind → Option (Except GrammarError Bool)
  | cyk => some ((Cyk.workingGrammar g).map fun g => (Cyk.parse g word).verdict.isAccepted)
  | lr1 =>
    match Lr.Automaton.ofGrammar g with
    | .error e => some (.error e)
    | .ok m => (m.parse word).map fun result => result.map fun parse => parse.verdict.isAccepted

end ParserKind

end ContextFree
