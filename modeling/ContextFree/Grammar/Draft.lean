import ContextFree.Grammar
import ContextFree.Grammar.Reading

/-!
Drafts: grammars under construction. A draft collects rules as they come, with the sentinel for the empty word still
in them; `build` checks it and takes the sentinel out. A draft is a value, so building it leaves it as it was.
-/

namespace ContextFree

/-- the sentinel for the empty word when none is chosen -/
def defaultEpsilon : Symbol := 'ε'

structure Draft where
  /-- the start symbol, if one was chosen -/
  start : Option Symbol := none
  epsilon : Symbol := defaultEpsilon
  rules : List Production := []

namespace Draft

def withStart (d : Draft) (s : Symbol) : Draft := { d with start := some s }

def withEpsilon (d : Draft) (s : Symbol) : Draft := { d with epsilon := s }

def add (d : Draft) (rules : List Production) : Draft := { d with rules := d.rules ++ rules }

/-- Adds the rules of a written grammar. -/
def read (d : Draft) (text : List Char) : Except GrammarError Draft := (Reading.readRules text).map d.add

/-- the first rule whose left side is a terminal -/
def wrongLeft? (d : Draft) : Option Production := d.rules.find? fun p => !Symbol.isNonTerminal p.left

/-- the start symbol: the chosen one, else the left side of the first rule, else `S` -/
def startSymbol (d : Draft) : Symbol := d.start.getD ((d.rules.head?.map (·.left)).getD 'S')

def build (d : Draft) : Except GrammarError Grammar :=
  if Symbol.isNonTerminal d.epsilon then .error (.invalidEpsilon d.epsilon)
  else
    match d.wrongLeft? with
    | some p => .error (.wrongClass p.left .nonTerminal)
    | none =>
      if !Symbol.isNonTerminal d.startSymbol then .error (.wrongClass d.startSymbol .nonTerminal)
      else .ok ⟨d.startSymbol, d.epsilon, .ofList (d.rules.map (·.without d.epsilon))⟩

/-- Only well-formed grammars are built. -/
theorem wellFormed_of_build {d : Draft} {g : Grammar} (built : d.build = .ok g) : g.WellFormed := by
  unfold build at built
  split at built
  · cases built
  · rename_i sentinel
    split at built
    · cases built
    · rename_i none
      split at built
      · cases built
      · rename_i start
        cases built
        refine .ofList (by simpa using start) ?_ (by simpa [Symbol.isTerminal] using sentinel) ?_
        · intro p mem
          obtain ⟨rule, known, rfl⟩ := List.mem_map.1 mem
          simpa [Production.without] using List.find?_eq_none.1 none rule known
        · intro p mem
          obtain ⟨rule, -, rfl⟩ := List.mem_map.1 mem
          simp [Production.without]

end Draft

/-- the grammar written in a text, with a given sentinel for the empty word -/
def Grammar.readWith (epsilon : Symbol) (text : List Char) : Except GrammarError Grammar :=
  ((Draft.withEpsilon {} epsilon).read text).bind Draft.build

/-- the grammar written in a text, with the default sentinel -/
def Grammar.read (text : List Char) : Except GrammarError Grammar := Grammar.readWith defaultEpsilon text

end ContextFree
