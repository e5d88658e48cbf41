import ContextFree.Layout.Listing
import ContextFree.Lr.Table
import ContextFree.Transformation.Greibach

/-!
The report of an analysis: every derived property of a grammar, and its texts.
-/

namespace ContextFree

structure Report where
  start : Symbol
  terminals : List Symbol
  nonTerminals : List Symbol
  nullable : List Symbol
  generating : List Symbol
  reachable : List Symbol
  useless : List Symbol
  unitProductions : List String
  epsilonProductions : List String
  chomsky : Bool
  greibach : Bool
  /-- unknown when there is no LR(1) automaton -/
  lr1 : Option Bool

namespace Report

def ofGrammar (g : Grammar) : Report where
  start := g.start
  terminals := g.terminals.toList
  nonTerminals := g.nonTerminals.toList
  nullable := g.nullableSymbols.toList
  generating := g.generatingSymbols.toList
  reachable := g.reachableSymbols.toList
  useless := g.uselessSymbols.toList
  unitProductions := g.unitProductions.map fun p => String.ofList (p.text g.epsilon)
  epsilonProductions := g.epsilonProductions.map fun p => String.ofList (p.text g.epsilon)
  chomsky := g.isChomsky
  greibach := g.isGreibach
  lr1 := g.isLr1?

def flag (b : Bool) : String := if b then "yes" else "no"

def commas (l : List String) : String := ", ".intercalate l

/-- the properties by name -/
def rows (r : Report) : List (String × String) :=
  let symbols := fun l : List Symbol => commas (l.map Char.toString)
  [("Axiom", r.start.toString), ("Terminals", symbols r.terminals), ("Non-terminals", symbols r.nonTerminals),
    ("Nullable", symbols r.nullable), ("Generating", symbols r.generating), ("Reachable", symbols r.reachable),
    ("Useless", symbols r.useless), ("Unit productions", commas r.unitProductions),
    ("Epsilon productions", commas r.epsilonProductions), ("CNF", flag r.chomsky), ("GNF", flag r.greibach),
    ("LR(1)", (r.lr1.map flag).getD "unknown")]

def plain (r : Report) : String :=
  let width := (r.rows.map (·.1.length)).foldl max 0
  Columns.lines (r.rows.map fun (name, value) => Columns.padLeft width name ++ " | " ++ value)

def latex (r : Report) : String :=
  "\\begin\x7btabular\x7d\x7br|l\x7d\nProperty & Value\\\\\\hline\n"
    ++ "\\\\\n".intercalate (r.rows.map fun (name, value) => name ++ " & " ++ Latex.escape value)
    ++ "\\\\\n\\end\x7btabular\x7d"

def json (r : Report) : Json :=
  .object [("axiom", .ofSymbol r.start), ("terminals", .ofSymbols r.terminals),
    ("non_terminals", .ofSymbols r.nonTerminals), ("nullable", .ofSymbols r.nullable),
    ("generating", .ofSymbols r.generating), ("reachable", .ofSymbols r.reachable),
    ("useless", .ofSymbols r.useless), ("unit_productions", .array (r.unitProductions.map .string)),
    ("epsilon_productions", .array (r.epsilonProductions.map .string)), ("cnf", .bool r.chomsky),
    ("gnf", .bool r.greibach), ("lr1", (r.lr1.map Json.bool).getD .null)]

end Report

end ContextFree
