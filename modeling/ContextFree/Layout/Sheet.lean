import ContextFree.Layout.Columns
import ContextFree.Layout.Json
import ContextFree.Layout.Latex
import ContextFree.Lr.Table

/-!
The parsing table as a sheet: one row for every state, with a column for every terminal, the end marker last, and one
for every non-terminal.
-/

namespace ContextFree.Lr

structure Sheet where
  /-- the productions by number, with the sentinel for the empty word -/
  productions : List Production
  epsilon : Symbol
  terminals : List Symbol
  nonTerminals : List Symbol
  /-- the actions by state and terminal -/
  action : List (List (List Action))
  /-- the states gone to, by state and non-terminal -/
  goto : List (List (Option Nat))

def Automaton.sheet (m : Automaton) : Sheet :=
  let terminals := m.augmented.terminals
  let nonTerminals := m.augmented.nonTerminals
  let states := List.range m.dfa.states.list.length
  { productions := m.augmented.productions
    epsilon := m.epsilon
    terminals
    nonTerminals
    action := states.map fun id => terminals.map fun s => ((m.actions? id s).map (·.toList)).getD []
    goto := states.map fun id => nonTerminals.map (m.goto? id) }

def Action.json : Action → Json
  | .shift n => .object [("Shift", .number n)]
  | .reduce n => .object [("Reduce", .number n)]
  | .goto n => .object [("Goto", .number n)]
  | .accept => .string "Accept"

namespace Sheet

variable (t : Sheet)

def productionText (n : Nat) : String :=
  ((t.productions[n]?).map fun p => String.ofList (p.text t.epsilon)).getD "?"

def productionLatex (n : Nat) : String :=
  ((t.productions[n]?).map fun p => Latex.symbol p.left ++ " \\rightarrow " ++ Latex.right t.epsilon p.right).getD "?"

def actionPlain : Action → String
  | .shift n => "s" ++ toString n
  | .reduce n => "r(" ++ t.productionText n ++ ")"
  | .goto n => "g" ++ toString n
  | .accept => "acc"

def actionLatex : Action → String
  | .shift n => "shift " ++ toString n
  | .reduce n => "reduce $" ++ t.productionLatex n ++ "$"
  | .goto n => "goto " ++ toString n
  | .accept => "accept"

def gotoText (target : Option Nat) : String := (target.map toString).getD ""

/-- the actions of a cell one after the other; a conflict is coloured -/
def cellLatex (actions : List Action) : String :=
  let text := "; ".intercalate (actions.map t.actionLatex)
  if 1 < actions.length then "\x7b\\color\x7bred\x7d" ++ text ++ "\x7d" else text

/-- the cells of every row, behind its number -/
def cells (text : List Action → String) : List (List String) :=
  (t.action.zip t.goto).zipIdx.map fun ((actions, gotos), id) =>
    toString id :: actions.map text ++ gotos.map gotoText

def plain : String :=
  Columns.alignRight
    (("" :: (t.terminals ++ t.nonTerminals).map Char.toString)
      :: t.cells fun actions => "; ".intercalate (actions.map t.actionPlain))

def latex : String :=
  let headings := t.terminals ++ t.nonTerminals
  "\\begin\x7btabular\x7d\x7bc" ++ String.join (headings.map fun _ => "|l") ++ "\x7d\n & \\multicolumn\x7b"
    ++ toString t.terminals.length ++ "\x7d\x7bc\x7d\x7baction\x7d & \\multicolumn\x7b"
    ++ toString t.nonTerminals.length ++ "\x7d\x7b|c\x7d\x7bgoto\x7d\\\\\n"
    ++ " & ".intercalate ("" :: headings.map Latex.symbol) ++ " \\\\\\hline\n"
    ++ " \\\\\n".intercalate ((t.cells t.cellLatex).map (" & ".intercalate ·))
    ++ "\n\\end\x7btabular\x7d"

def json : Json :=
  .object [
    ("productions", .array ((List.range t.productions.length).map fun n => .string (t.productionText n))),
    ("terminals", .ofSymbols t.terminals), ("non_terminals", .ofSymbols t.nonTerminals),
    ("action", .array (t.action.map fun row => .array (row.map fun actions => .array (actions.map Action.json)))),
    ("goto", .array (t.goto.map fun row => .array (row.map fun target => (target.map Json.number).getD .null)))]

end Sheet

end ContextFree.Lr
