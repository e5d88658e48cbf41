import ContextFree.Grammar.Draft
import ContextFree.Layout.Report
import ContextFree.Layout.Transcript
import ContextFree.Layout.Triangle
import ContextFree.ParserKind
import ContextFree.Transformation

/-!
The library behind three calls from text to JSON text. Every object of an answer has its keys in ascending order, and a
failure is an object with its message.
-/

namespace ContextFree.Service

/-- what the chosen parser finds out about a word, if it comes to an end -/
def parseWith (g : Grammar) (word : List Symbol) : ParserKind → Option (Except GrammarError Json)
  | .cyk => some ((Cyk.workingGrammar g).map fun g => (Cyk.parse g word).json)
  | .lr1 =>
    match Lr.Automaton.ofGrammar g with
    | .error e => some (.error e)
    | .ok m => (m.parse word).map fun result => result.map fun parse =>
        .object (parse.fields ++ [("table", m.sheet.json)])

def respond (answer : Except GrammarError Json) : String :=
  match answer with
  | .ok json => json.sortKeys.text
  | .error e => (Json.object [("error", .string e.message)]).text

def analyze (grammar : String) : String :=
  respond ((Grammar.read grammar.toList).map fun g => (Report.ofGrammar g).json)

def transform (grammar transformation : String) : String :=
  respond do
    let g ← Grammar.read grammar.toList
    let t ← Transformation.ofName transformation
    let g ← t.apply {} g
    return .object [("grammar", .string (String.ofList g.text)), ("productions", g.json)]

/-- There is no text when the parser does not come to an end. -/
def parse (grammar word parser : String) : Option String :=
  match Grammar.read grammar.toList, ParserKind.ofName parser with
  | .ok g, .ok kind => (parseWith g word.toList kind).map respond
  | .error e, _ | .ok _, .error e => some (respond (.error e))

end ContextFree.Service
