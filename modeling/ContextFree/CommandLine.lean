import ContextFree.Folder
import ContextFree.Service

/-!
The command line: `analyze GRAMMAR`, `transform GRAMMAR TRANSFORMATION` and `parse GRAMMAR WORD PARSER`, where a grammar
is the name of a file or the text itself.

Options may stand before the command and behind it. Each of the two places is checked on its own: no option twice, and
not both output formats. Where both places set an option, the place behind the command counts, and JSON is preferred to
LaTeX. An argument `--` ends the options, and a lone `-` is no option.

`run` is the whole program as a function of its arguments and of the folder in which it runs.
-/

namespace ContextFree.CommandLine

structure Options where
  latex : Bool := false
  json : Bool := false
  epsilon : Option Symbol := none
  maxProductions : Option Nat := none
  deriving Repr

/-- an option with a value -/
inductive Setting where
  | epsilon
  | maxProductions
  deriving DecidableEq, Repr

inductive Command where
  | analyze
  | transform (transformation : String)
  | parse (word parser : String)
  deriving DecidableEq, Repr

/-- what the arguments ask for -/
structure Invocation where
  options : Options
  command : Command
  grammar : String

/-! ## Arguments -/

/-- the greatest number that an option can have, `2 ^ 64 - 1` -/
def maxNumber : Nat := 0xFFFFFFFFFFFFFFFF

/-- a decimal numeral, perhaps behind a plus sign, up to `maxNumber` -/
def numeral? (value : List Char) : Option Nat :=
  let digits := match value with
    | '+' :: digits => digits
    | digits => digits
  if digits.isEmpty ∨ !digits.all Char.isDigit then none
  else
    let n := digits.foldl (fun n c => 10 * n + (c.toNat - '0'.toNat)) 0
    if n ≤ maxNumber then some n else none

def Options.setLatex (o : Options) : Option Options := if o.latex ∨ o.json then none else some { o with latex := true }

def Options.setJson (o : Options) : Option Options := if o.latex ∨ o.json then none else some { o with json := true }

/-- Sets an option that was not set before, if the value is one of its values. -/
def Options.set (o : Options) : Setting → List Char → Option Options
  | .epsilon, [c] => if o.epsilon.isSome then none else some { o with epsilon := some c }
  | .epsilon, _ => none
  | .maxProductions, value =>
    if o.maxProductions.isSome then none else (numeral? value).map fun n => { o with maxProductions := some n }

/-- how far the arguments of one place are read -/
structure Scan where
  options : Options := {}
  /-- the option whose value comes next -/
  awaiting : Option Setting := none
  /-- The options are over. -/
  closed : Bool := false
  /-- the arguments that are no options -/
  operands : List String := []

namespace Scan

/-- the part before the first equals sign and, if there is one, the part behind it -/
def splitValue : List Char → List Char × Option (List Char)
  | [] => ([], none)
  | '=' :: value => ([], some value)
  | c :: rest => let (name, value) := splitValue rest; (c :: name, value)

def setting? (name : String) : Option Setting :=
  if name = "epsilon" then some .epsilon
  else if name = "max-productions" then some .maxProductions
  else none

/-- an option that is spelt out, behind its two hyphens -/
def long (s : Scan) (arg : List Char) : Option Scan :=
  let (name, value) := splitValue arg
  let name := String.ofList name
  match setting? name, value with
  | some setting, none => some { s with awaiting := some setting }
  | some setting, some value => (s.options.set setting value).map fun options => { s with options }
  | none, some _ => none
  | none, none =>
    if name = "latex" then s.options.setLatex.map fun options => { s with options }
    else if name = "json" then s.options.setJson.map fun options => { s with options }
    else none

/-- options of one letter each, behind their hyphen -/
def short (s : Scan) : List Char → Option Scan
  | [] => some s
  | 'l' :: rest => s.options.setLatex.bind fun options => short { s with options } rest
  | 'j' :: rest => s.options.setJson.bind fun options => short { s with options } rest
  | _ :: _ => none

/-- Reads one argument. -/
def next (s : Scan) (arg : String) : Option Scan :=
  if s.closed then some { s with operands := s.operands ++ [arg] }
  else
    match s.awaiting, arg.toList with
    | none, ['-', '-'] => some { s with closed := true }
    | none, '-' :: '-' :: name => s.long name
    | none, '-' :: c :: letters => s.short (c :: letters)
    | none, _ => some { s with operands := s.operands ++ [arg] }
    | some _, '-' :: _ :: _ => none
    | some setting, value =>
      (s.options.set setting value).map fun options => { s with options, awaiting := none }

/-- Reads the arguments up to the command; gives the options so far, the command and the arguments behind it. -/
def upToCommand (s : Scan) : List String → Option (Options × String × List String)
  | [] => none
  | arg :: args =>
    match s.next arg with
    | none => none
    | some s =>
      match s.operands with
      | [] => upToCommand s args
      | command :: _ => if s.closed then none else some (s.options, command, args)

/-- the options and operands of a list of arguments -/
def all (args : List String) : Option (Options × List String) :=
  match args.foldlM next {} with
  | some s => if s.awaiting.isSome then none else some (s.options, s.operands)
  | none => none

end Scan

/-- the options of both places; the second place counts -/
def Options.override (before behind : Options) : Options where
  latex := before.latex || behind.latex
  json := before.json || behind.json
  epsilon := behind.epsilon <|> before.epsilon
  maxProductions := behind.maxProductions <|> before.maxProductions

def Invocation.ofArgs? (args : List String) : Option Invocation := do
  let (before, command, args) ← Scan.upToCommand {} args
  let (behind, operands) ← Scan.all args
  let options := before.override behind
  match command, operands with
  | "analyze", [grammar] => return ⟨options, .analyze, grammar⟩
  | "transform", [grammar, transformation] => return ⟨options, .transform transformation, grammar⟩
  | "parse", [grammar, word, parser] => return ⟨options, .parse word parser, grammar⟩
  | _, _ => none

/-! ## Execution -/

/-- why an invocation has no output -/
inductive Failure where
  /-- The file with this name is not UTF-8. -/
  | unreadableFile (name : String)
  | invalidGrammar (e : GrammarError)
  | failed (e : GrammarError)

def Failure.message : Failure → String
  | unreadableFile name =>
    "Error: failed to read " ++ name ++ "\n\nCaused by:\n    stream did not contain valid UTF-8\n"
  | invalidGrammar e => "Error: invalid grammar\n\nCaused by:\n    " ++ e.message ++ "\n"
  | failed e => "Error: " ++ e.message ++ "\n"

/-- what is written and with which code the program ends -/
structure Effect where
  code : Nat
  out : String
  err : String

namespace Invocation

/-- the grammar, from the file of that name if there is one -/
def readGrammar (i : Invocation) (file : Option ByteArray) : Except Failure Grammar := do
  let text ← match file with
    | none => .ok i.grammar
    | some bytes =>
      match String.fromUTF8? bytes with
      | some text => .ok text
      | none => .error (.unreadableFile i.grammar)
  (Grammar.readWith (i.options.epsilon.getD defaultEpsilon) text.toList).mapError .invalidGrammar

def limits (i : Invocation) : Limits :=
  let default : Limits := {}
  { default with maxProductions := i.options.maxProductions.getD default.maxProductions }

def analyzeText (o : Options) (g : Grammar) : String :=
  let report := Report.ofGrammar g
  if o.json then report.json.text
  else if o.latex then g.latex ++ "\n\n" ++ report.latex
  else g.plain ++ "\n\n" ++ report.plain

def transformText (o : Options) (g : Grammar) : String :=
  if o.json then g.json.text
  else if o.latex then g.latex
  else String.ofList g.text ++ "\n\n" ++ g.plain

def parseText (o : Options) (g : Grammar) (word : List Symbol) (kind : ParserKind) :
    Option (Except GrammarError String) :=
  if o.json then (Service.parseWith g word kind).map fun answer => answer.map fun json => json.sortKeys.text
  else
    match kind with
    | .cyk => some ((Cyk.workingGrammar g).map fun g =>
      let parse := Cyk.parse g word
      (if o.latex then parse.triangle.latex else parse.triangle.plain) ++ "\n" ++ parse.verdict.text)
    | .lr1 =>
      match Lr.Automaton.ofGrammar g with
      | .error e => some (.error e)
      | .ok m => (m.parse word).map fun result => result.map fun parse =>
        if o.latex then m.sheet.latex ++ "\n\n" ++ parse.transcriptLatex m.sheet
        else m.sheet.plain ++ "\n\n" ++ parse.transcript m.sheet

/-- the output of a command on a grammar, without the last line end -/
def perform (i : Invocation) (g : Grammar) : Option (Except GrammarError String) :=
  match i.command with
  | .analyze => some (.ok (analyzeText i.options g))
  | .transform transformation =>
    some (((Transformation.ofName transformation).bind fun t => t.apply i.limits g).map (transformText i.options))
  | .parse word parser =>
    match ParserKind.ofName parser with
    | .error e => some (.error e)
    | .ok kind => parseText i.options g word.toList kind

/-- the output without its last line end, or why there is none; nothing at all when the parser does not end -/
def output (i : Invocation) (file : Option ByteArray) : Option (Except Failure String) :=
  match i.readGrammar file with
  | .error failure => some (.error failure)
  | .ok g => (i.perform g).map (·.mapError .failed)

def execute (i : Invocation) (file : Option ByteArray) : Option Effect :=
  (i.output file).map fun
    | .ok text => ⟨0, text ++ "\n", ""⟩
    | .error failure => ⟨1, "", failure.message⟩

end Invocation

/-- the code with which the program ends when its arguments cannot be read -/
def usageCode : Nat := 2

/-- what happens when the arguments cannot be read -/
def refusal : Effect where
  code := usageCode
  out := ""
  err := "usage: [-l | -j] [--epsilon CHAR] [--max-productions N] analyze GRAMMAR | transform GRAMMAR TRANSFORMATION | "
    ++ "parse GRAMMAR WORD PARSER\n"

/-- the whole program, given its arguments and the folder in which it runs; it has no effect when it does not end -/
def run (folder : Folder) (args : List String) : Option Effect :=
  match Invocation.ofArgs? args with
  | none => some refusal
  | some i => i.execute (folder.find? i.grammar)

end ContextFree.CommandLine
