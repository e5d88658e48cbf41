import ContextFree.Layout.Sheet
import ContextFree.Lr.Run

/-!
The record of a bottom-up parse, step by step, with the actions spelt out by a sheet.
-/

namespace ContextFree.Lr

namespace Record

def stackText (r : Record) : String :=
  " ".intercalate (r.stack.map fun (s, state) => (s.map Char.toString).getD "" ++ toString state)

def inputText (r : Record) : String := String.ofList r.input

def json (r : Record) : Json :=
  .object [
    ("stack", .array (r.stack.map fun (s, state) => .array [(s.map Json.ofSymbol).getD .null, .number state])),
    ("input", .ofSymbols r.input),
    ("action", (r.action.map Action.json).getD .null)]

/-- The text of the action; a configuration without one is an error. -/
def actionText (text : Action → String) (r : Record) : String := (r.action.map text).getD "error"

end Record

namespace Parse

def fields (p : Parse) : List (String × Json) :=
  [("outcome", p.verdict.json), ("trace", .array (p.trace.map Record.json))]

def json (p : Parse) : Json := .object p.fields

variable (p : Parse) (t : Sheet)

/-- stack, input and action of every step as texts -/
def texts (action : Action → String) : List (String × String × String) :=
  p.trace.map fun r => (r.stackText, r.inputText, r.actionText action)

def transcript : String :=
  let rows := ("stack", "input", "action") :: p.texts t.actionPlain
  let stackWidth := (rows.map (·.1.length)).foldl max 0
  let inputWidth := (rows.map (·.2.1.length)).foldl max 0
  Columns.lines (rows.map (fun (stack, input, action) =>
    Columns.padRight stackWidth stack ++ " | " ++ Columns.padLeft inputWidth input ++ " | " ++ action)
    ++ [p.verdict.text])

def transcriptLatex : String :=
  "\\begin\x7btabular\x7d\x7bl|r|l\x7d\nStack & Input & Action\\\\\\hline\n"
    ++ " \\\\\n".intercalate ((p.texts t.actionLatex).map fun (stack, input, action) =>
      Latex.escape stack ++ " & " ++ Latex.escape input ++ " & " ++ action)
    ++ "\\\\\n\\end\x7btabular\x7d\n" ++ Latex.escape p.verdict.text

def transcriptJson : Json :=
  .object [
    ("outcome", .string p.verdict.text),
    ("accepted", .bool p.verdict.isAccepted),
    ("steps", .array ((p.texts t.actionPlain).map fun (stack, input, action) =>
      .object [("stack", .string stack), ("input", .string input), ("action", .string action)]))]

end Parse

end ContextFree.Lr
