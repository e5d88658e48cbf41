import ContextFree.Cyk
import ContextFree.Layout.Columns
import ContextFree.Layout.Json
import ContextFree.Layout.Latex

/-!
The triangle of the tabular parser, the longest parts on top and the word itself below.
-/

namespace ContextFree.Cyk

namespace Triangle

variable (t : Triangle)

/-- the cells of every row behind the length of its parts, the longest first -/
def texts (cell : Cell → String) : List (List String) :=
  (t.rows.zipIdx.map fun (row, i) =>
    toString (if t.word.isEmpty then 0 else i + 1) :: row.map cell).reverse

def cellPlain (c : Cell) : String := if c.isEmpty then "-" else ",".intercalate (c.toList.map Char.toString)

def cellLatex (c : Cell) : String :=
  if c.isEmpty then "$\\emptyset$" else ", ".intercalate (c.toList.map Latex.symbol)

def plain : String := Columns.alignRight (t.texts cellPlain ++ ["" :: t.word.map Char.toString])

def latex : String :=
  "\\begin\x7btabular\x7d\x7bc" ++ String.join (List.replicate (max t.word.length 1) "|c") ++ "\x7d\n"
    ++ " \\\\\n".intercalate ((t.texts cellLatex).map (" & ".intercalate ·)) ++ " \\\\\\hline\n"
    ++ " & ".intercalate ("" :: t.word.map Latex.symbol) ++ "\n\\end\x7btabular\x7d"

def json : Json :=
  .object [
    ("word", .ofSymbols t.word),
    ("rows", .array (t.rows.map fun row => .array (row.map fun cell => .ofSymbols cell.toList)))]

end Triangle

def Parse.json (p : Parse) : Json := .object [("outcome", p.verdict.json), ("matrix", p.triangle.json)]

end ContextFree.Cyk
