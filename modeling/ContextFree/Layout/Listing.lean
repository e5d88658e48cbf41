import ContextFree.Grammar
import ContextFree.Layout.Columns
import ContextFree.Layout.Json
import ContextFree.Layout.Latex

/-!
Listings of the productions of a grammar: one entry for every left side, the start symbol first, with its alternatives
in order.
-/

namespace ContextFree

namespace Grammar

/-- the alternatives of one left side as texts -/
def rightTexts (g : Grammar) (left : Symbol) : List String :=
  (g.rightsOf left).map fun right => String.ofList (Production.rightText g.epsilon ⟨left, right⟩)

/-- an alternative on every line, below each other -/
def entryPlain (g : Grammar) (left : Symbol) : String :=
  match g.rightTexts left with
  | [] => ""
  | right :: rest => Columns.lines ((left.toString ++ " -> " ++ right) :: rest.map ("   | " ++ ·))

def plain (g : Grammar) : String := Columns.lines (g.lefts.map g.entryPlain)

def entryLatex (g : Grammar) (left : Symbol) : String :=
  Latex.symbol left ++ " & \\rightarrow & " ++ " \\mid ".intercalate ((g.rightsOf left).map (Latex.right g.epsilon))

def latex (g : Grammar) : String :=
  "\\\\\n".intercalate
    ("\\[\\begin\x7barray\x7d\x7bcll\x7d" :: g.lefts.map g.entryLatex ++ ["\\end\x7barray\x7d\\]"])

def entryJson (g : Grammar) (left : Symbol) : Json :=
  .object [("left", .ofSymbol left), ("rights", .array ((g.rightTexts left).map .string))]

def json (g : Grammar) : Json :=
  .object [("axiom", .ofSymbol g.start), ("productions", .array (g.lefts.map g.entryJson))]

end Grammar

end ContextFree
