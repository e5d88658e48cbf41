import ContextFree.Production

/-!
LaTeX texts. `escape` makes every character of a text stand for itself; two hyphens in a row are kept from becoming a
dash. The sentinel for the empty word is written as a command.
-/

namespace ContextFree.Latex

def escapeChar (c : Char) : String :=
  match c with
  | '&' | '%' | '$' | '#' | '_' | '{' | '}' => "\\" ++ c.toString
  | '[' => "\x7b[\x7d"
  | ']' => "\x7b]\x7d"
  | '~' => "\\textasciitilde\x7b\x7d"
  | '^' => "\\textasciicircum\x7b\x7d"
  | '<' => "\\textless\x7b\x7d"
  | '>' => "\\textgreater\x7b\x7d"
  | '!' => "!\x7b\x7d"
  | '\\' => "\\textbackslash\x7b\x7d"
  | c => c.toString

def escapeChars : List Char → String
  | [] => ""
  | c :: rest =>
    (if c = '-' ∧ rest.head? = some '-' then "-\x7b\x7d" else escapeChar c) ++ escapeChars rest

def escape (s : String) : String := escapeChars s.toList

def symbol (s : Symbol) : String := escape s.toString

/-- the command for the empty word -/
def epsilon : String := "\\epsilon"

def right (sentinel : Symbol) : List Symbol → String
  | [] => epsilon
  | right => " \\ ".intercalate (right.map fun s => if s = sentinel then epsilon else symbol s)

end ContextFree.Latex
