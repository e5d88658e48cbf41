/-!
Texts in columns. A row is a list of cells; widths are counted in characters, and a row may be shorter than others.
-/

namespace ContextFree.Columns

def blanks (n : Nat) : String := String.ofList (List.replicate n ' ')

/-- the text at the right end of a field -/
def padLeft (width : Nat) (s : String) : String := blanks (width - s.length) ++ s

/-- the text at the left end of a field -/
def padRight (width : Nat) (s : String) : String := s ++ blanks (width - s.length)

/-- the greater of two widths in every column that at least one has -/
def wider : List Nat → List Nat → List Nat
  | [], widths => widths
  | widths, [] => widths
  | a :: as, b :: bs => max a b :: wider as bs

/-- the width of every column -/
def widths (rows : List (List String)) : List Nat := (rows.map fun row => row.map String.length).foldl wider []

def lines (l : List String) : String := "\n".intercalate l

/-- rows of cells that end at the same place in every line -/
def alignRight (rows : List (List String)) : String :=
  let widths := widths rows
  lines (rows.map fun row => " | ".intercalate (List.zipWith padLeft widths row))

end ContextFree.Columns
