import ContextFree.Analysis.Closure

/-!
What a derived sentential form can begin with. `leading` is the part of a form of which any symbol can come first once
nullable symbols are erased; a search along the leading symbols of right sides gives the FIRST sets and finds left
recursion.
-/

namespace ContextFree

open Std

/-- the symbols of a form up to and with the first that is not nullable -/
def leading (nullable : FiniteSet Symbol) : List Symbol → List Symbol
  | [] => []
  | s :: form => if s ∈ nullable then s :: leading nullable form else [s]

/-- the FIRST sets of the non-terminals of a grammar, with the nullable symbols that they rest on -/
structure FirstSets where
  nullable : FiniteSet Symbol
  heads : ExtTreeMap Symbol (FiniteSet Symbol) compare

namespace Grammar

/-- what the right sides of a non-terminal can begin with -/
def leads (nullable : FiniteSet Symbol) (index : ExtTreeMap Symbol (List (List Symbol)) compare) (s : Symbol) :
    List Symbol := (index.getD s []).flatMap (leading nullable)

def firstSets (g : Grammar) : FirstSets :=
  let nullable := g.nullable
  let index := g.index
  let head := fun s => .ofList ((Search.reach (leads nullable index) (g.symbols.size + 1) [s]).filter Symbol.isTerminal)
  ⟨nullable, ExtTreeMap.ofList (g.nonTerminals.toList.map fun s => (s, head s)) compare⟩

/-- Some non-terminal derives, in one or more steps, a form that begins with itself. -/
def isLeftRecursive (g : Grammar) : Bool :=
  let nullable := g.nullableSymbols
  let index := g.index
  let next := fun s => (leads nullable index s).filter Symbol.isNonTerminal
  g.lefts.any fun s => s ∈ Search.reach next (g.symbols.size + 1) (next s)

end Grammar

namespace FirstSets

/-- FIRST of one symbol -/
def of (sets : FirstSets) (s : Symbol) : FiniteSet Symbol :=
  if Symbol.isTerminal s then .ofList [s] else sets.heads.getD s ∅

def isNullable (sets : FirstSets) (s : Symbol) : Bool := s ∈ sets.nullable

/-- FIRST of a form, and whether it derives the empty word -/
def ofForm (sets : FirstSets) (form : List Symbol) : FiniteSet Symbol × Bool :=
  (.unions ((leading sets.nullable form).map sets.of), form.all sets.isNullable)

end FirstSets

end ContextFree
