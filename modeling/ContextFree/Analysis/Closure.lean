import ContextFree.Grammar
import ContextFree.Search

/-!
Which symbols derive what. A set of symbols is closed under the productions when it holds the left side of every
production whose right side it holds; `closeUnder` is the least closed set above a given one. The nullable symbols are
the closure of nothing, the generating symbols that of the terminals. Reachable symbols come from a search along right
sides.

The sets named `…Symbols` are those of a report: they are empty for a grammar whose start symbol has no production.
-/

namespace ContextFree.Grammar

/-- the least set above `s` that is closed under the productions; each round adds a left side, so as many rounds as
there are productions suffice -/
def closeUnder (rules : List Production) : Nat → FiniteSet Symbol → FiniteSet Symbol
  | 0, s => s
  | rounds + 1, s =>
    let complete := rules.filter fun p => p.left ∉ s ∧ p.right.all (· ∈ s)
    if complete.isEmpty then s else closeUnder rules rounds (s ∪ .ofList (complete.map (·.left)))

/-- the symbols that derive the empty word -/
def nullable (g : Grammar) : FiniteSet Symbol := closeUnder g.rules g.rules.length ∅

/-- the symbols that derive some word of terminals, terminals of the grammar included -/
def generating (g : Grammar) : FiniteSet Symbol := closeUnder g.rules g.rules.length g.terminals

/-- the symbols of the sentential forms of the start symbol -/
def reachable (g : Grammar) : FiniteSet Symbol :=
  let index := g.index
  .ofList (Search.reach (fun s => (index.getD s []).flatten) (g.symbols.size + 1) [g.start])

/-- Every symbol of the production generates. -/
def isGenerating (generating : FiniteSet Symbol) (p : Production) : Bool :=
  p.left ∈ generating ∧ p.right.all (· ∈ generating)

def nullableSymbols (g : Grammar) : FiniteSet Symbol := if g.hasStartRule then g.nullable else ∅

def generatingSymbols (g : Grammar) : FiniteSet Symbol := if g.hasStartRule then g.generating else ∅

def reachableSymbols (g : Grammar) : FiniteSet Symbol := if g.hasStartRule then g.reachable else ∅

def ungenerativeSymbols (g : Grammar) : FiniteSet Symbol :=
  if g.hasStartRule then
    let generating := g.generating
    g.symbols.restrict (· ∉ generating)
  else ∅

def unreachableSymbols (g : Grammar) : FiniteSet Symbol :=
  if g.hasStartRule then
    let reachable := g.reachable
    g.symbols.restrict (· ∉ reachable)
  else ∅

/-- the symbols that no derivation of a word from the start symbol passes through: those that cannot be reached once
every production with a non-generating symbol is gone -/
def uselessSymbols (g : Grammar) : FiniteSet Symbol :=
  if g.hasStartRule then
    let generating := g.generating
    let useful := (g.keep (isGenerating generating)).reachableSymbols
    g.symbols.restrict (· ∉ useful)
  else ∅

def unitProductions (g : Grammar) : List Production := if g.hasStartRule then g.rules.filter (·.isUnit) else []

def epsilonProductions (g : Grammar) : List Production := if g.hasStartRule then g.rules.filter (·.isEpsilon) else []

/-- the non-terminals reached from a symbol by one or more unit productions -/
def unitClosure (g : Grammar) (s : Symbol) : FiniteSet Symbol :=
  let index := g.index
  let next := fun s => ((index.getD s []).filter fun right => Production.isUnit ⟨s, right⟩).flatten
  .ofList (Search.reach next (g.symbols.size + 1) (next s))

end ContextFree.Grammar
