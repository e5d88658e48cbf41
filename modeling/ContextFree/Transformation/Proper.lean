import ContextFree.Analysis.Closure

/-!
Grammars without superfluous rules: removal of useless symbols, of empty right sides and of unit productions, and the
proper form that combines them. A proper grammar has no useless symbol, no unit production, and an empty right side at
most for a start symbol that stands on no right side.

Each removal leaves a grammar whose start symbol has no production as it is.
-/

namespace ContextFree.Grammar

/-- drops the productions with a symbol that generates nothing -/
def removeUngenerative (g : Grammar) : Grammar :=
  if g.hasStartRule then
    let generating := g.generating
    g.keep (isGenerating generating)
  else g

/-- drops the productions of the non-terminals that cannot be reached -/
def removeUnreachable (g : Grammar) : Grammar :=
  if g.hasStartRule then
    let reachable := g.reachable
    g.keep (·.left ∈ reachable)
  else g

/-- drops the productions with a useless symbol -/
def removeUseless (g : Grammar) : Grammar :=
  let useless := g.uselessSymbols
  g.keep fun p => (p.left :: p.right).all (· ∉ useless)

/-- every way to delete some occurrences of nullable symbols -/
def variants (nullable : FiniteSet Symbol) : List Symbol → FiniteSet (List Symbol)
  | [] => .ofList [[]]
  | s :: right =>
    let shorter := variants nullable right
    let kept := .ofList (shorter.toList.map (s :: ·))
    if s ∈ nullable then shorter ∪ kept else kept

/-- Replaces every production by its variants without nullable occurrences; only a nullable start symbol keeps an
empty right side. -/
def removeEpsilonProductions (g : Grammar) : Grammar :=
  let nullable := g.nullableSymbols
  if nullable.isEmpty then g
  else
    let shortened := g.rules.flatMap fun p =>
      ((variants nullable p.right).toList.filter (!·.isEmpty)).map fun right => Production.mk p.left right
    let kept := if g.start ∈ nullable then [Production.mk g.start []] else []
    g.withProductions (.ofList (kept ++ shortened))

/-- Gives every left side the productions of the non-terminals that unit productions lead to. -/
def removeUnitProductions (g : Grammar) : Grammar :=
  if g.unitProductions.isEmpty then g
  else
    g.withProductions <| .ofList <| g.lefts.flatMap fun left =>
      ((g.unitClosure left).insert left).toList.flatMap fun source =>
        (g.rightsOf source).filterMap fun right =>
          if Production.isUnit ⟨source, right⟩ then none else some ⟨left, right⟩

/-- Adds a start symbol above the present one, with the empty word as its second alternative. -/
def withNewStart (g : Grammar) (start : Symbol) : Grammar :=
  { g with
    start
    productions := (g.productions.insert ⟨start, [g.start]⟩).insert ⟨start, []⟩ }

/-- the proper form; a new start symbol is drawn only when the present one is nullable and stands on a right side -/
def proper (g : Grammar) : Except GrammarError Grammar :=
  let g := g.removeUseless
  if !g.hasStartRule then .ok g
  else
    let finish := fun g : Grammar => g.removeEpsilonProductions.removeUnitProductions.removeUseless
    if g.start ∈ g.nullableSymbols ∧ g.startOnRight then do
      let (start, _) ← g.supply.draw
      return finish (g.withNewStart start)
    else .ok (finish g)

end ContextFree.Grammar
