import ContextFree.Analysis.First

/-!
LR(1) items: a production with a dot in its right side and one lookahead, read as "this production may be under way, and
the lookahead may follow it". A production is named by its number in the augmented grammar, whose production 0 leads
from a fresh start symbol to the start symbol of the grammar itself.

`successors` gives the two kinds of step between items: over the symbol behind the dot, and without reading to every
production of a non-terminal behind the dot, with each terminal that can follow there.
-/

namespace ContextFree.Lr

open Std

structure Item where
  production : Nat
  dot : Nat
  lookahead : Symbol
  deriving DecidableEq, Repr

namespace Item

/-- Items are ordered by production, then dot, then lookahead. -/
instance : Ord Item := ⟨compareLex (compareOn production) (compareLex (compareOn dot) (compareOn lookahead))⟩

instance : TransOrd Item :=
  inferInstanceAs (TransCmp (compareLex (compareOn production) (compareLex (compareOn dot) (compareOn lookahead))))

instance : LawfulEqOrd Item where
  eq_of_compare {a b} h := by
    have h : (compare a.production b.production).then
        ((compare a.dot b.dot).then (compare a.lookahead b.lookahead)) = .eq := h
    rw [Ordering.then_eq_eq, Ordering.then_eq_eq] at h
    cases a
    cases b
    simp_all

/-- the item with the dot one symbol further -/
def advance (i : Item) : Item := { i with dot := i.dot + 1 }

/-- the item with which an analysis begins -/
def start : Item := ⟨0, 0, endMark⟩

end Item

/-- a grammar with a fresh start symbol above its own -/
structure Augmented where
  /-- the productions by number; production 0 is the new one -/
  productions : List Production
  first : FirstSets

namespace Augmented

/-- Augments a grammar; the end marker must not be one of its terminals. -/
def ofGrammar (g : Grammar) : Except GrammarError Augmented :=
  if endMark ∈ g.terminals then .error (.reservedSymbol endMark)
  else do
    let (start, _) ← g.supply.draw
    let top : Production := ⟨start, [g.start]⟩
    let augmented : Grammar := { g with start, productions := g.productions.insert top }
    return ⟨top :: g.rules, augmented.firstSets⟩

/-- the right side of a production, empty for an unknown number -/
def right (a : Augmented) (production : Nat) : List Symbol := ((a.productions[production]?).map (·.right)).getD []

/-- the symbol behind the dot -/
def behind (a : Augmented) (i : Item) : Option Symbol := (a.right i.production)[i.dot]?

/-- the terminals that can follow the symbol behind the dot -/
def follow (a : Augmented) (i : Item) : FiniteSet Symbol :=
  let (first, nullable) := a.first.ofForm ((a.right i.production).drop (i.dot + 1))
  if nullable then first.insert i.lookahead else first

/-- the items at the beginning of the productions of the non-terminal behind the dot -/
def predicted (a : Augmented) (i : Item) (s : Symbol) : List Item :=
  let lookaheads := (a.follow i).toList
  a.productions.zipIdx.flatMap fun (p, n) => if p.left = s then lookaheads.map (⟨n, 0, ·⟩) else []

def successors (a : Augmented) (i : Item) : List (Option Symbol × Item) :=
  match a.behind i with
  | none => []
  | some s =>
    (some s, i.advance) :: if Symbol.isNonTerminal s then (a.predicted i s).map (none, ·) else []

/-- The dot is at the end. -/
def isComplete (a : Augmented) (i : Item) : Bool := (a.behind i).isNone

/-- the terminals of the right sides, with the end marker last -/
def terminals (a : Augmented) : List Symbol :=
  let terminals := FiniteSet.ofList ((a.productions.flatMap (·.right)).filter Symbol.isTerminal)
  (terminals.erase endMark).toList ++ [endMark]

/-- the left sides in ascending order, without the new start symbol -/
def nonTerminals (a : Augmented) : List Symbol :=
  match a.productions with
  | [] => []
  | top :: rest => ((FiniteSet.ofList (rest.map (·.left))).erase top.left).toList

/-- the number of places for a dot in all productions together -/
def dots (a : Augmented) : Nat := a.productions.foldr (fun p n => p.right.length + 1 + n) 0

/-- at least the number of items: dots times lookaheads -/
def itemBound (a : Augmented) : Nat := a.dots * a.terminals.length

/-- the items that the start item leads to, each with its successors, as they are found breadth first -/
def items (a : Augmented) : List (Item × List (Option Symbol × Item)) :=
  Search.discover a.successors a.itemBound [Item.start]

end Augmented

end ContextFree.Lr
