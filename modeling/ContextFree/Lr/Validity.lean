import ContextFree.Derivation
import ContextFree.Lr.Run

/-!
What the items of a state mean. `Closure` is the least set of items above a kernel that holds, with every item, those
at the beginning of the productions of the symbol behind its dot, with every terminal that derivations put there. An
item is `Valid` for a list of symbols when a rightmost derivation of the augmented grammar shows it there: the dot stands
at the end of these symbols, and the lookahead is what comes next.

`Canonical` says that the states are those closures and that every cell of the table holds the actions that its state
`Calls` for. `shifts` counts what a parse has read of its word; the parse `StopsEarly` when it has read no more than the
beginning of some word of the language.
-/

namespace ContextFree.Lr

namespace Augmented

variable (a : Augmented)

/-- The productions are those of a grammar, below one that leads from a new non-terminal to its start symbol. -/
def Extends (g : Grammar) : Prop :=
  ∃ top, Symbol.isNonTerminal top ∧ top ∉ g.symbols ∧ top ≠ g.start ∧ a.productions = ⟨top, [g.start]⟩ :: g.rules

/-- The terminal can come after the symbol behind the dot: what stands there derives a form that begins with the
terminal, or it derives the empty word and the terminal is the lookahead. -/
def CanFollow (i : Item) (x : Symbol) : Prop :=
  BeginsWith a.productions ((a.right i.production).drop (i.dot + 1)) x ∨
    Derives a.productions ((a.right i.production).drop (i.dot + 1)) [] ∧ x = i.lookahead

/-- the least closed set of items above a kernel -/
inductive Closure (kernel : Item → Prop) : Item → Prop
  | kernel {i : Item} : kernel i → Closure kernel i
  | predict {i : Item} {n : Nat} {p : Production} {lookahead : Symbol} : Closure kernel i →
    a.behind i = some p.left → a.productions[n]? = some p → a.CanFollow i lookahead →
    Closure kernel ⟨n, 0, lookahead⟩

/-- the items of a set with the dot moved over a symbol -/
def Advanced (items : Item → Prop) (s : Symbol) (j : Item) : Prop :=
  ∃ i, items i ∧ a.behind i = some s ∧ j = i.advance

/-- A rightmost derivation shows the item behind the symbols. -/
def Valid (symbols : List Symbol) (i : Item) : Prop :=
  ∃ top p, a.productions.head? = some top ∧ a.productions[i.production]? = some p ∧
    ∃ before after ps, RightmostDerivation a.productions [top.left] ps (before ++ p.left :: after) ∧ IsWord after ∧
      i.dot ≤ p.right.length ∧ symbols = before ++ p.right.take i.dot ∧ i.lookahead = after.headD endMark

end Augmented

namespace Automaton

variable (m : Automaton)

/-- the actions that the items and the moves of a state call for, by the next symbol -/
inductive Calls (q : Nat) : Symbol → Action → Prop
  | shift {i : Item} {s : Symbol} {t : Nat} : i ∈ m.itemsOf q → m.augmented.behind i = some s → Symbol.isTerminal s →
    m.dfa.next q s = some t → Calls q s (.shift t)
  | reduce {i : Item} : i ∈ m.itemsOf q → m.augmented.isComplete i → i.production ≠ 0 →
    Calls q i.lookahead (.reduce i.production)
  | accept {i : Item} : i ∈ m.itemsOf q → m.augmented.isComplete i → i.production = 0 → Calls q i.lookahead .accept
  | goto {s : Symbol} {t : Nat} : Symbol.isNonTerminal s → m.dfa.next q s = some t → Calls q s (.goto t)

/-- The states are the canonical collection of a grammar, and the table is the one that belongs to it. -/
structure Canonical (g : Grammar) : Prop where
  productions : m.augmented.Extends g
  /-- The initial state is the closure of the start item. -/
  initial : ∀ i, i ∈ m.itemsOf Dfa.initial ↔ m.augmented.Closure (· = Item.start) i
  /-- A state leads somewhere on a symbol when the symbol stands behind the dot of one of its items. -/
  moves : ∀ q s, (∃ t, m.dfa.next q s = some t) ↔ ∃ i, m.augmented.Advanced (· ∈ m.itemsOf q) s i
  /-- Where it leads is the closure of these items with the dot moved over the symbol. -/
  targets : ∀ q s t, m.dfa.next q s = some t →
    ∀ i, i ∈ m.itemsOf t ↔ m.augmented.Closure (m.augmented.Advanced (· ∈ m.itemsOf q) s) i
  /-- A cell holds the actions that its state calls for, and no others. -/
  cells : ∀ q s act, act ∈ (m.actions? q s).getD ∅ ↔ m.Calls q s act

end Automaton

/-- The step pushes a symbol. -/
def Record.isShift (r : Record) : Bool :=
  match r.action with
  | some (.shift _) => true
  | _ => false

namespace Parse

variable (parse : Parse)

/-- the number of symbols that a parse has read of its word -/
def shifts : Nat := parse.trace.countP (·.isShift)

/-- The parse has read as much of its word as some word of the language begins with, and no symbol more. -/
structure StopsEarly (g : Grammar) (word : List Symbol) : Prop where
  within : parse.shifts ≤ word.length
  /-- What is read is the beginning of a word of the language. -/
  viable : ∃ v, g.Generates (word.take parse.shifts ++ v)
  /-- With the next symbol it is not. -/
  stuck : ∀ x, word[parse.shifts]? = some x → ∀ v, ¬ g.Generates (word.take parse.shifts ++ x :: v)
  /-- When there is no next symbol, the word itself is not in the language. -/
  incomplete : parse.shifts = word.length → ¬ g.Generates word

end Parse

end ContextFree.Lr
