import Std.Data.ExtTreeMap
import ContextFree.Production
import ContextFree.Symbol.Supply

/-!
Context-free grammars: a start symbol, a finite set of productions, and the character that stands for the empty word
when the grammar is written down.

A grammar is `WellFormed` when its start symbol and every left side are non-terminals and the sentinel is neither a
non-terminal nor on a right side. Reading a grammar gives well-formed ones only.
-/

namespace ContextFree

open Std

structure Grammar where
  start : Symbol
  /-- the sentinel for the empty word -/
  epsilon : Symbol
  productions : FiniteSet Production
  deriving DecidableEq

namespace Grammar

structure WellFormed (g : Grammar) : Prop where
  start_nonTerminal : Symbol.isNonTerminal g.start
  left_nonTerminal : ∀ p ∈ g.productions, Symbol.isNonTerminal p.left
  epsilon_terminal : Symbol.isTerminal g.epsilon
  epsilon_not_right : ∀ p ∈ g.productions, g.epsilon ∉ p.right

/-- the productions in order -/
def rules (g : Grammar) : List Production := g.productions.toList

/-- the right sides of one non-terminal, in order -/
def rightsOf (g : Grammar) (left : Symbol) : List (List Symbol) :=
  (g.rules.filter (·.left == left)).map (·.right)

/-- the right sides of every left side, as a table for repeated look-ups -/
def index (g : Grammar) : ExtTreeMap Symbol (List (List Symbol)) compare :=
  g.rules.foldr (fun p table => table.alter p.left fun rights => some (p.right :: rights.getD [])) ∅

/-- the same start symbol and sentinel over other productions -/
def withProductions (g : Grammar) (productions : FiniteSet Production) : Grammar := { g with productions }

/-- the productions that satisfy a test -/
def keep (g : Grammar) (p : Production → Bool) : Grammar := g.withProductions (g.productions.restrict p)

def hasStartRule (g : Grammar) : Bool := g.rules.any (·.left == g.start)

def hasStartEpsilon (g : Grammar) : Bool := g.rules.any fun p => p.left == g.start && p.isEpsilon

/-- The start symbol stands on some right side. -/
def startOnRight (g : Grammar) : Bool := g.rules.any (·.right.contains g.start)

/-- every symbol that some production mentions -/
def symbols (g : Grammar) : FiniteSet Symbol := .ofList (g.rules.flatMap fun p => p.left :: p.right)

def terminals (g : Grammar) : FiniteSet Symbol := g.symbols.restrict Symbol.isTerminal

def nonTerminals (g : Grammar) : FiniteSet Symbol := g.symbols.restrict Symbol.isNonTerminal

/-- the left sides, each once: the start symbol first if it is one, the others ascending -/
def lefts (g : Grammar) : List Symbol :=
  let lefts := (FiniteSet.ofList (g.rules.map (·.left))).toList
  if g.start ∈ lefts then g.start :: lefts.erase g.start else lefts

/-- fresh non-terminals for this grammar: none of its symbols, not its start symbol and not its sentinel -/
def supply (g : Grammar) : Supply := .avoiding ((g.symbols.insert g.start).insert g.epsilon)

/-- one rule per left side, its alternatives separated by bars -/
def ruleText (g : Grammar) (left : Symbol) : List Char :=
  left :: '-' :: '>' :: List.intercalate ['|']
    ((g.rightsOf left).map fun right => Production.rightText g.epsilon ⟨left, right⟩)

/-- the grammar in the notation it is read from -/
def text (g : Grammar) : List Char := List.intercalate [';'] (g.lefts.map g.ruleText) ++ ['.']

/-! ## Membership -/

variable {g : Grammar} {p : Production} {left s : Symbol} {right : List Symbol}

@[simp] theorem mem_rules : p ∈ g.rules ↔ p ∈ g.productions := ExtTreeSet.mem_toList

theorem WellFormed.ofList {start epsilon : Symbol} {rules : List Production} (hs : Symbol.isNonTerminal start)
    (lefts : ∀ p ∈ rules, Symbol.isNonTerminal p.left) (he : Symbol.isTerminal epsilon)
    (rights : ∀ p ∈ rules, epsilon ∉ p.right) : WellFormed ⟨start, epsilon, .ofList rules⟩ where
  start_nonTerminal := hs
  left_nonTerminal p mem := lefts p (FiniteSet.mem_ofList.1 mem)
  epsilon_terminal := he
  epsilon_not_right p mem := rights p (FiniteSet.mem_ofList.1 mem)

@[simp] theorem mem_rightsOf : right ∈ g.rightsOf left ↔ ⟨left, right⟩ ∈ g.productions := by
  simp only [rightsOf, List.mem_map, List.mem_filter, mem_rules, beq_iff_eq]
  constructor
  · rintro ⟨p, ⟨mem, rfl⟩, rfl⟩
    exact mem
  · exact fun mem => ⟨_, ⟨mem, rfl⟩, rfl⟩

@[simp] theorem mem_keep {test : Production → Bool} :
    p ∈ (g.keep test).productions ↔ p ∈ g.productions ∧ test p := FiniteSet.mem_restrict

theorem mem_symbols : s ∈ g.symbols ↔ ∃ p ∈ g.productions, s = p.left ∨ s ∈ p.right := by
  simp [symbols]

theorem mem_terminals : s ∈ g.terminals ↔ s ∈ g.symbols ∧ Symbol.isTerminal s := FiniteSet.mem_restrict

theorem mem_nonTerminals : s ∈ g.nonTerminals ↔ s ∈ g.symbols ∧ Symbol.isNonTerminal s := FiniteSet.mem_restrict

theorem mem_lefts : left ∈ g.lefts ↔ ∃ right, ⟨left, right⟩ ∈ g.productions := by
  have plain : left ∈ (FiniteSet.ofList (g.rules.map (·.left))).toList ↔ ∃ right, ⟨left, right⟩ ∈ g.productions := by
    simp only [ExtTreeSet.mem_toList, FiniteSet.mem_ofList, List.mem_map, mem_rules]
    constructor
    · rintro ⟨p, mem, rfl⟩
      exact ⟨p.right, mem⟩
    · rintro ⟨right, mem⟩
      exact ⟨_, mem, rfl⟩
  rw [← plain, lefts]
  split
  · rename_i h
    exact (List.perm_cons_erase h).mem_iff.symm
  · rfl

theorem hasStartRule_iff : g.hasStartRule ↔ ∃ right, ⟨g.start, right⟩ ∈ g.productions := by
  simp only [hasStartRule, List.any_eq_true, mem_rules, beq_iff_eq]
  constructor
  · rintro ⟨p, mem, eq⟩
    exact ⟨p.right, eq ▸ mem⟩
  · rintro ⟨right, mem⟩
    exact ⟨_, mem, rfl⟩

theorem hasStartEpsilon_iff : g.hasStartEpsilon ↔ ⟨g.start, []⟩ ∈ g.productions := by
  simp only [hasStartEpsilon, List.any_eq_true, mem_rules, Bool.and_eq_true, beq_iff_eq, Production.isEpsilon,
    List.isEmpty_iff]
  constructor
  · rintro ⟨p, mem, left, right⟩
    exact left ▸ right ▸ mem
  · exact fun mem => ⟨_, mem, rfl, rfl⟩

theorem startOnRight_iff : g.startOnRight ↔ ∃ p ∈ g.productions, g.start ∈ p.right := by
  simp [startOnRight]

theorem startOnRight_eq_false_iff : g.startOnRight = false ↔ ∀ p ∈ g.productions, g.start ∉ p.right := by
  rw [Bool.eq_false_iff, ne_eq, startOnRight_iff]
  simp

/-- A letter drawn for a grammar is a new non-terminal. -/
theorem fresh_of_mem_supply {a : Symbol} (h : a ∈ g.supply.free) :
    Symbol.isNonTerminal a ∧ a ∉ g.symbols ∧ a ≠ g.start ∧ a ≠ g.epsilon := by
  obtain ⟨upper, free⟩ := Supply.mem_avoiding.1 h
  simp only [ExtTreeSet.mem_insert, Std.compare_eq_iff_eq, not_or] at free
  exact ⟨upper, free.2.2, fun h => free.2.1 h.symm, fun h => free.1 h.symm⟩

theorem getD_index : g.index.getD left [] = g.rightsOf left := by
  unfold index rightsOf
  induction g.rules with
  | nil => simp
  | cons p rules ih =>
    rw [ExtTreeMap.getD_eq_getD_getElem?] at ih
    by_cases h : p.left = left
    · subst h
      simp [ExtTreeMap.getD_eq_getD_getElem?, ih]
    · simp [ExtTreeMap.getD_eq_getD_getElem?, ExtTreeMap.getElem?_alter, ih, h]

end Grammar

end ContextFree
