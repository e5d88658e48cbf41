import Mathlib.Data.List.Basic
import ContextFree.Production
import ContextFree.Error
import ContextFree.Symbol.Blank

/-!
The notation of grammars, said without a word on how it is read. A text `WritesRules` when it is nothing, a full stop
alone, or rules between semicolons with a full stop behind the last; a rule is a non-terminal, the only arrow, and
alternatives between bars, none of them empty.

Every other text is `Faulty`, with the fault to be reported and the number of the rule that it is reported for: a missing
full stop before text after the first one, that before the first faulty rule, and of one rule the number of its arrows
before its left side, and that before an empty alternative.
-/

namespace ContextFree

/-- the text without its blanks -/
def withoutBlanks (text : List Char) : List Char := text.filter fun c => !isBlank c

/-- The pieces are what stands between the separators of the text, in order. -/
def Separated (sep : Char) (pieces : List (List Char)) (text : List Char) : Prop :=
  pieces ≠ [] ∧ (∀ piece ∈ pieces, sep ∉ piece) ∧ text = List.intercalate [sep] pieces

/-- the number of places where an arrow begins -/
def arrows (text : List Char) : Nat := text.tails.countP fun rest => ['-', '>'] <+: rest

/-- The two parts stand before and behind the only arrow of the rule. -/
def Parted (rule before after : List Char) : Prop := rule = before ++ '-' :: '>' :: after ∧ arrows rule = 1

/-- The text of one rule writes the productions, one for each alternative. -/
inductive WritesRule : List Char → List Production → Prop
  | alternatives {rule right : List Char} {left : Symbol} {alternatives : List (List Char)} :
    Parted rule [left] right → Symbol.isNonTerminal left → Separated '|' alternatives right → [] ∉ alternatives →
    WritesRule rule (alternatives.map (⟨left, ·⟩))

/-- the first fault of a rule -/
inductive FaultyRule : List Char → RuleFault → Prop
  | missingArrow {rule : List Char} : arrows rule = 0 → FaultyRule rule .missingArrow
  | repeatedArrow {rule : List Char} : 2 ≤ arrows rule → FaultyRule rule .repeatedArrow
  | emptyLeft {rule right : List Char} : Parted rule [] right → FaultyRule rule .emptyLeft
  | invalidLeft {rule left right : List Char} : Parted rule left right → left ≠ [] →
    (∀ s, left = [s] → Symbol.isTerminal s) → FaultyRule rule (.invalidLeft (String.ofList left))
  | emptyAlternative {rule right : List Char} {left : Symbol} {alternatives : List (List Char)} :
    Parted rule [left] right → Symbol.isNonTerminal left → Separated '|' alternatives right → [] ∈ alternatives →
    FaultyRule rule .emptyAlternative

/-- The text, which has no blanks, writes the productions of its rules in order. -/
inductive WritesRules : List Char → List Production → Prop
  | nothing : WritesRules [] []
  | stop : WritesRules ['.'] []
  | rules {body : List Char} {rules : List (List Char)} {productions : List (List Production)} : body ≠ [] →
    '.' ∉ body → Separated ';' rules body → List.Forall₂ WritesRule rules productions →
    WritesRules (body ++ ['.']) productions.flatten

/-- the fault of a text without blanks, with the number of the rule that it is reported for -/
inductive Faulty : List Char → Nat → RuleFault → Prop
  | missingTerminator {text : List Char} {segments : List (List Char)} : text ≠ [] → '.' ∉ text →
    Separated ';' segments text → Faulty text segments.length .missingTerminator
  | trailingInput {body rest : List Char} {segments : List (List Char)} : '.' ∉ body → rest ≠ [] →
    Separated ';' segments body → Faulty (body ++ '.' :: rest) segments.length (.trailingInput (String.ofList rest))
  | rule {body rule : List Char} {before after : List (List Char)} {fault : RuleFault} : body ≠ [] → '.' ∉ body →
    Separated ';' (before ++ rule :: after) body → (∀ r ∈ before, ∃ productions, WritesRule r productions) →
    FaultyRule rule fault → Faulty (body ++ ['.']) (before.length + 1) fault

end ContextFree
