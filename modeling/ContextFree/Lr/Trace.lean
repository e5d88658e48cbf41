import Mathlib.Data.List.Chain
import ContextFree.Lr.Validity

/-!
What the trace of an accepted word tells. Each record shows a form, the symbols on the stack and then what is left of
the word. A record is `Continued` by another one when the second shows what the action of the first did, and no more.
A parse `Retraces` a derivation when its records do so from the first to the last, the form of each is on the way from
the start symbol to the word, and the reductions, read backwards, are the productions of the one rightmost derivation.
-/

namespace ContextFree.Lr

namespace Record

/-- the production that is reduced, if the action is a reduction -/
def reduction? (r : Record) : Option Nat :=
  match r.action with
  | some (.reduce n) => some n
  | _ => none

end Record

namespace Automaton

variable (m : Automaton)

/-- The second record comes of the action of the first one. -/
inductive Continued : Record → Record → Prop
  /-- The next symbol moves from the input to the stack, under the new state. -/
  | shift {stack : List (Option Symbol × Nat)} {x : Symbol} {rest : List Symbol} {t : Nat} (next : Option Action) :
    Continued ⟨stack, x :: rest, some (.shift t)⟩ ⟨stack ++ [(some x, t)], rest, next⟩
  /-- The right side on top of the stack gives way to the left side, under the state that the exposed one goes to. -/
  | reduce {below top : List (Option Symbol × Nat)} {symbol : Option Symbol} {q t n : Nat} {p : Production}
    {input : List Symbol} (next : Option Action) : m.production? n = some p →
    top.map Prod.fst = p.right.map some → m.goto? q p.left = some t →
    Continued ⟨below ++ (symbol, q) :: top, input, some (.reduce n)⟩
      ⟨below ++ [(symbol, q), (some p.left, t)], input, next⟩

end Automaton

namespace Parse

/-- the productions that are reduced, by number and in order -/
def reductions (parse : Parse) : List Nat := parse.trace.filterMap (·.reduction?)

/-- The trace is the rightmost derivation of the word, from its end to its beginning. -/
structure Retraces (parse : Parse) (m : Automaton) (g : Grammar) (word : List Symbol) : Prop where
  first : ∃ action, parse.trace.head? = some ⟨[(some endMark, Dfa.initial)], word ++ [endMark], action⟩
  last : ∃ stack, parse.trace.getLast? = some ⟨stack, [endMark], some .accept⟩
  /-- Each record but the last is followed by what comes of its action. -/
  continued : parse.trace.IsChain m.Continued
  /-- Each record shows a form that the start symbol derives, and that derives the word. -/
  forms : ∀ r ∈ parse.trace, ∃ symbols rest, r.stack.map Prod.fst = some endMark :: symbols.map some ∧
    r.input = rest ++ [endMark] ∧ Derives g.rules [g.start] (symbols ++ rest) ∧ Derives g.rules (symbols ++ rest) word
  /-- The reductions backwards are the productions of the rightmost derivation, the only one that there is. -/
  productions : ∃ ps, parse.reductions.reverse.map m.production? = ps.map some ∧
    ∀ qs, RightmostDerivation g.rules [g.start] qs word ↔ qs = ps

end Parse

end ContextFree.Lr
