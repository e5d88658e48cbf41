import ContextFree.FiniteSet
import ContextFree.Error

/-!
Fresh non-terminals. A supply is the list of the upper-case letters that are still free, in the order in which they are
handed out: `A` to `Z` first, then the other letters by code point. Drawing takes the head, so no letter is handed out
twice and none that was taken from the start.
-/

namespace ContextFree

open Std

structure Supply where
  free : List Symbol

namespace Supply

/-- every upper-case letter outside a set -/
def avoiding (taken : FiniteSet Symbol) : Supply := ⟨UpperCase.letters.filter (· ∉ taken)⟩

/-- the next free letter and what is left -/
def draw (s : Supply) : Except GrammarError (Symbol × Supply) :=
  match s.free with
  | [] => .error .symbolsExhausted
  | a :: free => .ok (a, ⟨free⟩)

/-- one fresh letter for each member of a list, in its order -/
def name {α : Type} (s : Supply) (things : List α) : Except GrammarError (List (α × Symbol)) :=
  if things.length ≤ s.free.length then .ok (things.zip s.free) else .error .symbolsExhausted

theorem mem_avoiding {taken : FiniteSet Symbol} {s : Symbol} :
    s ∈ (avoiding taken).free ↔ Symbol.isNonTerminal s ∧ s ∉ taken := by
  simp [avoiding, UpperCase.mem_letters, Symbol.isNonTerminal]

theorem free_of_draw {s rest : Supply} {a : Symbol} (h : s.draw = .ok (a, rest)) : s.free = a :: rest.free := by
  unfold draw at h
  split at h
  · cases h
  · cases h
    assumption

theorem nodup_avoiding {taken : FiniteSet Symbol} : (avoiding taken).free.Nodup :=
  List.Nodup.sublist List.filter_sublist UpperCase.nodup_letters

end Supply

end ContextFree
