import ContextFree.FiniteSet
import ContextFree.Error

/-!
Alphabets: ordered sets of symbols that may be restricted to one class. The restriction is part of the type, so an
alphabet of terminals holds terminals only, whatever was inserted.
-/

namespace ContextFree

open Std

structure Alphabet where
  /-- the only class admitted, if there is a restriction -/
  only : Option SymbolClass
  symbols : FiniteSet Symbol
  admitted : ∀ s ∈ symbols, ∀ c, only = some c → Symbol.symbolClass s = c

namespace Alphabet

/-- the alphabet without symbols -/
def empty (only : Option SymbolClass) : Alphabet where
  only := only
  symbols := ∅
  admitted := by intro s h; simp at h

/-- the symbols of one class among the members of a set -/
def ofSet (only : SymbolClass) (symbols : FiniteSet Symbol) : Alphabet where
  only := some only
  symbols := symbols.restrict fun s => Symbol.symbolClass s = only
  admitted := by
    intro s h c hc
    obtain rfl : only = c := by simpa using hc
    simpa using (FiniteSet.mem_restrict.1 h).2

/-- Adds a symbol and tells whether it was new; a symbol of the wrong class is refused. -/
def insert (a : Alphabet) (s : Symbol) : Except GrammarError (Bool × Alphabet) :=
  match h : a.only with
  | none => .ok (s ∉ a.symbols, ⟨none, a.symbols.insert s, by simp⟩)
  | some c =>
    if hs : Symbol.symbolClass s = c then
      .ok (s ∉ a.symbols, ⟨some c, a.symbols.insert s, by
        intro t ht d hd
        obtain rfl : c = d := by simpa using hd
        rcases ExtTreeSet.mem_insert.1 ht with ht | ht
        · rw [← LawfulEqOrd.eq_of_compare ht, hs]
        · exact a.admitted t ht c h⟩)
    else .error (.wrongClass s c)

end Alphabet

end ContextFree
