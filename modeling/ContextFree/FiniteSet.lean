import Std.Data.ExtTreeSet

/-!
Finite sets over an ordered type. `FiniteSet α` is the extensional search tree of the library: two sets with the same
members are equal, `toList` lists the members in strictly ascending order, and membership takes logarithmic time.

`mem_ofList`, `mem_restrict` and `mem_unions` say what each constructor does to membership; with `ext` they are all that
the rest of the project uses.
-/

namespace ContextFree

open Std

/-- finite set of values of an ordered type -/
abbrev FiniteSet (α : Type) [Ord α] := ExtTreeSet α compare

namespace FiniteSet

variable {α : Type} [Ord α] [TransOrd α]

/-- the set of the members of a list -/
def ofList (l : List α) : FiniteSet α := ExtTreeSet.ofList l compare

/-- the members with a property -/
def restrict (s : FiniteSet α) (p : α → Bool) : FiniteSet α := ofList (s.toList.filter p)

/-- the union of a list of sets -/
def unions (l : List (FiniteSet α)) : FiniteSet α := l.foldl (· ∪ ·) ∅

/-- some member has the property -/
def any (s : FiniteSet α) (p : α → Bool) : Bool := s.toList.any p

/-- Sets are ordered as the ascending lists of their members. -/
instance : Ord (FiniteSet α) := ⟨compareOn (·.toList)⟩

instance : TransOrd (FiniteSet α) := inferInstanceAs (TransCmp (compareOn _))

theorem mem_foldl_union {l : List (FiniteSet α)} {s : FiniteSet α} {a : α} :
    a ∈ l.foldl (· ∪ ·) s ↔ a ∈ s ∨ ∃ t ∈ l, a ∈ t := by
  induction l generalizing s with
  | nil => simp
  | cons t l ih => simp [ih, ExtTreeSet.mem_union_iff, or_assoc]

@[simp] theorem mem_unions {l : List (FiniteSet α)} {a : α} : a ∈ unions l ↔ ∃ t ∈ l, a ∈ t := by
  simp [unions, mem_foldl_union]

variable [LawfulEqOrd α]

instance : LawfulEqOrd (FiniteSet α) where
  eq_of_compare h := ExtTreeSet.toList_inj.1 (LawfulEqOrd.eq_of_compare h)

theorem ext {s t : FiniteSet α} (h : ∀ a, a ∈ s ↔ a ∈ t) : s = t := ExtTreeSet.ext_mem h

theorem nodup_toList {s : FiniteSet α} : s.toList.Nodup := by
  refine ExtTreeSet.distinct_toList.imp ?_
  rintro a b ne rfl
  exact ne ReflCmp.compare_self

@[simp] theorem mem_ofList [DecidableEq α] {l : List α} {a : α} : a ∈ ofList l ↔ a ∈ l := by
  simp [ofList, ExtTreeSet.mem_ofList]

@[simp] theorem mem_restrict [DecidableEq α] {s : FiniteSet α} {p : α → Bool} {a : α} :
    a ∈ s.restrict p ↔ a ∈ s ∧ p a := by
  simp [restrict, ExtTreeSet.mem_toList]

@[simp] theorem any_iff {s : FiniteSet α} {p : α → Bool} : s.any p ↔ ∃ a ∈ s, p a := by
  simp [any, ExtTreeSet.mem_toList]

end FiniteSet

end ContextFree
