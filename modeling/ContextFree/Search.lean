import Std.Data.ExtTreeMap
import ContextFree.FiniteSet

/-!
Breadth-first search in a graph given by its successor function. `discover` returns every value that can be reached
from the starting values, in the order in which a queue would hand them out, each with its labelled successors;
`reach` keeps the values only.

The search goes level by level. Every level but the first consists of values not met before, so the number of levels
is at most the number of reachable values: a bound on that number is all the fuel that is needed. `nodup_discover` says
that no value comes twice, so that a value can be named by its position; `numbered` does that.
-/

namespace ContextFree.Search

open Std

variable {α β : Type} [Ord α] [TransOrd α]

/-- the values of a list that are not in `seen`, each once, together with `seen` extended by them -/
def unseen (seen : FiniteSet α) : List α → List α × FiniteSet α
  | [] => ([], seen)
  | a :: l =>
    if a ∈ seen then unseen seen l
    else
      let (fresh, seen) := unseen (seen.insert a) l
      (a :: fresh, seen)

/-- The levels from `level` on; `seen` holds the values of this level and of all before it. -/
def explore (next : α → List (β × α)) : Nat → FiniteSet α → List α → List (α × List (β × α))
  | 0, _, _ => []
  | _ + 1, _, [] => []
  | bound + 1, seen, level =>
    let rows := level.map fun a => (a, next a)
    let (fresh, seen) := unseen seen (rows.flatMap fun row => row.2.map Prod.snd)
    rows ++ explore next bound seen fresh

/-- every value reachable from `starts` with its labelled successors, nearest first -/
def discover (next : α → List (β × α)) (bound : Nat) (starts : List α) : List (α × List (β × α)) :=
  let (level, seen) := unseen ∅ starts
  explore next bound seen level

/-- every value reachable from `starts` -/
def reach (next : α → List α) (bound : Nat) (starts : List α) : List α :=
  (discover (fun a => (next a).map fun b => ((), b)) bound starts).map Prod.fst

/-- the labelled successors of every value, each named by its position among the values -/
def numbered (rows : List (α × List (β × α))) : List (List (β × Nat)) :=
  let position : ExtTreeMap α Nat compare := ExtTreeMap.ofList (rows.map Prod.fst).zipIdx compare
  rows.map fun row => row.2.map fun (label, a) => (label, position.getD a 0)

/-! ## No value twice -/

section Nodup

variable [LawfulEqOrd α]

theorem mem_unseen_snd {seen : FiniteSet α} {l : List α} {a : α} : a ∈ (unseen seen l).2 ↔ a ∈ seen ∨ a ∈ l := by
  induction l generalizing seen with
  | nil => simp [unseen]
  | cons b l ih =>
    unfold unseen
    split
    · rw [ih, List.mem_cons]
      grind
    · simp only [ih, ExtTreeSet.mem_insert, Std.compare_eq_iff_eq, List.mem_cons]
      grind

theorem mem_unseen_fst {seen : FiniteSet α} {l : List α} {a : α} : a ∈ (unseen seen l).1 ↔ a ∈ l ∧ a ∉ seen := by
  induction l generalizing seen with
  | nil => simp [unseen]
  | cons b l ih =>
    unfold unseen
    split
    · rw [ih, List.mem_cons]
      grind
    · simp only [List.mem_cons, ih, ExtTreeSet.mem_insert, Std.compare_eq_iff_eq]
      grind

theorem nodup_unseen_fst {seen : FiniteSet α} {l : List α} : (unseen seen l).1.Nodup := by
  induction l generalizing seen with
  | nil => simp [unseen]
  | cons b l ih =>
    unfold unseen
    split
    · exact ih
    · refine List.nodup_cons.2 ⟨fun h => ?_, ih⟩
      exact (mem_unseen_fst.1 h).2 (by simp)

theorem nodup_explore {next : α → List (β × α)} {bound : Nat} {seen : FiniteSet α} {level : List α}
    (nodup : level.Nodup) (sub : ∀ a ∈ level, a ∈ seen) :
    ((explore next bound seen level).map Prod.fst).Nodup ∧
      ∀ a ∈ (explore next bound seen level).map Prod.fst, a ∈ level ∨ a ∉ seen := by
  induction bound generalizing seen level with
  | zero => simp [explore]
  | succ bound ih =>
    cases level with
    | nil => simp [explore]
    | cons b level =>
      have rows : ((b :: level).map fun a => (a, next a)).map Prod.fst = b :: level := by
        simp [List.map_map, Function.comp_def]
      simp only [explore, List.map_append, rows]
      generalize (((b :: level).map fun a => (a, next a)).flatMap fun row => row.2.map Prod.snd) = successors
      have inside : ∀ a ∈ (unseen seen successors).1, a ∈ (unseen seen successors).2 := fun a ha =>
        mem_unseen_snd.2 (.inr (mem_unseen_fst.1 ha).1)
      obtain ⟨deeper, away⟩ := ih nodup_unseen_fst inside
      have apart : ∀ a ∈ (explore next bound (unseen seen successors).2 (unseen seen successors).1).map Prod.fst,
          a ∉ seen := by
        intro a ha hs
        rcases away a ha with h | h
        · exact (mem_unseen_fst.1 h).2 hs
        · exact h (mem_unseen_snd.2 (.inl hs))
      refine ⟨List.nodup_append.2 ⟨nodup, deeper, ?_⟩, ?_⟩
      · rintro a ha _ hb rfl
        exact apart a hb (sub a ha)
      · intro a ha
        rcases List.mem_append.1 ha with h | h
        · exact .inl h
        · exact .inr (apart a h)

theorem nodup_discover {next : α → List (β × α)} {bound : Nat} {starts : List α} :
    ((discover next bound starts).map Prod.fst).Nodup :=
  (nodup_explore nodup_unseen_fst fun _ ha => mem_unseen_snd.2 (.inr (mem_unseen_fst.1 ha).1)).1

end Nodup

end ContextFree.Search
