import ContextFree.Automaton.Dfa

/-!
Paths of an automaton with empty moves, and the words that they spell. They say which words the automaton accepts
without a search: a word is spelt by a path from state 0 to a final state.
-/

namespace ContextFree.Nfa

/-- A path leads from one state to another and spells the word, empty moves left out. -/
inductive Path (n : Nfa) : Nat → List Symbol → Nat → Prop
  | nil (id : Nat) : Path n id [] id
  | empty {source target last : Nat} {word : List Symbol} :
    target ∈ n.moves.targets source none → Path n target word last → Path n source word last
  | read {source target last : Nat} {s : Symbol} {word : List Symbol} :
    target ∈ n.moves.targets source (some s) → Path n target word last → Path n source (s :: word) last

/-- Some path from state 0 to a final state spells the word. -/
def Spells (n : Nfa) (word : List Symbol) : Prop := ∃ id, n.Path 0 word id ∧ n.isFinal id

theorem Path.append {n : Nfa} {source middle last : Nat} {u v : List Symbol} (h : n.Path source u middle)
    (k : n.Path middle v last) : n.Path source (u ++ v) last := by
  induction h with
  | nil => exact k
  | empty mem _ ih => exact .empty mem (ih k)
  | read mem _ ih => exact .read mem (ih k)

end ContextFree.Nfa
