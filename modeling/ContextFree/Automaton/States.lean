import ContextFree.FiniteSet

/-!
Numbered states. Every state stands for a set of numbers, its identity, and no two states of a list have the same one;
a state is named by its place in the list.
-/

namespace ContextFree

structure State where
  identity : FiniteSet Nat
  initial : Bool := false
  final : Bool := false
  deriving DecidableEq

structure States where
  list : List State := []
  distinct : (list.map (·.identity)).Nodup := by simp

namespace States

def find? (states : States) (identity : FiniteSet Nat) : Option Nat :=
  states.list.findIdx? (·.identity = identity)

def get? (states : States) (id : Nat) : Option State := states.list[id]?

/-- the states with one more at the end, unless one of them has this identity -/
def intern (states : States) (identity : FiniteSet Nat) : States :=
  if h : identity ∈ states.list.map (·.identity) then states
  else ⟨states.list ++ [State.mk identity false false], by
    rw [List.map_append, List.nodup_append]
    refine ⟨states.distinct, by simp, ?_⟩
    rintro a ha b hb rfl
    simp only [List.map_cons, List.map_nil, List.mem_singleton] at hb
    exact h (hb ▸ ha)⟩

/-- Changes one state but not its identity; an unknown number changes nothing. -/
def modify (states : States) (id : Nat) (f : State → State) (keeps : ∀ s, (f s).identity = s.identity) : States :=
  ⟨states.list.modify id f, by
    have same : (states.list.modify id f).map (·.identity) = states.list.map (·.identity) := by
      apply List.ext_getElem
      · simp
      · intro i _ _
        simp only [List.getElem_map, List.getElem_modify]
        split <;> simp [keeps]
    rw [same]
    exact states.distinct⟩

def setInitial (states : States) (id : Nat) (initial : Bool) : States :=
  states.modify id ({ · with initial }) fun _ => rfl

def setFinal (states : States) (id : Nat) (final : Bool) : States :=
  states.modify id ({ · with final }) fun _ => rfl

/-- the numbers of the final states -/
def finals (states : States) : FiniteSet Nat :=
  .ofList ((states.list.zipIdx.filter (·.1.final)).map Prod.snd)

end States

end ContextFree
