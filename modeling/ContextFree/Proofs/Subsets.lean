import Mathlib.Data.List.Sublists
import ContextFree.Automaton.Path
import ContextFree.Proofs.Search

/-!
The subset construction is right. The search for a closure finds what empty moves lead to, so a run of the automaton
with empty moves holds the ends of the paths that spell its word; and the state that the deterministic automaton is in
after a word stands for exactly this set, as long as the set is not empty.

- `mem_closure`, `mem_run`: closures and runs by moves and paths;
- `run_toDfa`, `run_toDfa_eq_none_iff`: the runs of the deterministic automaton;
- `exists_word_of_state`: every state of it is the end of a run;
- `toDfa_spec`: both automata accept the words that a path to a final state spells, and the states are told apart by
  what they stand for.
-/

namespace ContextFree

open Relation
open Std (ExtTreeMap ExtTreeSet)

theorem FiniteSet.not_isEmpty_iff {α : Type} [Ord α] [Std.TransOrd α] [Std.LawfulEqOrd α] {s : FiniteSet α} :
    ¬ s.isEmpty ↔ ∃ a, a ∈ s := by
  rw [ExtTreeSet.isEmpty_iff]
  constructor
  · intro some
    by_contra none
    exact some (ext fun a => iff_of_false (fun mem => none ⟨a, mem⟩) ExtTreeSet.not_mem_empty)
  · rintro ⟨a, mem⟩ rfl
    exact ExtTreeSet.not_mem_empty mem

/-! ## Moves -/

namespace Moves

variable {m : Moves} {source target : Nat} {label : Option Symbol} {move : Move}

theorem mem_written : target ∈ m.written source label ↔ ⟨label, target⟩ ∈ m.out source := by
  simp only [written, List.mem_map, List.mem_filter, ExtTreeSet.mem_toList, decide_eq_true_eq]
  constructor
  · rintro ⟨move, ⟨mem, rfl⟩, rfl⟩
    exact mem
  · exact fun mem => ⟨_, ⟨mem, rfl⟩, rfl⟩

theorem mem_targets : target ∈ m.targets source label ↔ label = none ∧ target = source ∨
    target ∈ m.written source label := by
  cases label <;> simp [targets]

theorem mem_toList : (source, move) ∈ m.toList ↔ move ∈ m.out source := by
  simp only [toList, out, List.mem_flatMap, List.mem_map, Prod.exists, ExtTreeMap.mem_toList_iff_getElem?_eq_some,
    ExtTreeSet.mem_toList, Prod.mk.injEq, ExtTreeMap.getD_eq_getD_getElem?]
  constructor
  · rintro ⟨_, moves, known, _, mem, rfl, rfl⟩
    rwa [known]
  · intro mem
    cases known : m.outgoing[source]? with
    | none => simp [known] at mem
    | some moves => exact ⟨source, moves, known, move, by simpa [known] using mem, rfl, rfl⟩

theorem size_eq : m.size = m.toList.length := by
  have rows : ∀ (rows : List (Nat × FiniteSet Move)) (start : Nat),
      rows.foldl (fun n row => n + row.2.size) start =
        start + (rows.flatMap fun row => row.2.toList.map (row.1, ·)).length := by
    intro rows
    induction rows with
    | nil => simp
    | cons row rows ih =>
      intro start
      rw [List.foldl_cons, ih, List.flatMap_cons, List.length_append, List.length_map, ExtTreeSet.length_toList,
        Nat.add_assoc]
  rw [size, ExtTreeMap.foldl_eq_foldl_toList, rows, Nat.zero_add]
  rfl

theorem mem_out_ofRows {rows : List (List Move)} :
    move ∈ (ofRows rows).out source ↔ ∃ row, rows[source]? = some row ∧ move ∈ row := by
  have look : (ofRows rows).outgoing[source]? = (rows[source]?).map FiniteSet.ofList :=
    Search.lookup_zipIdx FiniteSet.ofList rows source
  rw [out, ExtTreeMap.getD_eq_getD_getElem?, look]
  cases rows[source]? with
  | none => simp
  | some row => simp

theorem mem_written_ofRows {final : List Bool} {rows : List (List (Option Symbol × Nat))} :
    target ∈ (Nfa.ofRows final rows).moves.written source label ↔
      ∃ row, rows[source]? = some row ∧ (label, target) ∈ row := by
  rw [mem_written, Nfa.ofRows, mem_out_ofRows]
  simp only [List.getElem?_map, Option.map_eq_some_iff, exists_exists_and_eq_and, List.mem_map, Prod.exists,
    Move.mk.injEq]
  constructor
  · rintro ⟨row, found, l, t, mem, rfl, rfl⟩
    exact ⟨row, found, mem⟩
  · rintro ⟨row, found, mem⟩
    exact ⟨row, found, label, target, mem, rfl, rfl⟩

/-- where moves lead -/
def reached (m : Moves) : List Nat := m.toList.map fun move => move.2.target

theorem length_reached : m.reached.length = m.size := by rw [reached, List.length_map, size_eq]

theorem written_sub : ∀ t ∈ m.written source label, t ∈ m.reached := by
  intro t ht
  exact List.mem_map.2 ⟨_, mem_toList.2 (mem_written.1 ht), rfl⟩

end Moves

namespace DetMoves

variable {rows : List (List (Symbol × Nat))} {source target : Nat} {s : Symbol}

theorem out_ofRows : (ofRows rows).out source = ExtTreeMap.ofList ((rows[source]?).getD []) compare := by
  have look : (ofRows rows).outgoing[source]? = (rows[source]?).map fun row => ExtTreeMap.ofList row compare :=
    Search.lookup_zipIdx (fun row => ExtTreeMap.ofList row compare) rows source
  rw [out, ExtTreeMap.getD_eq_getD_getElem?, look]
  cases rows[source]? with
  | none => rfl
  | some row => rfl

theorem next_ofRows (distinct : ∀ row ∈ rows, (row.map Prod.fst).Nodup) :
    (ofRows rows).next source s = some target ↔ ∃ row, rows[source]? = some row ∧ (s, target) ∈ row := by
  rw [next, out_ofRows]
  cases row : rows[source]? with
  | none => simp
  | some row' =>
    rw [Option.getD_some, Search.lookup_iff (distinct row' (List.mem_of_getElem? row))]
    simp

end DetMoves

/-! ## Runs over a word in two parts -/

namespace Dfa

theorem runFrom_append {d : Dfa} {id : Nat} {u v : List Symbol} :
    d.runFrom id (u ++ v) = (d.runFrom id u).bind (d.runFrom · v) := by
  induction u generalizing id with
  | nil => rfl
  | cons s u ih =>
    rw [List.cons_append, Dfa.runFrom, Dfa.runFrom, Option.bind_assoc]
    exact Option.bind_congr fun _ _ => ih

theorem run_concat {d : Dfa} {w : List Symbol} {s : Symbol} : d.run (w ++ [s]) = (d.run w).bind (d.next · s) := by
  rw [run, runFrom_append]
  apply Option.bind_congr
  intro id _
  cases next : d.next id s <;> simp [Dfa.runFrom, next]

end Dfa

/-! ## Closures and runs -/

namespace Nfa

variable {n : Nfa} {set : FiniteSet Nat} {u v t : Nat} {s : Symbol} {word : List Symbol}

/-- one empty move -/
def Glides (n : Nfa) (u v : Nat) : Prop := v ∈ n.moves.written u none

theorem mem_closure : t ∈ n.closure set ↔ ∃ u ∈ set, ReflTransGen n.Glides u t := by
  rw [closure, FiniteSet.mem_ofList, Search.mem_reach (set.toList ++ n.moves.reached)]
  · simp only [ExtTreeSet.mem_toList]
    rfl
  · exact fun u _ v hv => List.mem_append_right _ (Moves.written_sub v hv)
  · exact fun u hu => List.mem_append_left _ hu
  · rw [List.length_append, Moves.length_reached, ExtTreeSet.length_toList]
    omega

theorem mem_step : t ∈ n.step set s ↔
    ∃ u ∈ set, ∃ v ∈ n.moves.written u (some s), ReflTransGen n.Glides v t := by
  rw [step, mem_closure]
  simp only [FiniteSet.mem_ofList, List.mem_flatMap, ExtTreeSet.mem_toList]
  constructor
  · rintro ⟨v, ⟨u, hu, hv⟩, reach⟩
    exact ⟨u, hu, v, hv, reach⟩
  · rintro ⟨u, hu, v, hv, reach⟩
    exact ⟨v, ⟨u, hu, hv⟩, reach⟩

/-- Empty moves do not lead out of the set. -/
def Settled (n : Nfa) (set : FiniteSet Nat) : Prop := ∀ u ∈ set, ∀ v, n.Glides u v → v ∈ set

theorem settled_closure : n.Settled (n.closure set) := by
  intro u hu v step
  obtain ⟨start, mem, reach⟩ := mem_closure.1 hu
  exact mem_closure.2 ⟨start, mem, .tail reach step⟩

theorem Path.of_glides (h : ReflTransGen n.Glides u v) (path : n.Path v word t) : n.Path u word t := by
  induction h using ReflTransGen.head_induction_on with
  | refl => exact path
  | head first _ ih => exact .empty (Moves.mem_targets.2 (.inr first)) ih

/-- A run from a settled set holds the ends of the paths from its members. -/
theorem mem_foldl_step (settled : n.Settled set) : t ∈ word.foldl n.step set ↔ ∃ u ∈ set, n.Path u word t := by
  constructor
  · intro h
    induction word generalizing set with
    | nil => exact ⟨t, h, .nil t⟩
    | cons s word ih =>
      obtain ⟨v, hv, path⟩ := ih settled_closure h
      obtain ⟨u, hu, first, hfirst, reach⟩ := mem_step.1 hv
      exact ⟨u, hu, .read (Moves.mem_targets.2 (.inr hfirst)) (path.of_glides reach)⟩
  · rintro ⟨u, hu, path⟩
    induction path generalizing set with
    | nil => exact hu
    | empty mem _ ih =>
      rcases Moves.mem_targets.1 mem with ⟨-, rfl⟩ | step
      · exact ih settled hu
      · exact ih settled (settled _ hu _ step)
    | read mem _ ih =>
      have step := (Moves.mem_targets.1 mem).resolve_left fun h => nomatch h.1
      exact ih settled_closure (mem_step.2 ⟨_, hu, _, step, .refl⟩)

/-- **A run** holds the ends of the paths that spell its word. -/
theorem mem_run : t ∈ n.run word ↔ n.Path 0 word t := by
  rw [run, initial, mem_foldl_step settled_closure]
  constructor
  · rintro ⟨u, hu, path⟩
    obtain ⟨start, mem, reach⟩ := mem_closure.1 hu
    obtain rfl : start = 0 := by simpa using mem
    exact path.of_glides reach
  · exact fun path => ⟨0, mem_closure.2 ⟨0, by simp, .refl⟩, path⟩

/-! ## The subset construction -/

/-- a world for the search: the sets of numbers that moves lead to, with or without the initial state -/
def world (n : Nfa) : List (FiniteSet Nat) := (0 :: n.moves.reached).sublists.map FiniteSet.ofList

theorem mem_world (sub : ∀ t ∈ set, t = 0 ∨ t ∈ n.moves.reached) : set ∈ n.world := by
  refine List.mem_map.2 ⟨(0 :: n.moves.reached).filter (· ∈ set), List.mem_sublists.2 List.filter_sublist, ?_⟩
  apply FiniteSet.ext
  intro t
  simp only [FiniteSet.mem_ofList, List.mem_filter, List.mem_cons, decide_eq_true_eq, and_iff_right_iff_imp]
  exact sub t

theorem reached_of_glides (h : ReflTransGen n.Glides u t) : t = u ∨ t ∈ n.moves.reached := by
  rcases ReflTransGen.cases_tail h with rfl | ⟨v, -, last⟩
  · exact .inl rfl
  · exact .inr (Moves.written_sub t last)

theorem mem_successors {symbols : List Symbol} {target : FiniteSet Nat} :
    (s, target) ∈ n.successors symbols set ↔ s ∈ symbols ∧ target = n.step set s ∧ ¬ target.isEmpty := by
  simp only [successors, List.mem_filterMap]
  constructor
  · rintro ⟨r, hr, eq⟩
    split at eq
    · cases eq
    · rename_i some
      cases eq
      exact ⟨hr, rfl, some⟩
  · rintro ⟨hs, rfl, some⟩
    exact ⟨s, hs, by rw [if_neg some]⟩

theorem map_fst_successors {symbols : List Symbol} :
    (n.successors symbols set).map Prod.fst = symbols.filter fun s => !(n.step set s).isEmpty := by
  rw [successors, List.map_filterMap, ← List.filterMap_eq_filter]
  apply List.filterMap_congr
  intro s _
  by_cases empty : (n.step set s).isEmpty <;> simp [empty, Option.guard]

theorem mem_alphabet_of_step (some : ¬ (n.step set s).isEmpty) : s ∈ n.alphabet.toList := by
  obtain ⟨t, ht⟩ := FiniteSet.not_isEmpty_iff.1 some
  obtain ⟨u, -, v, hv, -⟩ := mem_step.1 ht
  rw [ExtTreeSet.mem_toList, alphabet, FiniteSet.mem_ofList]
  exact List.mem_filterMap.2 ⟨_, Moves.mem_toList.2 (Moves.mem_written.1 hv), rfl⟩

theorem mem_subsets {row : List (Symbol × FiniteSet Nat)} : (set, row) ∈ n.subsets ↔
    row = n.successors n.alphabet.toList set ∧
      ReflTransGen (Search.Follows (n.successors n.alphabet.toList)) n.initial set := by
  rw [subsets, Search.mem_discover n.world]
  · simp
  · rintro a - b ⟨s, mem⟩
    obtain ⟨-, rfl, -⟩ := mem_successors.1 mem
    apply mem_world
    intro t ht
    obtain ⟨u, -, v, hv, reach⟩ := mem_step.1 ht
    rcases reached_of_glides reach with rfl | reached
    · exact .inr (Moves.written_sub t hv)
    · exact .inr reached
  · intro a ha
    obtain rfl := List.mem_singleton.1 ha
    apply mem_world
    intro t ht
    obtain ⟨u, hu, reach⟩ := mem_closure.1 ht
    obtain rfl : u = 0 := by simpa using hu
    exact reached_of_glides reach
  · rw [world, List.length_map, List.length_sublists, List.length_cons, Moves.length_reached]
    exact Nat.le_succ _

/-- the sets in the order of their numbers -/
def sets (n : Nfa) : List (FiniteSet Nat) := n.subsets.map Prod.fst

theorem nodup_sets : n.sets.Nodup := Search.nodup_discover

theorem mem_sets : set ∈ n.sets ↔
    ReflTransGen (Search.Follows (n.successors n.alphabet.toList)) n.initial set := by
  constructor
  · intro mem
    obtain ⟨⟨_, row⟩, found, rfl⟩ := List.mem_map.1 mem
    exact (mem_subsets.1 found).2
  · exact fun reach => List.mem_map.2 ⟨(set, _), mem_subsets.2 ⟨rfl, reach⟩, rfl⟩

theorem sets_inj {id id' : Nat} (known : n.sets[id]? = some set) (known' : n.sets[id']? = some set) : id = id' := by
  obtain ⟨less, -⟩ := List.getElem?_eq_some_iff.1 known
  exact (List.getElem?_inj less nodup_sets).1 (known.trans known'.symm)

/-- A state moves on a symbol to the state of the set that the symbol leads to, if that is not empty. -/
theorem next_toDfa {id target : Nat} (known : n.sets[id]? = some set) : n.toDfa.next id s = some target ↔
    n.sets[target]? = some (n.step set s) ∧ ¬ (n.step set s).isEmpty := by
  have closed : ∀ row ∈ n.subsets, ∀ step ∈ row.2, step.2 ∈ n.subsets.map Prod.fst := by
    rintro ⟨a, row⟩ mem ⟨r, b⟩ step
    obtain ⟨rfl, reach⟩ := mem_subsets.1 mem
    exact List.mem_map.2 ⟨(b, _), mem_subsets.2 ⟨rfl, .tail reach ⟨r, step⟩⟩, rfl⟩
  have distinct : ∀ row ∈ Search.numbered n.subsets, (row.map Prod.fst).Nodup := by
    intro row mem
    obtain ⟨⟨a, steps⟩, old, rfl⟩ := List.mem_map.1 mem
    obtain ⟨rfl, -⟩ := mem_subsets.1 old
    rw [List.map_map]
    exact map_fst_successors ▸ FiniteSet.nodup_toList.filter _
  rw [Dfa.next, toDfa, DetMoves.next_ofRows distinct, Search.mem_numbered nodup_sets closed]
  obtain ⟨⟨_, row⟩, found, rfl⟩ : ∃ row, n.subsets[id]? = some row ∧ row.1 = set := by
    simpa [sets, List.getElem?_map] using known
  obtain ⟨rfl, -⟩ := mem_subsets.1 (List.mem_of_getElem? found)
  constructor
  · rintro ⟨row', found', b, mem, target⟩
    cases found.symm.trans found'
    obtain ⟨-, rfl, some⟩ := mem_successors.1 mem
    exact ⟨target, some⟩
  · rintro ⟨target, some⟩
    exact ⟨_, found, _, mem_successors.2 ⟨mem_alphabet_of_step some, rfl, some⟩, target⟩

theorem runFrom_toDfa {id last : Nat} (known : n.sets[id]? = some set) (ended : n.toDfa.runFrom id word = some last) :
    n.sets[last]? = some (word.foldl n.step set) := by
  induction word generalizing id set with
  | nil =>
    cases ended
    exact known
  | cons s word ih =>
    obtain ⟨target, next, ended⟩ := Option.bind_eq_some_iff.1 ended
    exact ih ((next_toDfa known).1 next).1 ended

theorem exists_next_toDfa {id : Nat} (known : n.sets[id]? = some set) (some : ¬ (n.step set s).isEmpty) :
    ∃ target, n.toDfa.next id s = .some target ∧ n.sets[target]? = .some (n.step set s) := by
  have reach := mem_sets.1 (List.mem_of_getElem? known)
  have listed : n.step set s ∈ n.sets :=
    mem_sets.2 (.tail reach ⟨s, mem_successors.2 ⟨mem_alphabet_of_step some, rfl, some⟩⟩)
  obtain ⟨target, next⟩ := List.getElem?_of_mem listed
  exact ⟨target, (next_toDfa known).2 ⟨next, some⟩, next⟩

/-- A run does not get stuck while the set is not empty. -/
theorem exists_runFrom_toDfa {id : Nat} (known : n.sets[id]? = some set) (mem : t ∈ word.foldl n.step set) :
    ∃ last, n.toDfa.runFrom id word = some last := by
  induction word generalizing id set with
  | nil => exact ⟨id, rfl⟩
  | cons s word ih =>
    have some : ¬ (n.step set s).isEmpty := by
      obtain ⟨u, hu, -⟩ := (mem_foldl_step settled_closure).1 (show t ∈ word.foldl n.step (n.step set s) from mem)
      exact FiniteSet.not_isEmpty_iff.2 ⟨u, hu⟩
    obtain ⟨target, move, next⟩ := exists_next_toDfa known some
    obtain ⟨last, ended⟩ := ih next mem
    exact ⟨last, Option.bind_eq_some_iff.2 ⟨target, move, ended⟩⟩

theorem sets_zero : n.sets[Dfa.initial]? = some n.initial := by
  rw [sets, List.getElem?_map, subsets, Dfa.initial, Search.getElem?_discover_zero]
  rfl

theorem get?_toDfa {id : Nat} : n.toDfa.states.get? id = (n.sets[id]?).map fun set => n.subsetState set id := by
  simp only [States.get?, toDfa, sets, List.getElem?_map, List.getElem?_zipIdx, Option.map_map, Nat.zero_add]
  rfl

/-- **The state after a word stands for the ends of the paths** that spell the word. -/
theorem run_toDfa {id : Nat} (ended : n.toDfa.run word = some id) :
    ∃ state, n.toDfa.states.get? id = some state ∧ ∀ t, t ∈ state.identity ↔ n.Path 0 word t := by
  have known := runFrom_toDfa sets_zero ended
  refine ⟨n.subsetState (n.run word) id, ?_, fun t => mem_run⟩
  rw [get?_toDfa, known]
  rfl

theorem exists_run_toDfa (path : n.Path 0 word t) : ∃ id, n.toDfa.run word = some id :=
  exists_runFrom_toDfa sets_zero (mem_run.2 path)

theorem exists_mem_of_mem_sets (mem : set ∈ n.sets) : ∃ t, t ∈ set := by
  rcases ReflTransGen.cases_tail (mem_sets.1 mem) with rfl | ⟨before, -, s, last⟩
  · exact ⟨0, mem_closure.2 ⟨0, by simp, .refl⟩⟩
  · exact FiniteSet.not_isEmpty_iff.1 (mem_successors.1 last).2.2

theorem run_toDfa_eq_none_iff : n.toDfa.run word = none ↔ ∀ t, ¬ n.Path 0 word t := by
  constructor
  · intro stuck t path
    obtain ⟨id, ended⟩ := exists_run_toDfa path
    cases stuck.symm.trans ended
  · intro none
    rw [Option.eq_none_iff_forall_ne_some]
    intro id ended
    obtain ⟨t, mem⟩ := exists_mem_of_mem_sets (List.mem_of_getElem? (runFrom_toDfa sets_zero ended))
    exact none t (mem_run.1 mem)

theorem next_toDfa_of_get?_eq_none {id : Nat} (beyond : n.toDfa.states.get? id = none) : n.toDfa.next id s = none := by
  rw [get?_toDfa, Option.map_eq_none_iff] at beyond
  have row : (Search.numbered n.subsets)[id]? = none := by
    rw [Search.numbered, List.getElem?_map, Option.map_eq_none_iff]
    simpa [sets] using beyond
  rw [Dfa.next, toDfa, DetMoves.next, DetMoves.out_ofRows, row]
  simp

/-- **Every state is the end of some run.** -/
theorem exists_word_of_state {id : Nat} {state : State} (found : n.toDfa.states.get? id = some state) :
    ∃ word, n.toDfa.run word = some id := by
  rw [get?_toDfa] at found
  obtain ⟨set, known, -⟩ := Option.map_eq_some_iff.1 found
  have reach := mem_sets.1 (List.mem_of_getElem? known)
  clear found
  -- the number of a set is determined, so it is enough to come to the set under some number
  suffices ends : ∃ word last, n.toDfa.run word = some last ∧ n.sets[last]? = some set by
    obtain ⟨word, last, ended, same⟩ := ends
    obtain rfl := sets_inj known same
    exact ⟨word, ended⟩
  clear known
  induction reach with
  | refl => exact ⟨[], Dfa.initial, rfl, sets_zero⟩
  | @tail before after _ move ih =>
    obtain ⟨word, last, ended, known⟩ := ih
    obtain ⟨s, move⟩ := move
    obtain ⟨-, rfl, some⟩ := mem_successors.1 move
    obtain ⟨target, next, known⟩ := exists_next_toDfa known some
    exact ⟨word ++ [s], target, by rw [Dfa.run_concat, ended, Option.bind_some, next], known⟩

/-! ## The same language -/

theorem accepts_iff : n.accepts word ↔ n.Spells word := by
  rw [accepts, FiniteSet.any_iff]
  simp only [mem_run, Spells]

theorem isFinal_toDfa {id : Nat} (known : n.sets[id]? = some set) : n.toDfa.isFinal id = set.any n.isFinal := by
  rw [Dfa.isFinal, get?_toDfa, known]
  rfl

theorem accepts_toDfa_iff : n.toDfa.accepts word ↔ n.Spells word := by
  rw [Dfa.accepts, Option.any_eq_true]
  constructor
  · rintro ⟨id, ended, final⟩
    rw [isFinal_toDfa (runFrom_toDfa sets_zero ended)] at final
    exact accepts_iff.1 final
  · rintro ⟨t, path, final⟩
    obtain ⟨id, ended⟩ := exists_run_toDfa path
    refine ⟨id, ended, ?_⟩
    rw [isFinal_toDfa (runFrom_toDfa sets_zero ended)]
    exact accepts_iff.2 ⟨t, path, final⟩

/-- **The subset construction preserves the language**, for every automaton whatsoever: both automata accept the words
that a path from state 0 to a final state spells. The state after a word stands for the states that paths with this word
lead to, there is none when no path spells the word, no two states stand for the same set, and every state comes after
some word. -/
theorem toDfa_spec (n : Nfa) :
    (∀ word, (n.accepts word ↔ n.Spells word) ∧ (n.toDfa.accepts word ↔ n.Spells word)) ∧
    (∀ word id, n.toDfa.run word = some id →
      ∃ state, n.toDfa.states.get? id = some state ∧ ∀ t, t ∈ state.identity ↔ n.Path 0 word t) ∧
    (∀ word, n.toDfa.run word = none ↔ ∀ t, ¬ n.Path 0 word t) ∧
    (∀ id id' state state', n.toDfa.states.get? id = some state → n.toDfa.states.get? id' = some state' →
      state.identity = state'.identity → id = id') ∧
    ∀ id state, n.toDfa.states.get? id = some state → ∃ word, n.toDfa.run word = some id := by
  refine ⟨fun word => ⟨accepts_iff, accepts_toDfa_iff⟩, fun word id => run_toDfa, fun word => run_toDfa_eq_none_iff,
    ?_, fun id state => exists_word_of_state⟩
  intro id id' state state' found found' same
  rw [get?_toDfa] at found found'
  obtain ⟨set, known, rfl⟩ := Option.map_eq_some_iff.1 found
  obtain ⟨set', known', rfl⟩ := Option.map_eq_some_iff.1 found'
  obtain rfl : set = set' := same
  exact sets_inj known known'

end Nfa

end ContextFree
