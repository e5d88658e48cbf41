import ContextFree.Lr.Validity
import ContextFree.Proofs.Analysis
import ContextFree.Proofs.Subsets

/-!
What the states of the table hold. `Reads` says inductively which items a parse may be at after a list of symbols: the
start item at the beginning, an item with its dot moved over the symbol read last, or one predicted by another item. No
search, numbering or automaton occurs in it.

- `mem_items`: the search for the items is exhaustive;
- `reads_of_path`, `path_of_reads`: the paths of the item automaton lead to the items that `Reads` describes;
- `mem_itemsOf`, `exists_run`: so the state after a list of symbols holds exactly these items.
-/

namespace ContextFree.Lr

open Relation

/-! ## Augmented grammars -/

/-- what augmenting a grammar makes -/
structure Augments (g : Grammar) (a : Augmented) (start : Symbol) : Prop where
  fresh : start ∈ g.supply.free
  productions : a.productions = ⟨start, [g.start]⟩ :: g.rules
  first : a.first = Grammar.firstSets { g with start, productions := g.productions.insert ⟨start, [g.start]⟩ }
  unmarked : endMark ∉ g.terminals

variable {g : Grammar} {a : Augmented} {start s x : Symbol} {i j : Item} {p : Production} {γ δ w : List Symbol}

theorem augments_of_ok (made : Augmented.ofGrammar g = .ok a) : ∃ start, Augments g a start := by
  simp only [Augmented.ofGrammar] at made
  split at made
  · cases made
  · rename_i unmarked
    obtain ⟨⟨start, rest⟩, drawn, made⟩ := exists_of_bind made
    cases made
    exact ⟨start, Supply.free_of_draw drawn ▸ List.mem_cons_self, rfl, rfl, unmarked⟩

namespace Augments

/-- the augmented grammar itself -/
abbrev grammar (g : Grammar) (start : Symbol) : Grammar :=
  { g with start, productions := g.productions.insert ⟨start, [g.start]⟩ }

variable (aug : Augments g a start)

include aug

theorem mem_productions : p ∈ a.productions ↔ p ∈ (grammar g start).productions := by
  rw [aug.productions, List.mem_cons, Grammar.mem_rules, Std.ExtTreeSet.mem_insert, Std.compare_eq_iff_eq,
    eq_comm]

theorem lefts (wf : g.WellFormed) : NonTerminalLefts a.productions := by
  intro p mem
  rw [aug.productions] at mem
  rcases List.mem_cons.1 mem with rfl | mem
  · exact (Grammar.fresh_of_mem_supply aug.fresh).1
  · exact wf.lefts p mem

theorem lefts_rules (wf : g.WellFormed) : NonTerminalLefts (grammar g start).rules :=
  fun p mem => aug.lefts wf p (aug.mem_productions.2 (Grammar.mem_rules.1 mem))

theorem mem_of_mem_rules (mem : p ∈ g.rules) : p ∈ a.productions := by
  rw [aug.productions]
  exact List.mem_cons_of_mem _ mem

theorem mem_rules_of_ne_zero {n : Nat} (found : a.productions[n]? = some p) (inner : n ≠ 0) : p ∈ g.rules := by
  rw [aug.productions] at found
  obtain ⟨k, rfl⟩ := Nat.exists_eq_succ_of_ne_zero inner
  exact List.mem_of_getElem? (List.getElem?_cons_succ ▸ found)

theorem start_not_right (mem : p ∈ a.productions) : start ∉ p.right := by
  obtain ⟨-, unused, ne, -⟩ := Grammar.fresh_of_mem_supply aug.fresh
  rw [aug.productions] at mem
  rcases List.mem_cons.1 mem with rfl | mem
  · exact fun h => ne (List.mem_singleton.1 h)
  · exact fun h => unused (Grammar.mem_symbols.2 ⟨p, Grammar.mem_rules.1 mem, .inr h⟩)

theorem right_zero : a.right 0 = [g.start] := by
  rw [Augmented.right, aug.productions]
  rfl

theorem endMark_not_right (wf : g.WellFormed) (mem : p ∈ a.productions) : endMark ∉ p.right := by
  have terminal : Symbol.isTerminal endMark := by decide +kernel
  rw [aug.productions] at mem
  rcases List.mem_cons.1 mem with rfl | mem
  · exact fun h => Symbol.ne_of_isTerminal terminal wf.start_nonTerminal (List.mem_singleton.1 h)
  · intro h
    have used : endMark ∈ g.symbols := Grammar.mem_symbols.2 ⟨p, Grammar.mem_rules.1 mem, .inr h⟩
    exact aug.unmarked (Grammar.mem_terminals.2 ⟨used, terminal⟩)

end Augments

/-! ## Items -/

namespace Augmented

theorem right_eq {n : Nat} (found : a.productions[n]? = some p) : a.right n = p.right := by
  rw [right, found]
  rfl

theorem behind_eq (found : a.productions[i.production]? = some p) : a.behind i = p.right[i.dot]? := by
  rw [behind, right_eq found]

theorem exists_of_behind (h : a.behind i = some s) :
    ∃ p, a.productions[i.production]? = some p ∧ p.right[i.dot]? = some s := by
  rw [behind, right] at h
  cases found : a.productions[i.production]? with
  | none => simp [found] at h
  | some p => exact ⟨p, rfl, by simpa [found] using h⟩

theorem mem_predicted : j ∈ a.predicted i s ↔ ∃ p, a.productions[j.production]? = some p ∧ p.left = s ∧
    j.dot = 0 ∧ j.lookahead ∈ a.follow i := by
  simp only [predicted, List.mem_flatMap, Prod.exists, List.mem_zipIdx_iff_getElem?]
  constructor
  · rintro ⟨p, n, found, mem⟩
    split at mem
    · rename_i left
      obtain ⟨x, hx, rfl⟩ := List.mem_map.1 mem
      exact ⟨p, found, left, rfl, Std.ExtTreeSet.mem_toList.1 hx⟩
    · exact absurd mem List.not_mem_nil
  · rintro ⟨p, found, left, dot, follows⟩
    refine ⟨p, j.production, found, ?_⟩
    rw [if_pos left, List.mem_map]
    exact ⟨j.lookahead, Std.ExtTreeSet.mem_toList.2 follows, by rw [← dot]⟩

theorem mem_successors {label : Option Symbol} : (label, j) ∈ a.successors i ↔ ∃ s, a.behind i = some s ∧
    (label = some s ∧ j = i.advance ∨ label = none ∧ Symbol.isNonTerminal s ∧ j ∈ a.predicted i s) := by
  unfold successors
  cases a.behind i with
  | none => simp
  | some s =>
    simp only [List.mem_cons, Prod.mk.injEq, Option.some.injEq, exists_eq_left']
    refine or_congr_right ?_
    by_cases hs : Symbol.isNonTerminal s
    · simp only [hs, if_true, List.mem_map, Prod.mk.injEq, true_and]
      constructor
      · rintro ⟨k, mem, rfl, rfl⟩
        exact ⟨rfl, mem⟩
      · rintro ⟨rfl, mem⟩
        exact ⟨j, mem, rfl, rfl⟩
    · simp [hs]

/-- The symbol may come next when the dot is where it is. -/
def Expects (a : Augmented) (i : Item) (x : Symbol) : Prop :=
  x ∈ (a.first.ofForm ((a.right i.production).drop i.dot)).1 ∨
    (a.first.ofForm ((a.right i.production).drop i.dot)).2 ∧ x = i.lookahead

theorem mem_follow_iff : x ∈ a.follow i ↔ a.Expects i.advance x := by
  unfold follow Expects
  simp only [Item.advance]
  split
  · rename_i nullable
    rw [Std.ExtTreeSet.mem_insert, Std.compare_eq_iff_eq, or_comm, eq_comm, and_iff_right nullable]
  · rename_i nullable
    rw [or_iff_left fun h => nullable h.1]

theorem expects_of_drop_eq_nil (ends : (a.right i.production).drop i.dot = []) : a.Expects i i.lookahead := by
  refine .inr ⟨?_, rfl⟩
  rw [ends]
  rfl

/-- The items that a parse may be at after the symbols. -/
inductive Reads (a : Augmented) : List Symbol → Item → Prop
  | start : Reads a [] Item.start
  | advance {γ : List Symbol} {i : Item} {s : Symbol} : Reads a γ i → a.behind i = some s →
    Reads a (γ ++ [s]) i.advance
  | predict {γ : List Symbol} {i j : Item} {s : Symbol} : Reads a γ i → a.behind i = some s →
    Symbol.isNonTerminal s → j ∈ a.predicted i s → Reads a γ j

theorem Reads.reachable (h : a.Reads γ i) : ReflTransGen (Search.Follows a.successors) Item.start i := by
  induction h with
  | start => exact .refl
  | advance _ behind ih => exact .tail ih ⟨_, mem_successors.2 ⟨_, behind, .inl ⟨rfl, rfl⟩⟩⟩
  | predict _ behind hs mem ih => exact .tail ih ⟨_, mem_successors.2 ⟨_, behind, .inr ⟨rfl, hs, mem⟩⟩⟩

/-- a world for the search: every dot of every production with every terminal -/
def world (a : Augmented) : List Item :=
  a.productions.zipIdx.flatMap fun (p, n) =>
    (List.range (p.right.length + 1)).flatMap fun dot => a.terminals.map (⟨n, dot, ·⟩)

theorem mem_world : i ∈ a.world ↔ i.lookahead ∈ a.terminals ∧
    ∃ p, a.productions[i.production]? = some p ∧ i.dot ≤ p.right.length := by
  simp only [world, List.mem_flatMap, Prod.exists, List.mem_zipIdx_iff_getElem?, List.mem_range, List.mem_map]
  constructor
  · rintro ⟨p, n, found, dot, less, x, hx, rfl⟩
    exact ⟨hx, p, found, Nat.lt_succ_iff.1 less⟩
  · rintro ⟨hx, p, found, le⟩
    exact ⟨p, _, found, _, Nat.lt_succ_iff.2 le, _, hx, rfl⟩

theorem length_world : a.world.length = a.itemBound := by
  have rows : ∀ (rows : List Production) (k : Nat), ((rows.zipIdx k).flatMap fun (p, n) =>
      (List.range (p.right.length + 1)).flatMap fun dot => a.terminals.map (Item.mk n dot)).length =
        (rows.foldr (fun p n => p.right.length + 1 + n) 0) * a.terminals.length := by
    intro rows
    induction rows with
    | nil => simp
    | cons p rows ih =>
      intro k
      rw [List.zipIdx_cons, List.flatMap_cons, List.length_append, ih, List.foldr_cons, Nat.add_mul]
      simp [List.length_flatMap]
  exact rows a.productions 0

theorem mem_terminals : x ∈ a.terminals ↔
    x = endMark ∨ Symbol.isTerminal x ∧ ∃ p ∈ a.productions, x ∈ p.right := by
  simp only [terminals, List.mem_append, Std.ExtTreeSet.mem_toList, Std.ExtTreeSet.mem_erase, FiniteSet.mem_ofList,
    List.mem_filter, List.mem_flatMap, List.mem_singleton, ne_eq, Std.compare_eq_iff_eq]
  by_cases mark : x = endMark
  · simp [mark]
  · simp [mark, Ne.symm mark, and_comm]

theorem isTerminal_of_mem_terminals (h : x ∈ a.terminals) : Symbol.isTerminal x := by
  rcases mem_terminals.1 h with rfl | ⟨terminal, -⟩
  · decide +kernel
  · exact terminal

end Augmented

namespace Augments

open Augmented

variable (aug : Augments g a start)

include aug

/-- What can follow is a terminal of the table. -/
theorem mem_terminals_of_follow (wf : g.WellFormed) (known : i.lookahead ∈ a.terminals) (h : x ∈ a.follow i) :
    x ∈ a.terminals := by
  rcases mem_follow_iff.1 h with first | ⟨-, rfl⟩
  · rw [aug.first] at first
    obtain ⟨before, s, after, eq, -, hx⟩ := Grammar.mem_ofForm.1 first
    obtain ⟨terminal, chain⟩ := (Grammar.mem_of (aug.lefts_rules wf)).1 hx
    refine mem_terminals.2 (.inr ⟨terminal, ?_⟩)
    rcases ReflTransGen.cases_tail chain with rfl | ⟨t, -, before', after', mem, -⟩
    · -- the terminal itself stands behind the dot
      have used : x ∈ (a.right i.production).drop (i.dot + 1) := eq ▸ List.mem_append_cons_self
      have used := List.mem_of_mem_drop used
      rw [right] at used
      cases found : a.productions[i.production]? with
      | none => simp [found] at used
      | some p => exact ⟨p, List.mem_of_getElem? found, by simpa [found] using used⟩
    · exact ⟨_, aug.mem_productions.2 mem, List.mem_append_cons_self⟩
  · exact known

theorem start_mem_world : Item.start ∈ a.world := by
  refine mem_world.2 ⟨mem_terminals.2 (.inl rfl), ⟨start, [g.start]⟩, ?_, Nat.zero_le _⟩
  rw [aug.productions]
  rfl

theorem world_closed (wf : g.WellFormed) (hi : i ∈ a.world) (step : Search.Follows a.successors i j) :
    j ∈ a.world := by
  obtain ⟨known, p, found, -⟩ := mem_world.1 hi
  obtain ⟨label, mem⟩ := step
  obtain ⟨s, behind, ⟨-, rfl⟩ | ⟨-, -, predicted⟩⟩ := mem_successors.1 mem
  · refine mem_world.2 ⟨known, p, found, ?_⟩
    rw [behind_eq found] at behind
    exact (List.getElem?_eq_some_iff.1 behind).1
  · obtain ⟨q, found, -, dot, follows⟩ := mem_predicted.1 predicted
    exact mem_world.2 ⟨aug.mem_terminals_of_follow wf known follows, q, found, dot ▸ Nat.zero_le _⟩

/-- **The search for the items is exhaustive.** -/
theorem mem_items (wf : g.WellFormed) {row : List (Option Symbol × Item)} :
    (i, row) ∈ a.items ↔ row = a.successors i ∧ ReflTransGen (Search.Follows a.successors) Item.start i := by
  rw [Augmented.items, Search.mem_discover a.world (fun _ hi _ => aug.world_closed wf hi)]
  · simp
  · intro i hi
    rw [List.mem_singleton.1 hi]
    exact aug.start_mem_world
  · exact length_world.le

theorem mem_world_of_reads (wf : g.WellFormed) (h : a.Reads γ i) : i ∈ a.world := by
  have chain := h.reachable
  clear h
  induction chain with
  | refl => exact aug.start_mem_world
  | tail _ step ih => exact aug.world_closed wf ih step

theorem mem_terminals_of_reads (wf : g.WellFormed) (h : a.Reads γ i) : i.lookahead ∈ a.terminals :=
  (mem_world.1 (aug.mem_world_of_reads wf h)).1

/-- the items by number -/
abbrev itemList (a : Augmented) : List Item := a.items.map Prod.fst

/-- The moves of the item automaton are the steps between items, by number. -/
theorem mem_written (wf : g.WellFormed) {u t : Nat} {label : Option Symbol} :
    t ∈ (itemNfa a a.items).moves.written u label ↔
      ∃ i j, (itemList a)[u]? = some i ∧ (itemList a)[t]? = some j ∧
        (label, j) ∈ a.successors i := by
  have row_eq : ∀ {i row}, (i, row) ∈ a.items → row = a.successors i := fun mem => ((aug.mem_items wf).1 mem).1
  have closed : ∀ row ∈ a.items, ∀ step ∈ row.2, step.2 ∈ a.items.map Prod.fst := by
    rintro ⟨i, row⟩ mem ⟨label, j⟩ step
    obtain ⟨rfl, reach⟩ := (aug.mem_items wf).1 mem
    exact List.mem_map.2 ⟨(j, _), (aug.mem_items wf).2 ⟨rfl, .tail reach ⟨label, step⟩⟩, rfl⟩
  have nodup : (itemList a).Nodup := Search.nodup_discover
  rw [itemNfa, Moves.mem_written_ofRows, Search.mem_numbered nodup closed]
  constructor
  · rintro ⟨⟨i, row⟩, found, j, step, target⟩
    obtain rfl := row_eq (List.mem_of_getElem? found)
    exact ⟨i, j, by rw [List.getElem?_map, found]; rfl, target, step⟩
  · rintro ⟨i, j, source, target, step⟩
    rw [List.getElem?_map, Option.map_eq_some_iff] at source
    obtain ⟨⟨i, row⟩, found, rfl⟩ := source
    obtain rfl := row_eq (List.mem_of_getElem? found)
    exact ⟨_, found, j, step, target⟩

theorem itemZero : (itemList a)[0]? = some Item.start := by
  have pos : 0 < a.itemBound := by
    rw [← length_world]
    exact List.length_pos_of_mem aug.start_mem_world
  obtain ⟨bound, eq⟩ := Nat.exists_eq_add_one.2 pos
  rw [List.getElem?_map, Augmented.items, eq, Search.getElem?_discover_zero]
  rfl

/-- A path of the item automaton from an item that a parse may be at leads to another one. -/
theorem reads_of_path (wf : g.WellFormed) {u t : Nat} (path : (itemNfa a a.items).Path u w t)
    (known : (itemList a)[u]? = some i) (reads : a.Reads γ i) :
    ∃ j, (itemList a)[t]? = some j ∧ a.Reads (γ ++ w) j := by
  induction path generalizing γ i with
  | nil => exact ⟨i, known, by rwa [List.append_nil]⟩
  | empty mem _ ih =>
    rcases Moves.mem_targets.1 mem with ⟨-, rfl⟩ | mem
    · exact ih known reads
    · obtain ⟨i', j, source, target, step⟩ := (aug.mem_written wf).1 mem
      cases known.symm.trans source
      obtain ⟨s, behind, ⟨h, -⟩ | ⟨-, hs, predicted⟩⟩ := mem_successors.1 step
      · cases h
      · exact ih target (.predict reads behind hs predicted)
  | read mem _ ih =>
    obtain ⟨i', j, source, target, step⟩ :=
      (aug.mem_written wf).1 ((Moves.mem_targets.1 mem).resolve_left fun h => nomatch h.1)
    cases known.symm.trans source
    obtain ⟨s, behind, ⟨h, rfl⟩ | ⟨h, -, -⟩⟩ := mem_successors.1 step
    · cases h
      rw [List.append_cons]
      exact ih target (.advance reads behind)
    · cases h

/-- **The paths of the item automaton** lead to every item that a parse may be at. -/
theorem path_of_reads (wf : g.WellFormed) (h : a.Reads γ i) :
    ∃ t, (itemList a)[t]? = some i ∧ (itemNfa a a.items).Path 0 γ t := by
  have number : ∀ {γ j}, a.Reads γ j → ∃ t, (itemList a)[t]? = some j := fun reads =>
    List.getElem?_of_mem (List.mem_map.2 ⟨_, (aug.mem_items wf).2 ⟨rfl, reads.reachable⟩, rfl⟩)
  induction h with
  | start => exact ⟨0, aug.itemZero, .nil 0⟩
  | advance reads behind ih =>
    obtain ⟨u, source, path⟩ := ih
    obtain ⟨t, target⟩ := number (.advance reads behind)
    refine ⟨t, target, path.append (.read (Moves.mem_targets.2 (.inr ?_)) (.nil t))⟩
    exact (aug.mem_written wf).2 ⟨_, _, source, target, mem_successors.2 ⟨_, behind, .inl ⟨rfl, rfl⟩⟩⟩
  | @predict γ _ _ _ reads behind hs mem ih =>
    obtain ⟨u, source, path⟩ := ih
    obtain ⟨t, target⟩ := number (.predict reads behind hs mem)
    have last : (itemNfa a a.items).Path u [] t := by
      refine .empty (Moves.mem_targets.2 (.inr ?_)) (.nil t)
      exact (aug.mem_written wf).2 ⟨_, _, source, target, mem_successors.2 ⟨_, behind, .inr ⟨rfl, hs, mem⟩⟩⟩
    exact ⟨t, target, List.append_nil γ ▸ path.append last⟩

end Augments

theorem Augmented.Reads.terminal_lookahead (aug : Augments g a start) (wf : g.WellFormed) (h : a.Reads γ i) :
    Symbol.isTerminal i.lookahead :=
  Augmented.isTerminal_of_mem_terminals (aug.mem_terminals_of_reads wf h)

/-! ## The items of a state -/

section States

variable {m : Automaton} {q t : Nat}

/-- how the automaton is put together -/
theorem built_of_ok (made : Automaton.ofGrammar g = .ok m) : Augmented.ofGrammar g = .ok m.augmented ∧
    m.items = Augments.itemList m.augmented ∧ m.dfa = (itemNfa m.augmented m.augmented.items).toDfa ∧
    m.table = stateRows m.augmented m.items m.dfa := by
  unfold Automaton.ofGrammar at made
  cases augmented : Augmented.ofGrammar g with
  | error e =>
    rw [augmented] at made
    cases made
  | ok a =>
    rw [augmented] at made
    simp only [bind, Except.bind, pure, Except.pure, Except.ok.injEq] at made
    refine ⟨?_, ?_, ?_, ?_⟩ <;> rw [← made]

theorem exists_augments (made : Automaton.ofGrammar g = .ok m) : ∃ start, Augments g m.augmented start :=
  augments_of_ok (built_of_ok made).1

/-- The items of a state are listed by the numbers that the state stands for. -/
theorem mem_items_of_run (wf : g.WellFormed) (made : Automaton.ofGrammar g = .ok m) (run : m.dfa.run γ = some q) :
    ∃ state, m.dfa.states.get? q = some state ∧
      ∀ i, (∃ n ∈ state.identity, m.items[n]? = some i) ↔ m.augmented.Reads γ i := by
  obtain ⟨start, aug⟩ := exists_augments made
  obtain ⟨-, items, dfa, -⟩ := built_of_ok made
  rw [dfa] at run
  obtain ⟨state, found, mem⟩ := Nfa.run_toDfa run
  refine ⟨state, dfa ▸ found, fun i => ?_⟩
  rw [items]
  constructor
  · rintro ⟨n, hn, known⟩
    obtain ⟨j, found, reads⟩ := aug.reads_of_path wf ((mem n).1 hn) aug.itemZero .start
    cases known.symm.trans found
    exact reads
  · intro reads
    obtain ⟨n, known, path⟩ := aug.path_of_reads wf reads
    exact ⟨n, (mem n).2 path, known⟩

/-- **The state after a list of symbols** holds the items that a parse may be at there. -/
theorem mem_itemsOf (wf : g.WellFormed) (made : Automaton.ofGrammar g = .ok m) (run : m.dfa.run γ = some q) :
    i ∈ m.itemsOf q ↔ m.augmented.Reads γ i := by
  obtain ⟨state, found, mem⟩ := mem_items_of_run wf made run
  rw [← mem, Automaton.itemsOf, found]
  simp [Std.ExtTreeSet.mem_toList]

theorem exists_run (wf : g.WellFormed) (made : Automaton.ofGrammar g = .ok m) (reads : m.augmented.Reads γ i) :
    ∃ q, m.dfa.run γ = some q := by
  obtain ⟨start, aug⟩ := exists_augments made
  obtain ⟨-, -, dfa, -⟩ := built_of_ok made
  obtain ⟨n, -, path⟩ := aug.path_of_reads wf reads
  rw [dfa]
  exact Nfa.exists_run_toDfa path

end States

end ContextFree.Lr
