import ContextFree.Proofs.Leading
import ContextFree.Proofs.LeftRecursion

/-!
After the removal of left recursion the non-terminals are in order: what a right side begins with comes later than its
left side. The letters that were drawn come before everything else, since none of them begins a right side. That rests
on `Solid`: a right side that begins with a non-terminal goes on with a symbol of the given grammar. Given right sides
are solid because there is no unit production, and replacing a first symbol, or adding a tail, keeps them so.

- `sortOut_heads`: a sorted alternative does not begin with the non-terminal itself or an earlier one;
- `Ordered.step`, `Ordered.run`: one step keeps the order, and so does a run;
- `rank_lt_of_leadStep`: a leading symbol has a higher rank than what it is led to from;
- `eliminateLeftRecursion_spec`: the result has the same language, and nothing in it derives a form that begins with
  itself.
-/

namespace ContextFree.Grammar

open Relation
open Std (ExtTreeMap)

variable {limits : Limits} {g h : Grammar} {u u' : Untangling} {p : Production} {left s t : Symbol}
  {todo dealt right rest : List Symbol} {rights : List (List Symbol)}

/-! ## Solid right sides -/

/-- It begins with a symbol of the grammar, and when that is a non-terminal another symbol of the grammar comes next. -/
def Solid (g : Grammar) (right : List Symbol) : Prop :=
  ∀ s rest, right = s :: rest →
    s ∉ g.supply.free ∧ (Symbol.isNonTerminal s → ∃ t more, rest = t :: more ∧ t ∉ g.supply.free)

theorem not_free_of_right (mem : p ∈ g.productions) (hs : s ∈ p.right) : s ∉ g.supply.free :=
  fun free => (fresh_of_mem_supply free).2.1 (mem_symbols.2 ⟨p, mem, .inr hs⟩)

theorem solid_of_mem (unitFree : g.UnitFree) (mem : ⟨left, right⟩ ∈ g.productions) : g.Solid right := by
  rintro s rest rfl
  refine ⟨not_free_of_right mem List.mem_cons_self, fun hs => ?_⟩
  cases rest with
  | nil => exact absurd (isUnit_iff.2 ⟨s, rfl, hs⟩) (unitFree _ mem)
  | cons t more => exact ⟨t, more, rfl, not_free_of_right mem (by simp)⟩

theorem Solid.append (solid : g.Solid right) (ne : right ≠ []) (rest : List Symbol) : g.Solid (right ++ rest) := by
  obtain ⟨s, more, rfl⟩ := List.exists_cons_of_ne_nil ne
  intro s' rest' eq
  obtain ⟨rfl, rfl⟩ := List.cons_eq_cons.1 eq
  obtain ⟨old, next⟩ := solid s more rfl
  refine ⟨old, fun hs => ?_⟩
  obtain ⟨t, others, rfl, also⟩ := next hs
  exact ⟨t, others ++ rest, rfl, also⟩

theorem Solid.next (solid : g.Solid (s :: rest)) (hs : Symbol.isNonTerminal s) : ∃ t ∈ rest.head?, t ∉ g.supply.free := by
  obtain ⟨-, next⟩ := solid s rest rfl
  obtain ⟨t, more, rfl, old⟩ := next hs
  exact ⟨t, rfl, old⟩

theorem exists_of_mem_withTail {tail : Symbol} (mem : right ∈ withTail tail rights) :
    ∃ x ∈ rights, right.head? = x.head? ∧ (g.Solid x → g.Solid right) := by
  rcases mem_withTail.1 mem with known | ⟨x, known, ne, rfl⟩
  · exact ⟨right, known, rfl, id⟩
  · refine ⟨x, known, ?_, fun solid => solid.append ne [tail]⟩
    rw [List.head?_append_of_ne_nil x ne]

/-! ## Sorted alternatives -/

/-- The alternatives that are kept do not begin with the non-terminal or an earlier one. -/
theorem sortOut_heads {done : ExtTreeMap Symbol (List (List Symbol)) compare} {pending : List (List Symbol)}
    {sorted result : Alternatives} (made : sortOut limits done left pending sorted = .ok result)
    (kept : ∀ right ∈ sorted.kept, ∀ t ∈ right.head?, done[t]? = none ∧ t ≠ left) :
    ∀ right ∈ result.kept, ∀ t ∈ right.head?, done[t]? = none ∧ t ≠ left := by
  fun_induction sortOut limits done left pending sorted with
  | case1 sorted =>
    cases made
    exact kept
  | case2 sorted pending ih => exact ih made (List.forall_mem_cons.2 ⟨by simp, kept⟩)
  | case3 => cases made
  | case4 sorted s rest pending heads known total within ih => exact ih made kept
  | case5 sorted rest pending recursive unknown ih => exact ih made kept
  | case6 sorted s rest pending unknown other ih =>
    refine ih made (List.forall_mem_cons.2 ⟨fun t ht => ?_, kept⟩)
    obtain rfl : s = t := Option.some.inj ht
    exact ⟨unknown, other⟩

theorem Untangled.sorted_solid {sorted : Alternatives} {total : Nat} (inv : Untangled g u (left :: todo))
    (confined : g.EpsilonConfined) (unitFree : g.UnitFree)
    (solid : ∀ (s : Symbol) heads, u.done[s]? = some heads → ∀ head ∈ heads, g.Solid head)
    (made : sortOut limits u.done left (g.rightsOf left) ⟨[], [], total⟩ = .ok sorted) :
    (∀ right ∈ sorted.kept, g.Solid right) ∧ ∀ rest ∈ sorted.recursive, g.Solid (left :: rest) := by
  have alternatives := sortOut_forward (P := fun right => (∀ s ∈ right, u.Uses g s) ∧ g.Solid right) made
    (fun s rest heads shape known head mem => ?_) (fun right mem => ?_) (by simp) (by simp)
  · exact ⟨fun right mem => (alternatives.1 right mem).2, fun rest mem => (alternatives.2 rest mem).2⟩
  · obtain ⟨used, others⟩ := List.forall_mem_cons.1 shape.1
    obtain ⟨ne, uses⟩ := inv.head_shape confined known mem used
    exact ⟨List.forall_mem_append.2 ⟨uses, others⟩, (solid s heads known head mem).append ne rest⟩
  · rw [mem_rightsOf] at mem
    exact ⟨fun s hs => .inl ⟨_, mem, hs⟩, solid_of_mem unitFree mem⟩

/-! ## The order -/

/-- what holds of the order at every stage: final alternatives are solid and begin with something later, and fresh
symbols lead to symbols of the grammar only -/
structure Ordered (g : Grammar) (u : Untangling) (dealt todo : List Symbol) : Prop where
  lefts : g.lefts = dealt ++ todo
  known : ∀ s ∈ dealt, u.done[s]? ≠ none
  solid : ∀ (s : Symbol) rights, u.done[s]? = some rights → ∀ right ∈ rights, g.Solid right
  later : ∀ (s : Symbol) rights, u.done[s]? = some rights → ∀ right ∈ rights, ∀ t ∈ right.head?,
    g.lefts.idxOf s < g.lefts.idxOf t
  tails : ∀ e ∈ u.tails, ∀ right ∈ e.2, ∃ t ∈ right.head?, t ∉ g.supply.free

namespace Ordered

theorem idxOf_lt (eq : g.lefts = dealt ++ left :: todo) (undealt : t ∉ dealt) (ne : t ≠ left) :
    g.lefts.idxOf left < g.lefts.idxOf t := by
  have nodup := nodup_lefts (g := g)
  rw [eq, List.nodup_append] at nodup
  have own : left ∉ dealt := fun mem => nodup.2.2 left mem left List.mem_cons_self rfl
  rw [eq, List.idxOf_append_of_notMem own, List.idxOf_append_of_notMem undealt, List.idxOf_cons_self,
    List.idxOf_cons_ne _ ne.symm]
  omega

theorem cases_of_insert {done : ExtTreeMap Symbol (List (List Symbol)) compare} {alternatives : List (List Symbol)}
    (known : (done.insert left (FiniteSet.ofList rights).toList)[s]? = some alternatives) (mem : right ∈ alternatives) :
    (s = left ∧ right ∈ rights) ∨ ∃ before, done[s]? = some before ∧ right ∈ before := by
  rw [ExtTreeMap.getElem?_insert] at known
  split at known
  · rename_i own
    cases known
    exact .inl ⟨(Std.LawfulEqCmp.eq_of_compare own).symm, by simpa [Std.ExtTreeSet.mem_toList] using mem⟩
  · exact .inr ⟨alternatives, known, mem⟩

/-- A non-terminal is dealt with when its alternatives are solid and begin with what is later. -/
theorem insert (ord : Ordered g u dealt (left :: todo)) (solid : ∀ right ∈ rights, g.Solid right)
    (heads : ∀ right ∈ rights, ∀ t ∈ right.head?, u.done[t]? = none ∧ t ≠ left)
    (tails : List (Symbol × List (List Symbol)))
    (leads : ∀ e ∈ tails, ∀ right ∈ e.2, ∃ t ∈ right.head?, t ∉ g.supply.free) {supply : Supply} {total : Nat} :
    Ordered g ⟨u.done.insert left (FiniteSet.ofList rights).toList, tails ++ u.tails, supply, total⟩
      (dealt ++ [left]) todo := by
  refine ⟨by rw [ord.lefts, List.append_cons], ?_, ?_, ?_, List.forall_mem_append.2 ⟨leads, ord.tails⟩⟩
  · intro s mem
    rw [ExtTreeMap.getElem?_insert]
    split
    · exact Option.some_ne_none _
    · rename_i other
      rcases List.mem_append.1 mem with mem | mem
      · exact ord.known s mem
      · exact absurd (List.mem_singleton.1 mem ▸ Std.ReflCmp.compare_self) other
  · intro s alternatives known right mem
    rcases cases_of_insert known mem with ⟨rfl, mem⟩ | ⟨before, known, mem⟩
    · exact solid right mem
    · exact ord.solid s before known right mem
  · intro s alternatives known right mem t ht
    rcases cases_of_insert known mem with ⟨rfl, mem⟩ | ⟨before, known, mem⟩
    · obtain ⟨unknown, ne⟩ := heads right mem t ht
      exact idxOf_lt ord.lefts (fun dealt => ord.known t dealt unknown) ne
    · exact ord.later s before known right mem t ht

/-- **One step** of the removal keeps the order. -/
theorem step (ord : Ordered g u dealt (left :: todo)) (inv : Untangled g u (left :: todo))
    (confined : g.EpsilonConfined) (unitFree : g.UnitFree) (made : u.step limits left (g.rightsOf left) = .ok u') :
    Ordered g u' (dealt ++ [left]) todo := by
  obtain ⟨sorted, sort, result⟩ := Untangling.step_cases made
  obtain ⟨solid, recursive⟩ := inv.sorted_solid confined unitFree ord.solid sort
  have heads := sortOut_heads sort (by simp)
  obtain ⟨-, rfl⟩ | ⟨-, tail, supply, total, -, -, rfl⟩ := result
  · exact ord.insert solid heads [] (by simp)
  · refine ord.insert (fun right mem => ?_) (fun right mem => ?_) [(tail, withTail tail sorted.recursive)] ?_
    · obtain ⟨x, known, -, keep⟩ := exists_of_mem_withTail mem
      exact keep (solid x known)
    · obtain ⟨x, known, head, -⟩ := exists_of_mem_withTail (g := g) mem
      exact head ▸ heads x known
    · intro e he right mem
      obtain rfl := List.mem_singleton.1 he
      obtain ⟨x, known, head, -⟩ := exists_of_mem_withTail (g := g) mem
      exact head ▸ (recursive x known).next (inv.pending left List.mem_cons_self).1

/-- **A run** of the removal keeps the order. -/
theorem run (ord : Ordered g u dealt todo) (inv : Untangled g u todo) (confined : g.EpsilonConfined)
    (unitFree : g.UnitFree) (made : u.run limits g.rightsOf todo = .ok u') : Ordered g u' g.lefts [] := by
  induction todo generalizing u dealt with
  | nil =>
    cases made
    have whole := ord.lefts
    rw [List.append_nil] at whole
    exact whole ▸ ord
  | cons left todo ih =>
    obtain ⟨next, first, made⟩ := exists_of_bind made
    have nodup : (left :: todo).Nodup := (List.nodup_append.1 (ord.lefts ▸ nodup_lefts)).2.1
    exact ih (ord.step inv confined unitFree first) (inv.step nodup confined first) made

end Ordered

/-- the place of a symbol in the order: letters that were drawn first, then the left sides, then everything else -/
def rank (g : Grammar) (s : Symbol) : Nat := if s ∈ g.supply.free then 0 else g.lefts.idxOf s + 1

/-- **What a right side begins with ranks higher** than its left side. -/
theorem Ordered.rank_lt (ord : Ordered g u dealt todo) (inv : Untangled g u todo)
    (mem : ⟨s, t :: rest⟩ ∈ u.productions) : g.rank s < g.rank t := by
  rcases Untangling.mem_productions.1 mem with ⟨rights, known, mem⟩ | ⟨rights, known, mem⟩
  · obtain ⟨old, -⟩ := ord.solid s rights known _ mem t rest rfl
    have less := ord.later s rights known _ mem t rfl
    rw [rank, rank, if_neg (inv.dealt s rights known).2, if_neg old]
    exact Nat.succ_lt_succ less
  · obtain ⟨t', eq, old⟩ := ord.tails _ known _ mem
    obtain rfl : t = t' := Option.some.inj eq
    rw [rank, rank, if_pos (inv.tails _ known).1, if_neg old]
    exact Nat.succ_pos _

/-- A leading symbol ranks higher: no symbol of a right side is nullable, so only the first one leads. -/
theorem rank_lt_of_leadStep (wf : g.WellFormed) (confined : g.EpsilonConfined) (unitFree : g.UnitFree)
    (made : g.removeLeftRecursion limits = .ok h) (step : h.LeadStep s t) : g.rank s < g.rank t := by
  obtain ⟨-, confined', -⟩ := removeLeftRecursion_spec wf confined made
  obtain ⟨u, run, rfl⟩ := run_of_removeLeftRecursion made
  have inv := (untangled_start wf).run nodup_lefts confined run
  have start : Ordered g { supply := g.supply, total := g.productions.size } [] g.lefts :=
    ⟨rfl, by simp, by simp, by simp, by simp⟩
  obtain ⟨before, after, mem, all⟩ := step
  obtain rfl : before = [] := by
    cases before with
    | nil => rfl
    | cons v before =>
      have null := mem_nullable.1 (all v List.mem_cons_self)
      exact absurd null (confined'.nil_not_mem mem List.mem_cons_self)
  have rule : ⟨s, t :: after⟩ ∈ u.productions := by simpa [Grammar.withProductions] using mem
  exact (start.run (untangled_start wf) confined unitFree run).rank_lt inv rule

/-- Where a rank goes up from symbol to symbol there is no loop. -/
theorem rank_lt_of_transGen (up : ∀ s t, h.LeadStep s t → g.rank s < g.rank t) (chain : TransGen h.LeadStep s t) :
    g.rank s < g.rank t := by
  induction chain with
  | single step => exact up _ _ step
  | tail _ step ih => exact ih.trans (up _ _ step)

/-- **Removal of left recursion** keeps the language, and afterwards no symbol derives, in one step or more, a form that
begins with itself; so the search for left recursion finds none. -/
theorem eliminateLeftRecursion_spec (wf : g.WellFormed) (rule : g.hasStartRule) (limits : Limits)
    (made : g.eliminateLeftRecursion limits = .ok h) :
    (∀ w, h.Generates w ↔ g.Generates w) ∧ (∀ s rest, ¬ DerivesInSteps h.rules [s] (s :: rest)) ∧
      h.isLeftRecursive = false := by
  obtain ⟨k, proper, made⟩ := stages_of_eliminateLeftRecursion rule made
  have form := proper_spec wf rule proper
  obtain ⟨-, -, generates⟩ := removeLeftRecursion_spec form.wellFormed form.confined made
  have loopless : ∀ s, ¬ TransGen h.LeadStep s s := fun s loop => lt_irrefl _ <|
    rank_lt_of_transGen (g := k)
      (fun s t => rank_lt_of_leadStep form.wellFormed form.confined form.unitFree made) loop
  refine ⟨fun w => (generates w).trans (form.generates w), fun s rest derives => ?_, ?_⟩
  · exact loopless s (lead_of_derivesInSteps derives)
  · rw [Bool.eq_false_iff]
    intro found
    obtain ⟨s, loop⟩ := exists_loop_of_isLeftRecursive found
    exact loopless s loop

set_option maxRecDepth 100000 in
/-- The grammar of brackets is left-recursive, and also by way of its nullable start symbol. -/
theorem eliminateLeftRecursion_brackets : brackets.WellFormed ∧ brackets.hasStartRule ∧ brackets.isLeftRecursive ∧
    ∃ h, brackets.eliminateLeftRecursion {} = .ok h ∧ (∀ w, h.Generates w ↔ brackets.Generates w) ∧
      (∀ s rest, ¬ DerivesInSteps h.rules [s] (s :: rest)) ∧ h.isLeftRecursive = false := by
  have rule : brackets.hasStartRule := by decide +kernel
  have recursive : brackets.isLeftRecursive := by decide +kernel
  obtain ⟨h, made⟩ : ∃ h, brackets.eliminateLeftRecursion {} = .ok h := exists_of_isOk (by decide +kernel)
  exact ⟨brackets_wellFormed, rule, recursive, h, made, eliminateLeftRecursion_spec brackets_wellFormed rule {} made⟩

end ContextFree.Grammar
