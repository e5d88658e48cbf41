import Mathlib.Data.Set.Finite.List
import Mathlib.Order.Preorder.Finite
import Mathlib.Data.List.ProdSigma
import Mathlib.Order.WellFounded
import ContextFree.Proofs.Driver

/-!
The runs of the bottom-up parser that go on for ever. A reduction reads nothing, and one with an empty right side makes
the stack longer, so nothing bounds a run in advance. But every endless run is a circle: from some configuration the
parser comes to one with the same entry on top, above the same state, and has neither read anything nor touched what was
below the top. What it did it then does again, on top of what was added.

- `GoesAbove.rebase`: a step does not depend on the part of the stack that it does not touch;
- `Circles.endless`: no run through a circle comes to an end;
- `exists_circles`: every endless run comes to a circle, by the pigeonhole principle;
- `isSome_run_iff_not_circles`: so a run has a result exactly when it comes to no circle.
-/

namespace ContextFree.Lr

open Relation

variable {g : Grammar} {m : Automaton} {γ : List Symbol} {upper lower lower' stack : List Entry} {input : List Symbol}
  {c d e : Configuration} {n : Nat}

theorem topState_append (same : topState lower = topState lower') :
    topState (upper ++ lower) = topState (upper ++ lower') := by
  cases upper with
  | nil => exact same
  | cons => rfl

namespace Automaton

/-! ## Circles -/

/-- A step after which something lies above the part of the stack that is to be kept. -/
def GoesAbove (m : Automaton) (lower : List Entry) (c d : Configuration) : Prop :=
  m.Goes c d ∧ lower.length < d.stack.length

/-- The parser comes to the same entry on top of the same state, has read nothing and never touched what was below. -/
def Circles (m : Automaton) (c : Configuration) : Prop :=
  ∃ top lower added, c.stack = top :: lower ∧ topState (added ++ lower) = topState lower ∧
    TransGen (m.GoesAbove lower) c ⟨top :: (added ++ lower), c.input⟩

theorem choose_congr (state : c.state = d.state) (input : c.input = d.input) : m.choose c = m.choose d := by
  rw [choose, choose, Configuration.lookahead, Configuration.lookahead, state, input]

/-- **A step does not depend on what it does not touch**, apart from the state on top of that. -/
theorem GoesAbove.rebase (same : topState lower = topState lower') (h : m.GoesAbove lower ⟨upper ++ lower, input⟩ d) :
    ∃ upper', d.stack = upper' ++ lower ∧
      m.GoesAbove lower' ⟨upper ++ lower', input⟩ ⟨upper' ++ lower', d.input⟩ := by
  obtain ⟨goes, kept⟩ := h
  have long : ∀ (e : Entry) (rest : List Entry), lower'.length < (e :: rest ++ lower').length := by
    intro e rest
    rw [List.length_append, List.length_cons]
    omega
  have chosen : m.choose ⟨upper ++ lower', input⟩ = m.choose ⟨upper ++ lower, input⟩ :=
    choose_congr (topState_append same.symm) rfl
  obtain ⟨t, shift, rfl⟩ | ⟨n, act, reduced⟩ := goes_iff.1 goes
  · exact ⟨⟨_, t⟩ :: upper, rfl, goes_iff.2 (.inl ⟨t, chosen.trans shift, rfl⟩), long _ _⟩
  · obtain ⟨p, t, known, fits, target, rfl⟩ := reduce_eq_running_iff.1 reduced
    -- the right side lies in the upper part
    have within : p.right.length ≤ upper.length := by
      have whole := congrArg List.length fits
      simp only [List.length_reverse, List.length_map, List.length_take, List.length_append] at whole
      simp only [List.length_cons, List.length_drop, List.length_append] at kept
      omega
    simp only [List.take_append_of_le_length within, List.drop_append_of_le_length within] at fits target ⊢
    refine ⟨⟨p.left, t⟩ :: upper.drop p.right.length, rfl, goes_iff.2 (.inr ⟨n, chosen.trans act, ?_⟩), long _ _⟩
    refine reduce_eq_running_iff.2 ⟨p, t, known, ?_, ?_, ?_⟩
    · rw [List.take_append_of_le_length within]
      exact fits
    · rw [List.drop_append_of_le_length within, ← topState_append same]
      exact target
    · rw [List.drop_append_of_le_length within]
      rfl

theorem rebase_steps (same : topState lower = topState lower')
    (steps : TransGen (m.GoesAbove lower) ⟨upper ++ lower, input⟩ d) :
    ∃ upper', d.stack = upper' ++ lower ∧
      TransGen (m.GoesAbove lower') ⟨upper ++ lower', input⟩ ⟨upper' ++ lower', d.input⟩ := by
  induction steps with
  | single h =>
    obtain ⟨upper', eq, h'⟩ := h.rebase same
    exact ⟨upper', eq, .single h'⟩
  | @tail d e _ h ih =>
    obtain ⟨upper', eq, steps'⟩ := ih
    obtain ⟨stack, input'⟩ := d
    obtain rfl : stack = upper' ++ lower := eq
    obtain ⟨upper'', eq, h'⟩ := h.rebase same
    exact ⟨upper'', eq, steps'.tail h'⟩

theorem Circles.again (h : m.Circles c) : ∃ d, TransGen m.Goes c d ∧ m.Circles d := by
  obtain ⟨stack, input⟩ := c
  obtain ⟨top, lower, added, eq, same, steps⟩ := h
  obtain rfl : stack = [top] ++ lower := eq
  refine ⟨⟨top :: (added ++ lower), input⟩, TransGen.mono (fun _ _ h => h.1) _ _ steps, ?_⟩
  obtain ⟨upper', eq, steps'⟩ := rebase_steps same.symm steps
  obtain rfl : top :: added = upper' :=
    List.append_cancel_right (show (top :: added) ++ lower = upper' ++ lower from eq)
  exact ⟨top, added ++ lower, added, rfl, topState_append same, steps'⟩

/-- **No run through a circle comes to an end.** -/
theorem Circles.endless (h : m.Circles c) (steps : ReflTransGen m.Goes c d) : ∃ e, m.Goes d e := by
  -- wherever the run is, a circle lies ahead
  have ahead : ∃ e, ReflTransGen m.Goes d e ∧ m.Circles e := by
    induction steps with
    | refl => exact ⟨c, .refl, h⟩
    | @tail d d' _ goes ih =>
      obtain ⟨e, onward, circles⟩ := ih
      obtain ⟨e', more, circles'⟩ := circles.again
      obtain ⟨next, goes', onward'⟩ := TransGen.head'_iff.1 (TransGen.trans_right onward more)
      obtain rfl : d' = next := Outcome.running.inj (goes.symm.trans goes')
      exact ⟨e', onward', circles'⟩
  obtain ⟨e, onward, circles⟩ := ahead
  obtain ⟨e', more, -⟩ := circles.again
  obtain ⟨next, goes, -⟩ := TransGen.head'_iff.1 (TransGen.trans_right onward more)
  exact ⟨next, goes⟩

/-! ## Endless runs -/

/-- A step that reads nothing puts a left side in the place of a part of the stack. -/
def Reduces (m : Automaton) (c d : Configuration) : Prop :=
  d.input = c.input ∧ ∃ p ∈ m.augmented.productions, ∃ t k, d.stack = ⟨p.left, t⟩ :: c.stack.drop k

/-- the top of the stack and the state below it -/
def view (c : Configuration) : Option Entry × Nat := (c.stack.head?, topState c.stack.tail)

/-- the moments after the first at which the stack is as short as it will ever be again -/
def floors (f : Nat → Configuration) : Set Nat :=
  {n | 0 < n ∧ ∀ k, n ≤ k → (f n).stack.length ≤ (f k).stack.length}

theorem infinite_floors (f : Nat → Configuration) : (floors f).Infinite := by
  apply Set.infinite_of_forall_exists_gt
  intro n
  -- the shortest stack after this moment
  let shortest := Function.argmin fun k => (f (n + 1 + k)).stack.length
  refine ⟨n + 1 + shortest, ⟨by omega, fun k le => ?_⟩, by omega⟩
  obtain ⟨l, rfl⟩ := Nat.exists_eq_add_of_le (show n + 1 ≤ k by omega)
  exact Function.argmin_le (fun k => (f (n + 1 + k)).stack.length) l

section

variable {f : Nat → Configuration}

theorem exists_upper (reduces : ∀ n, m.Reduces (f n) (f (n + 1))) {top : Entry} (start : (f n).stack = top :: lower)
    (floor : ∀ k, n ≤ k → (f n).stack.length ≤ (f k).stack.length) {k : Nat} (le : n ≤ k) :
    ∃ e upper, (f k).stack = e :: upper ++ lower := by
  induction k, le using Nat.le_induction with
  | base => exact ⟨top, [], start⟩
  | succ k le ih =>
    obtain ⟨e, upper, eq⟩ := ih
    obtain ⟨-, p, -, t, r, next⟩ := reduces k
    have long := floor (k + 1) (Nat.le_succ_of_le le)
    rw [start, next, eq, List.length_cons, List.length_cons, List.length_drop, List.length_append] at long
    by_cases within : r ≤ (e :: upper).length
    · exact ⟨⟨p.left, t⟩, (e :: upper).drop r, by rw [next, eq, List.drop_append_of_le_length within]; rfl⟩
    · -- more can be taken off only when nothing lies below
      obtain rfl : lower = [] := List.length_eq_zero_iff.1 (by omega)
      refine ⟨⟨p.left, t⟩, [], ?_⟩
      rw [next, eq, List.append_nil, List.drop_eq_nil_of_le (by omega)]
      rfl

/-- Between two moments with the same entry on top, above the same state, the parser goes in a circle. -/
theorem circles_of_sequence (goes : ∀ n, m.Goes (f n) (f (n + 1))) (reduces : ∀ n, m.Reduces (f n) (f (n + 1)))
    (floor : ∀ k, n ≤ k → (f n).stack.length ≤ (f k).stack.length) {top : Entry} {k : Nat} (less : n < k)
    (first : (f n).stack = top :: lower) (last : (f k).stack.head? = some top)
    (same : topState (f k).stack.tail = topState lower) : m.Circles (f n) := by
  have steps : ∀ {k}, n < k → TransGen (m.GoesAbove lower) (f n) (f k) ∧ (f k).input = (f n).input := by
    intro k less
    have above : ∀ k, n ≤ k → lower.length < (f k).stack.length := by
      intro k le
      obtain ⟨e, upper, eq⟩ := exists_upper reduces first floor le
      rw [eq, List.length_append, List.length_cons]
      omega
    induction k, less using Nat.le_induction with
    | base => exact ⟨.single ⟨goes n, above _ (Nat.le_succ n)⟩, (reduces n).1⟩
    | succ k le ih =>
      exact ⟨ih.1.tail ⟨goes k, above _ (Nat.le_of_lt (Nat.lt_succ_of_le (Nat.le_of_succ_le le)))⟩,
        (reduces k).1.trans ih.2⟩
  obtain ⟨path, input⟩ := steps less
  obtain ⟨e, upper, eq⟩ := exists_upper reduces first floor less.le
  rw [eq] at last same
  obtain rfl : e = top := Option.some.inj last
  refine ⟨e, lower, upper, first, same, ?_⟩
  rw [← input, show e :: (upper ++ lower) = (f k).stack from eq.symm]
  exact path

theorem circles_of_view (goes : ∀ n, m.Goes (f n) (f (n + 1))) (reduces : ∀ n, m.Reduces (f n) (f (n + 1)))
    (floor : n ∈ floors f) {k : Nat} (less : n < k) (same : view (f n) = view (f k)) : m.Circles (f n) := by
  obtain ⟨pos, floor⟩ := floor
  obtain ⟨l, rfl⟩ := Nat.exists_eq_succ_of_ne_zero pos.ne'
  obtain ⟨-, p, -, t, r, eq⟩ := reduces l
  obtain ⟨head, tail⟩ := Prod.mk.inj same
  rw [eq] at head tail
  exact circles_of_sequence goes reduces floor less eq head.symm tail.symm

end

section

variable (wf : g.WellFormed) (made : ofGrammar g = .ok m) (lr1 : m.isLr1)

include wf made lr1

theorem shorter_or_reduces (stacked : m.Stacked γ c.stack) (goes : m.Goes c d) :
    (∃ δ, m.Stacked δ d.stack) ∧ (d.input.length < c.input.length ∨ m.Reduces c d) := by
  have turn := turn wf made lr1 stacked
  rw [show m.step c = .running d from goes] at turn
  cases turn with
  | shift _ _ _ input above =>
    refine ⟨⟨_, above⟩, .inl ?_⟩
    rw [input]
    exact Nat.lt_succ_self _
  | reduce _ _ found _ _ _ above => exact ⟨⟨_, above⟩, .inr ⟨rfl, _, List.mem_of_getElem? found, _, _, rfl⟩⟩

theorem exists_stacked (stacked : m.Stacked γ c.stack) (steps : ReflTransGen m.Goes c d) :
    ∃ δ, m.Stacked δ d.stack := by
  induction steps with
  | refl => exact ⟨γ, stacked⟩
  | tail _ goes ih =>
    obtain ⟨δ, stacked⟩ := ih
    exact (shorter_or_reduces wf made lr1 stacked goes).1

omit lr1 in
theorem topState_lt (stacked : m.Stacked γ stack) : topState stack < m.dfa.states.list.length := by
  obtain ⟨state, found, -⟩ := mem_items_of_run wf made (Stacked.run (c := ⟨stack, []⟩) stacked)
  exact (List.getElem?_eq_some_iff.1 found).1

omit lr1 in
theorem exists_views : ∃ views : List (Option Entry × Nat), ∀ c d, m.Reduces c d → (∃ δ, m.Stacked δ d.stack) →
    view d ∈ views := by
  let tops := m.augmented.productions.flatMap fun p =>
    (List.range m.dfa.states.list.length).map fun t => some (Entry.mk p.left t)
  refine ⟨tops ×ˢ List.range m.dfa.states.list.length, ?_⟩
  rintro c d ⟨-, p, mem, t, r, eq⟩ ⟨δ, above⟩
  have state : t < m.dfa.states.list.length := by
    have less := topState_lt wf made above
    rwa [eq] at less
  rw [view, eq]
  rw [eq] at above
  cases above with
  | push below _ =>
    apply List.mem_product.2
    constructor
    · exact List.mem_flatMap.2 ⟨p, mem, List.mem_map.2 ⟨t, List.mem_range.2 state, rfl⟩⟩
    · exact List.mem_range.2 (topState_lt wf made below)

omit lr1 in
/-- A sequence that reads nothing comes to a circle: the stack is infinitely often as short as it will ever be again,
and two of these moments have the same view. -/
theorem circles_of_reduces {f : Nat → Configuration} (stacked : ∀ n, ∃ δ, m.Stacked δ (f n).stack)
    (goes : ∀ n, m.Goes (f n) (f (n + 1))) (reduces : ∀ n, m.Reduces (f n) (f (n + 1))) : ∃ n, m.Circles (f n) := by
  obtain ⟨views, inViews⟩ := exists_views wf made
  have known : Set.MapsTo (fun n => view (f n)) (floors f) {view | view ∈ views} := by
    rintro n ⟨pos, -⟩
    obtain ⟨k, rfl⟩ := Nat.exists_eq_succ_of_ne_zero pos.ne'
    exact inViews _ _ (reduces k) (stacked (k + 1))
  obtain ⟨n, hn, k, hk, ne, same⟩ :=
    (infinite_floors f).exists_ne_map_eq_of_mapsTo known (List.finite_toSet views)
  -- the earlier of the two moments is where the circle begins
  rcases Nat.lt_or_gt_of_ne ne with less | less
  · exact ⟨n, circles_of_view goes reduces hn less same⟩
  · exact ⟨k, circles_of_view goes reduces hk less same.symm⟩

theorem exists_reduces {f : Nat → Configuration} (stacked : ∀ n, ∃ δ, m.Stacked δ (f n).stack)
    (goes : ∀ n, m.Goes (f n) (f (n + 1))) : ∃ k, ∀ n, m.Reduces (f (k + n)) (f (k + n + 1)) := by
  have shrinks : Antitone fun n => (f n).input.length := by
    apply antitone_nat_of_succ_le
    intro n
    obtain ⟨δ, above⟩ := stacked n
    rcases (shorter_or_reduces wf made lr1 above (goes n)).2 with shorter | ⟨same, -⟩
    · exact shorter.le
    · exact (congrArg List.length same).le
  let k := Function.argmin fun n => (f n).input.length
  refine ⟨k, fun n => ?_⟩
  obtain ⟨δ, above⟩ := stacked (k + n)
  apply (shorter_or_reduces wf made lr1 above (goes (k + n))).2.resolve_left
  intro shorter
  have least : (f k).input.length ≤ (f (k + n + 1)).input.length :=
    Function.argmin_le (fun n => (f n).input.length) (k + n + 1)
  exact absurd (shorter.trans_le (shrinks (Nat.le_add_right k n))) (Nat.not_lt.2 least)

/-- **Every endless run comes to a circle.** -/
theorem exists_circles (stacked : m.Stacked γ c.stack) (endless : ∀ d, ReflTransGen m.Goes c d → ∃ e, m.Goes d e) :
    ∃ d, ReflTransGen m.Goes c d ∧ m.Circles d := by
  -- the run as a sequence
  obtain ⟨f, reached, goes⟩ : ∃ f : Nat → Configuration, (∀ n, ReflTransGen m.Goes c (f n)) ∧
      ∀ n, m.Goes (f n) (f (n + 1)) := by
    choose next goes using endless
    let f : Nat → {d // ReflTransGen m.Goes c d} := fun n =>
      Nat.rec ⟨c, .refl⟩ (fun _ d => ⟨next d.1 d.2, d.2.tail (goes d.1 d.2)⟩) n
    exact ⟨fun n => (f n).1, fun n => (f n).2, fun n => goes (f n).1 (f n).2⟩
  have stacked := fun n => exists_stacked wf made lr1 stacked (reached n)
  obtain ⟨k, reduces⟩ := exists_reduces wf made lr1 stacked goes
  obtain ⟨n, circles⟩ := circles_of_reduces (f := fun n => f (k + n)) wf made (fun n => stacked (k + n))
    (fun n => goes (k + n)) reduces
  exact ⟨f (k + n), reached (k + n), circles⟩

/-- **A run has a result** exactly when it comes to no circle. -/
theorem isSome_run_iff_not_circles (stacked : m.Stacked γ c.stack) :
    (m.run c).isSome ↔ ¬ ∃ d, ReflTransGen m.Goes c d ∧ m.Circles d := by
  rw [isSome_run_iff]
  constructor
  · rintro ⟨d, steps, ends⟩ ⟨e, others, circles⟩
    -- the run is one path, so the last configuration lies behind the circle
    have behind : ReflTransGen m.Goes e d := by
      have unique : Relator.RightUnique m.Goes := fun _ _ _ h k => Outcome.running.inj (h.symm.trans k)
      rcases ReflTransGen.total_of_right_unique unique steps others with on | on
      · rcases ReflTransGen.cases_head on with rfl | ⟨next, goes, -⟩
        · exact .refl
        · exact absurd goes (ends next)
      · exact on
    obtain ⟨next, goes⟩ := circles.endless behind
    exact ends next goes
  · intro none
    refine Classical.byContradiction fun endless => none (exists_circles wf made lr1 stacked fun d steps => ?_)
    refine Classical.byContradiction fun ends => endless ⟨d, steps, fun e goes => ends ⟨e, goes⟩⟩

end

end Automaton

end ContextFree.Lr
