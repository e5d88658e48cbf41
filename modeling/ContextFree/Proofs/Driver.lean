import ContextFree.Proofs.Iteration
import ContextFree.Proofs.Table

/-!
The steps of the bottom-up parser. A stack is `Stacked` when its symbols, from the bottom, are those read so far and the
states above them are those of the automaton. Under a table without conflicts every step keeps this. The table asks for
a reduction only where the right side lies on top of the stack, so no reduction ever fails.

- `step_shift`, `step_reduce`: what the table asks for is done;
- `turn`: nothing else is done; `step_ne_failed`, `reason_eq_noAction`: so no step fails, and none rejects for another
  reason than that there is no action;
- `run_eq_ok_iff_recorded`: the trace records the configurations on the way;
- `run_eq_ok_iff`, `isSome_run_iff`: a run has a result exactly when its steps come to an end.
-/

namespace ContextFree.Lr

open Relation

variable {g : Grammar} {a : Augmented} {m : Automaton} {start s x : Symbol} {i j : Item} {p : Production}
  {γ δ α β η w : List Symbol} {stack : List Entry} {input rest : List Symbol} {c d : Configuration} {t : Nat}
  {act : Action}

/-! ## Items on the way -/

namespace Augmented

theorem behind_of_drop (ahead : (a.right i.production).drop i.dot = s :: α) : a.behind i = some s := by
  rw [behind, ← List.head?_drop, ahead]
  rfl

theorem drop_of_behind (h : a.behind i = some s) :
    (a.right i.production).drop i.dot = s :: (a.right i.advance.production).drop i.advance.dot := by
  obtain ⟨less, eq⟩ := List.getElem?_eq_some_iff.1 (show (a.right i.production)[i.dot]? = some s from h)
  rw [List.drop_eq_getElem_cons less, eq]
  rfl

theorem drop_advance (ahead : (a.right i.production).drop i.dot = s :: α) :
    (a.right i.advance.production).drop i.advance.dot = α :=
  (List.cons.inj ((drop_of_behind (behind_of_drop ahead)).symm.trans ahead)).2

theorem over_cons (i : Item) (s : Symbol) (α : List Symbol) : ({ i with dot := i.dot + (s :: α).length } : Item) =
    { i.advance with dot := i.advance.dot + α.length } := by
  rw [Item.advance, List.length_cons, Nat.add_assoc, Nat.add_comm 1]

theorem Reads.over (reads : a.Reads γ i) (ahead : (a.right i.production).drop i.dot = β ++ η) :
    a.Reads (γ ++ β) { i with dot := i.dot + β.length } := by
  induction β generalizing γ i with
  | nil => rwa [List.append_nil]
  | cons s β ih =>
    have behind := behind_of_drop ahead
    have moved := ih (.advance reads behind) (drop_advance ahead)
    rwa [← List.append_cons, ← over_cons] at moved

/-- Behind the dot of an item lies what was read of its right side, above a list where the item began. -/
theorem Reads.began (h : a.Reads γ i) :
    ∃ δ, γ = δ ++ (a.right i.production).take i.dot ∧ a.Reads δ { i with dot := 0 } := by
  induction h with
  | start => exact ⟨[], rfl, .start⟩
  | @advance γ i s reads behind ih =>
    obtain ⟨δ, rfl, began⟩ := ih
    refine ⟨δ, ?_, began⟩
    rw [Item.advance, List.take_add_one, List.append_assoc, show (a.right i.production)[i.dot]? = some s from behind]
    rfl
  | @predict γ i j s reads behind hs mem ih =>
    obtain ⟨p, -, -, dot, -⟩ := mem_predicted.1 mem
    refine ⟨γ, by simp [dot], ?_⟩
    have whole := Reads.predict reads behind hs mem
    rwa [← dot] at *

theorem Reads.origin (h : a.Reads γ j) (dot : j.dot = 0) : (γ = [] ∧ j = Item.start) ∨
    ∃ i s, a.Reads γ i ∧ a.behind i = some s ∧ Symbol.isNonTerminal s ∧ j ∈ a.predicted i s := by
  cases h with
  | start => exact .inl ⟨rfl, rfl⟩
  | advance => cases dot
  | predict reads behind hs mem => exact .inr ⟨_, _, reads, behind, hs, mem⟩

theorem inner_of_behind (aug : Augments g a start) {n : Nat} (behind : a.behind i = some p.left)
    (found : a.productions[n]? = some p) : n ≠ 0 := by
  rintro rfl
  rw [aug.productions] at found
  obtain rfl : _ = p := Option.some.inj found
  obtain ⟨q, known, at_dot⟩ := exists_of_behind behind
  exact aug.start_not_right (List.mem_of_getElem? known) (List.mem_of_getElem? at_dot)

/-- The item of production 0 is at its beginning before anything is read, and at its end behind the start symbol. -/
theorem Reads.top (aug : Augments g a start) (h : a.Reads γ i) (top : i.production = 0) :
    i.lookahead = endMark ∧ γ = [g.start].take i.dot := by
  induction h with
  | start => exact ⟨rfl, rfl⟩
  | @advance γ i s _ behind ih =>
    obtain ⟨mark, rfl⟩ := ih top
    rw [Augmented.behind, show i.production = 0 from top, aug.right_zero] at behind
    obtain ⟨dot, rfl⟩ : i.dot = 0 ∧ g.start = s := by
      rcases List.getElem?_eq_some_iff.1 behind with ⟨less, eq⟩
      have zero : i.dot = 0 := Nat.lt_one_iff.1 less
      simp only [zero, List.getElem_cons_zero] at eq
      exact ⟨zero, eq⟩
    exact ⟨mark, by simp [Item.advance, dot]⟩
  | predict _ behind _ mem _ =>
    obtain ⟨q, found, rfl, -⟩ := mem_predicted.1 mem
    exact absurd top (inner_of_behind aug behind found)

theorem ne_endMark_of_behind (aug : Augments g a start) (wf : g.WellFormed) (behind : a.behind i = some s) :
    s ≠ endMark := by
  rintro rfl
  obtain ⟨p, known, at_dot⟩ := exists_of_behind behind
  exact aug.endMark_not_right wf (List.mem_of_getElem? known) (List.mem_of_getElem? at_dot)

theorem dot_eq_of_complete (aug : Augments g a start) (wf : g.WellFormed) (h : a.Reads γ i)
    (complete : a.behind i = none) : ∃ p, a.productions[i.production]? = some p ∧ i.dot = p.right.length := by
  obtain ⟨-, p, found, le⟩ := mem_world.1 (aug.mem_world_of_reads wf h)
  rw [behind_eq found, List.getElem?_eq_none_iff] at complete
  exact ⟨p, found, le_antisymm le complete⟩

end Augmented

/-- the state on top of a stack -/
abbrev topState (stack : List Entry) : Nat := Configuration.state ⟨stack, []⟩

namespace Automaton

open Augmented

/-! ## Stacks -/

/-- The symbols of the stack from the bottom, under the states that the automaton reaches by them. -/
inductive Stacked (m : Automaton) : List Symbol → List Entry → Prop
  | bottom : Stacked m [] []
  | push {γ : List Symbol} {stack : List Entry} {s : Symbol} {t : Nat} : Stacked m γ stack →
    m.dfa.run (γ ++ [s]) = some t → Stacked m (γ ++ [s]) (⟨s, t⟩ :: stack)

theorem Stacked.run (h : m.Stacked γ c.stack) : m.dfa.run γ = some c.state := by
  obtain ⟨stack, input⟩ := c
  cases h with
  | bottom => rfl
  | push _ run => exact run

/-- What lies on top can be taken off. -/
theorem Stacked.pop (h : m.Stacked (δ ++ α) stack) :
    m.Stacked δ (stack.drop α.length) ∧ ((stack.take α.length).map (·.symbol)).reverse = α := by
  induction α using List.reverseRecOn generalizing stack with
  | nil => exact ⟨by simpa using h, rfl⟩
  | append_singleton α s ih =>
    rw [← List.append_assoc] at h
    generalize whole : δ ++ α ++ [s] = γ at h
    cases h with
    | bottom => simp at whole
    | push below _ =>
      obtain ⟨rfl, eq⟩ := List.append_inj' whole rfl
      obtain ⟨rest, symbols⟩ := ih below
      rw [List.length_append, List.length_singleton, List.drop_succ_cons, List.take_succ_cons, List.map_cons,
        List.reverse_cons, symbols, eq]
      exact ⟨rest, rfl⟩

/-! ## Steps -/

/-- what a reduction needs and does -/
theorem reduce_eq_running_iff {n : Nat} : m.reduce c n = .running d ↔ ∃ p t, m.production? n = some p ∧
    ((c.stack.take p.right.length).map (·.symbol)).reverse = p.right ∧
    m.goto? (topState (c.stack.drop p.right.length)) p.left = some t ∧
    d = ⟨⟨p.left, t⟩ :: c.stack.drop p.right.length, c.input⟩ := by
  constructor
  · intro reduced
    unfold reduce at reduced
    split at reduced
    · cases reduced
    · rename_i p known
      simp only at reduced
      split at reduced
      · cases reduced
      · rename_i fits
        split at reduced
        · rename_i t target
          exact ⟨p, t, known, not_not.1 fits, target, (Outcome.running.inj reduced).symm⟩
        · cases reduced
  · rintro ⟨p, t, known, fits, target, rfl⟩
    rw [reduce, known]
    simp only [fits]
    rw [if_neg (not_not_intro rfl), show m.goto? (Configuration.mk (c.stack.drop p.right.length) c.input).state p.left =
      some t from target]

/-- The parser goes on from one configuration to the other. -/
def Goes (m : Automaton) (c d : Configuration) : Prop := m.step c = .running d

/-- **A parse goes on** by pushing the next symbol or by a reduction that finds its right side. -/
theorem goes_iff : m.Goes c d ↔
    (∃ t, m.choose c = some (.shift t) ∧ d = ⟨⟨c.lookahead, t⟩ :: c.stack, c.input.tail⟩) ∨
    ∃ n, m.choose c = some (.reduce n) ∧ m.reduce c n = .running d := by
  rw [Goes, step]
  cases m.choose c with
  | none => simp [perform]
  | some act => cases act <;> simp [perform, eq_comm]

theorem choose_ne_goto : m.choose c ≠ some (.goto t) := by
  unfold choose
  split
  · simp
  · split
    · simp
    · split <;> simp
    · rename_i other _
      exact other t

/-- A reduction ends a parse only where the exposed state leads nowhere. -/
theorem reduce_eq_finished {n : Nat} {verdict : Verdict} (last : m.reduce c n = .finished verdict) :
    ∃ q s, verdict = .rejected (.missingGoto q s) := by
  unfold reduce at last
  split at last
  · cases last
  · simp only at last
    split_ifs at last
    split at last
    · cases last
    · cases last
      exact ⟨_, _, rfl⟩

/-- **A parse ends** by accepting, for want of an action, or at a reduction. -/
theorem step_eq_finished {verdict : Verdict} (last : m.step c = .finished verdict) :
    (verdict = .accepted ∧ m.choose c = some .accept) ∨
      (verdict = .rejected (.noAction c.state c.lookahead) ∧ m.choose c = none) ∨
      ∃ q s, verdict = .rejected (.missingGoto q s) := by
  rw [step] at last
  cases chosen : m.choose c with
  | none =>
    rw [chosen] at last
    cases last
    exact .inr (.inl ⟨rfl, rfl⟩)
  | some act =>
    rw [chosen] at last
    cases act with
    | shift t => cases last
    | reduce n => exact .inr (.inr (reduce_eq_finished last))
    | accept =>
      cases last
      exact .inl ⟨rfl, rfl⟩
    | goto t => exact absurd chosen choose_ne_goto

theorem choose_of_accepted (last : m.step c = .finished .accepted) : m.choose c = some .accept := by
  rcases step_eq_finished last with ⟨-, chosen⟩ | ⟨other, -⟩ | ⟨q, s, other⟩
  · exact chosen
  · cases other
  · cases other

theorem goes_of_shift (chosen : m.choose ⟨stack, x :: rest⟩ = some (.shift t)) :
    m.Goes ⟨stack, x :: rest⟩ ⟨⟨x, t⟩ :: stack, rest⟩ := by
  rw [Goes, step, chosen]
  rfl

theorem Asked.goto_nonTerminal (h : m.Asked γ s (.goto t)) : Symbol.isNonTerminal s := by
  cases h with
  | goto hs _ => exact hs

section Steps

variable (wf : g.WellFormed) (made : ofGrammar g = .ok m) (lr1 : m.isLr1)

include wf made lr1

/-- What is chosen is what the items ask for. -/
theorem choose_iff (stacked : m.Stacked γ c.stack) : m.choose c = some act ↔
    Symbol.isTerminal c.lookahead ∧ m.Asked γ c.lookahead act ∧ (act = .accept → c.input.length = 1) := by
  rw [← action?_iff wf made lr1 stacked.run, choose]
  by_cases hs : Symbol.isNonTerminal c.lookahead
  · rw [if_pos hs]
    exact iff_of_false (by simp) fun h => Symbol.isTerminal_iff_not.1 h.1 hs
  · rw [if_neg hs, and_iff_right (Symbol.isTerminal_iff_not.2 hs)]
    cases found : m.action? c.state c.lookahead with
    | none => simp
    | some asked =>
      cases asked with
      | shift t => simp +contextual [eq_comm]
      | reduce n => simp +contextual [eq_comm]
      | accept =>
        by_cases one : c.input.length = 1
        · simp [one]
        · simp only [one, if_false]
          refine iff_of_false (by simp) ?_
          rintro ⟨h, length⟩
          cases h
          exact length rfl
      | goto t =>
        exact iff_of_false (by simp) fun _ => hs ((action?_iff wf made lr1 stacked.run).1 found).goto_nonTerminal

theorem choose_shift (rest : List Symbol) (stacked : m.Stacked γ stack) (reads : m.augmented.Reads γ i)
    (behind : m.augmented.behind i = some x) (terminal : Symbol.isTerminal x) :
    ∃ t, m.choose ⟨stack, x :: rest⟩ = some (.shift t) ∧ m.Stacked (γ ++ [x]) (⟨x, t⟩ :: stack) := by
  obtain ⟨t, run⟩ := exists_run wf made (.advance reads behind)
  exact ⟨t, (choose_iff wf made lr1 stacked).2 ⟨terminal, .shift reads behind terminal run, by simp⟩,
    .push stacked run⟩

theorem step_shift (rest : List Symbol) (stacked : m.Stacked γ stack) (reads : m.augmented.Reads γ i)
    (behind : m.augmented.behind i = some x) (terminal : Symbol.isTerminal x) :
    ∃ t, m.Goes ⟨stack, x :: rest⟩ ⟨⟨x, t⟩ :: stack, rest⟩ ∧ m.Stacked (γ ++ [x]) (⟨x, t⟩ :: stack) := by
  obtain ⟨t, chosen, above⟩ := choose_shift wf made lr1 rest stacked reads behind terminal
  exact ⟨t, goes_of_shift chosen, above⟩

omit lr1 in
/-- A complete right side on top of the stack gives way to its left side. -/
theorem reduce_eq (stacked : m.Stacked γ c.stack) (reads : m.augmented.Reads γ i)
    (found : m.augmented.productions[i.production]? = some p) (dot : i.dot = p.right.length)
    (inner : i.production ≠ 0) : ∃ δ t, γ = δ ++ p.right ∧
      m.reduce c i.production = .running ⟨⟨p.left, t⟩ :: c.stack.drop p.right.length, c.input⟩ ∧
      m.Stacked (δ ++ [p.left]) (⟨p.left, t⟩ :: c.stack.drop p.right.length) := by
  have right : m.augmented.right i.production = p.right := right_eq found
  obtain ⟨δ, rfl, began⟩ := reads.began
  rw [right, dot, List.take_length] at stacked ⊢
  obtain ⟨below, symbols⟩ := stacked.pop
  -- the item was predicted, so its left side stands behind a dot
  obtain ⟨-, eq⟩ | ⟨j, s, under, behind, hs, mem⟩ := began.origin rfl
  · exact absurd (congrArg Item.production eq) inner
  obtain ⟨q, known, rfl, -⟩ := mem_predicted.1 mem
  obtain rfl : p = q := Option.some.inj (found.symm.trans known)
  obtain ⟨t, run⟩ := exists_run wf made (.advance under behind)
  have target : m.goto? (topState (c.stack.drop p.right.length)) p.left = some t :=
    (goto?_iff wf made (Stacked.run (c := ⟨c.stack.drop p.right.length, []⟩) below) hs).2 run
  exact ⟨δ, t, rfl, reduce_eq_running_iff.2 ⟨p, t, found, symbols, target, rfl⟩, .push below run⟩

theorem choose_reduce (stacked : m.Stacked γ c.stack) (reads : m.augmented.Reads γ i)
    (found : m.augmented.productions[i.production]? = some p) (dot : i.dot = p.right.length) (inner : i.production ≠ 0)
    (next : c.lookahead = i.lookahead) : m.choose c = some (.reduce i.production) := by
  obtain ⟨start, aug⟩ := exists_augments made
  have complete : m.augmented.behind i = none := by rw [behind_eq found, dot, List.getElem?_length]
  refine (choose_iff wf made lr1 stacked).2 ⟨?_, ?_, by simp⟩
  · exact next ▸ reads.terminal_lookahead aug wf
  · exact next ▸ .reduce reads complete inner

theorem step_reduce (stacked : m.Stacked (δ ++ p.right) c.stack) (reads : m.augmented.Reads (δ ++ p.right) i)
    (found : m.augmented.productions[i.production]? = some p) (dot : i.dot = p.right.length) (inner : i.production ≠ 0)
    (next : c.lookahead = i.lookahead) :
    ∃ stack, m.Goes c ⟨stack, c.input⟩ ∧ m.Stacked (δ ++ [p.left]) stack := by
  have chosen := choose_reduce wf made lr1 stacked reads found dot inner next
  obtain ⟨δ', t, eq, reduced, above⟩ := reduce_eq wf made stacked reads found dot inner
  obtain rfl : δ = δ' := List.append_cancel_right eq
  refine ⟨_, ?_, above⟩
  rw [Goes, step, chosen]
  exact reduced

theorem step_accept (stacked : m.Stacked γ stack) (reads : m.augmented.Reads γ i) (top : i.production = 0)
    (complete : m.augmented.behind i = none) : m.step ⟨stack, [endMark]⟩ = .finished .accepted := by
  obtain ⟨start, aug⟩ := exists_augments made
  obtain ⟨mark, -⟩ := reads.top aug top
  have chosen : m.choose ⟨stack, [endMark]⟩ = some .accept := by
    refine (choose_iff wf made lr1 stacked).2 ⟨?_, ?_, by simp⟩
    · exact mark ▸ reads.terminal_lookahead aug wf
    · exact mark ▸ .accept reads complete top
  rw [step, chosen]
  rfl

/-- what a step can come to, with the item that asks for it -/
inductive Turn (m : Automaton) (γ : List Symbol) (c : Configuration) : Outcome → Prop
  | shift {i : Item} {x : Symbol} {t : Nat} {rest : List Symbol} : m.augmented.Reads γ i →
    m.augmented.behind i = some x → Symbol.isTerminal x → c.input = x :: rest →
    m.Stacked (γ ++ [x]) (⟨x, t⟩ :: c.stack) → Turn m γ c (.running ⟨⟨x, t⟩ :: c.stack, rest⟩)
  | reduce {δ : List Symbol} {i : Item} {p : Production} {t : Nat} : γ = δ ++ p.right → m.augmented.Reads γ i →
    m.augmented.productions[i.production]? = some p → i.dot = p.right.length → i.production ≠ 0 →
    i.lookahead = c.lookahead → m.Stacked (δ ++ [p.left]) (⟨p.left, t⟩ :: c.stack.drop p.right.length) →
    Turn m γ c (.running ⟨⟨p.left, t⟩ :: c.stack.drop p.right.length, c.input⟩)
  | accept {i : Item} : m.augmented.Reads γ i → m.augmented.behind i = none → i.production = 0 →
    i.lookahead = c.lookahead → c.input.length = 1 → Turn m γ c (.finished .accepted)
  | reject : Turn m γ c (.finished (.rejected (.noAction c.state c.lookahead)))

/-- **What a step does** is what the items of the state ask for; in particular it never fails, and it rejects only for
want of an action. -/
theorem turn (stacked : m.Stacked γ c.stack) : m.Turn γ c (m.step c) := by
  obtain ⟨start, aug⟩ := exists_augments made
  cases chosen : m.choose c with
  | none =>
    rw [step, chosen]
    exact .reject
  | some act =>
    obtain ⟨terminal, asked, last⟩ := (choose_iff wf made lr1 stacked).1 chosen
    rw [step, chosen]
    generalize next : c.lookahead = x at asked
    cases asked with
    | @shift i _ t reads behind _ run =>
      -- the end marker stands behind no dot, so the input is not empty
      obtain ⟨rest, input⟩ : ∃ rest, c.input = x :: rest := by
        cases input : c.input with
        | nil =>
          rw [Configuration.lookahead, input] at next
          exact absurd next.symm (ne_endMark_of_behind aug wf behind)
        | cons y rest =>
          rw [Configuration.lookahead, input] at next
          exact ⟨rest, by rw [← next]; rfl⟩
      rw [perform, next, input]
      exact .shift reads behind (next ▸ terminal) input (.push stacked run)
    | @reduce i reads complete inner =>
      obtain ⟨p, found, dot⟩ := dot_eq_of_complete aug wf reads complete
      obtain ⟨δ, t, eq, reduced, above⟩ := reduce_eq wf made stacked reads found dot inner
      rw [perform, reduced]
      exact .reduce eq reads found dot inner next.symm above
    | accept reads complete top => exact .accept reads complete top next.symm (last rfl)
    | goto => exact .reject

/-- **No step fails**: a reduction finds its right side. -/
theorem step_ne_failed (stacked : m.Stacked γ c.stack) (e : GrammarError) : m.step c ≠ .failed e := by
  intro failed
  have turn := turn wf made lr1 stacked
  rw [failed] at turn
  cases turn

/-- **A step rejects only for want of an action**: a reduction also finds where to go. -/
theorem reason_eq_noAction {reason : RejectReason} (stacked : m.Stacked γ c.stack)
    (last : m.step c = .finished (.rejected reason)) : reason = .noAction c.state c.lookahead := by
  have turn := turn wf made lr1 stacked
  rw [last] at turn
  cases turn
  rfl

/-- **A step accepts** when the stack holds the start symbol and only the end marker is left. -/
theorem Stacked.accepted (stacked : m.Stacked γ c.stack) (last : m.step c = .finished .accepted) :
    γ = [g.start] ∧ c.input.length = 1 := by
  obtain ⟨start, aug⟩ := exists_augments made
  have turn := turn wf made lr1 stacked
  rw [last] at turn
  cases turn with
  | accept reads complete top _ length =>
    obtain ⟨p, found, dot⟩ := dot_eq_of_complete aug wf reads complete
    rw [top, aug.productions] at found
    obtain rfl : _ = p := Option.some.inj found
    obtain ⟨-, rfl⟩ := reads.top aug top
    rw [dot, List.take_length]
    exact ⟨rfl, length⟩

end Steps

/-! ## Runs -/

/-- the last outcome that a result tells of -/
def outcomeOf : Except GrammarError Parse → Outcome
  | .ok parse => .finished parse.verdict
  | .error e => .failed e

theorem advance_eq_inl_iff {records more : List Record} : m.advance (c, records) = .inl (d, more) ↔
    m.Goes c d ∧ more = c.record (m.choose c) :: records := by
  rw [Goes, advance]
  cases m.step c <;> simp [eq_comm]

theorem outcome_of_advance {records : List Record} {result : Except GrammarError Parse}
    (h : m.advance (c, records) = .inr result) : m.step c = outcomeOf result := by
  rw [advance] at h
  cases last : m.step c with
  | running d =>
    rw [last] at h
    cases h
  | finished verdict =>
    rw [last] at h
    cases h
    rfl
  | failed e =>
    rw [last] at h
    cases h
    rfl

theorem outcome_of_run {result : Except GrammarError Parse} (h : m.run c = some result) :
    ∃ d, ReflTransGen m.Goes c d ∧ m.step d = outcomeOf result := by
  obtain ⟨⟨d, records⟩, steps, last⟩ := iterate_eq_some_iff.1 h
  exact ⟨d, steps.lift Prod.fst fun _ _ left => (advance_eq_inl_iff.1 left).1, outcome_of_advance last⟩

theorem exists_iterate_of_goes (result : Except GrammarError Parse) (steps : ReflTransGen m.Goes c d)
    (last : m.step d = outcomeOf result) (records : List Record) :
    ∃ parsed, iterate m.advance (c, records) = some parsed ∧ outcomeOf parsed = outcomeOf result := by
  induction steps using ReflTransGen.head_induction_on generalizing records with
  | refl =>
    have advanced : ∃ parsed, m.advance (d, records) = .inr parsed ∧ outcomeOf parsed = outcomeOf result := by
      rw [advance, last]
      cases result <;> exact ⟨_, rfl, rfl⟩
    obtain ⟨parsed, eq, same⟩ := advanced
    exact ⟨parsed, iterate_inr eq, same⟩
  | head goes _ ih =>
    rw [iterate_inl (advance_eq_inl_iff.2 ⟨goes, rfl⟩)]
    exact ih _

/-- **The verdict of a run** is that of the last step. -/
theorem run_eq_ok_iff {verdict : Verdict} : (∃ trace, m.run c = some (.ok ⟨verdict, trace⟩)) ↔
    ∃ d, ReflTransGen m.Goes c d ∧ m.step d = .finished verdict := by
  constructor
  · rintro ⟨trace, eq⟩
    exact outcome_of_run eq
  · rintro ⟨d, steps, last⟩
    obtain ⟨parsed, eq, same⟩ := exists_iterate_of_goes (.ok ⟨verdict, []⟩) steps last []
    cases parsed with
    | ok parse =>
      cases same
      exact ⟨_, eq⟩
    | error e => cases same

/-- The records of the configurations on the way to a verdict. -/
inductive Recorded (m : Automaton) : Configuration → List Record → Verdict → Prop
  | last {c : Configuration} {verdict : Verdict} : m.step c = .finished verdict →
    Recorded m c [c.record (m.choose c)] verdict
  | step {c d : Configuration} {trace : List Record} {verdict : Verdict} : m.Goes c d → Recorded m d trace verdict →
    Recorded m c (c.record (m.choose c) :: trace) verdict

theorem exists_recorded {verdict : Verdict} (steps : ReflTransGen m.Goes c d) (last : m.step d = .finished verdict) :
    ∃ trace, m.Recorded c trace verdict := by
  induction steps using ReflTransGen.head_induction_on with
  | refl => exact ⟨_, .last last⟩
  | head goes _ ih =>
    obtain ⟨trace, recorded⟩ := ih
    exact ⟨_, .step goes recorded⟩

theorem Recorded.iterate_eq {trace : List Record} {verdict : Verdict} (h : m.Recorded c trace verdict)
    (records : List Record) : iterate m.advance (c, records) = some (.ok ⟨verdict, records.reverse ++ trace⟩) := by
  induction h generalizing records with
  | last last =>
    refine iterate_inr ?_
    rw [advance, last]
    simp
  | step goes _ ih =>
    rw [iterate_inl (advance_eq_inl_iff.2 ⟨goes, rfl⟩), ih]
    simp

/-- **The trace of a run** has one record for every configuration on the way to the verdict. -/
theorem run_eq_ok_iff_recorded {trace : List Record} {verdict : Verdict} :
    m.run c = some (.ok ⟨verdict, trace⟩) ↔ m.Recorded c trace verdict := by
  refine ⟨fun result => ?_, fun recorded => recorded.iterate_eq []⟩
  obtain ⟨d, steps, last⟩ := run_eq_ok_iff.1 ⟨trace, result⟩
  obtain ⟨trace', recorded⟩ := exists_recorded steps last
  cases result.symm.trans (recorded.iterate_eq [])
  exact recorded

/-- **A run has a result** exactly when its steps come to an end. -/
theorem isSome_run_iff : (m.run c).isSome ↔ ∃ d, ReflTransGen m.Goes c d ∧ ∀ e, ¬ m.Goes d e := by
  constructor
  · intro h
    obtain ⟨result, eq⟩ := Option.isSome_iff_exists.1 h
    obtain ⟨d, steps, last⟩ := outcome_of_run eq
    refine ⟨d, steps, fun e goes => ?_⟩
    rw [Goes, last] at goes
    cases result <;> cases goes
  · rintro ⟨d, steps, ends⟩
    have result : ∃ result, m.step d = outcomeOf result := by
      cases last : m.step d with
      | running e => exact absurd last (ends e)
      | finished verdict => exact ⟨.ok ⟨verdict, []⟩, rfl⟩
      | failed e => exact ⟨.error e, rfl⟩
    obtain ⟨result, last⟩ := result
    obtain ⟨parsed, eq, -⟩ := exists_iterate_of_goes result steps last []
    rw [run, eq]
    rfl

end Automaton

end ContextFree.Lr
