import ContextFree.Proofs.Loop
import ContextFree.Proofs.Stack

/-!
What cannot happen in a parse. The automaton tracks the stack through any number of rounds, so a reduction always finds
its right side on top, and the state below it always leads somewhere on the left side; the bottom is never taken off. A
table without conflicts therefore leaves two ways for a parse to end: it accepts, or it finds no action for the next
symbol.

- `Stacked.states`: what lies above the bottom holds the states that its symbols lead to;
- `Passes.exists_mirrored`: after any number of rounds the driver mirrors a configuration under the states of the
  automaton;
- `roundOrEnd_steps_iff`: the rounds of the loop are those that the driver passes through;
- `parse_tracks`: so the automaton tracks the driver all the way, and a parse ends as the driver does.
-/

namespace ContextFree.Lr

open Relation

variable {g : Grammar} {m : Automaton} {γ input word : List Symbol} {stack : List Entry} {c : Configuration}
  {path : List Driver} {d e : Driver}

namespace Automaton

/-- The symbols of a stack are those that it was built from. -/
theorem Stacked.symbols (h : m.Stacked γ stack) : stack.reverse.map (·.symbol) = γ := by
  induction h with
  | bottom => rfl
  | push _ _ ih =>
    rw [List.reverse_cons, List.map_append, ih]
    rfl

/-- **An entry holds the state of its symbols**, since what lies above it can be taken off. -/
theorem Stacked.states (h : m.Stacked γ c.stack) : ∃ above, c.entries = (some endMark, Dfa.initial) :: above ∧
    ∀ below entry rest, above = below ++ entry :: rest →
      ∃ symbols : List Symbol, (below ++ [entry]).map Prod.fst = symbols.map some ∧ m.dfa.run symbols = some entry.2 := by
  refine ⟨_, rfl, ?_⟩
  intro below entry rest bottomUp
  obtain ⟨lower, upper, whole, rfl, tail⟩ := List.map_eq_append_iff.1 bottomUp
  obtain ⟨e, upper, rfl, rfl, rfl⟩ := List.map_eq_cons_iff.1 tail
  refine ⟨(lower ++ [e]).map (·.symbol), by simp, ?_⟩
  have symbols : γ = (lower ++ [e]).map (·.symbol) ++ upper.map (·.symbol) := by
    rw [← h.symbols, whole]
    simp
  have stack : c.stack = upper.reverse ++ e :: lower.reverse := by
    rw [← List.reverse_reverse c.stack, whole]
    simp
  rw [symbols, stack] at h
  obtain ⟨kept, -⟩ := h.pop
  rw [List.length_map, ← List.length_reverse, List.drop_left] at kept
  exact kept.run (c := ⟨e :: lower.reverse, []⟩)

/-! ## Rounds -/

theorem shows_of_mirrors (mirrors : d.Mirrors input c) : m.Shows input d (c.record (m.choose c)) := by
  obtain ⟨symbol, last⟩ := c.getLast?_entries
  refine ⟨symbol, c.state, by rw [mirrors.stack, last], ?_⟩
  rw [mirrors.actionAt_eq, mirrors.stack, ← mirrors.input]
  rfl

section

variable (wf : g.WellFormed) (made : ofGrammar g = .ok m) (lr1 : m.isLr1)

include wf made lr1

/-- **After any number of rounds** the driver mirrors a configuration whose stack lies under the states of the automaton;
it is rejected for want of an action only, and its trace shows the states on the way. -/
theorem Passes.exists_mirrored (passes : m.Passes (word ++ [endMark]) path d) :
    ∃ c γ, d.Mirrors (word ++ [endMark]) c ∧ m.Stacked γ c.stack ∧
      (∀ reason, d.phase = .rejected reason → m.choose c = none ∧ reason = .noAction c.state c.lookahead) ∧
      List.Forall₂ (m.Shows (word ++ [endMark])) path d.trace := by
  induction passes with
  | start => exact ⟨.start word, [], .start, .bottom, by simp, .nil⟩
  | @round path d e _ running goes ih =>
    obtain ⟨c, γ, mirrors, stacked, -, shown⟩ := ih
    have shown : List.Forall₂ (m.Shows (word ++ [endMark])) (path ++ [d]) (d.trace ++ [c.record (m.choose c)]) :=
      List.rel_append shown (.cons (shows_of_mirrors mirrors) .nil)
    have agrees := mirrors.round (m := m) running
    rw [goes] at agrees
    generalize step : m.step c = outcome at agrees
    cases agrees with
    | @running next _ mirrors' running' trace =>
      obtain ⟨δ, stacked'⟩ := exists_stacked wf made lr1 stacked (.single step)
      exact ⟨next, δ, mirrors', stacked', by simp [running'], trace ▸ shown⟩
    | @finished verdict _ ends last trace kept =>
      have other : ∀ q s, verdict ≠ .rejected (.missingGoto q s) := by
        rintro q s rfl
        cases reason_eq_noAction wf made lr1 stacked step
      have mirrors' : e.Mirrors (word ++ [endMark]) c := kept.resolve_right fun ⟨q, s, eq⟩ => other q s eq
      refine ⟨c, γ, mirrors', stacked, ?_, trace ▸ shown⟩
      intro reason rejected
      rw [rejected, Phase.verdict] at last
      subst last
      rcases step_eq_finished step with ⟨eq, -⟩ | ⟨eq, none⟩ | ⟨q, s, eq⟩
      · cases eq
      · cases eq
        exact ⟨none, rfl⟩
      · exact absurd eq (other q s)

/-- **The automaton tracks the driver.** -/
theorem Passes.tracks (passes : m.Passes (word ++ [endMark]) path d) : m.Tracks (word ++ [endMark]) path d := by
  obtain ⟨c, γ, mirrors, stacked, rejected, shown⟩ := exists_mirrored wf made lr1 passes
  refine ⟨mirrors.stack ▸ stacked.states, ?_, ?_, shown⟩
  · intro running
    have agrees := mirrors.round (m := m) running
    cases goes : m.round (word ++ [endMark]) d with
    | ok e => exact ⟨e, rfl⟩
    | error error =>
      rw [goes] at agrees
      generalize step : m.step c = outcome at agrees
      cases agrees
      exact absurd step (step_ne_failed wf made lr1 stacked error)
  · intro reason ends
    obtain ⟨none, rfl⟩ := rejected reason ends
    obtain ⟨symbol, last⟩ := c.getLast?_entries
    exact ⟨symbol, c.state, by rw [mirrors.stack, last], by rw [mirrors.actionAt_eq, none],
      by rw [mirrors.symbolAt_eq]⟩

end

/-! ## The loop -/

theorem leaves_iff : Leaves (m.roundOrEnd input) d e ↔ d.phase = .running ∧ m.round input d = .ok e := by
  rw [Leaves, roundOrEnd]
  split
  · rename_i running
    cases m.round input d <;> simp [running]
  · rename_i ends
    simp [ends]

theorem roundOrEnd_steps_iff :
    ReflTransGen (Leaves (m.roundOrEnd input)) {} d ↔ ∃ path, m.Passes input path d := by
  constructor
  · intro steps
    induction steps with
    | refl => exact ⟨[], .start⟩
    | tail _ left ih =>
      obtain ⟨path, passes⟩ := ih
      obtain ⟨running, goes⟩ := leaves_iff.1 left
      exact ⟨_, .round passes running goes⟩
  · rintro ⟨path, passes⟩
    induction passes with
    | start => exact .refl
    | round _ running goes ih => exact ih.tail (leaves_iff.2 ⟨running, goes⟩)

end Automaton

/-- **The automaton tracks the stack** through any number of rounds of the parse of any word: every entry holds the state
that its symbols lead to. So no round fails, none misses a goto and the stack is never exhausted; a parse that comes to
an end has the verdict and the trace of the driver, and where that is a rejection there was no action for the state on
top and the next symbol. -/
theorem parse_tracks (wf : g.WellFormed) (made : Automaton.ofGrammar g = .ok m) (lr1 : m.isLr1) (word : List Symbol) :
    (∀ path d, m.Passes (word ++ [endMark]) path d → m.Tracks (word ++ [endMark]) path d) ∧
    m.parse word = m.drive word ∧
    ∀ result, m.drive word = some result ↔ ∃ path d, m.Passes (word ++ [endMark]) path d ∧ d.phase ≠ .running ∧
      result = .ok ⟨d.phase.verdict, d.trace⟩ := by
  refine ⟨fun path d passes => passes.tracks wf made lr1, (drive_eq_parse m word).symm, ?_⟩
  intro result
  rw [Automaton.drive, if_pos lr1, iterate_eq_some_iff]
  constructor
  · rintro ⟨d, steps, last⟩
    obtain ⟨path, passes⟩ := Automaton.roundOrEnd_steps_iff.1 steps
    by_cases running : d.phase = .running
    · obtain ⟨e, goes⟩ := (passes.tracks wf made lr1).sound running
      rw [Automaton.roundOrEnd, if_pos running, goes] at last
      cases last
    · rw [Automaton.roundOrEnd, if_neg running] at last
      cases last
      exact ⟨path, d, passes, running, rfl⟩
  · rintro ⟨path, d, passes, ends, rfl⟩
    exact ⟨d, Automaton.roundOrEnd_steps_iff.2 ⟨path, passes⟩, if_neg ends⟩

/-- The first record for one opening bracket: an empty right side comes before it. -/
def atBracket : Record := ⟨[(some endMark, Dfa.initial)], ['a', endMark], some (.reduce 1)⟩

/-- the second one -/
def pastEmpty : Record := ⟨[(some endMark, Dfa.initial), (some 'S', 1)], ['a', endMark], some (.shift 2)⟩

/-- Two rounds on one opening bracket leave two entries above the bottom. -/
theorem parse_tracks_brackets : brackets.WellFormed ∧ ∃ m, Automaton.ofGrammar brackets = .ok m ∧ m.isLr1 ∧
    ∃ path d, m.Passes ['a', endMark] path d ∧
      d.stack = [(some endMark, Dfa.initial), (some 'S', 1), (some 'a', 2)] ∧ m.Tracks ['a', endMark] path d ∧
      m.parse ['a'] = m.drive ['a'] ∧
      ∀ result, m.drive ['a'] = some result ↔ ∃ path d, m.Passes ['a', endMark] path d ∧ d.phase ≠ .running ∧
        result = .ok ⟨d.phase.verdict, d.trace⟩ := by
  have evaluated : (Automaton.ofGrammar brackets).toOption.any fun m => m.isLr1 ∧
      m.round ['a', endMark] {} = .ok ⟨pastEmpty.stack, 0, [atBracket], .running⟩ ∧
      m.round ['a', endMark] ⟨pastEmpty.stack, 0, [atBracket], .running⟩ =
        .ok ⟨pastEmpty.stack ++ [(some 'a', 2)], 1, [atBracket, pastEmpty], .running⟩ := by decide +kernel
  cases made : Automaton.ofGrammar brackets with
  | error e =>
    rw [made] at evaluated
    cases evaluated
  | ok m =>
    rw [made] at evaluated
    obtain ⟨lr1, pushes, shifts⟩ := of_decide_eq_true evaluated
    have passes : m.Passes ['a', endMark] [{}, _] _ := .round (.round .start rfl pushes) rfl shifts
    obtain ⟨tracks, same⟩ := parse_tracks brackets_wellFormed made lr1 ['a']
    exact ⟨brackets_wellFormed, m, rfl, lr1, _, _, passes, rfl, tracks _ _ passes, same⟩

end ContextFree.Lr
