import ContextFree.Lr.Stack
import ContextFree.Proofs.Driver

/-!
The parser with the whole of its stack is the parser. A driver `Mirrors` a configuration when its stack has the entries
of the configuration above the bottom and its position leaves the same input. A round of the driver then does what a
step does with the configuration, so the bottom is never taken off and the stack never exhausted.

- `Mirrors.replace`, `Mirrors.round`: a reduction, and a round;
- `drive_eq_parse`: the parsers have the same results, whatever the table.
-/

namespace ContextFree.Lr

variable {m : Automaton} {input word rest : List Symbol} {d e : Driver} {c next : Configuration} {s : Symbol} {t n : Nat}
  {stack top below : List Entry} {trace : List Record}

/-! ## Entries -/

namespace Configuration

theorem entries_append (rest : List Symbol) :
    entries ⟨top ++ below, input⟩ = entries ⟨below, rest⟩ ++ top.reverse.map fun e => (some e.symbol, e.state) := by
  simp [entries]

theorem entries_push (rest : List Symbol) : entries ⟨⟨s, t⟩ :: c.stack, rest⟩ = c.entries ++ [(some s, t)] := by
  simp [entries]

theorem getLast?_entries (c : Configuration) : ∃ symbol, c.entries.getLast? = some (symbol, c.state) := by
  obtain ⟨stack, input⟩ := c
  cases stack with
  | nil => exact ⟨some endMark, rfl⟩
  | cons e stack =>
    refine ⟨some e.symbol, ?_⟩
    rw [entries_push (c := ⟨stack, input⟩), List.getLast?_concat]
    rfl

end Configuration

/-! ## Rounds -/

/-- The driver is where the configuration is. -/
structure Driver.Mirrors (input : List Symbol) (d : Driver) (c : Configuration) : Prop where
  stack : d.stack = c.entries
  input : c.input = input.drop d.position

/-- What comes of a round is what comes of a step; the stack stays as it is at the end, unless a right side was popped. -/
inductive Agrees (input : List Symbol) (c : Configuration) (trace : List Record) :
    Outcome → Except GrammarError Driver → Prop
  | running {next : Configuration} {e : Driver} : e.Mirrors input next → e.phase = .running → e.trace = trace →
    Agrees input c trace (.running next) (.ok e)
  | finished {verdict : Verdict} {e : Driver} : e.phase ≠ .running → e.phase.verdict = verdict → e.trace = trace →
    (e.Mirrors input c ∨ ∃ q s, verdict = .rejected (.missingGoto q s)) → Agrees input c trace (.finished verdict) (.ok e)
  | failed {error : GrammarError} : Agrees input c trace (.failed error) (.error error)

namespace Driver.Mirrors

theorem start : Driver.Mirrors (word ++ [endMark]) {} (.start word) := ⟨rfl, rfl⟩

theorem symbolAt_eq (mirrors : d.Mirrors input c) : symbolAt input d.position = c.lookahead := by
  rw [symbolAt, Configuration.lookahead, mirrors.input, List.headD_eq_head?_getD, List.head?_drop]

theorem actionAt_eq (mirrors : d.Mirrors input c) : m.actionAt input c.state d.position = m.choose c := by
  have last : d.position + 1 = input.length ↔ c.input.length = 1 := by
    rw [mirrors.input, List.length_drop]
    omega
  rw [Automaton.actionAt, Automaton.choose, mirrors.symbolAt_eq]
  split
  · rfl
  · cases m.action? c.state c.lookahead with
    | none => rfl
    | some action =>
      cases action with
      | accept => simp only [last]
      | shift | reduce | goto => rfl

theorem matches_iff {popped : List Entry} {right : List Symbol} (same : popped.length = right.length) :
    (((popped.map fun e => (some e.symbol, e.state)).zip right).all fun (entry, expected) =>
      entry.1.all (· = expected)) ↔ popped.map (·.symbol) = right := by
  induction popped generalizing right with
  | nil => simp [List.length_eq_zero_iff.1 same.symm]
  | cons e popped ih =>
    obtain ⟨s, right, rfl⟩ := List.exists_cons_of_length_eq_add_one same.symm
    rw [List.map_cons, List.zip_cons_cons, List.all_cons, Bool.and_eq_true, ih (by simpa using same), List.map_cons,
      List.cons_eq_cons]
    simp

/-- The whole stack comes apart where the stack above the bottom does. -/
theorem apart (mirrors : d.Mirrors input ⟨top ++ below, rest⟩) :
    d.stack.take (d.stack.length - top.length) = Configuration.entries ⟨below, rest⟩ ∧
      d.stack.drop (d.stack.length - top.length) = top.reverse.map fun e => (some e.symbol, e.state) := by
  have whole : d.stack = Configuration.entries ⟨below, rest⟩ ++ top.reverse.map fun e => (some e.symbol, e.state) :=
    mirrors.stack.trans (Configuration.entries_append rest)
  have height : d.stack.length - top.length = (Configuration.entries ⟨below, rest⟩).length := by
    rw [whole]
    simp
  rw [height, whole]
  exact ⟨List.take_left, List.drop_left⟩

/-- **A reduction** finds on the whole stack what it finds above the bottom. -/
theorem replace (mirrors : d.Mirrors input c) (running : d.phase = .running) :
    Agrees input c d.trace (m.reduce c n) (m.replace d n) := by
  obtain ⟨stack, rest⟩ := c
  rw [Automaton.reduce, Automaton.replace]
  cases m.production? n with
  | none => exact .failed
  | some p =>
    simp only
    have height : d.stack.length = stack.length + 1 := by rw [mirrors.stack, Configuration.entries]; simp
    by_cases short : stack.length < p.right.length
    · -- what is there is too short to be the right side
      have other : ((stack.take p.right.length).map (·.symbol)).reverse ≠ p.right := by
        intro eq
        have lengths := congrArg List.length eq
        simp only [List.length_reverse, List.length_map, List.length_take] at lengths
        omega
      rw [if_pos other, if_pos (by omega)]
      exact .failed
    · obtain ⟨top, below, rfl, popped⟩ : ∃ top below, stack = top ++ below ∧ top.length = p.right.length :=
        ⟨_, _, (List.take_append_drop p.right.length stack).symm,
          List.length_take_of_le (Nat.le_of_not_lt short)⟩
      have enough : ¬ d.stack.length ≤ p.right.length := by omega
      have found : (((top.reverse.map fun e => (some e.symbol, e.state)).zip p.right).all fun (entry, expected) =>
          entry.1.all (· = expected)) ↔ (top.map (·.symbol)).reverse = p.right := by
        rw [matches_iff (by simpa using popped), List.map_reverse]
      obtain ⟨kept, taken⟩ := mirrors.apart
      rw [popped] at kept taken
      rw [List.take_left' popped, List.drop_left' popped, if_neg enough, kept, taken]
      simp only [found]
      by_cases fits : (top.map (·.symbol)).reverse = p.right
      · rw [if_neg (not_not_intro fits), if_pos fits]
        obtain ⟨symbol, last⟩ := Configuration.getLast?_entries ⟨below, rest⟩
        rw [last]
        simp only
        cases m.goto? (Configuration.mk below rest).state p.left with
        | none => exact .finished (by simp) rfl rfl (.inr ⟨_, _, rfl⟩)
        | some target =>
          exact .running ⟨(Configuration.entries_push (c := ⟨below, rest⟩) rest).symm, mirrors.input⟩ running rfl
      · rw [if_pos fits, if_neg fits]
        exact .failed

theorem round_eq (mirrors : d.Mirrors input c) : m.round input d =
    m.carryOut input { d with trace := d.trace ++ [c.record (m.choose c)] } c.state (m.choose c) := by
  obtain ⟨symbol, last⟩ := c.getLast?_entries
  rw [Automaton.round, mirrors.stack, last]
  simp only [mirrors.actionAt_eq, Configuration.record, mirrors.input]

/-- **A round** does what a step does. -/
theorem round (mirrors : d.Mirrors input c) (running : d.phase = .running) :
    Agrees input c (d.trace ++ [c.record (m.choose c)]) (m.step c) (m.round input d) := by
  rw [mirrors.round_eq, Automaton.step]
  cases m.choose c with
  | none =>
    rw [Automaton.perform, Automaton.carryOut, mirrors.symbolAt_eq]
    exact .finished (by simp) rfl rfl (.inl ⟨mirrors.stack, mirrors.input⟩)
  | some action =>
    cases action with
    | shift target =>
      rw [Automaton.perform, Automaton.carryOut, mirrors.symbolAt_eq, mirrors.stack]
      exact .running ⟨(Configuration.entries_push _).symm, by simp [mirrors.input]⟩ running rfl
    | reduce production =>
      rw [Automaton.perform, Automaton.carryOut]
      exact replace (d := { d with trace := _ }) ⟨mirrors.stack, mirrors.input⟩ running
    | accept =>
      rw [Automaton.perform, Automaton.carryOut]
      exact .finished (by simp) rfl rfl (.inl ⟨mirrors.stack, mirrors.input⟩)
    | goto target =>
      rw [Automaton.perform, Automaton.carryOut, mirrors.symbolAt_eq]
      exact .finished (by simp) rfl rfl (.inl ⟨mirrors.stack, mirrors.input⟩)

end Driver.Mirrors

/-! ## Loops -/

section Loops

variable {records : List Record}

theorem iterate_of_not_running (ends : d.phase ≠ .running) :
    iterate (m.roundOrEnd input) d = some (.ok ⟨d.phase.verdict, d.trace⟩) :=
  iterate_inr (if_neg ends)

theorem iterate_of_round (running : d.phase = .running) (goes : m.round input d = .ok e) :
    iterate (m.roundOrEnd input) d = iterate (m.roundOrEnd input) e := by
  apply iterate_inl
  rw [Automaton.roundOrEnd, if_pos running, goes]

/-- The driver is running where the configuration is, with the same records. -/
def Driver.Follows (input : List Symbol) (d : Driver) (place : Configuration × List Record) : Prop :=
  d.Mirrors input place.1 ∧ d.phase = .running ∧ d.trace = place.2.reverse

/-- **Rounds keep up with steps**; after the last step the driver takes note of its end. -/
theorem inStep : InStep (m.roundOrEnd input) m.advance (Driver.Follows input) := by
  rintro d ⟨c, records⟩ ⟨mirrors, running, trace⟩
  have agrees := mirrors.round (m := m) running
  have advanced := Automaton.advance.eq_1 m c records
  have more : d.trace ++ [c.record (m.choose c)] = (c.record (m.choose c) :: records).reverse := by
    rw [trace, List.reverse_cons]
  generalize goes : m.round input d = result at agrees
  generalize m.step c = outcome at agrees advanced
  cases agrees with
  | @running next e mirrors' running' trace' =>
    refine .inl ⟨e, _, ?_, advanced, mirrors', running', trace'.trans more⟩
    rw [Automaton.roundOrEnd, if_pos running, goes]
  | @finished verdict e ends last trace' _ =>
    refine .inr ⟨_, ?_, iterate_inr advanced⟩
    rw [iterate_of_round running goes, iterate_of_not_running ends, last, trace', more]
  | @failed error =>
    refine .inr ⟨.error error, iterate_inr ?_, iterate_inr advanced⟩
    rw [Automaton.roundOrEnd, if_pos running, goes]

/-- **The parser with the whole of its stack** has the same result on every word as the parser that leaves the bottom
out, for every table; where one goes on for ever, so does the other. -/
theorem drive_eq_parse (m : Automaton) (word : List Symbol) : m.drive word = m.parse word := by
  rw [Automaton.drive, Automaton.parse, Automaton.run]
  split
  · exact inStep.iterate_eq ⟨.start, rfl, rfl⟩
  · rfl

end Loops

end ContextFree.Lr
