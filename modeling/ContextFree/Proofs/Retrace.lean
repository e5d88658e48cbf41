import ContextFree.Lr.Trace
import ContextFree.Proofs.EarlyError
import ContextFree.Proofs.Tracking
import ContextFree.Proofs.Unambiguous

/-!
The trace of an accepted word is its rightmost derivation, told from the end. A configuration shows a form: the
symbols on the stack, and then what is left of the word. A shift leaves this form as it is, and a reduction undoes one
step of a rightmost derivation, since nothing but the end of a word stands behind the stack.

- `progress`: a step does what its record says;
- `Progress.continued`, `Recorded.isChain`: so every record is continued by the next one;
- `Progress.rightmost`, `Recorded.rightmost`: what is reduced from a configuration on is a rightmost derivation of the
  form that it shows;
- `end_of_accepted`: where it begins;
- `parse_retraces`: the parse retraces the derivation.
-/

namespace ContextFree.Lr

open Relation

variable {g : Grammar} {m : Automaton} {word : List Symbol} {c d : Configuration} {verdict : Verdict}
  {trace : List Record}

/-- the symbols on the stack and then what is left of the word, without the end marker -/
def Configuration.form (c : Configuration) : List Symbol := c.stack.reverse.map (·.symbol) ++ c.input.dropLast

theorem exists_record_stack (stack : List Entry) (input : List Symbol) (action : Option Action) :
    ∃ below symbol, ((Configuration.mk stack input).record action).stack = below ++ [(symbol, topState stack)] := by
  cases stack with
  | nil => exact ⟨[], some endMark, rfl⟩
  | cons e rest =>
    refine ⟨(some endMark, Dfa.initial) :: rest.reverse.map (fun e => (some e.symbol, e.state)), some e.symbol, ?_⟩
    simp [Configuration.record, Configuration.entries, topState, Configuration.state]

namespace Automaton

open Augmented

/-! ## One step -/

/-- what a step does, with the action that is on record -/
inductive Progress (m : Automaton) (g : Grammar) : Configuration → Configuration → Prop
  | shift {stack : List Entry} {x : Symbol} {rest : List Symbol} {t : Nat} :
    m.choose ⟨stack, x :: rest⟩ = some (.shift t) → Progress m g ⟨stack, x :: rest⟩ ⟨⟨x, t⟩ :: stack, rest⟩
  | reduce {popped stack : List Entry} {input : List Symbol} {n t : Nat} {p : Production} :
    m.choose ⟨popped ++ stack, input⟩ = some (.reduce n) → m.production? n = some p → p ∈ g.rules →
    (popped.map (·.symbol)).reverse = p.right → m.goto? (topState stack) p.left = some t →
    Progress m g ⟨popped ++ stack, input⟩ ⟨⟨p.left, t⟩ :: stack, input⟩

/-- What comes of an action is the next record. -/
theorem Progress.continued (h : m.Progress g c d) (next : Option Action) :
    m.Continued (c.record (m.choose c)) (d.record next) := by
  cases h with
  | @shift stack x rest t chosen =>
    have pushed : (Configuration.mk (⟨x, t⟩ :: stack) rest).record next =
        ⟨((Configuration.mk stack (x :: rest)).record next).stack ++ [(some x, t)], rest, next⟩ := by
      simp [Configuration.record, Configuration.entries]
    rw [chosen, pushed]
    exact .shift next
  | @reduce popped stack input n t p chosen known _ symbols target =>
    obtain ⟨below, symbol, exposed⟩ := exists_record_stack stack input next
    have before : (Configuration.mk (popped ++ stack) input).record (some (.reduce n)) =
        ⟨below ++ (symbol, topState stack) :: popped.reverse.map (fun e => (some e.symbol, e.state)), input,
          some (.reduce n)⟩ := by
      rw [List.append_cons, ← exposed]
      simp [Configuration.record, Configuration.entries]
    have after : (Configuration.mk (⟨p.left, t⟩ :: stack) input).record next =
        ⟨below ++ [(symbol, topState stack), (some p.left, t)], input, next⟩ := by
      rw [List.append_cons, ← exposed]
      simp [Configuration.record, Configuration.entries]
    rw [chosen, before, after]
    refine .reduce next known ?_ target
    rw [← symbols]
    simp

/-- **A step goes back** in a rightmost derivation when a word is ahead: by nothing if it shifts, and by the production
that it reduces. -/
theorem Progress.rightmost (h : m.Progress g c d) (ahead : IsWord c.input.dropLast) (more : d.input ≠ []) :
    ∃ ps, (c.record (m.choose c)).reduction?.toList.map m.production? = ps.map some ∧
      RightmostDerivation g.rules d.form ps c.form := by
  cases h with
  | @shift stack x rest t chosen =>
    have same : Configuration.form ⟨⟨x, t⟩ :: stack, rest⟩ = Configuration.form ⟨stack, x :: rest⟩ := by
      simp [Configuration.form, List.dropLast_cons_of_ne_nil more]
    refine ⟨[], ?_, same ▸ .refl _⟩
    rw [chosen]
    rfl
  | @reduce popped stack input n t p chosen known mem symbols _ =>
    have undone : Configuration.form ⟨popped ++ stack, input⟩ =
        stack.reverse.map (·.symbol) ++ p.right ++ input.dropLast := by
      simp [Configuration.form, ← symbols]
    have done : Configuration.form ⟨⟨p.left, t⟩ :: stack, input⟩ =
        stack.reverse.map (·.symbol) ++ p.left :: input.dropLast := by
      simp [Configuration.form]
    refine ⟨[p], ?_, ?_⟩
    · rw [chosen]
      exact congrArg (fun q => [q]) known
    · rw [done, undone]
      exact .step mem ahead (.refl _)

section

variable (wf : g.WellFormed) (made : ofGrammar g = .ok m) (lr1 : m.isLr1)

include wf made lr1

/-- **What a step does** is what its record says. -/
theorem progress (steps : ReflTransGen m.Goes (.start word) c) (goes : m.Goes c d) : m.Progress g c d := by
  obtain ⟨start, aug⟩ := exists_augments made
  obtain ⟨γ, u, rest, stacked, -, -, left⟩ := exists_read wf made lr1 steps
  obtain ⟨t, chosen, rfl⟩ | ⟨n, chosen, reduced⟩ := goes_iff.1 goes
  · obtain ⟨stack, input⟩ := c
    cases input with
    | nil => simp at left
    | cons x rest => exact .shift chosen
  · obtain ⟨p, t, known, symbols, target, rfl⟩ := reduce_eq_running_iff.1 reduced
    have inner : n ≠ 0 := by
      obtain ⟨-, asked, -⟩ := (choose_iff wf made lr1 stacked).1 chosen
      generalize c.lookahead = x at asked
      cases asked with
      | reduce _ _ inner => exact inner
    have whole : c = ⟨c.stack.take p.right.length ++ c.stack.drop p.right.length, c.input⟩ := by
      rw [List.take_append_drop]
    have progress := Progress.reduce (whole ▸ chosen) known (aug.mem_rules_of_ne_zero known inner) symbols target
    rwa [← whole] at progress

end

/-! ## The whole trace -/

theorem Recorded.head (h : m.Recorded c trace verdict) : trace.head? = some (c.record (m.choose c)) := by
  cases h <;> rfl

/-- Every record shows a configuration on the way, from which the rest of the trace is recorded. -/
theorem Recorded.exists_of_mem {r : Record} (h : m.Recorded c trace verdict) (mem : r ∈ trace) :
    ∃ d later, ReflTransGen m.Goes c d ∧ r = d.record (m.choose d) ∧ m.Recorded d later verdict := by
  induction h with
  | @last c _ last => exact ⟨c, _, .refl, List.mem_singleton.1 mem, .last last⟩
  | @step c d trace _ goes later ih =>
    rcases List.mem_cons.1 mem with rfl | mem
    · exact ⟨c, _, .refl, rfl, .step goes later⟩
    · obtain ⟨e, rest, steps, eq, recorded⟩ := ih mem
      exact ⟨e, rest, .head goes steps, eq, recorded⟩

theorem Stacked.form_eq {γ rest : List Symbol} (stacked : m.Stacked γ c.stack) (input : c.input = rest ++ [endMark]) :
    c.form = γ ++ rest := by
  rw [Configuration.form, stacked.symbols, input, List.dropLast_concat]

section

variable (wf : g.WellFormed) (made : ofGrammar g = .ok m) (lr1 : m.isLr1)

include wf made lr1

/-- **At the end** only the end marker is left, and the start symbol is on the stack. -/
theorem end_of_accepted (steps : ReflTransGen m.Goes (.start word) c) (last : m.step c = .finished .accepted) :
    c.input = [endMark] ∧ c.form = [g.start] := by
  obtain ⟨γ, u, rest, stacked, -, -, input⟩ := exists_read wf made lr1 steps
  obtain ⟨rfl, length⟩ := stacked.accepted wf made lr1 last
  obtain rfl : rest = [] := by simpa [input] using length
  exact ⟨input, stacked.form_eq input⟩

theorem Recorded.isChain (steps : ReflTransGen m.Goes (.start word) c) (h : m.Recorded c trace verdict) :
    trace.IsChain m.Continued := by
  induction h with
  | last => exact .singleton _
  | @step c d trace _ goes later ih =>
    refine List.isChain_cons.2 ⟨fun r first => ?_, ih (steps.tail goes)⟩
    obtain rfl := Option.some.inj (later.head.symm.trans first)
    exact (progress wf made lr1 steps goes).continued _

/-- **What is reduced from a configuration on** is a rightmost derivation of the form that it shows. -/
theorem Recorded.rightmost (isWord : IsWord word) (steps : ReflTransGen m.Goes (.start word) c)
    (h : m.Recorded c trace .accepted) : ∃ ps,
      (trace.filterMap (·.reduction?)).reverse.map m.production? = ps.map some ∧
      RightmostDerivation g.rules [g.start] ps c.form := by
  generalize accepts : Verdict.accepted = verdict at h
  induction h with
  | @last c verdict last =>
    subst accepts
    obtain ⟨-, form⟩ := end_of_accepted wf made lr1 steps last
    refine ⟨[], ?_, form ▸ .refl _⟩
    rw [choose_of_accepted last]
    rfl
  | @step c d trace _ goes later ih =>
    obtain ⟨ps, numbers, derivation⟩ := ih (steps.tail goes) accepts
    obtain ⟨γ, u, rest, -, -, rfl, input⟩ := exists_read wf made lr1 steps
    have ahead : IsWord c.input.dropLast := by
      rw [input, List.dropLast_concat]
      exact (isWord_append.1 isWord).2
    obtain ⟨qs, number, back⟩ := (progress wf made lr1 steps goes).rightmost ahead
      (input_ne_nil wf made lr1 (steps.tail goes))
    refine ⟨ps ++ qs, ?_, derivation.trans back⟩
    rw [List.map_append, ← numbers, ← number]
    cases reduced : (c.record (m.choose c)).reduction? <;> simp [reduced]

/-- **The form of a configuration** on the way to acceptance lies between the start symbol and the word. -/
theorem Recorded.forms (isWord : IsWord word) (steps : ReflTransGen m.Goes (.start word) c)
    (h : m.Recorded c trace .accepted) : ∃ rest, c.input = rest ++ [endMark] ∧
      Derives g.rules [g.start] (c.stack.reverse.map (·.symbol) ++ rest) ∧
      Derives g.rules (c.stack.reverse.map (·.symbol) ++ rest) word := by
  obtain ⟨ps, -, derivation⟩ := h.rightmost wf made lr1 isWord steps
  obtain ⟨γ, u, rest, stacked, read, rfl, input⟩ := exists_read wf made lr1 steps
  have onward : Derives g.rules (γ ++ rest) (u ++ rest) := (mem_form_words.1 read).2.append .refl
  rw [stacked.symbols]
  exact ⟨rest, input, stacked.form_eq input ▸ derivation.derives, onward⟩

end

end Automaton

/-- **An accepting trace is the rightmost derivation** of the word. It begins with the whole word and ends with the
end marker; from each record to the next one there is the action on record and nothing else; every record shows a form
on the way from the start symbol to the word; and the reductions, read backwards, are the productions of the rightmost
derivation. -/
theorem parse_retraces {parse : Parse} (wf : g.WellFormed) (made : Automaton.ofGrammar g = .ok m) (lr1 : m.isLr1)
    (parsed : m.parse word = some (.ok parse)) (accepted : parse.verdict = .accepted) : parse.Retraces m g word := by
  obtain ⟨verdict, trace⟩ := parse
  obtain rfl : verdict = .accepted := accepted
  have isWord : IsWord word := ((Automaton.accepted_iff wf made lr1 word).1 ⟨trace, parsed⟩).1
  rw [Automaton.parse, if_pos lr1, Automaton.run_eq_ok_iff_recorded] at parsed
  refine { first := ?first, last := ?last, continued := ?continued, forms := ?forms, productions := ?productions }
  case first => exact ⟨_, parsed.head⟩
  case last =>
    obtain ⟨d, steps, last, record, -⟩ := parsed.exists_last
    obtain ⟨input, -⟩ := Automaton.end_of_accepted wf made lr1 steps last
    rw [Automaton.choose_of_accepted last, Configuration.record, input] at record
    exact ⟨_, record⟩
  case continued => exact parsed.isChain wf made lr1 .refl
  case forms =>
    intro r mem
    obtain ⟨d, later, steps, rfl, recorded⟩ := parsed.exists_of_mem mem
    obtain ⟨rest, input, derived, derives⟩ := recorded.forms wf made lr1 isWord steps
    exact ⟨_, rest, by simp [Configuration.record, Configuration.entries], input, derived, derives⟩
  case productions =>
    obtain ⟨ps, numbers, derivation⟩ := parsed.rightmost wf made lr1 isWord .refl
    have form : (Configuration.start word).form = word := by simp [Configuration.form, Configuration.start]
    rw [form] at derivation
    exact ⟨ps, numbers, fun qs => ⟨fun other => Automaton.rightmost_unique wf made lr1 isWord other derivation,
      fun eq => eq ▸ derivation⟩⟩

set_option maxRecDepth 100000 in
/-- The parse of one pair of brackets retraces its derivation. -/
theorem parse_retraces_brackets : brackets.WellFormed ∧ ∃ m, Automaton.ofGrammar brackets = .ok m ∧ m.isLr1 ∧
    ∃ parse, m.parse ['a', 'b'] = some (.ok parse) ∧ parse.verdict = .accepted ∧
      parse.Retraces m brackets ['a', 'b'] := by
  obtain ⟨m, made, lr1⟩ : ∃ m, Automaton.ofGrammar brackets = .ok m ∧ m.isLr1 :=
    Automaton.exists_lr1 (by decide +kernel)
  obtain ⟨trace, parsed⟩ := (Automaton.accepted_iff brackets_wellFormed made lr1 ['a', 'b']).2 brackets_generates
  exact ⟨brackets_wellFormed, m, made, lr1, _, parsed, rfl, parse_retraces brackets_wellFormed made lr1 parsed rfl⟩

end ContextFree.Lr
