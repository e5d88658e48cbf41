import ContextFree.Proofs.Halting
import ContextFree.Proofs.ViablePrefix

/-!
The bottom-up parser finds an error as soon as there is one. In a grammar without useless symbols what is on the stack
can always be completed to a word of the language, so the parser never reads a symbol too many. And it looks at the next
symbol only: had another word of the language the same beginning and the same symbol after it, then the parser would be
stuck on that word too, and it accepts all of them.

- `outspoken_of_useful`: without useless symbols no symbol is mute, so the parser comes to an end;
- `Recorded.exists_last`: the end of a run, and what is left of the input there, by the number of shifts;
- `exists_read`: what is read of a word belongs to the form on the stack;
- `Stacked.exists_generates`: so it is the beginning of a word of the language;
- `Goes.swap`, `swap_steps`, `finished_swap`: what stands behind the next symbol does not matter;
- `not_generates_of_rejects`: so no word of the language goes on where the parser rejects;
- `parse_rejects_early`: the parser comes to a verdict, and where it rejects it stops early.
-/

namespace ContextFree.Lr

open Relation

variable {g : Grammar} {m : Automaton} {x : Symbol} {b r r' word : List Symbol} {stack : List Entry}
  {c d : Configuration} {verdict : Verdict} {trace : List Record}

theorem outspoken_of_useful (wf : g.WellFormed) (rule : g.hasStartRule) (useful : g.uselessSymbols.isEmpty) :
    Outspoken g := by
  intro p mem s hs
  have known : s ∈ g.symbols := Grammar.mem_symbols.2 ⟨p, mem, .inr hs⟩
  obtain ⟨w, hw⟩ := Grammar.exists_word_of_mem_generating (Grammar.mem_generating_of_useful rule useful known)
  rw [Grammar.not_isMute_iff]
  cases w with
  | nil => exact .inl (Grammar.mem_nullable.2 hw)
  | cons x w =>
    have terminal : Symbol.isTerminal x := hw.1 x List.mem_cons_self
    exact .inr ⟨x, (Grammar.mem_of wf.lefts).2 ⟨terminal, Grammar.chain_of_mem_words hw⟩⟩

namespace Automaton

open Augmented

/-! ## What is read -/

/-- **The end of a run** is on record last, and as many symbols of the input are gone as shifts are on record. -/
theorem Recorded.exists_last (h : m.Recorded c trace verdict) : ∃ d, ReflTransGen m.Goes c d ∧
    m.step d = .finished verdict ∧ trace.getLast? = some (d.record (m.choose d)) ∧
    d.input = c.input.drop (trace.countP (·.isShift)) := by
  induction h with
  | @last c verdict last =>
    have still : (c.record (m.choose c)).isShift = false := by
      rw [Automaton.step] at last
      cases chosen : m.choose c with
      | none => rfl
      | some act =>
        cases act with
        | shift t => simp [chosen, perform] at last
        | _ => rfl
    refine ⟨c, .refl, last, rfl, ?_⟩
    rw [List.countP_singleton, still]
    rfl
  | @step c e trace verdict goes _ ih =>
    obtain ⟨d, steps, last, record, left⟩ := ih
    refine ⟨d, .head goes steps, last, by rw [List.getLast?_cons, record]; rfl, left.trans ?_⟩
    obtain ⟨t, chosen, rfl⟩ | ⟨k, chosen, reduced⟩ := goes_iff.1 goes
    · have shift : (c.record (m.choose c)).isShift = true := by
        rw [chosen]
        rfl
      rw [List.countP_cons_of_pos shift, List.drop_tail]
    · have reduce : ¬ (c.record (m.choose c)).isShift = true := by
        rw [chosen]
        exact Bool.false_ne_true
      obtain ⟨p, t, -, -, -, rfl⟩ := reduce_eq_running_iff.1 reduced
      rw [List.countP_cons_of_neg reduce]

section

variable (wf : g.WellFormed) (made : ofGrammar g = .ok m) (lr1 : m.isLr1)

include wf made lr1

/-- The end marker is never read: it is the last symbol of the input, and no item asks for it. -/
theorem input_ne_nil (steps : ReflTransGen m.Goes (.start word) d) : d.input ≠ [] := by
  obtain ⟨start, aug⟩ := exists_augments made
  induction steps with
  | refl => simp [Configuration.start]
  | @tail c d steps goes ih =>
    obtain ⟨γ, u, stacked, -, eq⟩ := justified_start.steps wf made lr1 steps
    have turn := turn wf made lr1 stacked
    rw [show m.step c = .running d from goes] at turn
    cases turn with
    | @shift i x t rest _ behind _ input _ =>
      rintro rfl
      rw [input] at eq
      have marked : endMark = x := (List.cons.inj (List.append_inj_right' eq rfl)).1
      exact ne_endMark_of_behind aug wf behind marked.symm
    | reduce => exact ih

/-- **What is read of a word** belongs to the form on the stack, and the rest of the word is still there. -/
theorem exists_read (steps : ReflTransGen m.Goes (.start word) d) : ∃ γ u rest, m.Stacked γ d.stack ∧
    u ∈ (words g.rules).form γ ∧ word = u ++ rest ∧ d.input = rest ++ [endMark] := by
  obtain ⟨γ, u, stacked, derived, eq⟩ := justified_start.steps wf made lr1 steps
  obtain ⟨rest, x, input⟩ := (List.eq_nil_or_concat' d.input).resolve_left (input_ne_nil wf made lr1 steps)
  rw [input, ← List.append_assoc] at eq
  obtain ⟨same, marked⟩ := List.append_inj' eq rfl
  exact ⟨γ, u, rest, stacked, derived, same, marked ▸ input⟩

omit lr1 in
/-- **What is read begins a word of the language**: an item of the state on top is valid for the form on the stack. -/
theorem Stacked.exists_generates (rule : g.hasStartRule) (useful : g.uselessSymbols.isEmpty) {γ u : List Symbol}
    (stacked : m.Stacked γ c.stack) (derived : u ∈ (words g.rules).form γ) : ∃ v, g.Generates (u ++ v) := by
  obtain ⟨start, aug⟩ := exists_augments made
  have productive := aug.productive rule useful
  obtain ⟨i, reads⟩ := exists_reads wf made stacked.run
  have valid := reads.valid aug wf productive
  have sub : words g.rules ≤ words m.augmented.productions := fun s => words_mono (fun p => aug.mem_of_mem_rules) s
  exact valid.exists_generates aug productive (Reading.form_mono (fun s _ => sub s) derived)

theorem exists_parse (outspoken : Outspoken g) (word : List Symbol) : ∃ parse, m.parse word = some (.ok parse) := by
  rw [parse, if_pos lr1]
  have begins : m.Stacked [] (Configuration.start word).stack := .bottom
  obtain ⟨result, run⟩ := Option.isSome_iff_exists.1 (isSome_run wf made lr1 outspoken begins)
  cases result with
  | ok parse => exact ⟨parse, run⟩
  | error e =>
    -- no step fails
    obtain ⟨d, steps, last⟩ := outcome_of_run run
    obtain ⟨γ, stacked⟩ := exists_stacked wf made lr1 begins steps
    exact absurd last (step_ne_failed wf made lr1 stacked e)

end

/-! ## What is not read -/

/-- Which action is chosen does not depend on what stands behind the next symbol, as long as something does. -/
theorem choose_swap (b : List Symbol) (more : r ≠ []) (more' : r' ≠ []) :
    m.choose ⟨stack, b ++ x :: r⟩ = m.choose ⟨stack, b ++ x :: r'⟩ := by
  have next : (Configuration.mk stack (b ++ x :: r)).lookahead = (Configuration.mk stack (b ++ x :: r')).lookahead := by
    cases b <;> rfl
  have several : ∀ {r : List Symbol}, r ≠ [] → (b ++ x :: r).length ≠ 1 := by
    intro r more
    have := List.length_pos_iff.2 more
    simp only [List.length_append, List.length_cons]
    omega
  have top : (Configuration.mk stack (b ++ x :: r)).state = (Configuration.mk stack (b ++ x :: r')).state := rfl
  simp only [choose, next, top, several more, several more']

/-- **A step before a symbol is read** does not depend on what stands behind that symbol. -/
theorem Goes.swap (more : r ≠ []) (more' : r' ≠ []) (goes : m.Goes c d) (left : d.input = b ++ x :: r) :
    ∃ b', c.input = b' ++ x :: r ∧ m.Goes ⟨c.stack, b' ++ x :: r'⟩ ⟨d.stack, b ++ x :: r'⟩ := by
  obtain ⟨stack, input⟩ := c
  obtain ⟨t, chosen, rfl⟩ | ⟨k, chosen, reduced⟩ := goes_iff.1 goes
  · cases input with
    | nil => simp at left
    | cons y rest =>
      obtain rfl : rest = b ++ x :: r := left
      rw [← List.cons_append, choose_swap (y :: b) more more'] at chosen
      exact ⟨y :: b, rfl, goes_iff.2 (.inl ⟨t, chosen, rfl⟩)⟩
  · obtain ⟨p, t, known, fits, target, rfl⟩ := reduce_eq_running_iff.1 reduced
    obtain rfl : input = b ++ x :: r := left
    rw [choose_swap b more more'] at chosen
    exact ⟨b, rfl, goes_iff.2 (.inr ⟨k, chosen, reduce_eq_running_iff.2 ⟨p, t, known, fits, target, rfl⟩⟩)⟩

theorem swap_steps (more : r ≠ []) (more' : r' ≠ []) (steps : ReflTransGen m.Goes c d) (left : d.input = b ++ x :: r) :
    ∃ b', c.input = b' ++ x :: r ∧ ReflTransGen m.Goes ⟨c.stack, b' ++ x :: r'⟩ ⟨d.stack, b ++ x :: r'⟩ := by
  induction steps generalizing b with
  | refl => exact ⟨b, left, .refl⟩
  | tail _ goes ih =>
    obtain ⟨b', left', goes'⟩ := goes.swap more more' left
    obtain ⟨b'', begins, steps'⟩ := ih left'
    exact ⟨b'', begins, steps'.tail goes'⟩

theorem reduce_swap {input input' : List Symbol} {k : Nat} (last : m.reduce ⟨stack, input⟩ k = .finished verdict) :
    m.reduce ⟨stack, input'⟩ k = .finished verdict := by
  have exposed : ∀ n input, Configuration.state ⟨stack.drop n, input⟩ = topState (stack.drop n) := fun _ _ => rfl
  simp only [reduce, exposed] at last ⊢
  cases known : m.production? k with
  | none => simp [known] at last
  | some p =>
    simp only [known] at last ⊢
    split_ifs at last ⊢
    cases target : m.goto? (topState (stack.drop p.right.length)) p.left with
    | none => simpa only [target] using last
    | some t => simp [target] at last

theorem finished_swap (more : r ≠ []) (more' : r' ≠ []) (last : m.step ⟨stack, x :: r⟩ = .finished verdict) :
    m.step ⟨stack, x :: r'⟩ = .finished verdict := by
  have chosen : m.choose ⟨stack, x :: r⟩ = m.choose ⟨stack, x :: r'⟩ := choose_swap [] more more'
  rw [step, chosen] at last
  rw [step]
  cases act : m.choose ⟨stack, x :: r'⟩ with
  | none =>
    rw [act] at last
    exact last
  | some act' =>
    rw [act] at last
    cases act' with
    | shift t => cases last
    | reduce k => exact reduce_swap last
    | accept => exact last
    | goto t => exact last

section

variable (wf : g.WellFormed) (made : ofGrammar g = .ok m) (lr1 : m.isLr1)

include wf made lr1

/-- **The parser sees the error in the next symbol**: where it rejects, no word of the language goes on like this. -/
theorem not_generates_of_rejects {u rest : List Symbol} {reason : RejectReason}
    (steps : ReflTransGen m.Goes (.start (u ++ x :: rest)) d) (left : d.input = x :: rest ++ [endMark])
    (last : m.step d = .finished (.rejected reason)) (v : List Symbol) : ¬ g.Generates (u ++ x :: v) := by
  intro generates
  have more : ∀ r : List Symbol, r ++ [endMark] ≠ [] := by simp
  obtain ⟨b, begins, steps'⟩ := swap_steps (b := []) (more rest) (more v) steps left
  obtain rfl : u = b := by simpa [Configuration.start] using begins
  -- with the other word ahead the same steps lead to the same place
  obtain ⟨stack, input⟩ := d
  obtain rfl : input = x :: (rest ++ [endMark]) := left
  have rejects := finished_swap (more rest) (more v) last
  have again : (Configuration.mk [] (u ++ x :: (v ++ [endMark]))) = .start (u ++ x :: v) := by
    simp [Configuration.start]
  obtain ⟨trace, rejected⟩ := run_eq_ok_iff.2 ⟨_, again ▸ steps', rejects⟩
  obtain ⟨trace', accepted⟩ := run_eq_ok_iff.2 (accepts_of_generates wf made lr1 generates)
  cases rejected.symm.trans accepted

/-- **Where a run rejects it stops early.** -/
theorem Recorded.stopsEarly {reason : RejectReason} (rule : g.hasStartRule) (useful : g.uselessSymbols.isEmpty)
    (h : m.Recorded (.start word) trace (.rejected reason)) :
    Parse.StopsEarly ⟨.rejected reason, trace⟩ g word := by
  obtain ⟨d, steps, last, -, left⟩ := h.exists_last
  obtain ⟨γ, u, rest, stacked, derived, rfl, input⟩ := exists_read wf made lr1 steps
  -- what is read is as long as there are shifts
  have shifts : Parse.shifts ⟨.rejected reason, trace⟩ = u.length := by
    rw [input] at left
    have lengths := congrArg List.length left
    simp only [Configuration.start, List.length_append, List.length_drop, List.length_singleton] at lengths
    change trace.countP (·.isShift) = u.length
    omega
  have read : (u ++ rest).take u.length = u := List.take_left
  refine { within := ?within, viable := ?viable, stuck := ?stuck, incomplete := ?incomplete }
  case within =>
    rw [shifts, List.length_append]
    exact Nat.le_add_right _ _
  case viable =>
    rw [shifts, read]
    exact stacked.exists_generates wf made rule useful derived
  case stuck =>
    intro x next v
    rw [shifts, List.getElem?_append_right le_rfl, Nat.sub_self] at next
    rw [shifts, read]
    cases rest with
    | nil => cases next
    | cons y rest =>
      obtain rfl : y = x := Option.some.inj next
      exact not_generates_of_rejects wf made lr1 steps input last v
  case incomplete =>
    intro _ generates
    obtain ⟨trace', accepted⟩ := (accepted_iff wf made lr1 (u ++ rest)).2 generates
    rw [parse, if_pos lr1, run_eq_ok_iff_recorded.2 h] at accepted
    cases accepted

end

end Automaton

/-- **Errors are found as early as possible** in a grammar without useless symbols: the parser comes to a verdict on
every word, and where it rejects, what it has read begins a word of the language, while no word of the language has the
next symbol after it; when it has read everything, the word is not in the language. -/
theorem parse_rejects_early (wf : g.WellFormed) (rule : g.hasStartRule) (useful : g.uselessSymbols.isEmpty)
    (made : Automaton.ofGrammar g = .ok m) (lr1 : m.isLr1) (word : List Symbol) :
    ∃ parse, m.parse word = some (.ok parse) ∧
      ∀ reason, parse.verdict = .rejected reason → parse.StopsEarly g word := by
  obtain ⟨⟨verdict, trace⟩, parsed⟩ := Automaton.exists_parse wf made lr1 (outspoken_of_useful wf rule useful) word
  refine ⟨⟨verdict, trace⟩, parsed, ?_⟩
  rintro reason rfl
  rw [Automaton.parse, if_pos lr1, Automaton.run_eq_ok_iff_recorded] at parsed
  exact parsed.stopsEarly wf made lr1 rule useful

set_option maxRecDepth 100000 in
/-- The parser for brackets rejects a word with one closing bracket too many. -/
theorem parse_rejects_early_brackets : brackets.WellFormed ∧ brackets.hasStartRule ∧ brackets.uselessSymbols.isEmpty ∧
    ∃ m, Automaton.ofGrammar brackets = .ok m ∧ m.isLr1 ∧ ∃ parse, m.parse ['a', 'b', 'b'] = some (.ok parse) ∧
      ∃ reason, parse.verdict = .rejected reason ∧ parse.StopsEarly brackets ['a', 'b', 'b'] := by
  have rule : brackets.hasStartRule := by decide +kernel
  have useful : brackets.uselessSymbols.isEmpty := by decide +kernel
  obtain ⟨m, made, lr1⟩ : ∃ m, Automaton.ofGrammar brackets = .ok m ∧ m.isLr1 :=
    Automaton.exists_lr1 (by decide +kernel)
  obtain ⟨⟨verdict, trace⟩, parsed, early⟩ :=
    parse_rejects_early brackets_wellFormed rule useful made lr1 ['a', 'b', 'b']
  refine ⟨brackets_wellFormed, rule, useful, m, made, lr1, _, parsed, ?_⟩
  cases verdict with
  | rejected reason => exact ⟨reason, rfl, early reason rfl⟩
  | accepted =>
    -- the tabular parser does not accept the word
    have generates := (Automaton.accepted_iff brackets_wellFormed made lr1 _).1 ⟨trace, parsed⟩
    have fails : (Cyk.workingGrammar brackets).toOption.any fun h =>
      ! (Cyk.parse h ['a', 'b', 'b']).verdict.isAccepted := by decide +kernel
    cases working : Cyk.workingGrammar brackets with
    | error e =>
      rw [working] at fails
      cases fails
    | ok h =>
      rw [← Cyk.isAccepted_parse_iff brackets_wellFormed working] at generates
      rw [working] at fails
      simp [Except.toOption, generates] at fails

end ContextFree.Lr
