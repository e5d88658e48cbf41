import ContextFree.Proofs.Loop
import ContextFree.Proofs.Recognition

/-!
When the bottom-up parser comes to an end. It does not always: a symbol is `IsMute` when it is not nullable and no
terminal is in its FIRST set, and the items before such a symbol predict nothing. So a table can be free of conflicts
although the grammar is ambiguous, and the parser can go on reducing empty right sides without ever getting to the
terminal for whose sake it reduces them.

Without mute symbols this does not happen. What an item expects is always delivered: `Settles` says that the parser
comes to an end or reads something, and

- `settles_of_first`: it settles when the next symbol can begin something behind the dot;
- `settles`: it settles at every item that expects the next symbol, by induction on how a parse gets to the item;
- `isSome_run`: so it comes to an end on every word;
- `parse_isSome_iff`: in general it does so exactly when it comes to no circle.
-/

namespace ContextFree

open Relation

variable {g : Grammar} {s t x : Symbol}

/-- The symbol is not nullable and no terminal is in its FIRST set. -/
def Grammar.IsMute (g : Grammar) (s : Symbol) : Prop := s ∉ g.nullable ∧ ∀ x, x ∉ g.firstSets.of s

theorem Grammar.not_isMute_iff : ¬ g.IsMute s ↔ s ∈ g.nullable ∨ ∃ x, x ∈ g.firstSets.of s := by
  rw [IsMute, not_and_or, not_not, not_forall]
  simp only [not_not]

namespace Lr

variable {a : Augmented} {m : Automaton} {start : Symbol} {i : Item} {γ β η rest word : List Symbol}
  {stack : List Entry} {c d e : Configuration}

/-! ## Grammars without mute symbols -/

/-- No symbol of a right side is mute. -/
def Outspoken (g : Grammar) : Prop := ∀ p ∈ g.productions, ∀ s ∈ p.right, ¬ g.IsMute s

namespace Augments

open Augmented

variable (aug : Augments g a start)

include aug

theorem leadStep (h : g.LeadStep s t) : (grammar g start).LeadStep s t := by
  obtain ⟨before, after, mem, nullable⟩ := h
  refine ⟨before, after, ?_, ?_⟩
  · exact aug.mem_productions.1 (aug.mem_of_mem_rules (Grammar.mem_rules.2 mem))
  · intro u hu
    rw [Grammar.mem_nullable, aug.words_eq]
    exact words_mono (fun p hp => aug.mem_of_mem_rules hp) u (Grammar.mem_nullable.1 (nullable u hu))

theorem exists_expects (wf : g.WellFormed) (outspoken : Outspoken g) (behind : a.behind i = some s) :
    ∃ z, a.Expects i.advance z := by
  obtain ⟨p, found, -⟩ := exists_of_behind behind
  have right : a.right i.production = p.right := right_eq found
  have each : ∀ u ∈ p.right.drop (i.dot + 1),
      [] ∈ words a.productions u ∨ ∃ x, x ∈ (grammar g start).firstSets.of u := by
    intro u hu
    have mem := List.mem_of_getElem? found
    rw [aug.productions] at mem
    rcases List.mem_cons.1 mem with rfl | mem
    · -- behind the start symbol itself there is nothing
      simp at hu
    · have heard := outspoken p (Grammar.mem_rules.1 mem) u (List.mem_of_mem_drop hu)
      rcases Grammar.not_isMute_iff.1 heard with h | ⟨x, hx⟩
      · exact .inl (words_mono (fun p hp => aug.mem_of_mem_rules hp) u (Grammar.mem_nullable.1 h))
      · obtain ⟨terminal, chain⟩ := (Grammar.mem_of wf.lefts).1 hx
        have chain := ReflTransGen.mono (fun _ _ => aug.leadStep) _ _ chain
        exact .inr ⟨x, (Grammar.mem_of (aug.lefts_rules wf)).2 ⟨terminal, chain⟩⟩
  rcases Grammar.nil_mem_form_or each with all | ⟨before, u, after, eq, none, x, hx⟩
  · refine ⟨i.lookahead, aug.expects_iff.2 (.inr ⟨?_, rfl⟩)⟩
    rwa [Item.advance, right]
  · refine ⟨x, aug.expects_iff.2 (.inl ⟨before, u, after, ?_, none, hx⟩)⟩
    rwa [Item.advance, right]

end Augments

namespace Automaton

open Augmented

/-- The parser comes to an end, or it reads something. -/
def Settles (m : Automaton) (c : Configuration) : Prop :=
  ∃ d, ReflTransGen m.Goes c d ∧ ((∀ e, ¬ m.Goes d e) ∨ d.input.length < c.input.length)

theorem Settles.of_steps (steps : ReflTransGen m.Goes c d) (same : d.input = c.input) (h : m.Settles d) :
    m.Settles c := by
  obtain ⟨e, onward, result⟩ := h
  exact ⟨e, steps.trans onward, same ▸ result⟩

section

variable (wf : g.WellFormed) (made : ofGrammar g = .ok m) (lr1 : m.isLr1)

include wf made lr1

theorem arrive (aug : Augments g m.augmented start) {before after : List Symbol}
    (chain : ReflTransGen (Augments.grammar g start).LeadStep s (rest.headD endMark))
    (terminal : Symbol.isTerminal (rest.headD endMark)) (stacked : m.Stacked γ stack) (reads : m.augmented.Reads γ i)
    (ahead : (m.augmented.right i.production).drop i.dot = before ++ s :: after)
    (empty : [] ∈ (words m.augmented.productions).form before) :
    ∃ stack', ReflTransGen m.Goes ⟨stack, rest⟩ ⟨stack', rest⟩ ∧ m.Stacked (γ ++ before) stack' ∧
      m.augmented.Reads (γ ++ before) { i with dot := i.dot + before.length } ∧
      m.augmented.behind { i with dot := i.dot + before.length } = some s := by
  have further : (m.augmented.right i.production).drop (i.dot + before.length) = s :: after := by
    rw [← List.drop_drop, ahead, List.drop_left]
  have first := (Grammar.mem_of (aug.lefts_rules wf)).2 ⟨terminal, chain⟩
  have expects : m.augmented.Expects { i with dot := i.dot + before.length } (rest.headD endMark) :=
    aug.expects_iff.2 (.inl ⟨[], s, after, further, Language.nil_mem_one, first⟩)
  obtain ⟨stack', steps, stacked', reads'⟩ := walk (w := []) wf made lr1 rest stacked reads ahead empty expects
  exact ⟨stack', steps, stacked', reads', behind_of_drop further⟩

theorem settles_of_first (outspoken : Outspoken g) (aug : Augments g m.augmented start) {before after : List Symbol}
    (chain : ReflTransGen (Augments.grammar g start).LeadStep s (rest.headD endMark))
    (terminal : Symbol.isTerminal (rest.headD endMark)) (stacked : m.Stacked γ stack) (reads : m.augmented.Reads γ i)
    (ahead : (m.augmented.right i.production).drop i.dot = before ++ s :: after)
    (empty : [] ∈ (words m.augmented.productions).form before) : m.Settles ⟨stack, rest⟩ := by
  induction chain using ReflTransGen.head_induction_on generalizing γ stack i before after with
  | refl =>
    obtain ⟨stack', steps, stacked', reads', behind⟩ := arrive wf made lr1 aug .refl terminal stacked reads ahead empty
    -- the terminal behind the dot is not the end marker, so it is the next symbol of the input
    have ne := ne_endMark_of_behind aug wf behind
    cases rest with
    | nil => exact absurd rfl ne
    | cons b rest =>
      obtain ⟨t, goes, -⟩ := step_shift wf made lr1 rest stacked' reads' behind terminal
      exact ⟨_, steps.tail goes, .inr (Nat.lt_succ_self _)⟩
  | @head s t step chain ih =>
    obtain ⟨stack', steps, stacked', reads', behind⟩ :=
      arrive wf made lr1 aug (.head step chain) terminal stacked reads ahead empty
    obtain ⟨before', after', mem, nullable⟩ := step
    have mem' := aug.mem_productions.2 mem
    obtain ⟨n, found⟩ := List.getElem?_of_mem mem'
    -- whatever is expected, the production that leads on is predicted
    obtain ⟨z, expected⟩ := aug.exists_expects wf outspoken behind
    have predicted : m.augmented.Reads (γ ++ before) ⟨n, 0, z⟩ :=
      .predict reads' behind (aug.lefts wf _ mem') (mem_predicted.2 ⟨_, found, rfl, rfl, mem_follow_iff.2 expected⟩)
    have right : m.augmented.right n = before' ++ t :: after' := right_eq found
    refine .of_steps steps rfl (ih stacked' predicted right ?_)
    apply Grammar.nil_mem_form_iff.2
    intro u hu
    rw [← aug.words_eq]
    exact Grammar.mem_nullable.1 (nullable u hu)

/-- At an item that expects the next symbol the parser settles, or it gets to the end of the right side. -/
theorem settles_or_completes (outspoken : Outspoken g) (aug : Augments g m.augmented start)
    (reads : m.augmented.Reads γ i) (ahead : (m.augmented.right i.production).drop i.dot = β ++ η)
    (stacked : m.Stacked (γ ++ β) stack)
    (expects : m.augmented.Expects { i with dot := i.dot + β.length } (rest.headD endMark)) :
    m.Settles ⟨stack, rest⟩ ∨ rest.headD endMark = i.lookahead ∧ ∃ stack',
      ReflTransGen m.Goes ⟨stack, rest⟩ ⟨stack', rest⟩ ∧ m.Stacked (γ ++ (β ++ η)) stack' ∧
      m.augmented.Reads (γ ++ (β ++ η)) { i with dot := i.dot + (β ++ η).length } := by
  have further : (m.augmented.right i.production).drop (i.dot + β.length) = η := by
    rw [← List.drop_drop, ahead, List.drop_left]
  have reads' := reads.over ahead
  rcases aug.expects_iff.1 expects with ⟨before, s, after, eq, empty, first⟩ | ⟨empty, eq⟩
  · obtain ⟨terminal, chain⟩ := (Grammar.mem_of (aug.lefts_rules wf)).1 first
    exact .inl (settles_of_first wf made lr1 outspoken aug chain terminal stacked reads' eq empty)
  · refine .inr ⟨eq, ?_⟩
    simp only [further] at empty
    have ends : (m.augmented.right i.production).drop (i.dot + β.length + η.length) = [] := by
      rw [← List.drop_drop, further, List.drop_length]
    have complete := expects_of_drop_eq_nil (i := { i with dot := i.dot + β.length + η.length }) ends
    obtain ⟨stack', steps, stacked', reads''⟩ := walk (η := []) (w := []) wf made lr1 rest stacked reads'
      (by rw [List.append_nil]; exact further) empty (eq ▸ complete)
    rw [List.append_assoc] at stacked' reads''
    refine ⟨stack', steps, stacked', ?_⟩
    rwa [List.length_append, ← Nat.add_assoc]

theorem not_goes_of_top (stacked : m.Stacked γ c.stack) (reads : m.augmented.Reads γ i) (top : i.production = 0)
    (complete : m.augmented.behind i = none) (next : c.lookahead = i.lookahead) : ¬ m.Goes c d := by
  intro goes
  have only : ∀ act, m.Asked γ i.lookahead act → act = .accept := by
    intro act asked
    have one := (action?_iff wf made lr1 stacked.run).2 asked
    have other := (action?_iff wf made lr1 stacked.run).2 (.accept reads complete top)
    exact Option.some.inj (one.symm.trans other)
  obtain ⟨t, chosen, -⟩ | ⟨n, chosen, -⟩ := goes_iff.1 goes
  · obtain ⟨-, asked, -⟩ := (choose_iff wf made lr1 stacked).1 chosen
    cases only _ (next ▸ asked)
  · obtain ⟨-, asked, -⟩ := (choose_iff wf made lr1 stacked).1 chosen
    cases only _ (next ▸ asked)

/-- The parser settles at every item that expects the next symbol, wherever its dot is moved to first. The induction is
on how a parse gets to the item: a complete item is reduced, and the item that predicted it is the one to go on with. -/
theorem settles (outspoken : Outspoken g) (reads : m.augmented.Reads γ i) :
    ∀ {β η : List Symbol} {stack : List Entry} {rest : List Symbol},
    (m.augmented.right i.production).drop i.dot = β ++ η → m.Stacked (γ ++ β) stack →
    m.augmented.Expects { i with dot := i.dot + β.length } (rest.headD endMark) → m.Settles ⟨stack, rest⟩ := by
  obtain ⟨start, aug⟩ := exists_augments made
  induction reads with
  | start =>
    intro β η stack rest ahead stacked expects
    rcases settles_or_completes wf made lr1 outspoken aug .start ahead stacked expects with
      settled | ⟨eq, stack', steps, stacked', complete⟩
    · exact settled
    · refine ⟨_, steps, .inl fun e => not_goes_of_top wf made lr1 stacked' complete rfl ?_ eq⟩
      rw [Augmented.behind, ← List.head?_drop, ← List.drop_drop, ahead, List.drop_length]
      rfl
  | @advance γ i s reads behind ih =>
    intro β η stack rest ahead stacked expects
    have before : (m.augmented.right i.production).drop i.dot = (s :: β) ++ η := by
      rw [drop_of_behind behind, ahead]
      rfl
    rw [← List.append_cons] at stacked
    refine ih before stacked ?_
    rw [List.length_cons, Nat.add_comm β.length, ← Nat.add_assoc]
    exact expects
  | @predict γ i j s reads behind hs mem ih =>
    intro β η stack rest ahead stacked expects
    have predicted := Reads.predict reads behind hs mem
    rcases settles_or_completes wf made lr1 outspoken aug predicted ahead stacked expects with
      settled | ⟨eq, stack', steps, stacked', complete⟩
    · exact settled
    obtain ⟨p, found, rfl, dot, follows⟩ := mem_predicted.1 mem
    have right : m.augmented.right j.production = p.right := right_eq found
    rw [← ahead, dot, List.drop_zero, right] at stacked' complete
    obtain ⟨stack'', goes, stacked''⟩ := step_reduce (c := ⟨stack', rest⟩) wf made lr1 stacked' complete found
      (Nat.zero_add _) (inner_of_behind aug behind found) eq
    -- what was expected behind the left side comes next
    refine .of_steps (steps.tail goes) rfl ?_
    exact ih (β := [p.left]) (drop_of_behind behind) stacked'' (eq ▸ mem_follow_iff.1 follows)

/-- **Without mute symbols the parser comes to an end** on every word. -/
theorem isSome_run (outspoken : Outspoken g) (stacked : m.Stacked γ c.stack) : (m.run c).isSome := by
  rw [isSome_run_iff]
  -- a step either reads something or is a reduction, after which the parser settles
  induction length : c.input.length using Nat.strong_induction_on generalizing γ c with
  | _ n ih =>
    subst length
    have settled : m.Settles c := by
      by_cases goes : ∃ e, m.Goes c e
      · obtain ⟨e, goes⟩ := goes
        have turn := turn wf made lr1 stacked
        rw [show m.step c = .running e from goes] at turn
        cases turn with
        | shift _ _ _ input _ => exact ⟨_, .single goes, .inr (by rw [input]; exact Nat.lt_succ_self _)⟩
        | @reduce δ i p t _ reads found dot _ next _ =>
          have ends : (m.augmented.right i.production).drop i.dot = [] := by
            rw [Augmented.right, found, dot]
            exact List.drop_length
          refine settles (η := []) wf made lr1 outspoken reads ends (by rwa [List.append_nil]) ?_
          exact (show i.lookahead = c.input.headD endMark from next) ▸ expects_of_drop_eq_nil ends
      · exact ⟨c, .refl, .inl fun e h => goes ⟨e, h⟩⟩
    obtain ⟨d, steps, ends | shorter⟩ := settled
    · exact ⟨d, steps, ends⟩
    · obtain ⟨δ, stacked'⟩ := exists_stacked wf made lr1 stacked steps
      obtain ⟨e, onward, ends⟩ := ih _ shorter stacked' rfl
      exact ⟨e, steps.trans onward, ends⟩

end

end Automaton

/-! ## When the parser comes to an end -/

/-- **The bottom-up parser comes to an end** on a word exactly when its run comes to no circle, and it does so on every
word when the grammar has no mute symbol on a right side. A table with conflicts is not tried. -/
theorem parse_isSome_iff (wf : g.WellFormed) (made : Automaton.ofGrammar g = .ok m) (word : List Symbol) :
    ((m.parse word).isSome ↔ ¬ (m.isLr1 ∧ ∃ c, ReflTransGen m.Goes (.start word) c ∧ m.Circles c)) ∧
    (Outspoken g → (m.parse word).isSome) := by
  have begins : m.Stacked [] (Configuration.start word).stack := .bottom
  by_cases lr1 : m.isLr1
  · rw [Automaton.parse, if_pos lr1, Automaton.isSome_run_iff_not_circles wf made lr1 begins]
    refine ⟨by simp [lr1], fun outspoken => ?_⟩
    rw [← Automaton.isSome_run_iff_not_circles wf made lr1 begins]
    exact Automaton.isSome_run wf made lr1 outspoken begins
  · rw [Automaton.parse, if_neg lr1]
    exact ⟨by simp [lr1], fun _ => rfl⟩

set_option maxRecDepth 100000 in
theorem outspoken_brackets : Outspoken brackets := by
  have each : brackets.rules.all fun p => p.right.all fun s => Symbol.isTerminal s || s ∈ brackets.nullable := by
    decide +kernel
  intro p mem s hs
  have known := List.all_eq_true.1 (List.all_eq_true.1 each p (Grammar.mem_rules.2 mem)) s hs
  rw [Grammar.not_isMute_iff]
  rcases Bool.or_eq_true_iff.1 known with terminal | nullable
  · exact .inr ⟨s, (Grammar.mem_of brackets_wellFormed.lefts).2 ⟨terminal, .refl⟩⟩
  · exact .inl (of_decide_eq_true nullable)

set_option maxRecDepth 100000 in
/-- The parser for brackets comes to an end, here on a word that is not one of theirs. -/
theorem parse_isSome_brackets : brackets.WellFormed ∧ ∃ m, Automaton.ofGrammar brackets = .ok m ∧
    ((m.parse ['a', 'a', 'b']).isSome ↔
      ¬ (m.isLr1 ∧ ∃ c, ReflTransGen m.Goes (.start ['a', 'a', 'b']) c ∧ m.Circles c)) ∧
    (m.parse ['a', 'a', 'b']).isSome := by
  obtain ⟨m, made, -⟩ : ∃ m, Automaton.ofGrammar brackets = .ok m ∧ m.isLr1 := Automaton.exists_lr1 (by decide +kernel)
  have ends := parse_isSome_iff brackets_wellFormed made ['a', 'a', 'b']
  exact ⟨brackets_wellFormed, m, made, ends.1, ends.2 outspoken_brackets⟩

/-- a grammar with a mute symbol: `T` leads to `C`, which has no production, and `A` and `B` lead to each other -/
def circular : Grammar := ⟨'S', 'ε', .ofList [⟨'S', ['A', 'T']⟩, ⟨'A', ['B']⟩, ⟨'A', []⟩, ⟨'B', ['A']⟩,
  ⟨'T', ['U', 'C']⟩, ⟨'U', ['b']⟩]⟩

set_option maxRecDepth 100000 in
/-- The table of this grammar has no conflicts, but on the word `b` the parser takes `A` for `B` and `B` for `A` in turn
and never stops. -/
theorem parse_circular : circular.WellFormed ∧ ∃ m, Automaton.ofGrammar circular = .ok m ∧ m.isLr1 ∧
    m.parse ['b'] = none := by
  refine ⟨.ofList (by decide +kernel) (by decide +kernel) (by decide +kernel) (by decide +kernel), ?_⟩
  let ofA : Configuration := ⟨[⟨'A', 1⟩], ['b', endMark]⟩
  let ofB : Configuration := ⟨[⟨'B', 2⟩], ['b', endMark]⟩
  have run : (Automaton.ofGrammar circular).toOption.any fun m => m.isLr1 && m.step (.start ['b']) = .running ofA &&
      m.step ofA = .running ofB && m.step ofB = .running ofA := by decide +kernel
  cases made : Automaton.ofGrammar circular with
  | error e =>
    rw [made] at run
    cases run
  | ok m =>
    rw [made] at run
    simp only [Except.toOption, Option.any_some, Bool.and_eq_true, decide_eq_true_eq] at run
    obtain ⟨⟨⟨lr1, first⟩, there⟩, back⟩ := run
    have circles : m.Circles ofA :=
      ⟨_, [], [], rfl, rfl, .tail (.single ⟨there, Nat.one_pos⟩) ⟨back, Nat.one_pos⟩⟩
    have endless : ¬ (m.run (.start ['b'])).isSome := by
      rw [Automaton.isSome_run_iff]
      rintro ⟨d, steps, ends⟩
      rcases ReflTransGen.cases_head steps with rfl | ⟨c, goes, onward⟩
      · exact ends ofA first
      · obtain rfl : c = ofA := Outcome.running.inj (goes.symm.trans first)
        obtain ⟨e, more⟩ := circles.endless onward
        exact ends e more
    refine ⟨m, rfl, lr1, ?_⟩
    rw [Automaton.parse, if_pos lr1]
    exact Option.not_isSome_iff_eq_none.1 endless

end Lr

end ContextFree
