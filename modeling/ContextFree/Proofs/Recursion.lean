import Mathlib.Data.Finset.Card
import ContextFree.Analysis.Recursion
import ContextFree.Proofs.Leading

/-!
The search for left recursion is exact. Depth first or breadth first, a search along leading symbols comes to an end,
since a symbol is looked at once, and it comes back to a symbol exactly when a chain of leading symbols does. Such a
chain is the first symbol of every form of a derivation, with the nullable symbols before it erased.

- `Search.Waits.exists_of_seen`: what leads out of the values that were seen leads over the stack;
- `Search.finds_eq`: the depth-first search ends, and finds what follows from the stack;
- `comesBack_eq`: so both searches for left recursion have the same result, for every grammar;
- `isLeftRecursive_iff`: the search finds every loop of leading symbols;
- `derivesInSteps_of_lead`: a chain of leading symbols is a derivation in one step or more;
- `isLeftRecursive_exact`: left recursion is found exactly when there is some.
-/

namespace ContextFree

open Relation

/-! ## Depth first -/

namespace Search

variable {α : Type} {next : α → List α} {goal a : α} {seen stack : List α}

/-- What follows from the values seen was seen, or waits on the stack. -/
def Waits (next : α → List α) (seen stack : List α) : Prop := ∀ a ∈ seen, ∀ b ∈ next a, b ∈ seen ∨ b ∈ stack

theorem Waits.drop (waits : Waits next seen (a :: stack)) (old : a ∈ seen) : Waits next seen stack := by
  intro c hc b hb
  rcases waits c hc b hb with there | waiting
  · exact .inl there
  · rcases List.mem_cons.1 waiting with rfl | waiting
    · exact .inl old
    · exact .inr waiting

/-- A value can be looked at when what follows from it comes onto the stack. -/
theorem Waits.look (waits : Waits next seen (a :: stack)) : Waits next (a :: seen) ((next a).reverse ++ stack) := by
  intro c hc b hb
  simp only [List.mem_cons, List.mem_append, List.mem_reverse]
  rcases List.mem_cons.1 hc with rfl | hc
  · exact .inr (.inl hb)
  · rcases waits c hc b hb with there | waiting
    · exact .inl (.inr there)
    · exact (List.mem_cons.1 waiting).imp .inl .inr

/-- **What leads out of the values seen** leads over the stack. -/
theorem Waits.exists_of_seen (waits : Waits next seen stack) (new : goal ∉ seen) (old : a ∈ seen)
    (chain : ReflTransGen (fun a b => b ∈ next a) a goal) :
    ∃ b ∈ stack, ReflTransGen (fun a b => b ∈ next a) b goal := by
  induction chain using ReflTransGen.head_induction_on with
  | refl => exact absurd old new
  | @head a b step onward ih =>
    rcases waits a old b step with there | waiting
    · exact ih there
    · exact ⟨b, waiting, onward⟩

variable [DecidableEq α]

/-- **The depth-first search** comes to an end in a finite world, and it finds what follows from its stack. -/
theorem finds_eq (world : Finset α) (closed : ∀ a ∈ world, ∀ b ∈ next a, b ∈ world) (inside : ∀ a ∈ stack, a ∈ world)
    (waits : Waits next seen stack) (new : goal ∉ seen) : ∃ found, finds next goal seen stack = some found ∧
      (found = true ↔ ∃ a ∈ stack, ReflTransGen (fun a b => b ∈ next a) a goal) := by
  -- a value that is looked at is one less to be seen; between two of these the stack gets shorter
  induction missing : (world.filter (· ∉ seen)).card using Nat.strong_induction_on generalizing seen stack with
  | _ n ih =>
    induction stack with
    | nil => exact ⟨false, finds_nil, by simp⟩
    | cons a stack ihStack =>
      rw [List.forall_mem_cons] at inside
      by_cases here : a = goal
      · subst here
        exact ⟨true, finds_goal, iff_of_true rfl ⟨a, List.mem_cons_self, .refl⟩⟩
      by_cases old : a ∈ seen
      · obtain ⟨found, eq, spec⟩ := ihStack inside.2 (waits.drop old)
        refine ⟨found, (finds_old here old).trans eq, spec.trans ?_⟩
        simp only [List.mem_cons, exists_eq_or_imp]
        exact ⟨.inr, fun h => h.elim ((waits.drop old).exists_of_seen new old) id⟩
      · have fewer := card_filter_lt (P := (· ∉ seen)) (Q := (· ∉ a :: seen)) (fun c => mt (List.mem_cons_of_mem a))
          inside.1 old (not_not.2 List.mem_cons_self)
        have inside' : ∀ b ∈ (next a).reverse ++ stack, b ∈ world := by
          rw [List.forall_mem_append]
          exact ⟨fun b hb => closed a inside.1 b (List.mem_reverse.1 hb), inside.2⟩
        obtain ⟨found, eq, spec⟩ := ih _ (missing ▸ fewer) inside' waits.look (by simpa [Ne.symm here] using new) rfl
        refine ⟨found, (finds_new here old).trans eq, spec.trans ?_⟩
        -- the goal is not the value itself, so it follows from one of its successors
        have beyond : ReflTransGen (fun a b => b ∈ next a) a goal ↔
            ∃ b ∈ next a, ReflTransGen (fun a b => b ∈ next a) b goal := by
          rw [ReflTransGen.cases_head_iff, or_iff_right here]
        simp only [List.mem_append, List.mem_reverse, List.mem_cons, or_and_right, exists_or, exists_eq_left, beyond]

end Search

/-! ## Leading symbols -/

namespace Grammar

variable {g : Grammar} {s t : Symbol} {rest : List Symbol}

theorem mem_leadingNonTerminals : t ∈ g.leadingNonTerminals s ↔ Symbol.isNonTerminal t ∧
    ∃ before after, ⟨s, before ++ t :: after⟩ ∈ g.productions ∧ ∀ u ∈ before, u ∈ g.nullableSymbols := by
  simp only [leadingNonTerminals, List.mem_filter, leads, getD_index, List.mem_flatMap, mem_rightsOf, mem_leading]
  rw [and_comm]
  refine and_congr_right fun _ => ?_
  constructor
  · rintro ⟨_, mem, before, after, rfl, all⟩
    exact ⟨before, after, mem, all⟩
  · rintro ⟨before, after, mem, all⟩
    exact ⟨_, mem, before, after, rfl, all⟩

theorem leads_of_mem_leadingNonTerminals (h : t ∈ g.leadingNonTerminals s) : g.Leads s t := by
  obtain ⟨-, before, after, mem, -⟩ := mem_leadingNonTerminals.1 h
  exact ⟨_, mem, List.mem_append_cons_self⟩

theorem mem_symbols_of_mem_leadingNonTerminals (h : t ∈ g.leadingNonTerminals s) : t ∈ g.symbols := by
  obtain ⟨right, mem, used⟩ := leads_of_mem_leadingNonTerminals h
  exact right_mem_symbols mem used

theorem mem_reach_leadingNonTerminals :
    t ∈ Search.reach g.leadingNonTerminals (g.symbols.size + 1) (g.leadingNonTerminals s) ↔
      ∃ u ∈ g.leadingNonTerminals s, ReflTransGen (fun s t => t ∈ g.leadingNonTerminals s) u t :=
  mem_reach_iff (a := s) (fun _ _ => leads_of_mem_leadingNonTerminals)
    fun _ ht => .inr (mem_symbols_of_mem_leadingNonTerminals ht)

/-- **Both searches have the same result**, whatever the grammar: the depth-first one comes to an end, and it comes
back to a symbol where the breadth-first one does. -/
theorem comesBack_eq (g : Grammar) : g.comesBack = some g.isLeftRecursive := by
  have each : ∀ s, Search.finds g.leadingNonTerminals s [] (g.leadingNonTerminals s).reverse =
      some (decide (s ∈ Search.reach g.leadingNonTerminals (g.symbols.size + 1) (g.leadingNonTerminals s))) := by
    intro s
    have inside : ∀ {a b}, b ∈ g.leadingNonTerminals a → b ∈ g.symbols.toList.toFinset := fun hb =>
      List.mem_toFinset.2 (Std.ExtTreeSet.mem_toList.2 (mem_symbols_of_mem_leadingNonTerminals hb))
    have waits : Search.Waits g.leadingNonTerminals [] (g.leadingNonTerminals s).reverse :=
      fun _ ha => absurd ha List.not_mem_nil
    obtain ⟨found, eq, spec⟩ := Search.finds_eq _ (fun _ _ _ => inside) (fun _ ha => inside (List.mem_reverse.1 ha))
      waits (List.not_mem_nil : s ∉ [])
    rw [eq, Option.some.injEq, Bool.eq_iff_iff, spec, decide_eq_true_iff, mem_reach_leadingNonTerminals]
    simp only [List.mem_reverse]
  simp only [comesBack, each]
  exact List.anyM_pure

/-- **The search finds every loop** of leading symbols when it looks through all nullable ones. -/
theorem isLeftRecursive_iff (lefts : NonTerminalLefts g.rules) (rule : g.hasStartRule) :
    g.isLeftRecursive ↔ ∃ s, TransGen g.LeadStep s s := by
  refine ⟨exists_loop_of_isLeftRecursive, ?_⟩
  rintro ⟨s, loop⟩
  have nullable : g.nullableSymbols = g.nullable := if_pos rule
  have left : ∀ {s t}, g.LeadStep s t → Symbol.isNonTerminal s := fun ⟨_, _, mem, _⟩ => lefts _ (mem_rules.2 mem)
  obtain ⟨t, first, onward⟩ := TransGen.head'_iff.1 loop
  -- every symbol on the way has a production, so it is a non-terminal
  have followed : ∀ {a}, ReflTransGen g.LeadStep a s →
      Symbol.isNonTerminal a ∧ ReflTransGen (fun s t => t ∈ g.leadingNonTerminals s) a s := by
    intro a chain
    induction chain using ReflTransGen.head_induction_on with
    | refl => exact ⟨left first, .refl⟩
    | @head a b step _ ih =>
      refine ⟨left step, .head (mem_leadingNonTerminals.2 ⟨ih.1, ?_⟩) ih.2⟩
      rw [nullable]
      exact step
  obtain ⟨upper, path⟩ := followed onward
  have start : t ∈ g.leadingNonTerminals s := mem_leadingNonTerminals.2 ⟨upper, nullable ▸ first⟩
  obtain ⟨before, after, mem, -⟩ := first
  exact List.any_eq_true.2
    ⟨s, mem_lefts.2 ⟨_, mem⟩, decide_eq_true (mem_reach_leadingNonTerminals.2 ⟨t, start, path⟩)⟩

theorem derivesInSteps_of_lead (h : TransGen g.LeadStep s t) : ∃ rest, DerivesInSteps g.rules [s] (t :: rest) := by
  obtain ⟨u, step, chain⟩ := TransGen.head'_iff.1 h
  obtain ⟨rest, onward⟩ := exists_derives_of_chain chain
  obtain ⟨form, rest, first, others⟩ := step.exists_yields onward
  exact ⟨rest, .head' first others⟩

/-- **Left recursion is found exactly when there is some.** The depth-first search comes to an end on every grammar,
with the same result as the search by levels; and where the start symbol has a production, this result says whether
some non-terminal, useless or not, derives a form that begins with itself in one step or more. -/
theorem isLeftRecursive_exact (g : Grammar) : g.comesBack = some g.isLeftRecursive ∧
    (g.WellFormed → g.hasStartRule →
      (g.isLeftRecursive ↔ ∃ s rest, Symbol.isNonTerminal s ∧ DerivesInSteps g.rules [s] (s :: rest))) := by
  refine ⟨comesBack_eq g, fun wf rule => ?_⟩
  rw [isLeftRecursive_iff wf.lefts rule]
  constructor
  · rintro ⟨s, loop⟩
    obtain ⟨rest, derives⟩ := derivesInSteps_of_lead loop
    obtain ⟨t, ⟨before, after, mem, -⟩, -⟩ := TransGen.head'_iff.1 loop
    exact ⟨s, rest, wf.left_nonTerminal _ mem, derives⟩
  · rintro ⟨s, rest, -, derives⟩
    exact ⟨s, lead_of_derivesInSteps derives⟩

/-- a grammar with a useless symbol that comes back to itself behind a nullable one -/
def hiddenRecursion : Grammar :=
  ⟨'S', 'ε', .ofList [⟨'S', ['a']⟩, ⟨'A', []⟩, ⟨'A', ['c']⟩, ⟨'B', ['A', 'A', 'B', 'b']⟩]⟩

/-- `B` is found although it derives no word and `S` does not lead to it. -/
theorem isLeftRecursive_hiddenRecursion : hiddenRecursion.WellFormed ∧ hiddenRecursion.hasStartRule ∧
    'B' ∈ hiddenRecursion.uselessSymbols ∧ hiddenRecursion.comesBack = some true ∧
    ∃ s rest, Symbol.isNonTerminal s ∧ DerivesInSteps hiddenRecursion.rules [s] (s :: rest) := by
  have wf : hiddenRecursion.WellFormed :=
    .ofList (by decide +kernel) (by decide +kernel) (by decide +kernel) (by decide +kernel)
  have rule : hiddenRecursion.hasStartRule := by decide +kernel
  have recursive : hiddenRecursion.isLeftRecursive := by decide +kernel
  obtain ⟨depthFirst, exactly⟩ := isLeftRecursive_exact hiddenRecursion
  exact ⟨wf, rule, by decide +kernel, depthFirst.trans (congrArg some recursive), (exactly wf rule).1 recursive⟩

end Grammar

end ContextFree
