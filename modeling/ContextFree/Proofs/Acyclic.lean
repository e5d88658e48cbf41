import ContextFree.Proofs.Idempotence
import ContextFree.Proofs.Vocabulary

/-!
The proper form has no circles. A form is lasting when none of its symbols derives the empty word. Where empty right
sides are confined every right side is lasting, a lasting form stays lasting, and it never gets shorter; so only a right
side of one symbol could lead back to its left side, and without unit productions there is none.

- `EpsilonConfined.lasting_step`, `EpsilonConfined.lasting_run`: a lasting form stays lasting, and gets no shorter;
- `EpsilonConfined.acyclic`: without unit productions no symbol derives itself in one step or more;
- `Useful.serves`, `proper_useful`: every symbol of the proper form is of use;
- `proper_exact`: the proper form has the same language and nothing superfluous.
-/

namespace ContextFree.Grammar

open Relation

variable {g h : Grammar} {p : Production} {s : Symbol} {u v : List Symbol}

/-! ## Forms that do not get shorter -/

/-- No symbol of the form derives the empty word. -/
def Lasting (g : Grammar) (form : List Symbol) : Prop := ∀ s ∈ form, [] ∉ words g.rules s

theorem EpsilonConfined.lasting_right (confined : g.EpsilonConfined) (mem : p ∈ g.productions) : g.Lasting p.right := by
  intro s hs
  exact confined.nil_not_mem mem hs

/-- **One step** leaves a lasting form lasting, and no shorter. -/
theorem EpsilonConfined.lasting_step (confined : g.EpsilonConfined) (lasting : g.Lasting u)
    (step : Yields g.rules u v) : g.Lasting v ∧ u.length ≤ v.length := by
  obtain @⟨before, after, p, mem⟩ := step
  have nonempty : p.right ≠ [] := by
    intro empty
    have erased : [] ∈ (words g.rules).form p.right := by
      rw [empty]
      exact Language.nil_mem_one
    exact lasting p.left (by simp) (words_closed.rule p mem erased)
  refine ⟨?_, ?_⟩
  · intro s hs
    simp only [List.mem_append] at hs
    rcases hs with (hs | hs) | hs
    · exact lasting s (by simp [hs])
    · exact confined.lasting_right (mem_rules.1 mem) s hs
    · exact lasting s (by simp [hs])
  · have some : 0 < p.right.length := List.length_pos_of_ne_nil nonempty
    simp only [List.length_append, List.length_cons]
    omega

/-- **A derivation** from a lasting form leads to lasting forms that are no shorter. -/
theorem EpsilonConfined.lasting_run (confined : g.EpsilonConfined) (lasting : g.Lasting u) (run : Derives g.rules u v) :
    g.Lasting v ∧ u.length ≤ v.length := by
  induction run with
  | refl => exact ⟨lasting, le_rfl⟩
  | tail _ step ih =>
    have next := confined.lasting_step ih.1 step
    exact ⟨next.1, ih.2.trans next.2⟩

theorem not_yields_nil {rules : List Production} : ¬ Yields rules [] v := by
  intro step
  generalize empty : [] = u at step
  cases step
  simp at empty

/-- **Without unit productions there is no circle**: no symbol derives itself in one step or more. -/
theorem EpsilonConfined.acyclic (confined : g.EpsilonConfined) (unitFree : g.UnitFree)
    (lefts : NonTerminalLefts g.rules) (s : Symbol) : ¬ DerivesInSteps g.rules [s] [s] := by
  intro circle
  obtain ⟨right, first, others⟩ := TransGen.head'_iff.1 circle
  have rule : ⟨s, right⟩ ∈ g.productions := mem_rules.1 (yields_singleton.1 first)
  have short : right.length ≤ 1 := (confined.lasting_run (confined.lasting_right rule) others).2
  match right, rule, short, others with
  | [], _, _, others =>
    rcases ReflTransGen.cases_head others with eq | ⟨form, next, -⟩
    · cases eq
    · exact not_yields_nil next
  | [t], rule, _, others =>
    have terminal : Symbol.isTerminal t := by
      by_contra nonTerminal
      exact unitFree _ rule (isUnit_iff.2 ⟨t, rfl, Symbol.not_isTerminal.1 nonTerminal⟩)
    -- a terminal derives nothing but itself, and it is no left side
    have left : Symbol.isNonTerminal t := by
      rcases ReflTransGen.cases_head others with eq | ⟨form, next, -⟩
      · obtain rfl : t = s := by simpa using eq
        exact lefts _ (mem_rules.2 rule)
      · exact lefts _ (yields_singleton.1 next)
    exact Symbol.isTerminal_iff_not.1 terminal left

/-! ## Symbols of use -/

/-- In a useful grammar every symbol serves: a derivation of a word from the start symbol passes through it. -/
theorem Useful.serves (useful : g.Useful) (wf : g.WellFormed) (known : s ∈ g.symbols) : g.Serves s := by
  obtain ⟨⟨w, hw⟩, reached⟩ := useful s known
  have rule : g.hasStartRule := by
    rcases ReflTransGen.cases_head reached with rfl | ⟨t, ⟨right, mem, -⟩, -⟩
    · exact hasStartRule_of_generates wf hw
    · exact hasStartRule_iff.2 ⟨right, mem⟩
  rw [serves_iff wf, useful.generatingPart_eq, mem_reachableSymbols rule]
  exact reached

/-- **The proper form is useful**, also where nothing is generated: then nothing is left of it. -/
theorem proper_useful (wf : g.WellFormed) (rule : g.hasStartRule) (made : g.proper = .ok h) : h.Useful := by
  have form := proper_spec wf rule made
  by_cases some : ∃ w, g.Generates w
  · obtain ⟨w, hw⟩ := some
    exact useful_of_proper made (hasStartRule_of_generates form.wellFormed ((form.generates w).2 hw))
  · have empty : h.productions = ∅ := proper_empty rule (not_exists.1 some) made
    intro s known
    obtain ⟨p, mem, -⟩ := mem_symbols.1 known
    rw [empty] at mem
    exact absurd mem Std.ExtTreeSet.not_mem_empty

/-! ## Proper form -/

/-- **The proper form has nothing superfluous.** The language is the same; no symbol is useless, be it by the analysis or
by the derivations of words; no right side is a single non-terminal; an empty right side is that of a start symbol that
stands on no right side. So no symbol derives itself in one step or more. -/
theorem proper_exact (wf : g.WellFormed) (rule : g.hasStartRule) (made : g.proper = .ok h) :
    (∀ w, h.Generates w ↔ g.Generates w) ∧
      (h.uselessSymbols = ∅ ∧ ∀ s ∈ h.symbols, h.Serves s) ∧
      (∀ s t, ⟨s, [t]⟩ ∈ h.productions → Symbol.isTerminal t) ∧
      (∀ s, ⟨s, []⟩ ∈ h.productions → s = h.start ∧ ∀ p ∈ h.productions, h.start ∉ p.right) ∧
      ∀ s, ¬ DerivesInSteps h.rules [s] [s] := by
  have form := proper_spec wf rule made
  have useful := proper_useful wf rule made
  refine ⟨form.generates, ⟨useful.uselessSymbols_eq, ?_⟩, ?_, ?_, ?_⟩
  · intro s known
    exact useful.serves form.wellFormed known
  · intro s t mem
    rw [Symbol.isTerminal_iff_not]
    intro upper
    exact form.unitFree _ mem (isUnit_iff.2 ⟨t, rfl, upper⟩)
  · intro s mem
    exact form.confined _ mem rfl
  · exact form.confined.acyclic form.unitFree form.wellFormed.lefts

theorem unitCircle_wellFormed : unitCircle.WellFormed :=
  .ofList (by decide +kernel) (by decide +kernel) (by decide +kernel) (by decide +kernel)

/-- Two non-terminals derive each other here, and the start symbol is nullable and stands on a right side, so it gets a
new one above it. -/
theorem proper_unitCircle : unitCircle.WellFormed ∧ unitCircle.hasStartRule ∧
    DerivesInSteps unitCircle.rules ['A'] ['A'] ∧ ∃ h, unitCircle.proper = .ok h ∧
      (∀ w, h.Generates w ↔ unitCircle.Generates w) ∧
      (h.uselessSymbols = ∅ ∧ ∀ s ∈ h.symbols, h.Serves s) ∧
      (∀ s t, ⟨s, [t]⟩ ∈ h.productions → Symbol.isTerminal t) ∧
      (∀ s, ⟨s, []⟩ ∈ h.productions → s = h.start ∧ ∀ p ∈ h.productions, h.start ∉ p.right) ∧
      ∀ s, ¬ DerivesInSteps h.rules [s] [s] := by
  have rule : unitCircle.hasStartRule := by decide +kernel
  have there : Yields unitCircle.rules ['A'] ['B'] := yields_singleton.2 (by decide +kernel)
  have back : Yields unitCircle.rules ['B'] ['A'] := yields_singleton.2 (by decide +kernel)
  obtain ⟨h, made⟩ : ∃ h, unitCircle.proper = .ok h := exists_of_isOk (by decide +kernel)
  exact ⟨unitCircle_wellFormed, rule, .tail (.single there) back, h, made, proper_exact unitCircle_wellFormed rule made⟩

end ContextFree.Grammar
