import ContextFree.Proofs.Greibach
import ContextFree.Transformation

/-!
What every transformation keeps of the vocabulary. A grammar `Descends` from another when it is well-formed, has the same
sentinel, writes no terminal on a right side that the other does not, and has no production when the other has none. Each
stage of a transformation gives a grammar that descends from the one before.

- `Cut.descends`, `removeLeftRecursion_descends`, `settle_descends`: the stages that draw letters or go in rounds;
- `exists_proper_of_toChomsky` and the like: a normal form descends from the proper form and has the same language;
- `proper_empty`, `hasStartRule_of_normal`: where nothing is generated, nothing is left;
- `apply_descends`: what a transformation gives descends from what it was given.
-/

namespace ContextFree.Grammar

open PieceNames

variable {limits : Limits} {g h k : Grammar} {names : PieceNames} {p : Production} {s a : Symbol} {w : List Symbol}

/-- what the second grammar keeps of the first -/
structure Descends (g h : Grammar) : Prop where
  wellFormed : h.WellFormed
  epsilon : h.epsilon = g.epsilon
  terminals : ∀ p ∈ h.productions, ∀ a ∈ p.right, Symbol.isTerminal a → ∃ q ∈ g.productions, a ∈ q.right
  inhabited : ∀ p ∈ h.productions, ∃ q, q ∈ g.productions

theorem Descends.refl (wf : g.WellFormed) : Descends g g :=
  ⟨wf, rfl, fun p mem _ ha _ => ⟨p, mem, ha⟩, fun p mem => ⟨p, mem⟩⟩

theorem Descends.trans (first : Descends g h) (second : Descends h k) : Descends g k := by
  refine ⟨second.wellFormed, second.epsilon.trans first.epsilon, fun p mem a ha terminal => ?_, fun p mem => ?_⟩
  · obtain ⟨q, mem, ha⟩ := second.terminals p mem a ha terminal
    exact first.terminals q mem a ha terminal
  · obtain ⟨q, mem⟩ := second.inhabited p mem
    exact first.inhabited q mem

theorem eq_empty_of_not_mem (none : ∀ p, p ∉ g.productions) : g.productions = ∅ :=
  FiniteSet.ext fun p => iff_of_false (none p) Std.ExtTreeSet.not_mem_empty

theorem Descends.empty (descends : Descends g h) (none : g.productions = ∅) : h.productions = ∅ := by
  refine eq_empty_of_not_mem fun p mem => ?_
  obtain ⟨q, mem⟩ := descends.inhabited p mem
  rw [none] at mem
  exact Std.ExtTreeSet.not_mem_empty mem

/-! ## Stages without fresh letters -/

theorem keep_descends (wf : g.WellFormed) (test : Production → Bool) : Descends g (g.keep test) :=
  ⟨wf.keep test, rfl, fun p mem _ ha _ => ⟨p, (mem_keep.1 mem).1, ha⟩, fun p mem => ⟨p, (mem_keep.1 mem).1⟩⟩

theorem removeEpsilonProductions_descends (wf : g.WellFormed) : Descends g g.removeEpsilonProductions := by
  by_cases none : g.nullableSymbols.isEmpty
  · rw [removeEpsilonProductions_eq none]
    exact .refl wf
  refine ⟨wf.removeEpsilonProductions, removeEpsilonProductions_epsilon,
    fun p mem _ ha _ => mem_right_of_removeEpsilonProductions mem ha, fun p mem => ?_⟩
  rcases (mem_removeEpsilonProductions none).1 mem with ⟨-, null⟩ | ⟨q, hq, -⟩
  · -- a nullable start symbol has a production
    obtain ⟨right, mem, -⟩ := (mem_words_iff wf.start_nonTerminal).1 (mem_nullable.1 (nullableSymbols_sub null))
    exact ⟨_, mem_rules.1 mem⟩
  · exact ⟨q, hq⟩

theorem removeUnitProductions_descends (wf : g.WellFormed) : Descends g g.removeUnitProductions := by
  by_cases none : g.unitProductions.isEmpty
  · rw [removeUnitProductions_eq none]
    exact .refl wf
  refine ⟨wf.removeUnitProductions, removeUnitProductions_epsilon, fun p mem a ha _ => ?_, fun p mem => ?_⟩
  · obtain ⟨-, -, source, -, mem⟩ := (mem_removeUnitProductions none).1 mem
    exact ⟨_, mem, ha⟩
  · obtain ⟨-, -, source, -, mem⟩ := (mem_removeUnitProductions none).1 mem
    exact ⟨_, mem⟩

theorem expandLeading_descends (wf : g.WellFormed) : Descends g g.expandLeading := by
  refine ⟨wf.expandLeading, rfl, fun p mem a ha _ => mem_right_of_expandLeading mem ha, fun p mem => ?_⟩
  rcases mem_expandLeading.1 mem with ⟨mem, -⟩ | ⟨_, _, _, -, mem, -, -⟩
  · exact ⟨_, mem⟩
  · exact ⟨_, mem⟩

theorem settle_descends {rounds : Nat} (wf : g.WellFormed) (made : settle limits rounds g = .ok h) : Descends g h := by
  induction rounds generalizing g with
  | zero => cases made
  | succ rounds ih =>
    rw [settle] at made
    split at made
    · cases made
      exact .refl wf
    · obtain ⟨-, -, made⟩ := exists_of_bind made
      exact (expandLeading_descends wf).trans (ih wf.expandLeading made)

/-! ## Stages with fresh letters -/

theorem withNewStart_descends (wf : g.WellFormed) (rule : g.hasStartRule) (fresh : a ∈ g.supply.free) :
    Descends g (g.withNewStart a) := by
  obtain ⟨right, old⟩ := hasStartRule_iff.1 rule
  refine ⟨wf.withNewStart fresh, rfl, fun p mem b hb terminal => ?_, fun _ _ => ⟨_, old⟩⟩
  rcases mem_withNewStart.1 mem with rfl | rfl | mem
  · exact absurd hb List.not_mem_nil
  · obtain rfl := List.mem_singleton.1 hb
    exact absurd wf.start_nonTerminal (Symbol.isTerminal_iff_not.1 terminal)
  · exact ⟨p, mem, hb⟩

/-- Right sides that are cut hold no new terminal. -/
theorem Cut.descends {pieces : List (List Symbol)} {cut : List Symbol → List Symbol} (c : Cut g h names pieces cut)
    (wf : g.WellFormed) (sub : ∀ right, Whole g names right → ∀ s ∈ cut right, s ∈ right ∨ names.IsLetter s) :
    Descends g h := by
  refine ⟨c.wellFormed wf sub, c.epsilon, fun p mem a ha terminal => ?_, fun p mem => ?_⟩
  · obtain ⟨right, whole, eq⟩ := c.mem_of_whole mem
    rcases sub right whole a (eq ▸ ha) with used | ⟨piece, named⟩
    · exact c.mem_right_of_whole whole used
    · exact absurd (c.letter_unused named).1 (Symbol.isTerminal_iff_not.1 terminal)
  · rcases (c.productions p).1 mem with ⟨q, hq, -⟩ | ⟨piece, a, named, -⟩
    · exact ⟨q, hq⟩
    · obtain ⟨-, q, hq, -⟩ := c.origin piece (c.named.wanted piece a named)
      exact ⟨q, hq⟩

theorem binarize_descends (wf : g.WellFormed) (made : g.binarize = .ok h) : Descends g h := by
  obtain ⟨names, b⟩ := binarized_of_ok made
  exact Cut.descends b wf fun _ whole _ => b.mem_halve whole

theorem liftTrailingTerminals_descends (wf : g.WellFormed) (made : g.liftTrailingTerminals = .ok h) : Descends g h := by
  obtain ⟨names, l⟩ := lifted_of_ok made
  exact Cut.descends l wf fun _ whole _ => l.mem_liftTail whole

theorem removeLeftRecursion_descends (wf : g.WellFormed) (confined : g.EpsilonConfined)
    (made : g.removeLeftRecursion limits = .ok h) : Descends g h := by
  obtain ⟨wf', -, -⟩ := removeLeftRecursion_spec wf confined made
  obtain ⟨u, run, rfl⟩ := run_of_removeLeftRecursion made
  have inv := (untangled_start wf).run nodup_lefts confined run
  have stage : ∀ p ∈ (g.withProductions (.ofList u.productions)).productions, p ∈ u.productions := fun p mem =>
    FiniteSet.mem_ofList.1 mem
  refine ⟨wf', rfl, fun p mem a ha terminal => ?_, fun p mem => ?_⟩
  · rcases inv.uses p (Untangling.mem_rules.2 (.inl (stage p mem))) a ha with used | ⟨drawn, -⟩
    · exact used
    · exact absurd (fresh_of_mem_supply drawn).1 (Symbol.isTerminal_iff_not.1 terminal)
  · -- without left sides nothing is made
    cases eq : g.lefts with
    | nil =>
      rw [eq] at run
      cases run
      have none := stage p mem
      simp [Untangling.productions] at none
    | cons left others =>
      obtain ⟨right, known⟩ := mem_lefts.1 (eq ▸ List.mem_cons_self : left ∈ g.lefts)
      exact ⟨_, known⟩

/-! ## Whole transformations -/

theorem removals_descend (wf : g.WellFormed) :
    Descends g g.removeEpsilonProductions.removeUnitProductions.removeUseless :=
  have one := removeEpsilonProductions_descends wf
  have two := removeUnitProductions_descends one.wellFormed
  (one.trans two).trans (keep_descends two.wellFormed _)

theorem proper_descends (wf : g.WellFormed) (made : g.proper = .ok h) : Descends g h := by
  have useful : Descends g g.removeUseless := keep_descends wf _
  obtain ⟨-, rfl⟩ | ⟨some, k, rfl, ⟨-, start, fresh, rfl⟩ | ⟨-, rfl⟩⟩ := proper_cases made
  · exact useful
  · have raised := withNewStart_descends useful.wellFormed some fresh
    exact (useful.trans raised).trans (removals_descend raised.wellFormed)
  · exact useful.trans (removals_descend useful.wellFormed)

theorem exists_proper_of_toChomsky (wf : g.WellFormed) (rule : g.hasStartRule) (made : g.toChomsky = .ok h) :
    ∃ k, g.proper = .ok k ∧ Descends k h ∧ ∀ w, h.Generates w ↔ g.Generates w := by
  obtain ⟨-, -, same⟩ := toChomsky_spec wf rule made
  obtain ⟨k, proper, made⟩ := stages_of_toChomsky rule made
  exact ⟨k, proper, binarize_descends (proper_spec wf rule proper).wellFormed made, same⟩

theorem exists_proper_of_eliminateLeftRecursion (wf : g.WellFormed) (rule : g.hasStartRule)
    (made : g.eliminateLeftRecursion limits = .ok h) :
    ∃ k, g.proper = .ok k ∧ Descends k h ∧ ∀ w, h.Generates w ↔ g.Generates w := by
  obtain ⟨k, proper, made⟩ := stages_of_eliminateLeftRecursion rule made
  have form := proper_spec wf rule proper
  obtain ⟨-, -, same⟩ := removeLeftRecursion_spec form.wellFormed form.confined made
  exact ⟨k, proper, removeLeftRecursion_descends form.wellFormed form.confined made,
    fun w => (same w).trans (form.generates w)⟩

theorem exists_proper_of_toGreibach (wf : g.WellFormed) (rule : g.hasStartRule) (made : g.toGreibach limits = .ok h) :
    ∃ k, g.proper = .ok k ∧ Descends k h ∧ ∀ w, h.Generates w ↔ g.Generates w := by
  have same : ∀ w, h.Generates w ↔ g.Generates w := by
    obtain ⟨x, rfl, -, same⟩ := exists_greibach_of_toGreibach wf rule made
    exact fun w => removeUseless_generates.trans (same w)
  obtain ⟨g₁, g₂, g₃, g₄, chomsky, untangled, settled, lifted, rfl⟩ := stages_of_toGreibach rule made
  obtain ⟨k, proper, descends, -⟩ := exists_proper_of_toChomsky wf rule chomsky
  obtain ⟨-, shape, -⟩ := toChomsky_spec wf rule chomsky
  have two := removeLeftRecursion_descends descends.wellFormed (confined_of_isChomsky shape) untangled
  have three := settle_descends two.wellFormed settled
  have four := liftTrailingTerminals_descends three.wellFormed lifted
  exact ⟨k, proper, (((descends.trans two).trans three).trans four).trans (keep_descends four.wellFormed _), same⟩

theorem removeUseless_empty_of_not_generates (rule : g.hasStartRule)
    (none : ∀ w, ¬ g.Generates w) : p ∉ g.removeUseless.productions := by
  intro mem
  have useful := ((mem_removeUseless rule).1 mem).2 p.left List.mem_cons_self
  by_cases start : g.generatingPart.hasStartRule
  · obtain ⟨right, first⟩ := hasStartRule_iff.1 start
    obtain ⟨w, hw⟩ := exists_word_of_mem_generating (mem_generatingPart.1 first).2.1
    exact none w hw
  · simp [reachableSymbols, start] at useful

theorem proper_empty (rule : g.hasStartRule) (none : ∀ w, ¬ g.Generates w)
    (made : g.proper = .ok k) : k.productions = ∅ := by
  have empty : ∀ p, p ∉ g.removeUseless.productions := fun p => removeUseless_empty_of_not_generates rule none
  have gone : ¬ g.removeUseless.hasStartRule := by
    rw [hasStartRule_iff]
    rintro ⟨right, mem⟩
    exact empty _ mem
  obtain ⟨-, rfl⟩ | ⟨some, -⟩ := proper_cases made
  · exact eq_empty_of_not_mem empty
  · exact absurd some gone

theorem hasStartRule_of_normal (rule : g.hasStartRule)
    (normal : ∃ k, g.proper = .ok k ∧ Descends k h ∧ ∀ w, h.Generates w ↔ g.Generates w) :
    h.hasStartRule ∨ h.productions = ∅ := by
  obtain ⟨k, proper, descends, same⟩ := normal
  by_cases some : ∃ w, g.Generates w
  · obtain ⟨w, hw⟩ := some
    exact .inl (hasStartRule_of_generates descends.wellFormed ((same w).2 hw))
  · exact .inr (descends.empty (proper_empty rule (not_exists.1 some) proper))

/-- **What a transformation gives descends from what it was given.** -/
theorem apply_descends (wf : g.WellFormed) {t : Transformation} (made : t.apply limits g = .ok h) : Descends g h := by
  have normal : ∀ {x : Except GrammarError Grammar}, (g.hasStartRule → x = .ok h → ∃ k, g.proper = .ok k ∧
      Descends k h ∧ ∀ w, h.Generates w ↔ g.Generates w) → (¬ g.hasStartRule → x = .ok g) → x = .ok h →
      Descends g h := by
    intro x some none made
    by_cases rule : g.hasStartRule
    · obtain ⟨k, proper, descends, -⟩ := some rule made
      exact (proper_descends wf proper).trans descends
    · cases (none rule).symm.trans made
      exact .refl wf
  cases t with
  | removeUngenerative =>
    cases made
    unfold removeUngenerative
    split
    · exact keep_descends wf _
    · exact .refl wf
  | removeUnreachable =>
    cases made
    unfold removeUnreachable
    split
    · exact keep_descends wf _
    · exact .refl wf
  | removeUseless =>
    cases made
    exact keep_descends wf _
  | removeEpsilonProductions =>
    cases made
    exact removeEpsilonProductions_descends wf
  | removeUnitProductions =>
    cases made
    exact removeUnitProductions_descends wf
  | eliminateLeftRecursion =>
    exact normal (exists_proper_of_eliminateLeftRecursion wf) (fun none => if_neg none) made
  | toChomsky => exact normal (exists_proper_of_toChomsky wf) (fun none => if_neg none) made
  | toGreibach => exact normal (exists_proper_of_toGreibach wf) (fun none => if_neg none) made

end ContextFree.Grammar
