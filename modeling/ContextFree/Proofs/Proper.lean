import ContextFree.Proofs.Analysis
import ContextFree.Transformation.Proper

/-!
The removals keep the language. For useless symbols derivations are followed: those of words use generating productions
only. The other proofs give both inclusions by a closed reading, production by production.

- `removeUseless_words`: without useless symbols the start symbol derives the same words;
- `removeEpsilonProductions_exact`: without empty right sides every symbol derives the same non-empty words, and the start
  symbol also the empty word if it did, by the only empty right side that is left;
- `removeUnitProductions_exact`: no unit production is left and every symbol derives the same words;
- `proper_cases`: the ways in which the proper form comes about;
- `proper_spec`: the proper form keeps the language, confines the empty right side to a start symbol that stands on no
  right side, and has no unit production.
-/

namespace ContextFree.Grammar

open Relation
open Std (ExtTreeSet)

variable {g h : Grammar} {p : Production} {s t : Symbol} {right u v w : List Symbol}

/-! ## Well-formed grammars under change -/

theorem WellFormed.withProductions (wf : g.WellFormed) {productions : FiniteSet Production}
    (ok : ∀ p ∈ productions, Symbol.isNonTerminal p.left ∧ g.epsilon ∉ p.right) :
    (g.withProductions productions).WellFormed where
  start_nonTerminal := wf.start_nonTerminal
  left_nonTerminal p mem := (ok p mem).1
  epsilon_terminal := wf.epsilon_terminal
  epsilon_not_right p mem := (ok p mem).2

theorem WellFormed.keep (wf : g.WellFormed) (test : Production → Bool) : (g.keep test).WellFormed :=
  wf.withProductions fun p mem => by
    have := (mem_keep.1 mem).1
    exact ⟨wf.left_nonTerminal p this, wf.epsilon_not_right p this⟩

theorem eq_of_productions (start : h.start = g.start) (epsilon : h.epsilon = g.epsilon)
    (same : ∀ p, p ∈ h.productions ↔ p ∈ g.productions) : h = g := by
  cases g
  cases h
  cases start
  cases epsilon
  exact congrArg (Grammar.mk _ _) (FiniteSet.ext same)

/-- Only the start symbol has an empty right side, and then it stands on no right side. -/
def EpsilonConfined (g : Grammar) : Prop :=
  ∀ p ∈ g.productions, p.right = [] → p.left = g.start ∧ ∀ q ∈ g.productions, g.start ∉ q.right

/-- No right side is a single non-terminal. -/
def UnitFree (g : Grammar) : Prop := ∀ p ∈ g.productions, ¬ p.isUnit

theorem hasStartRule_of_generates (wf : g.WellFormed) (hw : g.Generates w) : g.hasStartRule := by
  obtain ⟨right, mem, -⟩ := (mem_words_iff wf.start_nonTerminal).1 hw
  exact hasStartRule_iff.2 ⟨right, mem_rules.1 mem⟩

/-! ## Useless symbols -/

/-- the productions all of whose symbols generate -/
def generatingPart (g : Grammar) : Grammar := g.keep (isGenerating g.generating)

theorem mem_generatingPart : p ∈ g.generatingPart.productions ↔
    p ∈ g.productions ∧ p.left ∈ g.generating ∧ ∀ t ∈ p.right, t ∈ g.generating := by
  simp [generatingPart, isGenerating]

theorem mem_removeUseless_of_not (none : ¬ g.hasStartRule) :
    p ∈ g.removeUseless.productions ↔ p ∈ g.productions := by
  simp [removeUseless, uselessSymbols, none]

theorem mem_uselessSymbols (rule : g.hasStartRule) :
    s ∈ g.uselessSymbols ↔ s ∈ g.symbols ∧ s ∉ g.generatingPart.reachableSymbols := by
  simp [uselessSymbols, rule, generatingPart]

theorem mem_removeUseless (rule : g.hasStartRule) : p ∈ g.removeUseless.productions ↔
    p ∈ g.productions ∧ ∀ s ∈ p.left :: p.right, s ∈ g.generatingPart.reachableSymbols := by
  simp only [removeUseless, mem_keep, mem_uselessSymbols rule, List.all_eq_true, decide_eq_true_eq]
  refine and_congr_right fun mem => forall₂_congr fun s hs => ?_
  have known : s ∈ g.symbols := mem_symbols.2 ⟨p, mem, List.mem_cons.1 hs⟩
  simp [known]

theorem removeUseless_sub (mem : p ∈ g.removeUseless.productions) : p ∈ g.productions := (mem_keep.1 mem).1

theorem mem_reachableSymbols (rule : g.hasStartRule) : s ∈ g.reachableSymbols ↔ ReflTransGen g.Leads g.start s := by
  rw [reachableSymbols, if_pos rule, mem_reachable]

/-- A production with generating symbols only and a left side that can be reached without the others stays. -/
theorem mem_removeUseless_of_leads (rule : g.hasStartRule) (mem : p ∈ g.generatingPart.productions)
    (reached : ReflTransGen g.generatingPart.Leads g.start p.left) : p ∈ g.removeUseless.productions := by
  have rule' : g.generatingPart.hasStartRule := by
    rw [hasStartRule_iff]
    rcases ReflTransGen.cases_head reached with eq | ⟨t, ⟨right, first, -⟩, -⟩
    · exact ⟨p.right, by simpa [generatingPart, keep, Grammar.withProductions, eq] using mem⟩
    · exact ⟨right, first⟩
  refine (mem_removeUseless rule).2 ⟨(mem_generatingPart.1 mem).1, ?_⟩
  intro s hs
  rw [mem_reachableSymbols rule']
  rcases List.mem_cons.1 hs with rfl | hs
  · exact reached
  · exact .tail reached ⟨p.right, mem, hs⟩

/-- **A derivation that can be carried on to a word** uses generating productions only. -/
theorem derives_generatingPart (derives : Derives g.rules u v) (onward : Derives g.rules v w) (word : IsWord w) :
    Derives g.generatingPart.rules u v := by
  induction derives using ReflTransGen.head_induction_on with
  | refl => exact .refl
  | head step rest ih =>
    obtain @⟨before, after, p, mem⟩ := step
    have whole : w ∈ (words g.rules).form (before ++ p.right ++ after) :=
      mem_form_words.2 ⟨word, ReflTransGen.trans rest onward⟩
    have each : ∀ t ∈ p.right, ∃ x, x ∈ words g.rules t := fun t ht =>
      exists_mem_form_iff.1 ⟨w, whole⟩ t (by simp [ht])
    obtain ⟨x, hx⟩ := exists_mem_form_iff.2 each
    have old := mem_rules.1 mem
    have left : p.left ∈ g.generating :=
      (mem_generating (mem_symbols.2 ⟨p, old, .inl rfl⟩)).2 ⟨x, words_closed.rule p mem hx⟩
    have right : ∀ t ∈ p.right, t ∈ g.generating := fun t ht =>
      (mem_generating (mem_symbols.2 ⟨p, old, .inr ht⟩)).2 (each t ht)
    exact .head (.at before after (mem_rules.2 (mem_generatingPart.2 ⟨old, left, right⟩))) ih

theorem mem_removeUseless_words (rule : g.hasStartRule) (reached : ReflTransGen g.generatingPart.Leads g.start s)
    (hw : w ∈ words g.rules s) : w ∈ words g.removeUseless.rules s := by
  obtain ⟨word, derives⟩ := hw
  have useful : Derives g.generatingPart.rules [s] w := derives_generatingPart derives .refl word
  refine ⟨word, (useful.confine (P := ReflTransGen g.generatingPart.Leads g.start) (by simpa using reached) ?_).1⟩
  intro p mem left
  have old := mem_rules.1 mem
  refine ⟨mem_rules.2 (mem_removeUseless_of_leads rule old left), fun t ht => ?_⟩
  exact .tail left ⟨p.right, old, ht⟩

/-- **Without useless symbols the start symbol derives the same words.** -/
theorem removeUseless_words : words g.removeUseless.rules g.start = words g.rules g.start := by
  apply le_antisymm
  · exact words_mono (fun p mem => mem_rules.2 (removeUseless_sub (mem_rules.1 mem))) _
  · by_cases rule : g.hasStartRule
    · exact fun w => mem_removeUseless_words rule .refl
    · exact words_mono (fun p mem => mem_rules.2 ((mem_removeUseless_of_not rule).2 (mem_rules.1 mem))) _

theorem removeUseless_generates : g.removeUseless.Generates w ↔ g.Generates w := by
  rw [generates_iff, generates_iff, show g.removeUseless.start = g.start from rfl, removeUseless_words]

theorem removeUseless_empty (rule : g.hasStartRule) (none : ¬ g.removeUseless.hasStartRule) :
    p ∉ g.removeUseless.productions := by
  intro mem
  have all := ((mem_removeUseless rule).1 mem).2
  by_cases rule' : g.generatingPart.hasStartRule
  · obtain ⟨right, first⟩ := hasStartRule_iff.1 rule'
    exact none (hasStartRule_iff.2 ⟨right, mem_removeUseless_of_leads rule first .refl⟩)
  · have := all p.left List.mem_cons_self
    simp [reachableSymbols, rule'] at this

theorem mem_generating_of_mem_reachable (reached : s ∈ g.generatingPart.reachableSymbols) :
    s ∈ g.generating ∧ ReflTransGen g.generatingPart.Leads g.start s := by
  by_cases rule : g.generatingPart.hasStartRule
  · rw [mem_reachableSymbols rule] at reached
    refine ⟨?_, reached⟩
    rcases ReflTransGen.cases_tail reached with rfl | ⟨t, -, right, mem, used⟩
    · obtain ⟨right, mem⟩ := hasStartRule_iff.1 rule
      exact (mem_generatingPart.1 mem).2.1
    · exact (mem_generatingPart.1 mem).2.2 s used
  · simp [reachableSymbols, rule] at reached

/-- **Without useless symbols every symbol generates.** -/
theorem mem_generating_of_useful (rule : g.hasStartRule) (useful : g.uselessSymbols.isEmpty) (known : s ∈ g.symbols) :
    s ∈ g.generating := by
  have reached : s ∈ g.generatingPart.reachableSymbols := by
    by_contra absent
    have useless : s ∈ g.uselessSymbols := (mem_uselessSymbols rule).2 ⟨known, absent⟩
    rw [ExtTreeSet.isEmpty_iff.1 useful] at useless
    exact ExtTreeSet.not_mem_empty useless
  exact (mem_generating_of_mem_reachable reached).1

/-! ## Empty right sides -/

section Variants

variable {nullable : FiniteSet Symbol} {I : Reading} {variant : List Symbol}

theorem mem_variants_cons : variant ∈ variants nullable (s :: right) ↔
    (s ∈ nullable ∧ variant ∈ variants nullable right) ∨
      ∃ rest ∈ variants nullable right, variant = s :: rest := by
  simp only [variants]
  have kept : variant ∈ FiniteSet.ofList ((variants nullable right).toList.map (s :: ·)) ↔
      ∃ rest ∈ variants nullable right, variant = s :: rest := by
    simp [ExtTreeSet.mem_toList, eq_comm]
  split <;> rename_i hs
  · rw [ExtTreeSet.mem_union_iff, kept]
    simp [hs]
  · rw [kept]
    simp [hs]

theorem sublist_of_mem_variants (h : variant ∈ variants nullable right) : variant.Sublist right := by
  induction right generalizing variant with
  | nil =>
    obtain rfl : variant = [] := by simpa [variants] using h
    exact .slnil
  | cons s right ih =>
    rcases mem_variants_cons.1 h with ⟨-, mem⟩ | ⟨rest, mem, rfl⟩
    · exact (ih mem).cons s
    · exact (ih mem).cons_cons s

/-- A variant stands for no more than the form itself when nullable symbols stand for the empty word too. -/
theorem form_variant_le (one_le : ∀ s ∈ nullable, [] ∈ I s) (h : variant ∈ variants nullable right) :
    I.form variant ≤ I.form right := by
  induction right generalizing variant with
  | nil =>
    obtain rfl : variant = [] := by simpa [variants] using h
    exact le_rfl
  | cons s right ih =>
    rcases mem_variants_cons.1 h with ⟨hs, mem⟩ | ⟨rest, mem, rfl⟩
    · intro w hw
      exact Reading.mem_form_cons.2 ⟨[], one_le s hs, w, ih mem hw, rfl⟩
    · rw [Reading.form_cons, Reading.form_cons]
      exact mul_le_mul' le_rfl (ih mem)

/-- When nullable symbols may stand for the empty word in addition, every word of a form is one of a variant. -/
theorem exists_variant (hw : w ∈ Reading.form (fun s => {u | u ∈ I s ∨ u = [] ∧ s ∈ nullable}) right) :
    ∃ variant ∈ variants nullable right, w ∈ I.form variant := by
  induction right generalizing w with
  | nil => exact ⟨[], by simp [variants], hw⟩
  | cons s right ih =>
    obtain ⟨u, hu, v, hv, rfl⟩ := Reading.mem_form_cons.1 hw
    obtain ⟨variant, mem, hvariant⟩ := ih hv
    rcases hu with hu | ⟨rfl, hs⟩
    · exact ⟨s :: variant, mem_variants_cons.2 (.inr ⟨variant, mem, rfl⟩),
        Reading.mem_form_cons.2 ⟨u, hu, v, hvariant, rfl⟩⟩
    · exact ⟨variant, mem_variants_cons.2 (.inl ⟨hs, mem⟩), hvariant⟩

end Variants

theorem removeEpsilonProductions_eq (none : g.nullableSymbols.isEmpty) : g.removeEpsilonProductions = g := by
  simp [removeEpsilonProductions, none]

theorem mem_removeEpsilonProductions (some : ¬ g.nullableSymbols.isEmpty) :
    p ∈ g.removeEpsilonProductions.productions ↔ (p = ⟨g.start, []⟩ ∧ g.start ∈ g.nullableSymbols) ∨
      ∃ q ∈ g.productions, p.left = q.left ∧ p.right ∈ variants g.nullableSymbols q.right ∧ p.right ≠ [] := by
  simp only [removeEpsilonProductions, some, if_false, Grammar.withProductions, FiniteSet.mem_ofList, List.mem_append,
    List.mem_flatMap, mem_rules, List.mem_map, List.mem_filter, ExtTreeSet.mem_toList, Bool.false_eq_true]
  refine or_congr ?_ (exists_congr fun q => and_congr_right fun _ => ?_)
  · split <;> simp_all
  · constructor
    · rintro ⟨right, ⟨mem, nonempty⟩, rfl⟩
      exact ⟨rfl, mem, by simpa using nonempty⟩
    · rintro ⟨left, mem, nonempty⟩
      exact ⟨p.right, ⟨mem, by simpa using nonempty⟩, by rw [← left]⟩

theorem mem_right_of_removeEpsilonProductions (mem : p ∈ g.removeEpsilonProductions.productions) (hs : s ∈ p.right) :
    ∃ q ∈ g.productions, s ∈ q.right := by
  by_cases none : g.nullableSymbols.isEmpty
  · exact ⟨p, removeEpsilonProductions_eq none ▸ mem, hs⟩
  · rcases (mem_removeEpsilonProductions none).1 mem with ⟨rfl, -⟩ | ⟨q, hq, -, variant, -⟩
    · exact absurd hs List.not_mem_nil
    · exact ⟨q, hq, (sublist_of_mem_variants variant).subset hs⟩

theorem removeEpsilonProductions_start : g.removeEpsilonProductions.start = g.start := by
  simp only [removeEpsilonProductions]
  split <;> rfl

theorem removeEpsilonProductions_epsilon : g.removeEpsilonProductions.epsilon = g.epsilon := by
  simp only [removeEpsilonProductions]
  split <;> rfl

theorem removeEpsilonProductions_words_le : words g.removeEpsilonProductions.rules s ≤ words g.rules s := by
  by_cases none : g.nullableSymbols.isEmpty
  · rw [removeEpsilonProductions_eq none]
  · have null : ∀ t ∈ g.nullableSymbols, [] ∈ words g.rules t := fun t ht => mem_nullable.1 (nullableSymbols_sub ht)
    refine words_le ⟨fun a => singleton_mem_words, fun p mem => ?_⟩ s
    rcases (mem_removeEpsilonProductions none).1 (mem_rules.1 mem) with ⟨rfl, hs⟩ | ⟨q, mem, left, variant, -⟩
    · rintro w rfl
      exact null _ hs
    · rw [left]
      exact (form_variant_le null variant).trans (words_closed.rule q (mem_rules.2 mem))

/-- Every word is still derived, except that only the start symbol keeps the empty word. -/
theorem mem_removeEpsilonProductions_words (rule : g.hasStartRule) (hw : w ∈ words g.rules s)
    (keep : w = [] → s = g.start) : w ∈ words g.removeEpsilonProductions.rules s := by
  by_cases none : g.nullableSymbols.isEmpty
  · rwa [removeEpsilonProductions_eq none]
  have same : g.nullableSymbols = g.nullable := by rw [nullableSymbols, if_pos rule]
  -- in the old grammar a nullable symbol stands for the empty word in addition
  have closed : Reading.Closed
      (fun s => {u | u ∈ words g.removeEpsilonProductions.rules s ∨ u = [] ∧ s ∈ g.nullableSymbols}) g.rules := by
    refine ⟨fun a ha => .inl (singleton_mem_words ha), fun q mem u hu => ?_⟩
    obtain ⟨variant, hvariant, hu⟩ := exists_variant hu
    by_cases empty : variant = []
    · subst empty
      obtain rfl : u = [] := hu
      refine .inr ⟨rfl, ?_⟩
      have null : [] ∈ (words g.rules).form q.right :=
        form_variant_le (fun t ht => mem_nullable.1 (nullableSymbols_sub ht)) hvariant Language.nil_mem_one
      rw [same]
      exact mem_nullable.2 (words_closed.rule q mem null)
    · refine .inl (form_le_words (mem_rules.2 ?_) hu)
      exact (mem_removeEpsilonProductions none).2 (.inr ⟨q, mem_rules.1 mem, rfl, hvariant, empty⟩)
  rcases words_le closed s hw with hu | ⟨rfl, hs⟩
  · exact hu
  · obtain rfl := keep rfl
    have rule : ⟨_, []⟩ ∈ g.removeEpsilonProductions.productions :=
      (mem_removeEpsilonProductions none).2 (.inl ⟨rfl, hs⟩)
    exact form_le_words (mem_rules.2 rule) Language.nil_mem_one

theorem removeEpsilonProductions_generates (rule : g.hasStartRule) :
    g.removeEpsilonProductions.Generates w ↔ g.Generates w := by
  rw [generates_iff, generates_iff, removeEpsilonProductions_start]
  exact ⟨fun hw => removeEpsilonProductions_words_le hw,
    fun hw => mem_removeEpsilonProductions_words rule hw fun _ => rfl⟩

/-- Only a nullable start symbol keeps an empty right side. -/
theorem nil_mem_removeEpsilonProductions (rule : g.hasStartRule) :
    ⟨s, []⟩ ∈ g.removeEpsilonProductions.productions ↔ s = g.start ∧ g.start ∈ g.nullable := by
  have same : g.nullableSymbols = g.nullable := by rw [nullableSymbols, if_pos rule]
  by_cases none : g.nullableSymbols.isEmpty
  · -- without nullable symbols there is no empty right side to begin with
    rw [removeEpsilonProductions_eq none]
    rw [same, ExtTreeSet.isEmpty_iff] at none
    refine iff_of_false (fun mem => ?_) (by simp [none])
    have null : s ∈ g.nullable := nullable_closed mem (by simp)
    simp [none] at null
  · rw [mem_removeEpsilonProductions none, same]
    simp

/-- **Removal of empty right sides is exact.** The start symbol derives the same words, every symbol the same non-empty
words, and the only empty right side is that of a start symbol that derives the empty word, also when the start symbol
stands on right sides. -/
theorem removeEpsilonProductions_exact (rule : g.hasStartRule) :
    (∀ w, g.removeEpsilonProductions.Generates w ↔ g.Generates w) ∧
      (∀ s w, w ≠ [] → (w ∈ words g.removeEpsilonProductions.rules s ↔ w ∈ words g.rules s)) ∧
        ∀ s, ⟨s, []⟩ ∈ g.removeEpsilonProductions.productions ↔
          s = g.removeEpsilonProductions.start ∧ g.Generates [] := by
  refine ⟨fun w => removeEpsilonProductions_generates rule, fun s w nonempty => ?_, fun s => ?_⟩
  · exact ⟨fun hw => removeEpsilonProductions_words_le hw,
      fun hw => mem_removeEpsilonProductions_words rule hw fun empty => absurd empty nonempty⟩
  · rw [nil_mem_removeEpsilonProductions rule, removeEpsilonProductions_start, mem_nullable, generates_iff]

/-- In the grammar of brackets the start symbol is nullable and stands on a right side. -/
theorem removeEpsilonProductions_brackets : brackets.hasStartRule ∧ brackets.startOnRight ∧
    ⟨'S', []⟩ ∈ brackets.productions ∧
      (∀ w, brackets.removeEpsilonProductions.Generates w ↔ brackets.Generates w) ∧
        (∀ s w, w ≠ [] → (w ∈ words brackets.removeEpsilonProductions.rules s ↔ w ∈ words brackets.rules s)) ∧
          ∀ s, ⟨s, []⟩ ∈ brackets.removeEpsilonProductions.productions ↔
            s = brackets.removeEpsilonProductions.start ∧ brackets.Generates [] := by
  have rule : brackets.hasStartRule := by decide +kernel
  exact ⟨rule, by decide +kernel, by decide +kernel, removeEpsilonProductions_exact rule⟩

/-! ## Unit productions -/

theorem unitProductions_isEmpty (rule : g.hasStartRule) : g.unitProductions.isEmpty ↔ g.UnitFree := by
  simp [unitProductions, rule, UnitFree]

theorem removeUnitProductions_eq (none : g.unitProductions.isEmpty) : g.removeUnitProductions = g := by
  simp [removeUnitProductions, none]

theorem mem_removeUnitProductions (some : ¬ g.unitProductions.isEmpty) : p ∈ g.removeUnitProductions.productions ↔
    p.left ∈ g.lefts ∧ ¬ p.isUnit ∧
      ∃ source, ReflTransGen g.UnitStep p.left source ∧ ⟨source, p.right⟩ ∈ g.productions := by
  simp only [removeUnitProductions, some, if_false, Grammar.withProductions, FiniteSet.mem_ofList, List.mem_flatMap,
    ExtTreeSet.mem_toList, ExtTreeSet.mem_insert, Std.compare_eq_iff_eq, mem_unitClosure, List.mem_filterMap,
    mem_rightsOf, Bool.false_eq_true]
  have closure : ∀ s t, (s = t ∨ TransGen g.UnitStep s t) ↔ ReflTransGen g.UnitStep s t := by
    intro s t
    rw [reflTransGen_iff_eq_or_transGen, eq_comm]
  constructor
  · rintro ⟨left, known, source, reach, right, mem, eq⟩
    split at eq
    · cases eq
    · rename_i unit
      cases eq
      exact ⟨known, unit, source, (closure _ _).1 reach, mem⟩
  · rintro ⟨known, unit, source, reach, mem⟩
    refine ⟨p.left, known, source, (closure _ _).2 reach, p.right, mem, ?_⟩
    rw [if_neg (show ¬ Production.isUnit ⟨source, p.right⟩ from unit)]

theorem removeUnitProductions_start : g.removeUnitProductions.start = g.start := by
  simp only [removeUnitProductions]
  split <;> rfl

theorem removeUnitProductions_epsilon : g.removeUnitProductions.epsilon = g.epsilon := by
  simp only [removeUnitProductions]
  split <;> rfl

theorem words_le_of_unitStep (h : ReflTransGen g.UnitStep s t) : words g.rules t ≤ words g.rules s := by
  induction h with
  | refl => exact le_rfl
  | tail _ step ih =>
    refine le_trans (fun w hw => ?_) ih
    exact form_le_words (mem_rules.2 step.1) (by rwa [Reading.form_singleton])

/-- **Without unit productions every symbol derives the same words.** -/
theorem removeUnitProductions_words :
    words g.removeUnitProductions.rules s = words g.rules s := by
  by_cases none : g.unitProductions.isEmpty
  · rw [removeUnitProductions_eq none]
  apply le_antisymm
  · refine words_le ⟨fun a => singleton_mem_words, fun p mem => ?_⟩ s
    obtain ⟨-, -, source, reach, mem⟩ := (mem_removeUnitProductions none).1 (mem_rules.1 mem)
    exact (form_le_words (mem_rules.2 mem)).trans (words_le_of_unitStep reach)
  · refine words_le ⟨fun a => singleton_mem_words, fun p mem => ?_⟩ s
    have known : p.left ∈ g.lefts := mem_lefts.2 ⟨p.right, mem_rules.1 mem⟩
    by_cases unit : p.isUnit
    · -- a word of the target comes from a production that the left side takes over
      obtain ⟨t, right, ht⟩ := isUnit_iff.1 (show Production.isUnit ⟨p.left, p.right⟩ from unit)
      rw [right, Reading.form_singleton]
      intro w hw
      obtain ⟨r, target, hr⟩ := (mem_words_iff ht).1 hw
      obtain ⟨-, nonUnit, source, reach, mem'⟩ := (mem_removeUnitProductions none).1 (mem_rules.1 target)
      have step : g.UnitStep p.left t := ⟨right ▸ mem_rules.1 mem, ht⟩
      have taken : ⟨p.left, r⟩ ∈ g.removeUnitProductions.productions :=
        (mem_removeUnitProductions none).2 ⟨known, nonUnit, source, .head step reach, mem'⟩
      exact form_le_words (mem_rules.2 taken) hr
    · exact words_closed.rule p (mem_rules.2 ((mem_removeUnitProductions none).2
        ⟨known, unit, p.left, .refl, mem_rules.1 mem⟩))

theorem removeUnitProductions_generates :
    g.removeUnitProductions.Generates w ↔ g.Generates w := by
  rw [generates_iff, generates_iff, removeUnitProductions_start, removeUnitProductions_words]

theorem removeUnitProductions_unitFree (rule : g.hasStartRule) : g.removeUnitProductions.UnitFree := by
  by_cases none : g.unitProductions.isEmpty
  · rw [removeUnitProductions_eq none]
    exact (unitProductions_isEmpty rule).1 none
  · exact fun p mem => ((mem_removeUnitProductions none).1 mem).2.1

/-- **Removal of unit productions is exact.** No right side is a single non-terminal any more, and every symbol derives the
same words as before: along circles of unit productions, and with empty right sides still there. -/
theorem removeUnitProductions_exact (rule : g.hasStartRule) :
    (∀ s t, ⟨s, [t]⟩ ∈ g.removeUnitProductions.productions → Symbol.isTerminal t) ∧
      ∀ s w, w ∈ words g.removeUnitProductions.rules s ↔ w ∈ words g.rules s := by
  refine ⟨fun s t mem => Symbol.isTerminal_iff_not.2 fun upper => ?_, fun s w => by rw [removeUnitProductions_words]⟩
  exact removeUnitProductions_unitFree rule _ mem (isUnit_iff.2 ⟨t, rfl, upper⟩)

/-- unit productions in a circle, and an empty right side on it -/
def unitCircle : Grammar := ⟨'S', 'ε', .ofList [⟨'S', ['A']⟩, ⟨'A', ['B']⟩, ⟨'B', ['A']⟩, ⟨'B', ['a', 'S']⟩, ⟨'B', []⟩]⟩

/-- Two non-terminals lead to each other, and the start symbol to both. -/
theorem removeUnitProductions_unitCircle : unitCircle.hasStartRule ∧ 'A' ∈ unitCircle.unitClosure 'A' ∧
    ⟨'B', []⟩ ∈ unitCircle.productions ∧
      (∀ s t, ⟨s, [t]⟩ ∈ unitCircle.removeUnitProductions.productions → Symbol.isTerminal t) ∧
        ∀ s w, w ∈ words unitCircle.removeUnitProductions.rules s ↔ w ∈ words unitCircle.rules s := by
  have rule : unitCircle.hasStartRule := by decide +kernel
  exact ⟨rule, by decide +kernel, by decide +kernel, removeUnitProductions_exact rule⟩

/-! ## A new start symbol -/

theorem mem_withNewStart {start : Symbol} : p ∈ (g.withNewStart start).productions ↔
    p = ⟨start, []⟩ ∨ p = ⟨start, [g.start]⟩ ∨ p ∈ g.productions := by
  simp only [withNewStart, ExtTreeSet.mem_insert, Std.compare_eq_iff_eq]
  rw [eq_comm, @eq_comm _ (Production.mk start [g.start])]

/-- Above a nullable start symbol, a new one with the empty word as its second alternative changes nothing. -/
theorem withNewStart_generates {start : Symbol} (fresh : start ∈ g.supply.free) (null : g.start ∈ g.nullable) :
    (g.withNewStart start).Generates w ↔ g.Generates w := by
  obtain ⟨upper, unused, ne, -⟩ := fresh_of_mem_supply fresh
  rw [generates_iff, generates_iff]
  constructor
  · have closed : Reading.Closed (fun s => if s = start then words g.rules g.start else words g.rules s)
        (g.withNewStart start).rules := by
      have old : ∀ f : List Symbol, start ∉ f →
          Reading.form (fun s => if s = start then words g.rules g.start else words g.rules s) f =
            (words g.rules).form f := by
        intro f hf
        refine Reading.form_congr fun s hs => if_neg ?_
        rintro rfl
        exact hf hs
      refine ⟨?_, ?_⟩
      · intro a ha
        rw [if_neg (Symbol.ne_of_isTerminal ha upper)]
        exact singleton_mem_words ha
      · intro p mem
        rcases mem_withNewStart.1 (mem_rules.1 mem) with rfl | rfl | mem
        · rw [old [] (by simp), if_pos rfl]
          rintro w rfl
          exact mem_nullable.1 null
        · rw [old [g.start] (by simpa using ne), if_pos rfl, Reading.form_singleton]
        · have unmentioned : start ∉ p.left :: p.right := fun h =>
            unused (mem_symbols.2 ⟨p, mem, List.mem_cons.1 h⟩)
          rw [List.mem_cons, not_or] at unmentioned
          rw [old p.right unmentioned.2, if_neg (Ne.symm unmentioned.1)]
          exact words_closed.rule p (mem_rules.2 mem)
    intro hw
    have := words_le closed _ hw
    rwa [if_pos (show (g.withNewStart start).start = start from rfl)] at this
  · intro hw
    have mono : w ∈ words (g.withNewStart start).rules g.start :=
      words_mono (fun p mem => mem_rules.2 (mem_withNewStart.2 (.inr (.inr (mem_rules.1 mem))))) _ hw
    have rule : ⟨start, [g.start]⟩ ∈ (g.withNewStart start).productions := mem_withNewStart.2 (.inr (.inl rfl))
    refine form_le_words (mem_rules.2 rule) ?_
    rwa [Reading.form_singleton]

theorem WellFormed.withNewStart (wf : g.WellFormed) {start : Symbol} (fresh : start ∈ g.supply.free) :
    (g.withNewStart start).WellFormed := by
  obtain ⟨upper, -, -, -⟩ := fresh_of_mem_supply fresh
  refine ⟨upper, ?_, wf.epsilon_terminal, ?_⟩
  · intro p mem
    rcases mem_withNewStart.1 mem with rfl | rfl | mem
    · exact upper
    · exact upper
    · exact wf.left_nonTerminal p mem
  · intro p mem
    rcases mem_withNewStart.1 mem with rfl | rfl | mem
    · exact List.not_mem_nil
    · exact fun h => Symbol.ne_of_isTerminal wf.epsilon_terminal wf.start_nonTerminal (List.mem_singleton.1 h)
    · exact wf.epsilon_not_right p mem

/-! ## Proper form -/

theorem WellFormed.removeEpsilonProductions (wf : g.WellFormed) : g.removeEpsilonProductions.WellFormed := by
  by_cases none : g.nullableSymbols.isEmpty
  · rwa [removeEpsilonProductions_eq none]
  refine ⟨?_, ?_, ?_, ?_⟩
  · rw [removeEpsilonProductions_start]
    exact wf.start_nonTerminal
  · intro p mem
    rcases (mem_removeEpsilonProductions none).1 mem with ⟨rfl, -⟩ | ⟨q, mem, left, -⟩
    · exact wf.start_nonTerminal
    · rw [left]
      exact wf.left_nonTerminal q mem
  · rw [removeEpsilonProductions_epsilon]
    exact wf.epsilon_terminal
  · intro p mem used
    rw [removeEpsilonProductions_epsilon] at used
    obtain ⟨q, mem, used⟩ := mem_right_of_removeEpsilonProductions mem used
    exact wf.epsilon_not_right q mem used

theorem WellFormed.removeUnitProductions (wf : g.WellFormed) : g.removeUnitProductions.WellFormed := by
  by_cases none : g.unitProductions.isEmpty
  · rwa [removeUnitProductions_eq none]
  refine ⟨?_, ?_, ?_, ?_⟩
  · rw [removeUnitProductions_start]
    exact wf.start_nonTerminal
  · intro p mem
    obtain ⟨known, -, -⟩ := (mem_removeUnitProductions none).1 mem
    obtain ⟨right, mem⟩ := mem_lefts.1 known
    exact wf.left_nonTerminal ⟨p.left, right⟩ mem
  · rw [removeUnitProductions_epsilon]
    exact wf.epsilon_terminal
  · intro p mem
    obtain ⟨-, -, source, -, mem⟩ := (mem_removeUnitProductions none).1 mem
    rw [removeUnitProductions_epsilon]
    exact wf.epsilon_not_right ⟨source, p.right⟩ mem

theorem removeEpsilonProductions_hasStartRule (rule : g.hasStartRule) :
    g.removeEpsilonProductions.hasStartRule := by
  by_cases none : g.nullableSymbols.isEmpty
  · rwa [removeEpsilonProductions_eq none]
  obtain ⟨right, mem⟩ := hasStartRule_iff.1 rule
  rw [hasStartRule_iff, removeEpsilonProductions_start]
  by_cases empty : right = []
  · subst empty
    refine ⟨[], (mem_removeEpsilonProductions none).2 (.inl ⟨rfl, ?_⟩)⟩
    rw [nullableSymbols, if_pos rule]
    exact nullable_closed mem (by simp)
  · have whole : ∀ f : List Symbol, f ∈ variants g.nullableSymbols f := by
      intro f
      induction f with
      | nil => simp [variants]
      | cons s f ih => exact mem_variants_cons.2 (.inr ⟨f, ih, rfl⟩)
    exact ⟨right, (mem_removeEpsilonProductions none).2 (.inr ⟨_, mem, rfl, whole right, empty⟩)⟩

theorem removeEpsilonProductions_confined (rule : g.hasStartRule)
    (free : g.start ∈ g.nullable → ∀ q ∈ g.productions, g.start ∉ q.right) :
    g.removeEpsilonProductions.EpsilonConfined := by
  rintro ⟨left, right⟩ mem empty
  obtain rfl : right = [] := empty
  obtain ⟨rfl, null⟩ := (nil_mem_removeEpsilonProductions rule).1 mem
  refine ⟨removeEpsilonProductions_start.symm, fun q mem used => ?_⟩
  rw [removeEpsilonProductions_start] at used
  obtain ⟨r, mem, used⟩ := mem_right_of_removeEpsilonProductions mem used
  exact free null r mem used

theorem removeUnitProductions_confined (confined : g.EpsilonConfined) : g.removeUnitProductions.EpsilonConfined := by
  by_cases none : g.unitProductions.isEmpty
  · rwa [removeUnitProductions_eq none]
  intro p mem empty
  rw [removeUnitProductions_start]
  obtain ⟨-, -, source, reach, mem⟩ := (mem_removeUnitProductions none).1 mem
  obtain ⟨eq, free⟩ := confined _ mem empty
  obtain rfl : source = g.start := eq
  refine ⟨?_, ?_⟩
  · -- no unit production leads to a symbol that is on no right side
    rcases ReflTransGen.cases_tail reach with eq | ⟨t, -, step⟩
    · exact eq.symm
    · exact absurd (List.mem_singleton_self g.start) (free _ step.1)
  · intro q mem
    obtain ⟨-, -, source, -, mem⟩ := (mem_removeUnitProductions none).1 mem
    exact free ⟨source, q.right⟩ mem

theorem EpsilonConfined.removeUseless (confined : g.EpsilonConfined) : g.removeUseless.EpsilonConfined := by
  intro p mem empty
  obtain ⟨left, free⟩ := confined p (removeUseless_sub mem) empty
  exact ⟨left, fun q mem => free q (removeUseless_sub mem)⟩

theorem UnitFree.removeUseless (unitFree : g.UnitFree) : g.removeUseless.UnitFree :=
  fun p mem => unitFree p (removeUseless_sub mem)

/-- Where empty right sides are confined, a symbol of a right side derives no empty word. -/
theorem EpsilonConfined.nil_not_mem (confined : g.EpsilonConfined) (mem : p ∈ g.productions) (hs : s ∈ p.right) :
    [] ∉ words g.rules s := by
  intro nil
  refine words_induction (P := fun s w => (∃ q ∈ g.productions, s ∈ q.right) → w ≠ []) ?_ ?_ nil ⟨p, mem, hs⟩ rfl
  · exact fun a _ _ => List.cons_ne_nil a []
  rintro ⟨left, right⟩ mem w hw ⟨q, hq, used⟩
  rw [mem_rules] at mem
  cases right with
  | nil =>
    obtain ⟨rfl, free⟩ := confined _ mem rfl
    exact absurd used (free q hq)
  | cons t rest =>
    obtain ⟨u, hu, v, -, rfl⟩ := Reading.mem_form_cons.1 hw
    exact fun eq => hu.2 ⟨_, mem, List.mem_cons_self⟩ (List.append_eq_nil_iff.1 eq).1

theorem EpsilonConfined.nil_mem_words_iff (confined : g.EpsilonConfined) (hs : Symbol.isNonTerminal s) :
    [] ∈ words g.rules s ↔ ⟨s, []⟩ ∈ g.productions := by
  rw [mem_words_iff hs]
  constructor
  · rintro ⟨right, mem, nil⟩
    cases right with
    | nil => exact mem_rules.1 mem
    | cons t rest =>
      obtain ⟨u, hu, v, -, eq⟩ := Reading.mem_form_cons.1 nil
      rw [(List.append_eq_nil_iff.1 eq).1] at hu
      exact absurd hu (confined.nil_not_mem (mem_rules.1 mem) List.mem_cons_self)
  · exact fun mem => ⟨[], mem_rules.2 mem, Language.nil_mem_one⟩

/-- what a normal form has to be: the same language and no superfluous productions -/
structure ProperFor (g h : Grammar) : Prop where
  wellFormed : h.WellFormed
  generates : ∀ w, h.Generates w ↔ g.Generates w
  confined : h.EpsilonConfined
  unitFree : h.UnitFree

theorem properFor_removals (wf : g.WellFormed) (rule : g.hasStartRule)
    (free : g.start ∈ g.nullable → ∀ q ∈ g.productions, g.start ∉ q.right) :
    ProperFor g g.removeEpsilonProductions.removeUnitProductions.removeUseless where
  wellFormed := (wf.removeEpsilonProductions.removeUnitProductions).keep _
  generates w := by
    rw [removeUseless_generates, removeUnitProductions_generates, removeEpsilonProductions_generates rule]
  confined := (removeUnitProductions_confined (removeEpsilonProductions_confined rule free)).removeUseless
  unitFree := (removeUnitProductions_unitFree (removeEpsilonProductions_hasStartRule rule)).removeUseless

theorem withNewStart_not_right {start : Symbol} (fresh : start ∈ g.supply.free) {q : Production}
    (mem : q ∈ (g.withNewStart start).productions) : start ∉ q.right := by
  have unused := (fresh_of_mem_supply fresh).2
  rcases mem_withNewStart.1 mem with rfl | rfl | mem
  · exact List.not_mem_nil
  · exact fun h => unused.2.1 (List.mem_singleton.1 h)
  · exact fun h => unused.1 (mem_symbols.2 ⟨q, mem, .inr h⟩)

/-- **How the proper form comes about**: no useful production is left, or the last three removals are made, with a new
start symbol when the present one is nullable and stands on a right side. -/
theorem proper_cases (made : g.proper = .ok h) :
    (¬ g.removeUseless.hasStartRule ∧ h = g.removeUseless) ∨
    (g.removeUseless.hasStartRule ∧ ∃ k, h = k.removeEpsilonProductions.removeUnitProductions.removeUseless ∧
      ((g.removeUseless.start ∈ g.removeUseless.nullableSymbols ∧
          ∃ start ∈ g.removeUseless.supply.free, k = g.removeUseless.withNewStart start) ∨
        (¬ (g.removeUseless.start ∈ g.removeUseless.nullableSymbols ∧ g.removeUseless.startOnRight) ∧
          k = g.removeUseless))) := by
  simp only [proper] at made
  split at made
  · rename_i none
    cases made
    exact .inl ⟨by simpa using none, rfl⟩
  · rename_i some
    refine .inr ⟨by simpa using some, ?_⟩
    split at made
    · rename_i both
      obtain ⟨⟨start, rest⟩, drawn, made⟩ := exists_of_bind made
      simp only [pure, Except.pure, Except.ok.injEq] at made
      subst made
      have fresh : start ∈ g.removeUseless.supply.free := Supply.free_of_draw drawn ▸ List.mem_cons_self
      exact ⟨_, rfl, .inl ⟨both.1, start, fresh, rfl⟩⟩
    · rename_i both
      cases made
      exact ⟨_, rfl, .inr ⟨both, rfl⟩⟩

/-- **The proper form** has the same language, its only empty right side is that of a start symbol on no right side, and
it has no unit production. -/
theorem proper_spec (wf : g.WellFormed) (rule : g.hasStartRule) (made : g.proper = .ok h) : ProperFor g h := by
  have wfUseful : g.removeUseless.WellFormed := wf.keep _
  have useful : ∀ w, g.removeUseless.Generates w ↔ g.Generates w := fun w => removeUseless_generates
  obtain ⟨none, rfl⟩ | ⟨some, k, rfl, ⟨null, start, fresh, rfl⟩ | ⟨both, rfl⟩⟩ := proper_cases made
  · have empty : ∀ p, p ∉ g.removeUseless.productions := fun p => removeUseless_empty rule none
    exact ⟨wfUseful, useful, fun p mem => absurd mem (empty p), fun p mem => absurd mem (empty p)⟩
  · have started : (g.removeUseless.withNewStart start).hasStartRule :=
      hasStartRule_iff.2 ⟨[], mem_withNewStart.2 (.inl rfl)⟩
    have done := properFor_removals (wfUseful.withNewStart fresh) started fun _ _ => withNewStart_not_right fresh
    refine { done with generates := fun w => ?_ }
    rw [done.generates w, withNewStart_generates fresh (nullableSymbols_sub null), useful w]
  · rw [nullableSymbols, if_pos some, startOnRight_iff] at both
    have done := properFor_removals wfUseful some fun null q mem h => both ⟨null, q, mem, h⟩
    exact { done with generates := fun w => by rw [done.generates w, useful w] }

end ContextFree.Grammar
