import ContextFree.Proofs.Proper

/-!
Symbols of use, and grammars in which every symbol is of use. A symbol serves when some derivation of a word from the start
symbol passes through it. It is not enough that it derives a word and can be reached: what can be reached only beside a
symbol that generates nothing is useless too. So the derivations of words are followed through the generating part of the
grammar, which has all of their productions (`derives_generatingPart`).

- `reaches_iff`: right sides lead to the symbols of the derived forms;
- `serves_iff`: the symbols that serve are those that the generating part leads to;
- `analysis_exact`: what the three sets of an analysis hold;
- `removeUseless_useful`: what is left after the removal is useful, as long as the start symbol keeps a production;
- `Useful.uselessSymbols_eq`, `Useful.removeUseless_eq`: a useful grammar has no useless symbol and stays as it is;
- `removals_exact`: what the three removals of symbols do to the language, and how they are related.
-/

namespace ContextFree.Grammar

open Relation
open Std (ExtTreeSet)

variable {g : Grammar} {p : Production} {s t : Symbol} {form w : List Symbol}

/-! ## Symbols of derived forms -/

theorem exists_form_of_leads (reached : ReflTransGen g.Leads s t) : ∃ form, Derives g.rules [s] form ∧ t ∈ form := by
  induction reached with
  | refl => exact ⟨[s], .refl, List.mem_singleton_self s⟩
  | tail _ step ih =>
    obtain ⟨right, mem, used⟩ := step
    obtain ⟨form, derives, held⟩ := ih
    obtain ⟨before, after, rfl⟩ := List.append_of_mem held
    refine ⟨before ++ right ++ after, .tail derives (.at before after (mem_rules.2 mem)), ?_⟩
    simp [used]

theorem leads_of_derives (derives : Derives g.rules [s] form) : ∀ t ∈ form, ReflTransGen g.Leads s t := by
  have kept : Derives g.rules [s] form ∧ ∀ t ∈ form, ReflTransGen g.Leads s t :=
    derives.confine (by simp [ReflTransGen.refl]) fun p mem reached =>
      ⟨mem, fun t used => .tail reached ⟨p.right, mem_rules.1 mem, used⟩⟩
  exact kept.2

/-- **Right sides lead to the symbols of the derived forms.** -/
theorem reaches_iff : ReflTransGen g.Leads s t ↔ ∃ form, Derives g.rules [s] form ∧ t ∈ form :=
  ⟨exists_form_of_leads, fun ⟨_, derives, held⟩ => leads_of_derives derives t held⟩

theorem generatingPart_rules_sub : ∀ p ∈ g.generatingPart.rules, p ∈ g.rules := fun _ mem =>
  mem_rules.2 (mem_generatingPart.1 (mem_rules.1 mem)).1

theorem generatingPart_generates : g.generatingPart.Generates w ↔ g.Generates w :=
  ⟨fun ⟨word, derives⟩ => ⟨word, derives.mono generatingPart_rules_sub⟩,
    fun ⟨word, derives⟩ => ⟨word, derives_generatingPart derives .refl word⟩⟩

theorem generatingPart_hasStartRule (wf : g.WellFormed) (generates : g.Generates w) : g.generatingPart.hasStartRule :=
  hasStartRule_of_generates (wf.keep _) (generatingPart_generates.2 generates)

theorem hasStartRule_of_mem_reachableSymbols (reached : s ∈ g.reachableSymbols) : g.hasStartRule := by
  by_contra none
  simp [reachableSymbols, none] at reached

/-- **The symbols that serve** are those that can be reached by generating productions. -/
theorem serves_iff (wf : g.WellFormed) : g.Serves s ↔ s ∈ g.generatingPart.reachableSymbols := by
  constructor
  · rintro ⟨form, w, derives, held, onward, word⟩
    have generates : g.Generates w := ⟨word, ReflTransGen.trans derives onward⟩
    rw [mem_reachableSymbols (generatingPart_hasStartRule wf generates)]
    exact leads_of_derives (derives_generatingPart derives onward word) s held
  · intro reached
    have rule := hasStartRule_of_mem_reachableSymbols reached
    obtain ⟨form, derives, held⟩ := exists_form_of_leads ((mem_reachableSymbols rule).1 reached)
    have each : ∀ t ∈ form, ∃ w, w ∈ words g.rules t := fun t ht =>
      exists_word_of_mem_generating
        (mem_generating_of_mem_reachable ((mem_reachableSymbols rule).2 (leads_of_derives derives t ht))).1
    obtain ⟨w, hw⟩ := exists_mem_form_iff.2 each
    obtain ⟨word, onward⟩ := derives_of_mem_form hw
    exact ⟨form, w, derives.mono generatingPart_rules_sub, held, onward, word⟩

/-- **The sets of an analysis mean what they say**: of the symbols of a grammar the generating ones are those that derive
some word, the reachable ones those of the forms that the start symbol derives, and the useless ones those that no
derivation of a word from the start symbol passes through. -/
theorem analysis_exact (wf : g.WellFormed) (rule : g.hasStartRule) (known : s ∈ g.symbols) :
    (s ∈ g.generatingSymbols ↔ ∃ w, IsWord w ∧ Derives g.rules [s] w) ∧
      (s ∈ g.reachableSymbols ↔ ∃ form, Derives g.rules [g.start] form ∧ s ∈ form) ∧
        (s ∈ g.uselessSymbols ↔ ¬ g.Serves s) := by
  refine ⟨?_, ?_, ?_⟩
  · rw [generatingSymbols, if_pos rule]
    exact mem_generating known
  · rw [mem_reachableSymbols rule, reaches_iff]
  · rw [mem_uselessSymbols rule, serves_iff wf]
    simp [known]

/-- `C` is reached and generates, but only beside `B`, which generates nothing. -/
def besideBarren : Grammar := ⟨'S', 'ε', .ofList [⟨'S', ['a']⟩, ⟨'S', ['a', 'B']⟩, ⟨'B', ['b', 'B']⟩, ⟨'B', ['C', 'B']⟩,
  ⟨'C', ['c']⟩, ⟨'D', ['d']⟩]⟩

theorem besideBarren_wellFormed : besideBarren.WellFormed :=
  .ofList (by decide +kernel) (by decide +kernel) (by decide +kernel) (by decide +kernel)

/-- No derivation of a word passes through `C`, although it derives a word and stands in a form that the start symbol
derives. -/
theorem analysis_besideBarren : besideBarren.WellFormed ∧ besideBarren.hasStartRule ∧ 'C' ∈ besideBarren.symbols ∧
    (∃ w, IsWord w ∧ Derives besideBarren.rules ['C'] w) ∧
      (∃ form, Derives besideBarren.rules ['S'] form ∧ 'C' ∈ form) ∧ ¬ besideBarren.Serves 'C' := by
  have rule : besideBarren.hasStartRule := by decide +kernel
  have known : 'C' ∈ besideBarren.symbols := by decide +kernel
  obtain ⟨generating, reachable, useless⟩ := analysis_exact besideBarren_wellFormed rule known
  exact ⟨besideBarren_wellFormed, rule, known, generating.1 (by decide +kernel), reachable.1 (by decide +kernel),
    useless.1 (by decide +kernel)⟩

/-! ## Useful grammars -/

/-- Every symbol derives some word, and the start symbol leads to it. -/
def Useful (g : Grammar) : Prop := ∀ s ∈ g.symbols, (∃ w, w ∈ words g.rules s) ∧ ReflTransGen g.Leads g.start s

/-- It is enough to look at the productions: to reach their left sides, and to derive words of their right sides. -/
theorem useful_of_rules (reached : ∀ p ∈ g.productions, ReflTransGen g.Leads g.start p.left)
    (derived : ∀ p ∈ g.productions, ∃ w, w ∈ (words g.rules).form p.right) : g.Useful := by
  intro s known
  obtain ⟨p, mem, rfl | used⟩ := mem_symbols.1 known
  · obtain ⟨w, hw⟩ := derived p mem
    exact ⟨⟨w, words_closed.rule p (mem_rules.2 mem) hw⟩, reached p mem⟩
  · exact ⟨exists_mem_form_iff.1 (derived p mem) s used, .tail (reached p mem) ⟨p.right, mem, used⟩⟩

theorem Useful.generatingPart_eq (useful : g.Useful) : g.generatingPart = g := by
  refine eq_of_productions rfl rfl fun p => ⟨fun mem => (mem_generatingPart.1 mem).1, fun mem => ?_⟩
  have generating : ∀ s ∈ p.left :: p.right, s ∈ g.generating := fun s hs => by
    have known : s ∈ g.symbols := mem_symbols.2 ⟨p, mem, List.mem_cons.1 hs⟩
    exact (mem_generating known).2 (useful s known).1
  rw [List.forall_mem_cons] at generating
  exact mem_generatingPart.2 ⟨mem, generating⟩

theorem Useful.uselessSymbols_eq (useful : g.Useful) : g.uselessSymbols = ∅ := by
  by_cases rule : g.hasStartRule
  · refine FiniteSet.ext fun s => iff_of_false (fun hs => ?_) ExtTreeSet.not_mem_empty
    rw [mem_uselessSymbols rule, useful.generatingPart_eq, mem_reachableSymbols rule] at hs
    exact hs.2 (useful s hs.1).2
  · simp [uselessSymbols, rule]

theorem removeUseless_eq (none : g.uselessSymbols = ∅) : g.removeUseless = g := by
  refine eq_of_productions rfl rfl fun p => ?_
  simp [removeUseless, none]

/-- **A useful grammar has nothing to remove.** -/
theorem Useful.removeUseless_eq (useful : g.Useful) : g.removeUseless = g :=
  Grammar.removeUseless_eq useful.uselessSymbols_eq

theorem removeUseless_leads (rule : g.hasStartRule) (reached : ReflTransGen g.generatingPart.Leads g.start s) :
    ReflTransGen g.removeUseless.Leads g.start s := by
  induction reached with
  | refl => exact .refl
  | tail reached step ih =>
    obtain ⟨right, mem, used⟩ := step
    exact .tail ih ⟨right, mem_removeUseless_of_leads rule mem reached, used⟩

/-- **What is left is useful**, when something is left for the start symbol. -/
theorem removeUseless_useful (rule : g.removeUseless.hasStartRule) : g.removeUseless.Useful := by
  have some : g.hasStartRule := by
    obtain ⟨right, mem⟩ := hasStartRule_iff.1 rule
    exact hasStartRule_iff.2 ⟨right, removeUseless_sub mem⟩
  have useful : ∀ p ∈ g.removeUseless.productions, ∀ s ∈ p.left :: p.right,
      (∃ w, w ∈ words g.removeUseless.rules s) ∧ ReflTransGen g.removeUseless.Leads g.start s := by
    intro p mem s hs
    obtain ⟨generating, reached⟩ := mem_generating_of_mem_reachable (((mem_removeUseless some).1 mem).2 s hs)
    obtain ⟨w, hw⟩ := exists_word_of_mem_generating generating
    exact ⟨⟨w, mem_removeUseless_words some reached hw⟩, removeUseless_leads some reached⟩
  intro s known
  obtain ⟨p, mem, hs⟩ := mem_symbols.1 known
  exact useful p mem s (List.mem_cons.2 hs)

theorem uselessSymbols_removeUseless : g.removeUseless.uselessSymbols = ∅ := by
  by_cases rule : g.removeUseless.hasStartRule
  · exact (removeUseless_useful rule).uselessSymbols_eq
  · simp [uselessSymbols, rule]

/-! ## The removals of symbols -/

theorem removeUngenerative_eq (rule : g.hasStartRule) : g.removeUngenerative = g.generatingPart := if_pos rule

theorem removeUngenerative_generates : g.removeUngenerative.Generates w ↔ g.Generates w := by
  by_cases rule : g.hasStartRule
  · rw [removeUngenerative_eq rule, generatingPart_generates]
  · rw [removeUngenerative, if_neg rule]

theorem removeUnreachable_eq (rule : g.hasStartRule) :
    g.removeUnreachable = g.keep fun p => p.left ∈ g.reachable := if_pos rule

theorem mem_removeUnreachable (rule : g.hasStartRule) : p ∈ g.removeUnreachable.productions ↔
    p ∈ g.productions ∧ ReflTransGen g.Leads g.start p.left := by
  simp [removeUnreachable_eq rule, mem_reachable]

theorem derives_removeUnreachable (rule : g.hasStartRule) (derives : Derives g.rules [g.start] form) :
    Derives g.removeUnreachable.rules [g.start] form := by
  refine (derives.confine (P := ReflTransGen g.Leads g.start) (by simp [ReflTransGen.refl]) fun p mem reached => ?_).1
  have old := mem_rules.1 mem
  exact ⟨mem_rules.2 ((mem_removeUnreachable rule).2 ⟨old, reached⟩), fun t used => .tail reached ⟨p.right, old, used⟩⟩

theorem removeUnreachable_generates : g.removeUnreachable.Generates w ↔ g.Generates w := by
  by_cases rule : g.hasStartRule
  · have sub : ∀ p ∈ g.removeUnreachable.rules, p ∈ g.rules := fun p mem =>
      mem_rules.2 ((mem_removeUnreachable rule).1 (mem_rules.1 mem)).1
    have start : g.removeUnreachable.start = g.start := by
      rw [removeUnreachable_eq rule]
      rfl
    rw [Generates, Generates, start]
    exact and_congr_right fun _ => ⟨fun derives => derives.mono sub, derives_removeUnreachable rule⟩
  · rw [removeUnreachable, if_neg rule]

/-- **Two removals in this order make the third**, when there is a word at all: first the symbols that generate nothing,
then those that cannot be reached any more. -/
theorem removeUseless_eq_removeUnreachable (wf : g.WellFormed) (generates : g.Generates w) :
    g.removeUseless = g.removeUngenerative.removeUnreachable := by
  have rule := hasStartRule_of_generates wf generates
  rw [removeUngenerative_eq rule, removeUnreachable_eq (generatingPart_hasStartRule wf generates)]
  refine eq_of_productions rfl rfl fun p => ?_
  rw [mem_keep, decide_eq_true_eq, mem_reachable]
  constructor
  · intro mem
    obtain ⟨old, reached⟩ := (mem_removeUseless rule).1 mem
    have each := fun s hs => mem_generating_of_mem_reachable (reached s hs)
    obtain ⟨generating, leads⟩ := each p.left List.mem_cons_self
    exact ⟨mem_generatingPart.2 ⟨old, generating, fun t ht => (each t (List.mem_cons_of_mem _ ht)).1⟩, leads⟩
  · exact fun ⟨mem, reached⟩ => mem_removeUseless_of_leads rule mem reached

/-- **The removals of symbols** keep the language, each of them. Removal of useless symbols leaves none and changes
nothing when it is made again; when there is a word at all, it is the removal of what cannot be reached after that of what
generates nothing. -/
theorem removals_exact (wf : g.WellFormed) :
    (∀ w, g.removeUngenerative.Generates w ↔ g.Generates w) ∧
      (∀ w, g.removeUnreachable.Generates w ↔ g.Generates w) ∧
        (∀ w, g.removeUseless.Generates w ↔ g.Generates w) ∧
          g.removeUseless.uselessSymbols = ∅ ∧ g.removeUseless.removeUseless = g.removeUseless ∧
            ((∃ w, g.Generates w) → g.removeUseless = g.removeUngenerative.removeUnreachable) := by
  refine ⟨fun w => removeUngenerative_generates, fun w => removeUnreachable_generates,
    fun w => removeUseless_generates, uselessSymbols_removeUseless, ?_, ?_⟩
  · exact removeUseless_eq uselessSymbols_removeUseless
  · exact fun ⟨_, generates⟩ => removeUseless_eq_removeUnreachable wf generates

/-- Only the word `a` is left here. The other order of the two removals would also leave the production of `C`. -/
theorem removals_besideBarren : besideBarren.WellFormed ∧ besideBarren.Generates ['a'] ∧
    besideBarren.removeUseless.Generates ['a'] ∧ besideBarren.removeUseless.uselessSymbols = ∅ ∧
      besideBarren.removeUseless = besideBarren.removeUngenerative.removeUnreachable ∧
        besideBarren.removeUseless ≠ besideBarren.removeUnreachable.removeUngenerative := by
  have word : besideBarren.Generates ['a'] :=
    ⟨by simpa using (by decide +kernel : Symbol.isTerminal 'a'), .rule (p := ⟨'S', ['a']⟩) (by decide +kernel)⟩
  obtain ⟨-, -, kept, none, -, order⟩ := removals_exact besideBarren_wellFormed
  exact ⟨besideBarren_wellFormed, word, (kept ['a']).2 word, none, order ⟨['a'], word⟩, by decide +kernel⟩

end ContextFree.Grammar
