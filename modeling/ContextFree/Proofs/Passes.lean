import Mathlib.Data.Finset.Prod
import ContextFree.Analysis.Passes
import ContextFree.Proofs.Leading

/-!
Passes that fill sets in place come to an end, and with the least sets that are closed under the productions. What a state
holds only grows, within a finite world, so some pass changes nothing; then no single production changes anything, in
whatever state its turn found the sets.

- `Fills.pass`, `Fills.exists_still`: what one pass does, and that repeated passes end where no production adds anything;
- `saturate_eq`: passes find the closure of a set under the productions;
- `Sound.extend`, `firstByPasses_eq`: FIRST by passes is FIRST by chains of leading symbols;
- `firstSets_exact`: FIRST and nullability of forms, by derivations.
-/

namespace ContextFree

open Std Relation

/-! ## Repeated passes -/

section

variable {α β : Type} {rules : List Production} {step : α → Production → α} {Inv : α → Prop} {held : α → Set β}
  {world : Finset β} {a : α}

/-- Productions, one after the other, add to what a state holds, within a finite world and under an invariant. -/
structure Fills (rules : List Production) (step : α → Production → α) (Inv : α → Prop) (held : α → Set β)
    (world : Finset β) : Prop where
  keeps : ∀ a, Inv a → ∀ p ∈ rules, Inv (step a p)
  adds : ∀ a p, held a ⊆ held (step a p)
  inside : ∀ a, Inv a → held a ⊆ world
  ext : ∀ a b, Inv a → Inv b → held a = held b → a = b

/-- **Some productions in turn** keep the invariant and lose nothing, and what one of them adds is there at the end. -/
theorem Fills.pass (fills : Fills rules step Inv held world) {part : List Production} (sub : ∀ p ∈ part, p ∈ rules)
    (inv : Inv a) : Inv (part.foldl step a) ∧ held a ⊆ held (part.foldl step a) ∧
      ∀ p ∈ part, ∃ c, Inv c ∧ held a ⊆ held c ∧ held (step c p) ⊆ held (part.foldl step a) := by
  induction part generalizing a with
  | nil => exact ⟨inv, subset_rfl, by simp⟩
  | cons q part ih =>
    rw [List.forall_mem_cons] at sub
    obtain ⟨kept, more, turns⟩ := ih sub.2 (fills.keeps a inv q sub.1)
    have grown := fills.adds a q
    refine ⟨kept, grown.trans more, List.forall_mem_cons.2 ⟨⟨a, inv, subset_rfl, more⟩, fun p mem => ?_⟩⟩
    obtain ⟨c, invC, later, there⟩ := turns p mem
    exact ⟨c, invC, grown.trans later, there⟩

theorem Fills.still (fills : Fills rules step Inv held world) (inv : Inv a) (same : rules.foldl step a = a) :
    ∀ p ∈ rules, step a p = a := by
  obtain ⟨-, -, turns⟩ := fills.pass (fun _ => id) inv
  intro p mem
  obtain ⟨c, invC, grown, there⟩ := turns p mem
  rw [same] at there
  -- the state in which the production has its turn is the one before the pass
  obtain rfl : c = a := fills.ext c a invC inv (Set.Subset.antisymm ((fills.adds c p).trans there) grown)
  exact fills.ext _ _ (fills.keeps c inv p mem) inv (Set.Subset.antisymm there (fills.adds c p))

/-- **Repeated passes end** in a state in which no production adds anything. -/
theorem Fills.exists_still [DecidableEq α] (fills : Fills rules step Inv held world) (inv : Inv a) :
    ∃ b, repeatPass (fun a => rules.foldl step a) a = some b ∧ Inv b ∧ ∀ p ∈ rules, step b p = b := by
  classical
  induction missing : (world.filter (· ∉ held a)).card using Nat.strong_induction_on generalizing a with
  | _ n ih =>
    by_cases same : rules.foldl step a = a
    · exact ⟨a, repeatPass_still same, inv, fills.still inv same⟩
    · rw [repeatPass_again same]
      obtain ⟨kept, more, -⟩ := fills.pass (fun _ => id) inv
      -- a pass that changes something takes in some value that was missing
      obtain ⟨b, there, new⟩ : ∃ b ∈ held (rules.foldl step a), b ∉ held a := by
        by_contra none
        push Not at none
        exact same (fills.ext _ _ kept inv (Set.Subset.antisymm none more))
      have fewer := Search.card_filter_lt (P := (· ∉ held a)) (Q := (· ∉ held (rules.foldl step a)))
        (fun c absent old => absent (more old)) (fills.inside _ kept there) new (not_not.2 there)
      exact ih _ (missing ▸ fewer) kept rfl

end

/-! ## Closed sets -/

section

variable {rules : List Production} {p : Production} {s start : FiniteSet Symbol} {t : Symbol}

theorem mem_absorb : t ∈ absorb s p ↔ t ∈ s ∨ t = p.left ∧ ∀ u ∈ p.right, u ∈ s := by
  unfold absorb
  split
  · rename_i missing
    simp only [List.all_eq_true, decide_eq_true_eq] at missing
    rw [ExtTreeSet.mem_insert, Std.compare_eq_iff_eq, or_comm, eq_comm]
    exact or_congr_right (iff_self_and.2 fun _ => missing.2)
  · rename_i settled
    simp only [List.all_eq_true, decide_eq_true_eq, not_and'] at settled
    refine ⟨.inl, fun h => h.elim id ?_⟩
    rintro ⟨rfl, all⟩
    exact not_not.1 (settled all)

/-- **Passes find the closure** of a set under the productions. -/
theorem saturate_eq : saturate rules start = some (Grammar.closeUnder rules rules.length start) := by
  set closure := Grammar.closeUnder rules rules.length start with hclosure
  have closed : ∀ p ∈ rules, (∀ t ∈ p.right, t ∈ closure) → p.left ∈ closure := fun p mem all =>
    Grammar.closeUnder_closed Grammar.length_missing_le mem all
  have fills : Fills rules absorb (fun s => (∀ t ∈ start, t ∈ s) ∧ ∀ t ∈ s, t ∈ closure) (fun s => {t | t ∈ s})
      closure.toList.toFinset :=
    { keeps := by
        rintro s ⟨above, below⟩ p mem
        refine ⟨fun t ht => mem_absorb.2 (.inl (above t ht)), fun t ht => ?_⟩
        rcases mem_absorb.1 ht with old | ⟨rfl, all⟩
        · exact below t old
        · exact closed p mem fun u hu => below u (all u hu)
      adds := fun s p t ht => mem_absorb.2 (.inl ht)
      inside := fun s inv t ht => by simpa [ExtTreeSet.mem_toList] using inv.2 t ht
      ext := fun s s' _ _ same => FiniteSet.ext fun t => Set.ext_iff.1 same t }
  obtain ⟨s, found, ⟨above, below⟩, still⟩ := fills.exists_still (a := start)
    ⟨fun _ => id, fun t ht => Grammar.subset_closeUnder ht⟩
  have whole : ∀ t ∈ closure, t ∈ s := fun t ht => by
    refine Grammar.of_mem_closeUnder (P := (· ∈ s)) above (fun p mem all => ?_) ht
    rw [← still p mem]
    exact mem_absorb.2 (.inr ⟨rfl, all⟩)
  rw [saturate, found]
  exact congrArg some (FiniteSet.ext fun t => ⟨below t, whole t⟩)

end

/-! ## FIRST -/

namespace FirstSets

variable {sets : FirstSets} {p : Production} {s a : Symbol}

theorem of_nonTerminal (hs : Symbol.isNonTerminal s) : sets.of s = sets.heads.getD s ∅ :=
  if_neg (Symbol.not_isTerminal.2 hs)

theorem mem_heads (first : a ∈ sets.heads.getD s ∅) : s ∈ sets.heads := by
  by_contra unknown
  rw [ExtTreeMap.getD_eq_fallback unknown] at first
  exact ExtTreeSet.not_mem_empty first

theorem mem_heads_extend :
    a ∈ (sets.extend p).heads.getD s ∅ ↔
      a ∈ sets.heads.getD s ∅ ∨ s = p.left ∧ a ∈ (sets.ofForm p.right).1 := by
  simp only [extend, ExtTreeMap.getD_insert, Std.compare_eq_iff_eq]
  split
  · rename_i left
    subst left
    simp [ExtTreeSet.mem_union_iff]
  · rename_i ne
    simp [Ne.symm ne]

end FirstSets

namespace Grammar

variable {g : Grammar} {p : Production} {s a : Symbol} {form : List Symbol} {sets : FirstSets}

/-- The sets are FIRST sets as far as they go: filled by chains of leading symbols, for the non-terminals of the grammar. -/
structure Sound (g : Grammar) (sets : FirstSets) : Prop where
  nullable : sets.nullable = g.nullable
  known : ∀ s, s ∈ sets.heads ↔ s ∈ g.nonTerminals
  chain : ∀ s a, a ∈ sets.heads.getD s ∅ → Symbol.isTerminal a ∧ ReflTransGen g.LeadStep s a

theorem Sound.of (sound : g.Sound sets) (first : a ∈ sets.of s) : Symbol.isTerminal a ∧ ReflTransGen g.LeadStep s a := by
  unfold FirstSets.of at first
  split at first
  · rename_i hs
    obtain rfl : a = s := by simpa using first
    exact ⟨hs, .refl⟩
  · exact sound.chain s a first

/-- **A production in its turn** keeps the sets sound. -/
theorem Sound.extend (lefts : NonTerminalLefts g.rules) (sound : g.Sound sets) (mem : p ∈ g.rules) :
    g.Sound (sets.extend p) where
  nullable := sound.nullable
  known s := by
    have left : p.left ∈ g.nonTerminals := mem_nonTerminals.2 ⟨mem_symbols.2 ⟨p, mem_rules.1 mem, .inl rfl⟩, lefts p mem⟩
    simp only [FirstSets.extend, ExtTreeMap.mem_insert, Std.compare_eq_iff_eq, sound.known]
    exact or_iff_right_of_imp fun eq => eq ▸ left
  chain s a first := by
    rcases FirstSets.mem_heads_extend.1 first with old | ⟨rfl, new⟩
    · exact sound.chain s a old
    · obtain ⟨before, t, after, right, all, ht⟩ := mem_first_ofForm.1 new
      obtain ⟨terminal, chain⟩ := sound.of ht
      exact ⟨terminal, .head ⟨before, after, right ▸ mem_rules.1 mem, sound.nullable ▸ all⟩ chain⟩

/-- When no production adds anything, FIRST is handed on along chains of leading symbols. -/
theorem Sound.of_chain (sound : g.Sound sets) (lefts : NonTerminalLefts g.rules)
    (still : ∀ p ∈ g.rules, sets.extend p = sets) (terminal : Symbol.isTerminal a)
    (chain : ReflTransGen g.LeadStep s a) : a ∈ sets.of s := by
  induction chain using ReflTransGen.head_induction_on with
  | refl => simp [FirstSets.of, terminal]
  | @head s t step _ ih =>
    obtain ⟨before, after, mem, all⟩ := step
    have rule := mem_rules.2 mem
    have first : a ∈ (sets.ofForm (before ++ t :: after)).1 :=
      mem_first_ofForm.2 ⟨before, t, after, rfl, sound.nullable ▸ all, ih⟩
    rw [FirstSets.of_nonTerminal (lefts _ rule), ← still _ rule]
    exact FirstSets.mem_heads_extend.2 (.inr ⟨rfl, first⟩)

theorem Sound.nonTerminal (sound : g.Sound sets) (first : a ∈ sets.heads.getD s ∅) : Symbol.isNonTerminal s :=
  (mem_nonTerminals.1 ((sound.known s).1 (FirstSets.mem_heads first))).2

/-- Sound sets are given by what they hold. -/
theorem Sound.ext {other : FirstSets} (sound : g.Sound sets) (sound' : g.Sound other)
    (same : ∀ s a, a ∈ sets.heads.getD s ∅ ↔ a ∈ other.heads.getD s ∅) : sets = other := by
  have heads : sets.heads = other.heads := by
    refine ExtTreeMap.ext_getElem? fun s => ?_
    by_cases known : s ∈ g.nonTerminals
    · have one := (sound.known s).2 known
      have two := (sound'.known s).2 known
      have eq := FiniteSet.ext (same s)
      rw [ExtTreeMap.getD_eq_getD_getElem?, ExtTreeMap.getD_eq_getD_getElem?] at eq
      rw [ExtTreeMap.getElem?_eq_some_getElem one, ExtTreeMap.getElem?_eq_some_getElem two] at eq ⊢
      exact congrArg some eq
    · rw [ExtTreeMap.getElem?_eq_none (mt (sound.known s).1 known),
        ExtTreeMap.getElem?_eq_none (mt (sound'.known s).1 known)]
  have nullable := sound.nullable.trans sound'.nullable.symm
  cases sets
  cases other
  cases heads
  cases nullable
  rfl

theorem sound_firstSets (lefts : NonTerminalLefts g.rules) : g.Sound g.firstSets := by
  have known : ∀ s, s ∈ g.firstSets.heads ↔ s ∈ g.nonTerminals := by
    simp [firstSets, Function.comp_def, ExtTreeSet.mem_toList, ExtTreeMap.mem_ofList]
  refine ⟨rfl, known, fun s a first => ?_⟩
  have upper := (mem_nonTerminals.1 ((known s).1 (FirstSets.mem_heads first))).2
  rw [← FirstSets.of_nonTerminal upper] at first
  exact (mem_of lefts).1 first

theorem sound_empty : g.Sound ⟨g.nullable, .ofList (g.nonTerminals.toList.map fun s => (s, ∅)) compare⟩ := by
  refine ⟨rfl, fun s => ?_, fun s a first => ?_⟩
  · simp [Function.comp_def, ExtTreeSet.mem_toList, ExtTreeMap.mem_ofList]
  · rw [ExtTreeMap.getD_eq_getD_getElem?] at first
    cases found : (ExtTreeMap.ofList (g.nonTerminals.toList.map fun s => (s, (∅ : FiniteSet Symbol))) compare)[s]? with
    | none => simp [found] at first
    | some set =>
      have nodup : ((g.nonTerminals.toList.map fun s => (s, (∅ : FiniteSet Symbol))).map Prod.fst).Nodup := by
        simpa [Function.comp_def] using FiniteSet.nodup_toList
      obtain ⟨-, rfl⟩ : s ∈ g.nonTerminals ∧ ∅ = set := by
        simpa [ExtTreeSet.mem_toList] using (Search.lookup_iff nodup).1 found
      simp [found] at first

theorem Sound.mem_terminals (sound : g.Sound sets) (first : a ∈ sets.heads.getD s ∅) : a ∈ g.terminals := by
  obtain ⟨terminal, chain⟩ := sound.chain s a first
  refine Grammar.mem_terminals.2 ⟨?_, terminal⟩
  rcases ReflTransGen.cases_tail chain with rfl | ⟨t, -, step⟩
  · exact absurd (sound.nonTerminal first) (Symbol.isTerminal_iff_not.1 terminal)
  · obtain ⟨right, mem, used⟩ := step.leads
    exact right_mem_symbols mem used

/-- **FIRST by passes** is FIRST by chains of leading symbols: the passes end, and they end there. -/
theorem firstByPasses_eq (lefts : NonTerminalLefts g.rules) : g.firstByPasses = some g.firstSets := by
  have fills : Fills g.rules FirstSets.extend g.Sound (fun sets => {x | x.2 ∈ sets.heads.getD x.1 ∅})
      (g.nonTerminals.toList.toFinset ×ˢ g.terminals.toList.toFinset) :=
    { keeps := fun sets sound p mem => sound.extend lefts mem
      adds := fun sets p x hx => FirstSets.mem_heads_extend.2 (.inl hx)
      inside := by
        rintro sets sound ⟨s, a⟩ first
        have left := (sound.known s).1 (FirstSets.mem_heads first)
        simpa [ExtTreeSet.mem_toList] using And.intro left (sound.mem_terminals first)
      ext := fun one two sound sound' same => sound.ext sound' fun s a => Set.ext_iff.1 same (s, a) }
  obtain ⟨sets, found, sound, still⟩ := fills.exists_still sound_empty
  have exact_sets : sets = g.firstSets := by
    refine sound.ext (sound_firstSets lefts) fun s a => ⟨fun first => ?_, fun first => ?_⟩
    · rw [← FirstSets.of_nonTerminal (sound.nonTerminal first), mem_of lefts]
      exact sound.chain s a first
    · have sound' := sound_firstSets lefts
      obtain ⟨terminal, chain⟩ := sound'.chain s a first
      rw [← FirstSets.of_nonTerminal (sound'.nonTerminal first)]
      exact sound.of_chain lefts still terminal chain
  rw [firstByPasses, saturate_eq, ← exact_sets]
  exact found

/-- **FIRST and nullability are exact**, with or without a production for the start symbol. Passes over the productions come
to rest at the FIRST sets; FIRST of a form holds the terminals that derived forms begin with, and a form or a symbol is
nullable when it derives the empty word. -/
theorem firstSets_exact (wf : g.WellFormed) :
    g.firstByPasses = some g.firstSets ∧
      (∀ form, (∀ a, a ∈ (g.firstSets.ofForm form).1 ↔ BeginsWith g.rules form a) ∧
        ((g.firstSets.ofForm form).2 ↔ Derives g.rules form [])) ∧
        ∀ s, g.firstSets.isNullable s ↔ Derives g.rules [s] [] := by
  refine ⟨firstByPasses_eq wf.lefts, fun form => ⟨fun a => mem_ofForm_iff wf.lefts, ofForm_nullable_iff⟩, fun s => ?_⟩
  rw [← ofForm_nullable_iff]
  simp [FirstSets.ofForm]

/-- a grammar whose start symbol has no production -/
def startless : Grammar := ⟨'S', 'ε', .ofList [⟨'A', []⟩, ⟨'A', ['a']⟩, ⟨'B', ['A', 'A', 'b']⟩]⟩

/-- FIRST looks through the nullable `A` although no symbol counts as nullable in a report on this grammar. -/
theorem firstSets_startless : startless.WellFormed ∧ startless.nullableSymbols.isEmpty ∧
    BeginsWith startless.rules ['B'] 'a' ∧ BeginsWith startless.rules ['B'] 'b' ∧
      ¬ BeginsWith startless.rules ['A', 'A'] 'b' ∧ Derives startless.rules ['A', 'A'] [] ∧
        ¬ Derives startless.rules ['B'] [] := by
  have wf : startless.WellFormed :=
    .ofList (by decide +kernel) (by decide +kernel) (by decide +kernel) (by decide +kernel)
  obtain ⟨-, first, nullable⟩ := firstSets_exact wf
  refine ⟨wf, by decide +kernel, ((first ['B']).1 'a').1 (by decide +kernel), ((first ['B']).1 'b').1 (by decide +kernel),
    mt ((first ['A', 'A']).1 'b').2 (by decide +kernel), (first ['A', 'A']).2.1 (by decide +kernel),
    mt (nullable 'B').2 (by decide +kernel)⟩

end Grammar

end ContextFree
