import ContextFree.Analysis.First
import ContextFree.Proofs.Language
import ContextFree.Proofs.Search

/-!
What the analysis of a grammar says about its derivations.

- `mem_nullable`, `mem_generating`: the closures are the symbols that derive the empty word, and some word;
- `mem_reachable`, `mem_unitClosure`: the searches follow right sides, and unit productions;
- `mem_of`, `mem_ofForm`: FIRST of a symbol holds the terminals at the end of its chains of leading symbols, and
  `first_of_mem_form` finds there whatever a word of a form begins with.
-/

namespace ContextFree.Grammar

open Std Relation

variable {g : Grammar} {rules : List Production} {s t : Symbol} {rounds : Nat} {start : FiniteSet Symbol}

/-! ## Least closed sets -/

theorem subset_closeUnder (h : s ∈ start) : s ∈ closeUnder rules rounds start := by
  induction rounds generalizing start with
  | zero => exact h
  | succ rounds ih =>
    simp only [closeUnder]
    split
    · exact h
    · exact ih (ExtTreeSet.mem_union_iff.2 (.inl h))

/-- the productions whose left side is still missing -/
def missing (rules : List Production) (s : FiniteSet Symbol) : List Production := rules.filter (·.left ∉ s)

/-- As many rounds as left sides are missing give a closed set. -/
theorem closeUnder_closed (enough : (missing rules start).length ≤ rounds) {p : Production} (mem : p ∈ rules)
    (all : ∀ t ∈ p.right, t ∈ closeUnder rules rounds start) : p.left ∈ closeUnder rules rounds start := by
  induction rounds generalizing start with
  | zero =>
    have none : missing rules start = [] := List.length_eq_zero_iff.1 (Nat.le_zero.1 enough)
    have := List.filter_eq_nil_iff.1 none p mem
    simpa [closeUnder] using this
  | succ rounds ih =>
    simp only [closeUnder] at all ⊢
    split at all
    · rename_i stable
      rw [if_pos stable]
      by_contra absent
      have := List.filter_eq_nil_iff.1 (List.isEmpty_iff.1 stable) p mem
      exact this (by simpa [absent] using all)
    · rename_i progress
      rw [if_neg progress]
      refine ih ?_ all
      set complete := rules.filter fun p => p.left ∉ start ∧ p.right.all (· ∈ start) with hcomplete
      obtain ⟨q, hq⟩ := List.exists_mem_of_ne_nil complete (fun h => progress (by simp [h]))
      obtain ⟨hqr, hqs⟩ := List.mem_filter.1 hq
      simp only [decide_eq_true_eq] at hqs
      -- the rounds left over suffice because the production `q` is no longer missing
      have fewer : (missing rules (start ∪ .ofList (complete.map (·.left)))).length < (missing rules start).length := by
        have sub : missing rules (start ∪ .ofList (complete.map (·.left))) =
            (missing rules start).filter (·.left ∉ FiniteSet.ofList (complete.map (·.left))) := by
          rw [missing, missing, List.filter_filter]
          congr 1
          funext p
          rw [Bool.eq_iff_iff]
          simp [ExtTreeSet.mem_union_iff, not_or, and_comm]
        rw [sub]
        refine List.length_filter_lt_length_iff_exists.2 ⟨q, List.mem_filter.2 ⟨hqr, by simpa using hqs.1⟩, ?_⟩
        simpa using ⟨q, hq, rfl⟩
      omega

/-- Nothing is in the closure but what every closed property holds of. -/
theorem of_mem_closeUnder {P : Symbol → Prop} (base : ∀ s ∈ start, P s)
    (closed : ∀ p ∈ rules, (∀ t ∈ p.right, P t) → P p.left) (h : s ∈ closeUnder rules rounds start) : P s := by
  induction rounds generalizing start with
  | zero => exact base s h
  | succ rounds ih =>
    simp only [closeUnder] at h
    split at h
    · exact base s h
    · refine ih ?_ h
      intro t ht
      rcases ExtTreeSet.mem_union_iff.1 ht with ht | ht
      · exact base t ht
      · obtain ⟨p, hp, rfl⟩ := List.mem_map.1 (FiniteSet.mem_ofList.1 ht)
        obtain ⟨mem, all⟩ := List.mem_filter.1 hp
        simp only [decide_eq_true_eq, List.all_eq_true] at all
        exact closed p mem fun u hu => base u (all.2 u hu)

theorem length_missing_le : (missing rules start).length ≤ rules.length := List.length_filter_le _ _

/-! ## Nullable and generating symbols -/

theorem nullable_closed {p : Production} (mem : p ∈ g.productions) (all : ∀ t ∈ p.right, t ∈ g.nullable) :
    p.left ∈ g.nullable := closeUnder_closed length_missing_le (mem_rules.2 mem) all

theorem nil_mem_form_iff {I : Reading} {f : List Symbol} : [] ∈ I.form f ↔ ∀ s ∈ f, [] ∈ I s := by
  induction f with
  | nil => simp
  | cons s f ih =>
    rw [Reading.mem_form_cons, List.forall_mem_cons, ← ih]
    constructor
    · rintro ⟨u, hu, v, hv, eq⟩
      obtain ⟨rfl, rfl⟩ := List.append_eq_nil_iff.1 eq
      exact ⟨hu, hv⟩
    · rintro ⟨hs, hf⟩
      exact ⟨[], hs, [], hf, rfl⟩

/-- A form whose symbols all have the empty word or a property has the empty word, or a symbol with the property is the
first that counts. -/
theorem nil_mem_form_or {I : Reading} {P : Symbol → Prop} {f : List Symbol}
    (each : ∀ s ∈ f, [] ∈ I s ∨ P s) :
    [] ∈ I.form f ∨ ∃ before s after, f = before ++ s :: after ∧ [] ∈ I.form before ∧ P s := by
  induction f with
  | nil => exact .inl Language.nil_mem_one
  | cons s f ih =>
    rcases each s List.mem_cons_self with empty | has
    · rcases ih fun t ht => each t (List.mem_cons_of_mem _ ht) with all | ⟨before, t, after, rfl, none, has⟩
      · exact .inl (Reading.mem_form_cons.2 ⟨[], empty, [], all, rfl⟩)
      · exact .inr ⟨s :: before, t, after, rfl, Reading.mem_form_cons.2 ⟨[], empty, [], none, rfl⟩, has⟩
    · exact .inr ⟨[], s, f, rfl, Language.nil_mem_one, has⟩

/-- **The nullable symbols are those that derive the empty word.** -/
theorem mem_nullable : s ∈ g.nullable ↔ [] ∈ words g.rules s := by
  constructor
  · intro h
    refine of_mem_closeUnder (P := fun s => [] ∈ words g.rules s) (by simp) ?_ h
    intro p mem all
    exact words_closed.rule p mem (nil_mem_form_iff.2 all)
  · intro h
    refine words_induction (P := fun s w => w = [] → s ∈ g.nullable) ?_ ?_ h rfl
    · intro a _ eq
      exact absurd eq (List.cons_ne_nil _ _)
    · rintro p mem w hw rfl
      exact nullable_closed (mem_rules.1 mem) fun t ht => (nil_mem_form_iff.1 hw t ht).2 rfl

theorem nullableSymbols_sub (hs : s ∈ g.nullableSymbols) : s ∈ g.nullable := by
  unfold nullableSymbols at hs
  split at hs
  · exact hs
  · simp at hs

theorem generating_closed {p : Production} (mem : p ∈ g.productions) (all : ∀ t ∈ p.right, t ∈ g.generating) :
    p.left ∈ g.generating := closeUnder_closed length_missing_le (mem_rules.2 mem) all

theorem terminal_mem_generating (h : s ∈ g.symbols) (hs : Symbol.isTerminal s) : s ∈ g.generating :=
  subset_closeUnder (mem_terminals.2 ⟨h, hs⟩)

theorem exists_mem_form_iff {I : Reading} {f : List Symbol} : (∃ w, w ∈ I.form f) ↔ ∀ s ∈ f, ∃ w, w ∈ I s := by
  induction f with
  | nil => exact iff_of_true ⟨[], Language.nil_mem_one⟩ (by simp)
  | cons s f ih =>
    rw [List.forall_mem_cons, ← ih]
    simp only [Reading.mem_form_cons]
    constructor
    · rintro ⟨w, u, hu, v, hv, -⟩
      exact ⟨⟨u, hu⟩, ⟨v, hv⟩⟩
    · rintro ⟨⟨u, hu⟩, ⟨v, hv⟩⟩
      exact ⟨u ++ v, u, hu, v, hv, rfl⟩

theorem exists_word_of_mem_generating (h : s ∈ g.generating) : ∃ w, w ∈ words g.rules s := by
  refine of_mem_closeUnder (P := fun s => ∃ w, w ∈ words g.rules s) ?_ ?_ h
  · intro a ha
    exact ⟨[a], singleton_mem_words (mem_terminals.1 ha).2⟩
  · intro p mem all
    obtain ⟨w, hw⟩ := exists_mem_form_iff.2 all
    exact ⟨w, words_closed.rule p mem hw⟩

/-- **The generating symbols are the symbols of the grammar that derive some word.** -/
theorem mem_generating (hs : s ∈ g.symbols) : s ∈ g.generating ↔ ∃ w, w ∈ words g.rules s := by
  refine ⟨exists_word_of_mem_generating, ?_⟩
  rintro ⟨w, hw⟩
  refine words_induction (P := fun s _ => s ∈ g.symbols → s ∈ g.generating) ?_ ?_ hw hs
  · exact fun a ha h => terminal_mem_generating h ha
  · intro p mem w hw _
    apply generating_closed (mem_rules.1 mem)
    intro t ht
    obtain ⟨u, -, generating⟩ := exists_mem_form_iff.1 ⟨w, hw⟩ t ht
    exact generating (mem_symbols.2 ⟨p, mem_rules.1 mem, .inr ht⟩)

/-! ## Searches -/

/-- the second symbol stands on a right side of the first -/
def Leads (g : Grammar) (s t : Symbol) : Prop := ∃ right, ⟨s, right⟩ ∈ g.productions ∧ t ∈ right

theorem right_mem_symbols {right : List Symbol} (mem : ⟨s, right⟩ ∈ g.productions) (ht : t ∈ right) : t ∈ g.symbols :=
  mem_symbols.2 ⟨_, mem, .inr ht⟩

/-- A search that follows right sides in any way goes through the symbols of the grammar. -/
theorem mem_reach_iff {next : Symbol → List Symbol} (leads : ∀ s, ∀ t ∈ next s, g.Leads s t) {a : Symbol}
    {starts : List Symbol} (single : ∀ t ∈ starts, t = a ∨ t ∈ g.symbols) :
    s ∈ Search.reach next (g.symbols.size + 1) starts ↔ ∃ t ∈ starts, ReflTransGen (fun s t => t ∈ next s) t s := by
  refine Search.mem_reach (a :: g.symbols.toList) ?_ ?_ (by simp)
  · intro s _ t ht
    obtain ⟨right, mem, htr⟩ := leads s t ht
    exact List.mem_cons_of_mem _ (ExtTreeSet.mem_toList.2 (right_mem_symbols mem htr))
  · intro t ht
    rcases single t ht with rfl | h
    · exact List.mem_cons_self
    · exact List.mem_cons_of_mem _ (ExtTreeSet.mem_toList.2 h)

theorem mem_reachable : s ∈ g.reachable ↔ ReflTransGen g.Leads g.start s := by
  have next : ∀ s t, t ∈ (g.index.getD s []).flatten ↔ g.Leads s t := by
    intro s t
    simp only [getD_index, List.mem_flatten, mem_rightsOf, Leads]
  simp only [reachable, FiniteSet.mem_ofList]
  rw [mem_reach_iff (fun s t => (next s t).1) (a := g.start) (by simp)]
  simp [next]

/-- the first symbol has a unit production to the second -/
def UnitStep (g : Grammar) (s t : Symbol) : Prop := ⟨s, [t]⟩ ∈ g.productions ∧ Symbol.isNonTerminal t

theorem isUnit_iff {right : List Symbol} :
    Production.isUnit ⟨s, right⟩ ↔ ∃ t, right = [t] ∧ Symbol.isNonTerminal t := by
  unfold Production.isUnit
  split
  · rename_i t eq
    simp only at eq
    simp [eq]
  · rename_i eq
    simp only [Bool.false_eq_true, false_iff, not_exists, not_and]
    rintro t rfl
    exact absurd rfl (eq t)

theorem mem_unitClosure : t ∈ g.unitClosure s ↔ TransGen g.UnitStep s t := by
  have next : ∀ s t, t ∈ ((g.index.getD s []).filter fun right => Production.isUnit ⟨s, right⟩).flatten ↔
      g.UnitStep s t := by
    intro s t
    simp only [getD_index, List.mem_flatten, List.mem_filter, mem_rightsOf, isUnit_iff, UnitStep]
    constructor
    · rintro ⟨_, ⟨mem, u, rfl, hu⟩, ht⟩
      obtain rfl := List.mem_singleton.1 ht
      exact ⟨mem, hu⟩
    · rintro ⟨mem, ht⟩
      exact ⟨[t], ⟨mem, t, rfl, ht⟩, List.mem_singleton_self t⟩
  simp only [unitClosure, FiniteSet.mem_ofList]
  rw [mem_reach_iff (a := s)]
  · simp only [next]
    rw [TransGen.head'_iff]
  · intro s t ht
    exact ⟨[t], ((next s t).1 ht).1, List.mem_singleton_self t⟩
  · intro t ht
    exact .inr (right_mem_symbols ((next s t).1 ht).1 (List.mem_singleton_self t))

/-! ## FIRST -/

theorem mem_leading {nullable : FiniteSet Symbol} {f : List Symbol} :
    s ∈ leading nullable f ↔ ∃ before after, f = before ++ s :: after ∧ ∀ t ∈ before, t ∈ nullable := by
  induction f with
  | nil => simp [leading]
  | cons a f ih =>
    have split : (∃ before after, a :: f = before ++ s :: after ∧ ∀ t ∈ before, t ∈ nullable) ↔
        s = a ∨ a ∈ nullable ∧ s ∈ leading nullable f := by
      rw [ih]
      constructor
      · rintro ⟨before, after, eq, all⟩
        rcases List.cons_eq_append_iff.1 eq with ⟨rfl, h⟩ | ⟨rest, rfl, h⟩
        · exact .inl (List.cons_eq_cons.1 h).1
        · rw [List.forall_mem_cons] at all
          exact .inr ⟨all.1, rest, after, h, all.2⟩
      · rintro (rfl | ⟨ha, before, after, rfl, all⟩)
        · exact ⟨[], f, rfl, by simp⟩
        · exact ⟨a :: before, after, rfl, List.forall_mem_cons.2 ⟨ha, all⟩⟩
    rw [split]
    simp only [leading]
    split <;> simp_all

/-- the second symbol can come first in what a production of the first yields -/
def LeadStep (g : Grammar) (s t : Symbol) : Prop :=
  ∃ before after, ⟨s, before ++ t :: after⟩ ∈ g.productions ∧ ∀ u ∈ before, u ∈ g.nullable

theorem mem_leads : t ∈ leads g.nullable g.index s ↔ g.LeadStep s t := by
  simp only [leads, getD_index, List.mem_flatMap, mem_rightsOf, mem_leading, LeadStep]
  constructor
  · rintro ⟨_, mem, before, after, rfl, all⟩
    exact ⟨before, after, mem, all⟩
  · rintro ⟨before, after, mem, all⟩
    exact ⟨_, mem, before, after, rfl, all⟩

theorem LeadStep.leads (h : g.LeadStep s t) : g.Leads s t := by
  obtain ⟨before, after, mem, -⟩ := h
  exact ⟨_, mem, by simp⟩

theorem mem_leads_search : t ∈ Search.reach (Grammar.leads g.nullable g.index) (g.symbols.size + 1) [s] ↔
    ReflTransGen g.LeadStep s t := by
  rw [mem_reach_iff (a := s) (fun s t ht => (mem_leads.1 ht).leads) (by simp)]
  simp [mem_leads]

/-- **FIRST of a symbol** holds the terminals that chains of leading symbols end in. -/
theorem mem_of (lefts : NonTerminalLefts g.rules) {a : Symbol} :
    a ∈ g.firstSets.of s ↔ Symbol.isTerminal a ∧ ReflTransGen g.LeadStep s a := by
  unfold FirstSets.of
  split
  · rename_i hs
    rw [FiniteSet.mem_ofList, List.mem_singleton]
    constructor
    · rintro rfl
      exact ⟨hs, .refl⟩
    · rintro ⟨-, chain⟩
      rcases ReflTransGen.cases_head chain with rfl | ⟨t, ⟨before, after, mem, -⟩, -⟩
      · rfl
      · exact absurd (lefts _ (mem_rules.2 mem)) (Symbol.isTerminal_iff_not.1 hs)
  · rename_i hs
    by_cases known : s ∈ g.nonTerminals
    · have look : g.firstSets.heads.getD s ∅ =
          .ofList ((Search.reach (Grammar.leads g.nullable g.index) (g.symbols.size + 1) [s]).filter
            Symbol.isTerminal) := by
        apply ExtTreeMap.getD_ofList_of_mem (k := s) ReflCmp.compare_self
        · have distinct := ExtTreeSet.distinct_toList (t := g.nonTerminals)
          exact List.pairwise_map.2 distinct
        · exact List.mem_map.2 ⟨s, ExtTreeSet.mem_toList.2 known, rfl⟩
      rw [look, FiniteSet.mem_ofList, List.mem_filter, mem_leads_search, and_comm]
    · have look : g.firstSets.heads.getD s ∅ = ∅ := by
        apply ExtTreeMap.getD_ofList_of_contains_eq_false
        simpa [Function.comp_def, ExtTreeSet.mem_toList] using known
      rw [look]
      refine iff_of_false (by simp) ?_
      rintro ⟨ha, chain⟩
      rcases ReflTransGen.cases_head chain with rfl | ⟨t, ⟨before, after, mem, -⟩, -⟩
      · exact hs ha
      · exact known (mem_nonTerminals.2 ⟨mem_symbols.2 ⟨_, mem, .inl rfl⟩, Symbol.not_isTerminal.1 hs⟩)

theorem mem_first_ofForm {sets : FirstSets} {f : List Symbol} {a : Symbol} : a ∈ (sets.ofForm f).1 ↔
    ∃ before s after, f = before ++ s :: after ∧ (∀ t ∈ before, t ∈ sets.nullable) ∧ a ∈ sets.of s := by
  simp only [FirstSets.ofForm, FiniteSet.mem_unions, List.mem_map]
  constructor
  · rintro ⟨_, ⟨s, hs, rfl⟩, ha⟩
    obtain ⟨before, after, rfl, all⟩ := mem_leading.1 hs
    exact ⟨before, s, after, rfl, all, ha⟩
  · rintro ⟨before, s, after, rfl, all, ha⟩
    exact ⟨_, ⟨s, mem_leading.2 ⟨before, after, rfl, all⟩, rfl⟩, ha⟩

theorem mem_ofForm {f : List Symbol} {a : Symbol} : a ∈ (g.firstSets.ofForm f).1 ↔
    ∃ before s after, f = before ++ s :: after ∧ (∀ t ∈ before, t ∈ g.nullable) ∧ a ∈ g.firstSets.of s :=
  mem_first_ofForm

theorem ofForm_nullable {f : List Symbol} : (g.firstSets.ofForm f).2 ↔ ∀ s ∈ f, s ∈ g.nullable := by
  simp only [FirstSets.ofForm, List.all_eq_true, FirstSets.isNullable, decide_eq_true_eq]
  rfl

/-- The first symbol of a word comes from the first symbol of the form that does not yield the empty word there. -/
theorem exists_of_cons_mem_form {I : Reading} {f w : List Symbol} {a : Symbol} (h : a :: w ∈ I.form f) :
    ∃ before s after v, f = before ++ s :: after ∧ (∀ t ∈ before, [] ∈ I t) ∧ a :: v ∈ I s := by
  induction f with
  | nil => exact absurd h (List.cons_ne_nil _ _)
  | cons s f ih =>
    obtain ⟨u, hu, v, hv, eq⟩ := Reading.mem_form_cons.1 h
    cases u with
    | nil =>
      obtain rfl : v = a :: w := eq
      obtain ⟨before, t, after, x, rfl, all, hx⟩ := ih hv
      exact ⟨s :: before, t, after, x, rfl, List.forall_mem_cons.2 ⟨hu, all⟩, hx⟩
    | cons b u =>
      obtain ⟨rfl, -⟩ := List.cons_eq_cons.1 eq
      exact ⟨[], s, f, u, rfl, by simp, hu⟩

/-- A word of a symbol begins with a terminal at the end of a chain of leading symbols. -/
theorem chain_of_mem_words {w : List Symbol} {a : Symbol} (h : a :: w ∈ words g.rules s) :
    ReflTransGen g.LeadStep s a := by
  refine words_induction (P := fun s w => ∀ a v, w = a :: v → ReflTransGen g.LeadStep s a) ?_ ?_ h a w rfl
  · intro a _ b v eq
    obtain ⟨rfl, -⟩ := List.cons_eq_cons.1 eq
    exact .refl
  · rintro p mem w hw a v rfl
    obtain ⟨before, t, after, x, eq, all, hx⟩ := exists_of_cons_mem_form hw
    refine .head ⟨before, after, ?_, fun u hu => mem_nullable.2 (all u hu).1⟩ (hx.2 a x rfl)
    rw [← eq]
    exact mem_rules.1 mem

theorem first_of_mem_form (lefts : NonTerminalLefts g.rules) {f w : List Symbol} {a : Symbol}
    (h : a :: w ∈ (words g.rules).form f) : a ∈ (g.firstSets.ofForm f).1 := by
  obtain ⟨before, s, after, v, rfl, all, hv⟩ := exists_of_cons_mem_form h
  refine mem_ofForm.2 ⟨before, s, after, rfl, fun t ht => mem_nullable.2 (all t ht), (mem_of lefts).2 ⟨?_, ?_⟩⟩
  · exact hv.1 a List.mem_cons_self
  · exact chain_of_mem_words hv

end ContextFree.Grammar
