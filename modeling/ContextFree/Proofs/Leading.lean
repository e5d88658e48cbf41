import ContextFree.Proofs.Analysis

/-!
What derived forms begin with. The first symbol of a form that is derived from another comes from a symbol of that form
with nullable ones before it, by a chain of leading symbols.

- `exists_lead_of_derives`: where the first symbol of a derived form comes from;
- `mem_ofForm_iff`, `ofForm_nullable_iff`: so FIRST of a form is exact;
- `lead_of_derivesInSteps`: for a derivation of one step or more from a single symbol the chain is not empty;
- `exists_loop_of_isLeftRecursive`: the search for left recursion finds nothing but loops of such chains.
-/

namespace ContextFree.Grammar

open Relation

variable {g : Grammar} {s t : Symbol} {f b c before after rest : List Symbol}

theorem append_eq_append_cons (h : b ++ c = before ++ s :: after) :
    (∃ x, b = before ++ s :: x) ∨ ∃ y, before = b ++ y ∧ c = y ++ s :: after := by
  rcases List.append_eq_append_iff.1 h with ⟨y, rfl, eq⟩ | ⟨x, rfl, eq⟩
  · exact .inr ⟨y, rfl, eq⟩
  · cases x with
    | nil => exact .inr ⟨[], by rw [List.append_nil, List.append_nil], eq.symm⟩
    | cons u x =>
      obtain ⟨rfl, -⟩ := List.cons_eq_cons.1 eq
      exact .inl ⟨x, rfl⟩

/-- **Where the first symbol of a derived form comes from.** -/
theorem exists_lead_of_derives (h : Derives g.rules f (t :: rest)) :
    ∃ before s after, f = before ++ s :: after ∧ (∀ u ∈ before, u ∈ g.nullable) ∧ ReflTransGen g.LeadStep s t := by
  induction h using ReflTransGen.head_induction_on with
  | refl => exact ⟨[], t, rest, rfl, by simp, .refl⟩
  | head step _ ih =>
    obtain @⟨b, a, p, mem⟩ := step
    rw [mem_rules] at mem
    obtain ⟨before, s, after, eq, all, chain⟩ := ih
    rw [List.append_assoc] at eq
    rcases append_eq_append_cons eq with ⟨x, rfl⟩ | ⟨y, rfl, behind⟩
    · exact ⟨before, s, x ++ p.left :: a, by simp, all, chain⟩
    rw [List.forall_mem_append] at all
    rcases append_eq_append_cons behind with ⟨x, right⟩ | ⟨z, rfl, rfl⟩
    · -- the symbol comes from the right side
      exact ⟨b, p.left, a, rfl, all.1, .head ⟨y, x, right ▸ mem, all.2⟩ chain⟩
    · -- the whole right side is nullable, and so is what it replaces
      rw [List.forall_mem_append] at all
      refine ⟨b ++ p.left :: z, s, after, by simp, ?_, chain⟩
      exact List.forall_mem_append.2 ⟨all.1, List.forall_mem_cons.2 ⟨nullable_closed mem all.2.1, all.2.2⟩⟩

theorem derives_nil (all : ∀ u ∈ f, u ∈ g.nullable) : Derives g.rules f [] :=
  (derives_of_mem_form (nil_mem_form_iff.2 fun u hu => mem_nullable.1 (all u hu))).2

/-- One leading symbol after another is one step of a derivation, and others that erase what stands before it. -/
theorem LeadStep.exists_yields (h : g.LeadStep s t) {u : Symbol} (onward : Derives g.rules [t] (u :: rest)) :
    ∃ form rest, Yields g.rules [s] form ∧ Derives g.rules form (u :: rest) := by
  obtain ⟨before, after, mem, all⟩ := h
  have first : Yields g.rules [s] (before ++ t :: after) := yields_singleton.2 (mem_rules.2 mem)
  have others : Derives g.rules (before ++ ([t] ++ after)) ([] ++ (u :: rest ++ after)) :=
    (derives_nil all).append (onward.append .refl)
  exact ⟨_, rest ++ after, first, others⟩

theorem exists_derives_of_chain (h : ReflTransGen g.LeadStep s t) : ∃ rest, Derives g.rules [s] (t :: rest) := by
  induction h using ReflTransGen.head_induction_on with
  | refl => exact ⟨[], .refl⟩
  | head step _ ih =>
    obtain ⟨rest, onward⟩ := ih
    obtain ⟨form, rest, first, others⟩ := step.exists_yields onward
    exact ⟨rest, .head first others⟩

/-- **FIRST of a form** holds the terminals that derived forms begin with. -/
theorem mem_ofForm_iff (lefts : NonTerminalLefts g.rules) : t ∈ (g.firstSets.ofForm f).1 ↔ BeginsWith g.rules f t := by
  rw [mem_ofForm]
  constructor
  · rintro ⟨before, s, after, rfl, all, first⟩
    obtain ⟨terminal, chain⟩ := (mem_of lefts).1 first
    obtain ⟨rest, derives⟩ := exists_derives_of_chain chain
    exact ⟨terminal, rest ++ after, (derives_nil all).append (derives.append .refl)⟩
  · rintro ⟨terminal, rest, derives⟩
    obtain ⟨before, s, after, eq, all, chain⟩ := exists_lead_of_derives derives
    exact ⟨before, s, after, eq, all, (mem_of lefts).2 ⟨terminal, chain⟩⟩

theorem ofForm_nullable_iff : (g.firstSets.ofForm f).2 ↔ Derives g.rules f [] := by
  rw [ofForm_nullable]
  constructor
  · exact derives_nil
  · intro derives s hs
    exact mem_nullable.2 (nil_mem_form_iff.1 (mem_form_words.2 ⟨isWord_nil, derives⟩) s hs)

theorem lead_of_derivesInSteps (h : DerivesInSteps g.rules [s] (t :: rest)) : TransGen g.LeadStep s t := by
  obtain ⟨f, first, others⟩ := TransGen.head'_iff.1 h
  obtain ⟨before, u, after, rfl, all, chain⟩ := exists_lead_of_derives others
  exact .head' ⟨before, after, mem_rules.1 (yields_singleton.1 first), all⟩ chain

/-- What the search for left recursion finds is a loop of leading symbols. -/
theorem exists_loop_of_isLeftRecursive (h : g.isLeftRecursive) : ∃ s, TransGen g.LeadStep s s := by
  simp only [isLeftRecursive, List.any_eq_true, decide_eq_true_eq] at h
  obtain ⟨s, -, found⟩ := h
  have next : ∀ s, ∀ t ∈ (leads g.nullableSymbols g.index s).filter Symbol.isNonTerminal, g.LeadStep s t := by
    intro s t mem
    simp only [List.mem_filter, leads, getD_index, List.mem_flatMap, mem_rightsOf, mem_leading] at mem
    obtain ⟨⟨_, mem, before, after, rfl, all⟩, -⟩ := mem
    exact ⟨before, after, mem, fun u hu => nullableSymbols_sub (all u hu)⟩
  have known : ∀ t ∈ (leads g.nullableSymbols g.index s).filter Symbol.isNonTerminal, t = s ∨ t ∈ g.symbols := by
    intro t mem
    obtain ⟨right, rule, used⟩ := (next s t mem).leads
    exact .inr (right_mem_symbols rule used)
  obtain ⟨t, first, others⟩ := (mem_reach_iff (fun s t mem => (next s t mem).leads) known).1 found
  exact ⟨s, .head' (next s t first) (ReflTransGen.mono (fun s t => next s t) _ _ others)⟩

end ContextFree.Grammar
