import ContextFree.Proofs.Notation
import ContextFree.Proofs.Vocabulary

/-!
What the text of a transformed grammar means. A grammar is `Faithful` when its text is accepted and what is read from it
generates the same words. Two things get in the way. A right side can come to show an arrow when what stood between its
two signs is gone. And a start symbol can lose all its rules while other symbols keep theirs, so that the text begins
with one of these.

- `faithful_iff`: nothing else gets in the way of a grammar with plain symbols;
- `apply_hasStartRule`: only the removals of ungenerative symbols and of unit productions take all rules of the start
  symbol and leave others;
- `apply_arrowless`: the normal forms show no arrow;
- `read_text_apply`: so this is what the text of a transformed grammar means;
- `read_text_apply_unfaithful`: both things happen.
-/

namespace ContextFree.Grammar

open Relation

variable {limits : Limits} {g h k : Grammar} {p : Production} {s : Symbol} {right : List Symbol} {text : List Char}
  {t : Transformation}

/-- The text is accepted, and what is read from it generates the same words. -/
def Faithful (g : Grammar) : Prop := ∃ k, Grammar.read g.text = .ok k ∧ ∀ w, k.Generates w ↔ g.Generates w

theorem plain_of_descends (read : Grammar.read text = .ok g) (descends : Descends g h) :
    h.Plain ∧ h.epsilon = defaultEpsilon := by
  obtain ⟨-, epsilon, plain, -⟩ := of_readWith read
  have same := descends.epsilon.trans epsilon
  refine ⟨⟨same ▸ by decide, fun p mem s hs => ?_⟩, same⟩
  by_cases terminal : Symbol.isTerminal s
  · obtain ⟨q, hq, used⟩ := descends.terminals p mem s hs terminal
    exact plain q hq s used
  · exact (isPlain_of_isNonTerminal (Symbol.not_isTerminal.1 terminal)).1

/-- **When the text of a grammar means the grammar.** -/
theorem faithful_iff (wf : g.WellFormed) (plain : g.Plain) (sentinel : g.epsilon = defaultEpsilon) :
    g.Faithful ↔ g.Arrowless ∧ (g.hasStartRule ∨ ∀ w, ¬ g.reread.Generates w) := by
  have text : Grammar.read g.text = readWith g.epsilon g.text := by rw [sentinel]; rfl
  constructor
  · rintro ⟨k, read, same⟩
    rw [text] at read
    by_cases arrowless : g.Arrowless
    · cases (readWith_text wf plain arrowless).symm.trans read
      refine ⟨arrowless, ?_⟩
      by_cases rule : g.hasStartRule
      · exact .inl rule
      · exact .inr fun w hw => rule (hasStartRule_of_generates wf ((same w).1 hw))
    · obtain ⟨n, refused⟩ := readWith_text_of_arrow wf plain arrowless
      cases refused.symm.trans read
  · rintro ⟨arrowless, rule | none⟩
    · refine ⟨g.reread, text.trans (readWith_text wf plain arrowless), fun w => ?_⟩
      rw [reread_eq rule]
    · refine ⟨g.reread, text.trans (readWith_text wf plain arrowless), fun w => iff_of_false (none w) fun hw => ?_⟩
      exact none w ((reread_eq (hasStartRule_of_generates wf hw)).symm ▸ hw)

/-! ## The rules of the start symbol -/

/-- **Most transformations leave the start symbol a rule**, or nothing at all. -/
theorem apply_hasStartRule (wf : g.WellFormed) (first : g.hasStartRule ∨ g.productions = ∅)
    (ungenerative : t ≠ .removeUngenerative) (unit : t ≠ .removeUnitProductions)
    (made : t.apply limits g = .ok h) : h.hasStartRule ∨ h.productions = ∅ := by
  rcases first with rule | none
  swap
  · exact .inr ((apply_descends wf made).empty none)
  cases t with
  | removeUngenerative => exact absurd rfl ungenerative
  | removeUnitProductions => exact absurd rfl unit
  | removeUnreachable =>
    cases made
    obtain ⟨right, mem⟩ := hasStartRule_iff.1 rule
    rw [removeUnreachable, if_pos rule]
    exact .inl (hasStartRule_iff.2 ⟨right, mem_keep.2 ⟨mem, decide_eq_true (mem_reachable.2 .refl)⟩⟩)
  | removeUseless =>
    cases made
    by_cases start : g.removeUseless.hasStartRule
    · exact .inl start
    · exact .inr (eq_empty_of_not_mem fun p => removeUseless_empty rule start)
  | removeEpsilonProductions =>
    cases made
    exact .inl (removeEpsilonProductions_hasStartRule rule)
  | eliminateLeftRecursion => exact hasStartRule_of_normal rule (exists_proper_of_eliminateLeftRecursion wf rule made)
  | toChomsky => exact hasStartRule_of_normal rule (exists_proper_of_toChomsky wf rule made)
  | toGreibach => exact hasStartRule_of_normal rule (exists_proper_of_toGreibach wf rule made)

/-! ## Arrows in normal forms -/

theorem not_hasArrow_of_tail (tail : ∀ s ∈ right.tail, Symbol.isNonTerminal s) : ¬ HasArrow right := by
  rintro ⟨before, after, rfl⟩
  have mem : '>' ∈ (before ++ ['-', '>'] ++ after).tail := by
    cases before <;> simp
  exact absurd (tail '>' mem) (by decide +kernel)

/-- **Normal forms show no arrow.** -/
theorem apply_arrowless (wf : g.WellFormed) (first : g.hasStartRule ∨ g.productions = ∅)
    (normal : t = .toChomsky ∨ t = .toGreibach) (made : t.apply limits g = .ok h) : h.Arrowless := by
  intro p mem
  rcases first with rule | none
  swap
  · rw [(apply_descends wf made).empty none] at mem
    exact absurd mem Std.ExtTreeSet.not_mem_empty
  apply not_hasArrow_of_tail
  rcases normal with rfl | rfl
  · obtain ⟨-, shape, -⟩ := toChomsky_spec wf rule made
    rcases isChomsky_iff.1 shape p mem with ⟨eq, -, -⟩ | ⟨a, eq, -⟩ | ⟨b, c, eq, -, hc⟩
    · simp [eq]
    · simp [eq]
    · simpa [eq] using hc
  · obtain ⟨k, rfl, shape, -⟩ := exists_greibach_of_toGreibach wf rule made
    cases eq : p.right with
    | nil => simp
    | cons a rest => exact ((isGreibach_iff.1 shape).2 p (removeUseless_sub mem) a rest eq).2

/-! ## Transformed grammars -/

/-- **What the text of a transformed grammar means.** It is refused exactly when a right side shows an arrow; otherwise it
gives the productions and the sentinel back, under the first left side as the start symbol. So it means the grammar
exactly when there is no arrow and the start symbol has a rule, or the first left side generates nothing. After most
transformations the arrow alone decides, and a normal form is always told right. -/
theorem read_text_apply (read : Grammar.read text = .ok g) (made : t.apply limits g = .ok h) :
    (h.Faithful ↔ h.Arrowless ∧ (h.hasStartRule ∨ ∀ w, ¬ h.reread.Generates w)) ∧
    (t ≠ .removeUngenerative → t ≠ .removeUnitProductions → (h.Faithful ↔ h.Arrowless)) ∧
    (t = .toChomsky ∨ t = .toGreibach → h.Faithful) ∧
    (h.Arrowless → Grammar.read h.text = .ok h.reread) ∧
    (¬ h.Arrowless → ∃ n, Grammar.read h.text = .error (.malformedRule n .repeatedArrow)) := by
  obtain ⟨wf, -, -, first⟩ := of_readWith read
  have descends := apply_descends wf made
  obtain ⟨plain, sentinel⟩ := plain_of_descends read descends
  have same : Grammar.read h.text = readWith h.epsilon h.text := by rw [sentinel]; rfl
  have faithful := faithful_iff descends.wellFormed plain sentinel
  have arrow : t ≠ .removeUngenerative → t ≠ .removeUnitProductions → (h.Faithful ↔ h.Arrowless) := by
    intro ungenerative unit
    rw [faithful, and_iff_left_iff_imp]
    intro _
    refine (apply_hasStartRule wf first ungenerative unit made).imp_right fun none w hw => ?_
    obtain ⟨right, mem⟩ := hasStartRule_iff.1 (hasStartRule_of_generates (reread_wellFormed descends.wellFormed) hw)
    rw [show h.reread.productions = ∅ from none] at mem
    exact Std.ExtTreeSet.not_mem_empty mem
  refine ⟨faithful, arrow, ?_, fun arrowless => ?_, fun shown => ?_⟩
  · intro normal
    refine (arrow ?_ ?_).2 (apply_arrowless wf first normal made) <;> rcases normal with rfl | rfl <;> decide
  · exact same.trans (readWith_text descends.wellFormed plain arrowless)
  · exact same ▸ readWith_text_of_arrow descends.wellFormed plain shown

set_option maxRecDepth 100000 in
/-- Left recursion goes, and the text of what is left means what is left. -/
theorem read_text_apply_leftRecursive : ∃ g h, Grammar.read "S->Sa|b.".toList = .ok g ∧
    Transformation.eliminateLeftRecursion.apply {} g = .ok h ∧ h.text = "S->b|bA;A->a|aA.".toList ∧ h.Faithful ∧
    (h.Faithful ↔ h.Arrowless ∧ (h.hasStartRule ∨ ∀ w, ¬ h.reread.Generates w)) ∧ (h.Faithful ↔ h.Arrowless) ∧
    (h.Arrowless → Grammar.read h.text = .ok h.reread) ∧
    (¬ h.Arrowless → ∃ n, Grammar.read h.text = .error (.malformedRule n .repeatedArrow)) := by
  set g : Grammar := ⟨'S', 'ε', .ofList [⟨'S', ['S', 'a']⟩, ⟨'S', ['b']⟩]⟩
  set h : Grammar := ⟨'S', 'ε', .ofList [⟨'S', ['b']⟩, ⟨'S', ['b', 'A']⟩, ⟨'A', ['a']⟩, ⟨'A', ['a', 'A']⟩]⟩
  have read : Grammar.read "S->Sa|b.".toList = .ok g := by decide +kernel
  have made : Transformation.eliminateLeftRecursion.apply {} g = .ok h := by decide +kernel
  have each : ∀ p ∈ h.rules, ¬ ['-', '>'] <:+: p.right := by decide +kernel
  obtain ⟨faithful, arrow, -, ok, refused⟩ := read_text_apply read made
  have arrow := arrow (by decide) (by decide)
  exact ⟨g, h, read, made, by decide +kernel, arrow.2 fun p mem => each p (mem_rules.2 mem), faithful, arrow, ok, refused⟩

set_option maxRecDepth 100000 in
/-- **Both ways to fail are open.** In the first text the start symbol generates nothing and loses its rule, and the text
of what is left has `a` for a word. In the second the sentinel parts the two signs of an arrow. -/
theorem read_text_apply_unfaithful :
    (∃ g h, Grammar.read "S->SA;A->a.".toList = .ok g ∧ Transformation.removeUngenerative.apply {} g = .ok h ∧
      h.text = "A->a.".toList ∧ ¬ h.Faithful) ∧
    ∃ g h, Grammar.read "S->-ε>.".toList = .ok g ∧ Transformation.removeUseless.apply {} g = .ok h ∧
      h.text = "S->->.".toList ∧ ¬ h.Faithful := by
  refine ⟨⟨⟨'S', 'ε', .ofList [⟨'S', ['S', 'A']⟩, ⟨'A', ['a']⟩]⟩, ⟨'S', 'ε', .ofList [⟨'A', ['a']⟩]⟩,
    by decide +kernel, by decide +kernel, by decide +kernel, ?_⟩, ⟨'S', 'ε', .ofList [⟨'S', ['-', '>']⟩]⟩,
    ⟨'S', 'ε', .ofList [⟨'S', ['-', '>']⟩]⟩, by decide +kernel, by decide +kernel, by decide +kernel, ?_⟩
  · intro faithful
    obtain ⟨k, read, same⟩ := faithful
    set h : Grammar := ⟨'S', 'ε', .ofList [⟨'A', ['a']⟩]⟩
    have found : Grammar.read h.text = .ok { h with start := 'A' } := by decide +kernel
    cases found.symm.trans read
    have rule : (⟨'A', ['a']⟩ : Production) ∈ h.rules := by decide +kernel
    have terminal : Symbol.isTerminal 'a' := by decide +kernel
    have word : Grammar.Generates { h with start := 'A' } ['a'] :=
      ⟨isWord_cons.2 ⟨terminal, isWord_nil⟩, Derives.rule rule⟩
    have wf : h.WellFormed := .ofList (by decide) (by decide +kernel) (by decide +kernel) (by decide +kernel)
    exact absurd (hasStartRule_of_generates wf ((same _).1 word)) (by decide +kernel)
  · intro faithful
    obtain ⟨k, read, -⟩ := faithful
    set h : Grammar := ⟨'S', 'ε', .ofList [⟨'S', ['-', '>']⟩]⟩
    have refused : Grammar.read h.text = .error (.malformedRule 1 .repeatedArrow) := by decide +kernel
    cases refused.symm.trans read

end ContextFree.Grammar
