import ContextFree.Proofs.Driver
import ContextFree.Proofs.Rightmost

/-!
What the bottom-up parser builds. A `Growth` is a configuration with the derivation trees of the symbols on its stack
and the productions of the reductions that were made. A step of the parser adds a leaf or puts a node above the trees of
a right side, so the trees of a word are put together from left to right, each after its children.

- `Augments.expects_of_form`: what an item expects when a part of its right side is derived first;
- `Augments.predict`: what is predicted is predicted with the symbol that comes after it;
- `Grows.unique`: a growth goes on in at most one way;
- `grows_of_forest`: with a word ahead, the parser builds any row of trees of that word on its way past the symbols
  behind a dot, provided that the item expects what comes after the word;
- `walk`: so it moves a dot over a part of a right side when a word of that part is ahead.
-/

namespace ContextFree.Lr

open Relation

variable {g : Grammar} {a : Augmented} {m : Automaton} {start s x : Symbol} {i : Item} {p : Production}
  {γ β η v w rest : List Symbol} {stack : List Entry} {c d : Configuration} {n t : Nat} {ts us : List Tree}
  {ps qs : List Production}

/-! ## What an item expects -/

namespace Augments

open Augmented

variable (aug : Augments g a start)

include aug

theorem words_eq : words (grammar g start).rules = words a.productions :=
  words_congr fun _ => Grammar.mem_rules.trans aug.mem_productions.symm

/-- What is expected, in terms of derivations. -/
theorem expects_iff : a.Expects i x ↔
    (∃ before s after, (a.right i.production).drop i.dot = before ++ s :: after ∧
      [] ∈ (words a.productions).form before ∧ x ∈ (grammar g start).firstSets.of s) ∨
    [] ∈ (words a.productions).form ((a.right i.production).drop i.dot) ∧ x = i.lookahead := by
  have nullable : ∀ f : List Symbol, (∀ s ∈ f, s ∈ (grammar g start).nullable) ↔ [] ∈ (words a.productions).form f := by
    intro f
    rw [Grammar.nil_mem_form_iff]
    apply forall₂_congr
    intro s _
    rw [Grammar.mem_nullable, aug.words_eq]
  rw [Expects, aug.first, Grammar.mem_ofForm, Grammar.ofForm_nullable]
  simp only [nullable]

/-- **What is expected before a part of a right side**, when what comes after it is expected behind it. -/
theorem expects_of_form (wf : g.WellFormed) (ahead : (a.right i.production).drop i.dot = β ++ η)
    (derived : v ∈ (words a.productions).form β)
    (h : a.Expects { i with dot := i.dot + β.length } (rest.headD endMark)) :
    a.Expects i ((v ++ rest).headD endMark) := by
  rw [aug.expects_iff] at h ⊢
  have behind : (a.right i.production).drop (i.dot + β.length) = η := by
    rw [← List.drop_drop, ahead, List.drop_left]
  simp only [behind] at h
  rw [ahead]
  cases v with
  | cons b v =>
    -- the first terminal comes from the part itself
    have first : b ∈ ((grammar g start).firstSets.ofForm β).1 :=
      Grammar.first_of_mem_form (aug.lefts_rules wf) (aug.words_eq ▸ derived)
    obtain ⟨before, s, after, rfl, all, mem⟩ := Grammar.mem_ofForm.1 first
    refine .inl ⟨before, s, after ++ η, by simp, ?_, mem⟩
    rw [Grammar.nil_mem_form_iff]
    exact fun t ht => aug.words_eq ▸ Grammar.mem_nullable.1 (all t ht)
  | nil =>
    rcases h with ⟨before, s, after, rfl, none, mem⟩ | ⟨none, eq⟩
    · exact .inl ⟨β ++ before, s, after, by simp, Reading.mem_form_append.2 ⟨[], derived, [], none, rfl⟩, mem⟩
    · exact .inr ⟨Reading.mem_form_append.2 ⟨[], derived, [], none, rfl⟩, eq⟩

/-- **A production is predicted** with the symbol that comes after its left side. -/
theorem predict (wf : g.WellFormed) (reads : a.Reads γ i) (found : a.productions[n]? = some p)
    (ahead : (a.right i.production).drop i.dot = p.left :: (β ++ η)) (derived : v ∈ (words a.productions).form β)
    (h : a.Expects { i.advance with dot := i.advance.dot + β.length } (rest.headD endMark)) :
    a.Reads γ ⟨n, 0, (v ++ rest).headD endMark⟩ := by
  have expected := aug.expects_of_form wf (drop_advance ahead) derived h
  exact .predict reads (behind_of_drop ahead) (aug.lefts wf p (List.mem_of_getElem? found))
    (mem_predicted.2 ⟨p, found, rfl, rfl, mem_follow_iff.2 expected⟩)

end Augments

/-! ## Trees over the stack -/

/-- a configuration, the trees of its symbols with the latest first, and the productions reduced, the latest first -/
structure Growth where
  configuration : Configuration
  trees : List Tree
  productions : List Production

namespace Automaton

open Augmented

/-- A step of the parser, and the tree that it adds. -/
inductive Grows (m : Automaton) : Growth → Growth → Prop
  | shift {c d : Configuration} {t : Nat} (ts : List Tree) (ps : List Production) : m.choose c = some (.shift t) →
    m.Goes c d → Grows m ⟨c, ts, ps⟩ ⟨d, .leaf c.lookahead :: ts, ps⟩
  | reduce {c d : Configuration} {n : Nat} {p : Production} (ts : List Tree) (ps : List Production) :
    m.choose c = some (.reduce n) → m.production? n = some p → m.Goes c d →
    Grows m ⟨c, ts, ps⟩ ⟨d, .node p (ts.take p.right.length).reverse :: ts.drop p.right.length, p :: ps⟩

theorem Grows.goes {x y : Growth} (h : m.Grows x y) : m.Goes x.configuration y.configuration := by
  cases h with
  | shift _ _ _ goes => exact goes
  | reduce _ _ _ _ goes => exact goes

/-- **A growth goes on in at most one way.** -/
theorem Grows.unique {x y z : Growth} (h : m.Grows x y) (k : m.Grows x z) : y = z := by
  cases h with
  | shift ts ps chosen goes =>
    cases k with
    | shift _ _ _ goes' =>
      obtain rfl := Outcome.running.inj (goes.symm.trans goes')
      rfl
    | reduce _ _ chosen' => cases chosen.symm.trans chosen'
  | reduce ts ps chosen found goes =>
    cases k with
    | shift _ _ chosen' => cases chosen.symm.trans chosen'
    | reduce _ _ chosen' found' goes' =>
      cases chosen.symm.trans chosen'
      obtain rfl := Option.some.inj (found.symm.trans found')
      obtain rfl := Outcome.running.inj (goes.symm.trans goes')
      rfl

section

variable (wf : g.WellFormed) (made : ofGrammar g = .ok m) (lr1 : m.isLr1)

include wf made lr1

theorem exists_grows_reduce (stacked : m.Stacked (γ ++ p.right) stack) (complete : m.augmented.Reads (γ ++ p.right) i)
    (found : m.augmented.productions[i.production]? = some p) (dot : i.dot = p.right.length) (inner : i.production ≠ 0)
    (count : ts.length = p.right.length) (next : rest.headD endMark = i.lookahead := by rfl) :
    ∃ stack', (∀ us qs, m.Grows ⟨⟨stack, rest⟩, ts.reverse ++ us, qs⟩ ⟨⟨stack', rest⟩, .node p ts :: us, p :: qs⟩) ∧
      m.Stacked (γ ++ [p.left]) stack' := by
  have chosen := choose_reduce (c := ⟨stack, rest⟩) wf made lr1 stacked complete found dot inner next
  obtain ⟨stack', goes, above⟩ := step_reduce (c := ⟨stack, rest⟩) wf made lr1 stacked complete found dot inner next
  refine ⟨stack', fun us qs => ?_, above⟩
  have node := Grows.reduce (ts.reverse ++ us) qs chosen found goes
  rwa [← count, ← List.length_reverse, List.take_left, List.drop_left, List.reverse_reverse] at node

/-- **The parser builds any row of trees** whose word is ahead, over the symbols behind the dot of an item. -/
theorem grows_of_forest (forest : Forest m.augmented.productions ts β ps w) (rest : List Symbol)
    (stacked : m.Stacked γ stack) (reads : m.augmented.Reads γ i)
    (ahead : (m.augmented.right i.production).drop i.dot = β ++ η)
    (expects : m.augmented.Expects { i with dot := i.dot + β.length } (rest.headD endMark)) :
    ∃ stack', (∀ us qs, ReflTransGen m.Grows ⟨⟨stack, w ++ rest⟩, us, qs⟩
        ⟨⟨stack', rest⟩, ts.reverse ++ us, ps ++ qs⟩) ∧
      m.Stacked (γ ++ β) stack' ∧ m.augmented.Reads (γ ++ β) { i with dot := i.dot + β.length } := by
  obtain ⟨start, aug⟩ := exists_augments made
  induction forest generalizing γ stack i η rest with
  | nil =>
    refine ⟨stack, fun _ _ => .refl, ?_, ?_⟩ <;> rwa [List.append_nil]
  | @leaf ts f w ps b terminal _ ih =>
    have behind := behind_of_drop ahead
    rw [over_cons] at expects ⊢
    obtain ⟨t, chosen, above⟩ := choose_shift wf made lr1 (w ++ rest) stacked reads behind terminal
    obtain ⟨stack', others, stacked', reads'⟩ := ih rest above (.advance reads behind) (drop_advance ahead) expects
    rw [List.append_cons]
    refine ⟨stack', fun us qs => ?_, stacked', reads'⟩
    rw [List.reverse_cons, ← List.append_cons]
    exact .head (.shift us qs chosen (goes_of_shift chosen)) (others (.leaf b :: us) qs)
  | @node children ts f u w ps qs p mem below beside ih ihBeside =>
    have behind := behind_of_drop ahead
    rw [over_cons] at expects ⊢
    obtain ⟨n, found⟩ := List.getElem?_of_mem mem
    have predicted := aug.predict wf reads found ahead beside.mem_form expects
    obtain ⟨stack', steps, stacked', complete⟩ := ih (η := []) (w ++ rest) stacked predicted
      (by rw [right_eq found, List.append_nil]; rfl)
      (expects_of_drop_eq_nil (i := ⟨n, 0 + p.right.length, (w ++ rest).headD endMark⟩) (by simp [right_eq found]))
    obtain ⟨stack'', node, above⟩ := exists_grows_reduce wf made lr1 stacked' complete found (Nat.zero_add _)
      (inner_of_behind aug behind found) below.length_eq
    obtain ⟨stack₃, others, stacked₃, reads₃⟩ :=
      ihBeside rest above (.advance reads behind) (drop_advance ahead) expects
    rw [List.append_cons γ, List.append_assoc u]
    refine ⟨stack₃, fun us rs => ?_, stacked₃, reads₃⟩
    rw [List.reverse_cons, ← List.append_cons, List.append_assoc, List.cons_append]
    exact (steps us rs).trans (.head (node us (qs ++ rs)) (others _ _))

/-- The parser moves a dot over a part of a right side. -/
theorem walk (rest : List Symbol) (stacked : m.Stacked γ stack) (reads : m.augmented.Reads γ i)
    (ahead : (m.augmented.right i.production).drop i.dot = β ++ η)
    (derived : w ∈ (words m.augmented.productions).form β)
    (expects : m.augmented.Expects { i with dot := i.dot + β.length } (rest.headD endMark)) :
    ∃ stack', ReflTransGen m.Goes ⟨stack, w ++ rest⟩ ⟨stack', rest⟩ ∧ m.Stacked (γ ++ β) stack' ∧
      m.augmented.Reads (γ ++ β) { i with dot := i.dot + β.length } := by
  obtain ⟨word, derives⟩ := derives_of_mem_form derived
  obtain ⟨ts, ps, forest⟩ := exists_forest derives word
  obtain ⟨stack', steps, stacked', reads'⟩ := grows_of_forest wf made lr1 forest rest stacked reads ahead expects
  exact ⟨stack', (steps [] []).lift Growth.configuration fun _ _ => Grows.goes, stacked', reads'⟩

end

end Automaton

end ContextFree.Lr
