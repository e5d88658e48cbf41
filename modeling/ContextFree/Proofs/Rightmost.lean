import ContextFree.Proofs.Language

/-!
Rightmost derivations and derivation trees. A rightmost derivation of a word, read backwards, takes up the nodes of a
tree from left to right, each after its children; so a form has as many rightmost derivations of a word as it has rows
of trees with its symbols at the roots.

`Forest` relates a row of trees, the form at its roots, the productions of the derivation in order and the word at its
leaves.

- `Forest.append`, `Forest.split`: rows of trees side by side, and the productions of the right one come first;
- `Forest.rightmost`, `exists_forest_of_rightmost`: a row of trees is a rightmost derivation, and the other way round;
- `exists_forest`: whatever is derived has a row of trees, so it has a rightmost derivation.
-/

namespace ContextFree

open Relation

/-- a derivation tree: a terminal, or a production with a tree for every symbol of its right side -/
inductive Tree where
  | leaf (a : Symbol)
  | node (p : Production) (children : List Tree)

/-- A row of trees with the form at its roots, the productions that rewrite the form from the right, and the word at
its leaves. -/
inductive Forest (rules : List Production) : List Tree → List Symbol → List Production → List Symbol → Prop
  | nil : Forest rules [] [] [] []
  | leaf {ts : List Tree} {f w : List Symbol} {ps : List Production} {a : Symbol} : Symbol.isTerminal a →
    Forest rules ts f ps w → Forest rules (.leaf a :: ts) (a :: f) ps (a :: w)
  | node {children ts : List Tree} {f u w : List Symbol} {ps qs : List Production} {p : Production} : p ∈ rules →
    Forest rules children p.right qs u → Forest rules ts f ps w →
    Forest rules (.node p children :: ts) (p.left :: f) (ps ++ p :: qs) (u ++ w)

variable {rules more : List Production} {ts us : List Tree} {f k u v w before after : List Symbol}
  {ps qs : List Production} {p : Production}

/-! ## Rightmost derivations in context -/

namespace RightmostDerivation

theorem trans (h : RightmostDerivation rules u ps v) (onward : RightmostDerivation rules v qs w) :
    RightmostDerivation rules u (ps ++ qs) w := by
  induction h with
  | refl => exact onward
  | step mem word _ ih => exact .step mem word (ih onward)

theorem inside (before : List Symbol) (word : IsWord after) (h : RightmostDerivation rules u ps v) :
    RightmostDerivation rules (before ++ u ++ after) ps (before ++ v ++ after) := by
  induction h with
  | refl => exact .refl _
  | @step b a r p ps mem inner _ ih =>
    have whole : IsWord (a ++ after) := isWord_append.2 ⟨inner, word⟩
    have ih : RightmostDerivation rules (before ++ b ++ p.right ++ (a ++ after)) ps (before ++ r ++ after) := by
      simpa only [List.append_assoc] using ih
    simpa only [List.append_assoc, List.cons_append] using RightmostDerivation.step mem whole ih

end RightmostDerivation

/-! ## Rows of trees -/

namespace Forest

theorem isWord (h : Forest rules ts f ps w) : IsWord w := by
  induction h with
  | nil => exact isWord_nil
  | leaf ha _ ih => exact isWord_cons.2 ⟨ha, ih⟩
  | node _ _ _ below beside => exact isWord_append.2 ⟨below, beside⟩

theorem length_eq (h : Forest rules ts f ps w) : ts.length = f.length := by
  induction h with
  | nil => rfl
  | leaf _ _ ih => rw [List.length_cons, List.length_cons, ih]
  | node _ _ _ _ beside => rw [List.length_cons, List.length_cons, beside]

theorem mono (sub : ∀ p ∈ rules, p ∈ more) (h : Forest rules ts f ps w) : Forest more ts f ps w := by
  induction h with
  | nil => exact .nil
  | leaf ha _ ih => exact .leaf ha ih
  | node mem _ _ below beside => exact .node (sub _ mem) below beside

theorem append (h : Forest rules ts f ps u) (right : Forest rules us k qs v) :
    Forest rules (ts ++ us) (f ++ k) (qs ++ ps) (u ++ v) := by
  induction h with
  | nil => simpa using right
  | leaf ha _ ih => exact .leaf ha ih
  | node mem below _ _ ih =>
    rw [← List.append_assoc, List.append_assoc _ _ v]
    exact .node mem below ih

theorem split (h : Forest rules ts (f ++ k) ps w) : ∃ left right leftRules rightRules u v,
    ts = left ++ right ∧ ps = rightRules ++ leftRules ∧ w = u ++ v ∧
    Forest rules left f leftRules u ∧ Forest rules right k rightRules v := by
  induction f generalizing ts ps w with
  | nil => exact ⟨[], ts, [], ps, [], w, rfl, by rw [List.append_nil], rfl, .nil, h⟩
  | cons s f ih =>
    cases h with
    | leaf ha rest =>
      obtain ⟨left, right, ps₁, ps₂, u, v, rfl, rfl, rfl, h₁, h₂⟩ := ih rest
      exact ⟨_ :: left, right, ps₁, ps₂, s :: u, v, rfl, rfl, rfl, .leaf ha h₁, h₂⟩
    | @node children _ _ x _ _ qs p mem below rest =>
      obtain ⟨left, right, ps₁, ps₂, u, v, rfl, rfl, rfl, h₁, h₂⟩ := ih rest
      refine ⟨_ :: left, right, ps₁ ++ p :: qs, ps₂, x ++ u, v, rfl, ?_, ?_, .node mem below h₁, h₂⟩
      · rw [List.append_assoc]
      · rw [List.append_assoc]

theorem of_isWord (word : IsWord w) : Forest rules (w.map .leaf) w [] w := by
  induction w with
  | nil => exact .nil
  | cons a w ih =>
    rw [isWord_cons] at word
    exact .leaf word.1 (ih word.2)

theorem nil_of_isWord (lefts : NonTerminalLefts rules) (word : IsWord f) (h : Forest rules ts f ps w) : ps = [] := by
  induction h with
  | nil => rfl
  | leaf _ _ ih => exact ih (isWord_cons.1 word).2
  | node mem => exact absurd (lefts _ mem) (Symbol.isTerminal_iff_not.1 (isWord_cons.1 word).1)

/-- **A row of trees is a rightmost derivation.** -/
theorem rightmost (h : Forest rules ts f ps w) : RightmostDerivation rules f ps w := by
  induction h with
  | nil => exact .refl []
  | @leaf _ _ _ _ a _ _ ih => simpa using ih.inside [a] isWord_nil
  | @node _ _ f u w ps qs p mem _ beside ih ihBeside =>
    -- first what stands behind the root is rewritten, then the root and what is below it
    have later : RightmostDerivation rules (p.left :: f) ps (p.left :: w) := by
      simpa using ihBeside.inside [p.left] isWord_nil
    have below : RightmostDerivation rules (p.right ++ w) qs (u ++ w) := ih.inside [] beside.isWord
    exact later.trans (@RightmostDerivation.step rules [] w (u ++ w) p qs mem beside.isWord below)

theorem mem_form (h : Forest rules ts f ps w) : w ∈ (words rules).form f :=
  mem_form_words.2 ⟨h.isWord, h.rightmost.derives⟩

theorem fold (mem : p ∈ rules) (h : Forest rules ts (before ++ p.right ++ after) ps w) :
    ∃ ts us v qs rs, ps = rs ++ qs ∧ Forest rules us after rs v ∧
      Forest rules ts (before ++ p.left :: after) (rs ++ p :: qs) w := by
  obtain ⟨_, us, _, rs, _, v, rfl, rfl, rfl, h, hAfter⟩ := h.split
  obtain ⟨left, children, qs, inner, x, y, rfl, rfl, rfl, hBefore, below⟩ := h.split
  refine ⟨left ++ .node p children :: us, us, v, inner ++ qs, rs, rfl, hAfter, ?_⟩
  rw [List.append_assoc x, ← List.cons_append, ← List.append_assoc rs]
  exact hBefore.append (.node mem below hAfter)

end Forest

/-- **A rightmost derivation of a word has a row of trees.** -/
theorem exists_forest_of_rightmost (lefts : NonTerminalLefts rules) (h : RightmostDerivation rules f ps w)
    (word : IsWord w) : ∃ ts, Forest rules ts f ps w := by
  induction h with
  | refl => exact ⟨_, .of_isWord word⟩
  | step mem inner _ ih =>
    obtain ⟨ts, forest⟩ := ih word
    obtain ⟨ts, us, v, qs, rs, rfl, beside, forest⟩ := forest.fold mem
    obtain rfl := beside.nil_of_isWord lefts inner
    exact ⟨ts, forest⟩

/-- **Whatever is derived has a row of trees.** -/
theorem exists_forest (h : Derives rules f w) (word : IsWord w) : ∃ ts ps, Forest rules ts f ps w := by
  induction h using ReflTransGen.head_induction_on with
  | refl => exact ⟨_, _, .of_isWord word⟩
  | head step _ ih =>
    obtain ⟨before, after, mem⟩ := step
    obtain ⟨ts, ps, forest⟩ := ih
    obtain ⟨ts, us, v, qs, rs, -, -, forest⟩ := forest.fold mem
    exact ⟨ts, _, forest⟩

end ContextFree
