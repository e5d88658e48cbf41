import Mathlib.Logic.Relation
import ContextFree.Grammar

/-!
Derivations, the meaning of a grammar. A form is a list of symbols; a production puts its right side in the place
of one occurrence of its left side, and a grammar generates the words of terminals that its start symbol derives.

`Derives.inside` and `Derives.append` say that derivations run inside a context and side by side, `Derives.confine` what
they keep of the symbols of a form. A rightmost derivation always replaces the last non-terminal; it is given by its productions, in order.
-/

namespace ContextFree

/-- A production of the list replaces one symbol of the form. -/
inductive Yields (rules : List Production) : List Symbol → List Symbol → Prop
  | at (before after : List Symbol) {p : Production} : p ∈ rules →
    Yields rules (before ++ p.left :: after) (before ++ p.right ++ after)

/-- any number of steps -/
def Derives (rules : List Production) : List Symbol → List Symbol → Prop := Relation.ReflTransGen (Yields rules)

/-- one step or more -/
def DerivesInSteps (rules : List Production) : List Symbol → List Symbol → Prop := Relation.TransGen (Yields rules)

/-- The form holds terminals only. -/
def IsWord (form : List Symbol) : Prop := ∀ s ∈ form, Symbol.isTerminal s

/-- The word belongs to the language of the grammar. -/
def Grammar.Generates (g : Grammar) (word : List Symbol) : Prop := IsWord word ∧ Derives g.rules [g.start] word

/-- A derivation of a word from the start symbol passes through a form that holds the symbol. -/
def Grammar.Serves (g : Grammar) (s : Symbol) : Prop :=
  ∃ form word, Derives g.rules [g.start] form ∧ s ∈ form ∧ Derives g.rules form word ∧ IsWord word

/-- The form derives a form that begins with the terminal. -/
def BeginsWith (rules : List Production) (form : List Symbol) (a : Symbol) : Prop :=
  Symbol.isTerminal a ∧ ∃ rest, Derives rules form (a :: rest)

/-- a derivation that replaces the last non-terminal in every step, with its productions in order -/
inductive RightmostDerivation (rules : List Production) : List Symbol → List Production → List Symbol → Prop
  | refl (form : List Symbol) : RightmostDerivation rules form [] form
  | step {before after result : List Symbol} {p : Production} {ps : List Production} : p ∈ rules → IsWord after →
    RightmostDerivation rules (before ++ p.right ++ after) ps result →
    RightmostDerivation rules (before ++ p.left :: after) (p :: ps) result

section

variable {rules : List Production} {u v x y : List Symbol}

theorem Yields.inside (before after : List Symbol) (h : Yields rules u v) :
    Yields rules (before ++ u ++ after) (before ++ v ++ after) := by
  obtain ⟨b, a, mem⟩ := h
  simpa [List.append_assoc] using Yields.at (before ++ b) (a ++ after) mem

theorem Derives.inside (before after : List Symbol) (h : Derives rules u v) :
    Derives rules (before ++ u ++ after) (before ++ v ++ after) := by
  induction h with
  | refl => exact .refl
  | tail _ last ih => exact .tail ih (last.inside before after)

theorem Derives.append (h : Derives rules u v) (k : Derives rules x y) : Derives rules (u ++ x) (v ++ y) := by
  have left := h.inside [] x
  have right := k.inside v []
  simp only [List.nil_append, List.append_nil] at left right
  exact Relation.ReflTransGen.trans left right

theorem Derives.rule {p : Production} (mem : p ∈ rules) : Derives rules [p.left] p.right :=
  .single (by simpa using Yields.at [] [] mem)

theorem Derives.mono {more : List Production} (sub : ∀ p ∈ rules, p ∈ more) (h : Derives rules u v) :
    Derives more u v := by
  induction h with
  | refl => exact .refl
  | tail _ last ih =>
    obtain ⟨before, after, mem⟩ := last
    exact .tail ih (.at before after (sub _ mem))

/-- A property of the symbols of a form that productions hand on holds in the forms derived from it; and if productions
whose left side has the property belong to a part of the productions, then that part is enough. -/
theorem Derives.confine {P : Symbol → Prop} {part : List Production} (h : Derives rules u v) (start : ∀ s ∈ u, P s)
    (handed : ∀ p ∈ rules, P p.left → p ∈ part ∧ ∀ s ∈ p.right, P s) : Derives part u v ∧ ∀ s ∈ v, P s := by
  induction h with
  | refl => exact ⟨.refl, start⟩
  | tail _ last ih =>
    obtain ⟨derives, each⟩ := ih
    obtain @⟨before, after, p, mem⟩ := last
    simp only [List.forall_mem_append, List.forall_mem_cons] at each ⊢
    obtain ⟨left, others⟩ := each.2
    obtain ⟨kept, right⟩ := handed p mem left
    exact ⟨.tail derives (.at before after kept), ⟨each.1, right⟩, others⟩

theorem RightmostDerivation.derives {ps : List Production} (h : RightmostDerivation rules u ps v) :
    Derives rules u v := by
  induction h with
  | refl => exact .refl
  | step mem _ _ ih => exact .head (.at _ _ mem) ih

end

end ContextFree
