import Mathlib.Logic.Relation
import ContextFree.Iteration

/-!
What the result of an unbounded loop says. It is given by the last of finitely many steps (`iterate_eq_some_iff`), and
two loops that go on in step have the same (`InStep.iterate_eq`).
-/

namespace ContextFree

open Relation

variable {α β γ : Type} {step : α → α ⊕ β} {other : γ → γ ⊕ β} {a : α} {c : γ} {r : β}

/-- the step leaves the second value of the first one -/
def Leaves (step : α → α ⊕ β) (a b : α) : Prop := step a = .inl b

/-- **The result of a loop** is what the last of its steps gives. -/
theorem iterate_eq_some_iff : iterate step a = some r ↔ ∃ b, ReflTransGen (Leaves step) a b ∧ step b = .inr r := by
  constructor
  · refine iterate.partial_correctness step
      (fun a r => ∃ b, ReflTransGen (Leaves step) a b ∧ step b = .inr r) ?_ a r
    intro loop ih a r found
    split at found
    · rename_i next left
      obtain ⟨b, steps, last⟩ := ih next r found
      exact ⟨b, .head left steps, last⟩
    · rename_i result last
      cases found
      exact ⟨a, .refl, last⟩
  · rintro ⟨b, steps, last⟩
    induction steps using ReflTransGen.head_induction_on with
    | refl => exact iterate_inr last
    | head left _ ih => rwa [iterate_inl left]

/-- Two loops that go on together, or have the same result. -/
def InStep (step : α → α ⊕ β) (other : γ → γ ⊕ β) (Follows : α → γ → Prop) : Prop :=
  ∀ a c, Follows a c → (∃ b d, step a = .inl b ∧ other c = .inl d ∧ Follows b d) ∨
    ∃ r, iterate step a = some r ∧ iterate other c = some r

theorem InStep.symm {Follows : α → γ → Prop} (h : InStep step other Follows) :
    InStep other step fun c a => Follows a c := by
  intro c a follows
  rcases h a c follows with ⟨b, d, left, left', later⟩ | ⟨r, found, found'⟩
  · exact .inl ⟨d, b, left', left, later⟩
  · exact .inr ⟨r, found', found⟩

theorem InStep.result {Follows : α → γ → Prop} (h : InStep step other Follows) (follows : Follows a c)
    (found : iterate step a = some r) : iterate other c = some r := by
  obtain ⟨b, steps, last⟩ := iterate_eq_some_iff.1 found
  induction steps using ReflTransGen.head_induction_on generalizing c with
  | refl =>
    rcases h b c follows with ⟨b', d, left, -, -⟩ | ⟨r', same, found'⟩
    · cases left.symm.trans last
    · rwa [← Option.some.inj (same.symm.trans found)]
  | @head a a' left _ ih =>
    rcases h a c follows with ⟨b', d, left', other', later⟩ | ⟨r', same, found'⟩
    · obtain rfl : a' = b' := Sum.inl.inj (left.symm.trans left')
      rw [iterate_inl other']
      exact ih later (by rwa [iterate_inl left] at found)
    · rwa [← Option.some.inj (same.symm.trans found)]

/-- **Loops in step** have the same result, or both have none. -/
theorem InStep.iterate_eq {Follows : α → γ → Prop} (h : InStep step other Follows) (follows : Follows a c) :
    iterate step a = iterate other c :=
  Option.ext fun _ => ⟨h.result follows, h.symm.result follows⟩

end ContextFree
