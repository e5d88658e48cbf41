/-!
Loops without a bound. `iterate` repeats a step until it gives a result. That it ever does needs a proof, so results are
optional; every other loop of this library goes down its data, or takes from them how often it may turn.
-/

namespace ContextFree

variable {α β : Type} (step : α → α ⊕ β)

/-- Repeats a step on what it leaves until it gives a result; there is none when it never does. -/
def iterate (a : α) : Option β :=
  match step a with
  -- an operator application: a plain call would keep its place in this file inside the definition
  | .inl next => unop% iterate next
  | .inr result => some result
partial_fixpoint

variable {step} {a b : α} {r : β}

theorem iterate_inl (h : step a = .inl b) : iterate step a = iterate step b := by
  rw [iterate, h]

theorem iterate_inr (h : step a = .inr r) : iterate step a = some r := by
  rw [iterate, h]

end ContextFree
