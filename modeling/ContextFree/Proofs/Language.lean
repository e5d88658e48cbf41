import Mathlib.Computability.Language
import Mathlib.Order.CompletePartialOrder
import ContextFree.Derivation

/-!
The language of every symbol, and how to compare the languages of two grammars without a look at derivations.

A `Reading` gives every symbol a language; a form then stands for the words made of one word for each of its symbols.
A reading is `Closed` under productions when terminals read as themselves and no production leads out of the language of
its left side. The words that the symbols derive are the least closed reading:

- `words_closed`: they are closed;
- `words_le`: they lie in every closed reading. To show that one grammar derives no more than another, or no more than a
  semantic description allows, it is enough to check its productions one by one;
- `words_induction`: what holds of terminals and is carried over by every production holds of all words;
- `mem_words_iff`: a word of a non-terminal comes from one of its productions.
-/

namespace ContextFree

open Relation

namespace Symbol

theorem not_isTerminal {s : Symbol} : ¬ isTerminal s ↔ isNonTerminal s := by simp [isTerminal]

theorem isTerminal_iff_not {s : Symbol} : isTerminal s ↔ ¬ isNonTerminal s := by simp [isTerminal]

theorem ne_of_isTerminal {a s : Symbol} (ha : isTerminal a) (hs : isNonTerminal s) : a ≠ s := by
  rintro rfl
  exact isTerminal_iff_not.1 ha hs

end Symbol

@[simp] theorem isWord_nil : IsWord [] := by simp [IsWord]

@[simp] theorem isWord_cons {s : Symbol} {w : List Symbol} : IsWord (s :: w) ↔ Symbol.isTerminal s ∧ IsWord w := by
  simp [IsWord]

@[simp] theorem isWord_append {u v : List Symbol} : IsWord (u ++ v) ↔ IsWord u ∧ IsWord v := by
  simp [IsWord, or_imp, forall_and]

/-- Every left side is a non-terminal. -/
def NonTerminalLefts (rules : List Production) : Prop := ∀ p ∈ rules, Symbol.isNonTerminal p.left

theorem Grammar.WellFormed.lefts {g : Grammar} (wf : g.WellFormed) : NonTerminalLefts g.rules :=
  fun p hp => wf.left_nonTerminal p (Grammar.mem_rules.1 hp)

/-! ## Readings -/

/-- a language for every symbol -/
abbrev Reading := Symbol → Language Symbol

namespace Reading

variable {I J : Reading} {f k : List Symbol} {s : Symbol} {w : List Symbol}

/-- the words of a form: a word of each of its symbols, side by side -/
def form (I : Reading) (f : List Symbol) : Language Symbol := (f.map I).prod

@[simp] theorem form_nil : I.form [] = 1 := rfl

@[simp] theorem form_cons : I.form (s :: f) = I s * I.form f := by simp [form]

@[simp] theorem form_append : I.form (f ++ k) = I.form f * I.form k := by simp [form]

theorem form_singleton : I.form [s] = I s := by simp

theorem mem_form_cons : w ∈ I.form (s :: f) ↔ ∃ u ∈ I s, ∃ v ∈ I.form f, u ++ v = w := by
  rw [form_cons, Language.mem_mul]

theorem mem_form_append : w ∈ I.form (f ++ k) ↔ ∃ u ∈ I.form f, ∃ v ∈ I.form k, u ++ v = w := by
  rw [form_append, Language.mem_mul]

theorem form_mono (h : ∀ s ∈ f, I s ≤ J s) : I.form f ≤ J.form f := by
  induction f with
  | nil => exact le_rfl
  | cons s f ih =>
    rw [form_cons, form_cons]
    exact mul_le_mul' (h s List.mem_cons_self) (ih fun t ht => h t (List.mem_cons_of_mem _ ht))

theorem form_congr (h : ∀ s ∈ f, I s = J s) : I.form f = J.form f := by
  rw [form, form, List.map_congr_left h]

/-- the words of a reading that have a property -/
def within (I : Reading) (P : Symbol → List Symbol → Prop) : Reading := fun s => {w | w ∈ I s ∧ P s w}

theorem form_within_le {P : Symbol → List Symbol → Prop} : (I.within P).form f ≤ I.form f :=
  form_mono fun _ _ _ h => h.1

/-- Terminals read as themselves, and no production leads out of the language of its left side. -/
structure Closed (I : Reading) (rules : List Production) : Prop where
  terminal : ∀ a, Symbol.isTerminal a → [a] ∈ I a
  rule : ∀ p ∈ rules, I.form p.right ≤ I p.left

theorem Closed.mem_form_self {rules : List Production} (h : I.Closed rules) (hw : IsWord w) : w ∈ I.form w := by
  induction w with
  | nil => exact Language.nil_mem_one
  | cons a w ih =>
    rw [isWord_cons] at hw
    exact mem_form_cons.2 ⟨[a], h.terminal a hw.1, w, ih hw.2, rfl⟩

theorem Closed.mem_form {rules : List Production} (h : I.Closed rules) (hd : Derives rules f w) (hw : IsWord w) :
    w ∈ I.form f := by
  induction hd using ReflTransGen.head_induction_on with
  | refl => exact h.mem_form_self hw
  | head step _ ih =>
    obtain ⟨before, after, mem⟩ := step
    simp only [form_append, form_cons, mul_assoc] at ih ⊢
    exact mul_le_mul' le_rfl (mul_le_mul' (h.rule _ mem) le_rfl) ih

end Reading

/-! ## The words that symbols derive -/

/-- the words that a symbol derives -/
def words (rules : List Production) : Reading := fun s => {w | IsWord w ∧ Derives rules [s] w}

section

variable {rules more : List Production} {I : Reading} {a s : Symbol} {f w : List Symbol}

theorem Grammar.generates_iff {g : Grammar} : g.Generates w ↔ w ∈ words g.rules g.start := Iff.rfl

theorem singleton_mem_words (ha : Symbol.isTerminal a) : [a] ∈ words rules a := ⟨by simpa using ha, .refl⟩

theorem derives_of_mem_form (h : w ∈ (words rules).form f) : IsWord w ∧ Derives rules f w := by
  induction f generalizing w with
  | nil =>
    obtain rfl : w = [] := h
    exact ⟨isWord_nil, .refl⟩
  | cons s f ih =>
    obtain ⟨u, hu, v, hv, rfl⟩ := Reading.mem_form_cons.1 h
    obtain ⟨wordV, fv⟩ := ih hv
    exact ⟨isWord_append.2 ⟨hu.1, wordV⟩, Derives.append hu.2 fv⟩

theorem words_closed : (words rules).Closed rules where
  terminal _ := singleton_mem_words
  rule p mem w hw := by
    obtain ⟨word, right⟩ := derives_of_mem_form hw
    exact ⟨word, ReflTransGen.trans (Derives.rule mem) right⟩

/-- The words of the symbols are the least closed reading. -/
theorem words_le (h : I.Closed rules) (s : Symbol) : words rules s ≤ I s := by
  intro w hw
  rw [← Reading.form_singleton (I := I)]
  exact h.mem_form hw.2 hw.1

/-- Induction on a word of a symbol: a property of terminals that every production carries over holds of all words. -/
theorem words_induction {P : Symbol → List Symbol → Prop} (terminal : ∀ a, Symbol.isTerminal a → P a [a])
    (rule : ∀ p ∈ rules, ∀ w ∈ ((words rules).within P).form p.right, P p.left w) (h : w ∈ words rules s) : P s w := by
  have closed : ((words rules).within P).Closed rules :=
    ⟨fun a ha => ⟨singleton_mem_words ha, terminal a ha⟩,
      fun p mem w hw => ⟨words_closed.rule p mem (Reading.form_within_le hw), rule p mem w hw⟩⟩
  exact (words_le closed s h).2

theorem mem_form_words : w ∈ (words rules).form f ↔ IsWord w ∧ Derives rules f w :=
  ⟨derives_of_mem_form, fun h => words_closed.mem_form h.2 h.1⟩

theorem words_mono (sub : ∀ p ∈ rules, p ∈ more) (s : Symbol) : words rules s ≤ words more s :=
  fun _ hw => ⟨hw.1, hw.2.mono sub⟩

theorem words_congr (same : ∀ p, p ∈ rules ↔ p ∈ more) : words rules = words more := by
  funext s
  exact le_antisymm (words_mono (fun p => (same p).1) s) (words_mono (fun p => (same p).2) s)

theorem form_le_words {right : List Symbol} (mem : ⟨s, right⟩ ∈ rules) : (words rules).form right ≤ words rules s :=
  words_closed.rule ⟨s, right⟩ mem

theorem yields_singleton {v : List Symbol} : Yields rules [s] v ↔ ⟨s, v⟩ ∈ rules := by
  constructor
  · intro h
    generalize hu : [s] = u at h
    obtain ⟨before, after, mem⟩ := h
    obtain ⟨rfl, hs⟩ | ⟨_, _, h⟩ := List.cons_eq_append_iff.1 hu
    · obtain ⟨rfl, rfl⟩ := List.cons_eq_cons.1 hs
      simpa using mem
    · simp at h
  · intro mem
    simpa using Yields.at [] [] mem

theorem mem_words_iff (hs : Symbol.isNonTerminal s) :
    w ∈ words rules s ↔ ∃ right, ⟨s, right⟩ ∈ rules ∧ w ∈ (words rules).form right := by
  constructor
  · rintro ⟨word, derives⟩
    rcases ReflTransGen.cases_head derives with rfl | ⟨right, first, rest⟩
    · exact absurd hs (Symbol.isTerminal_iff_not.1 (word s List.mem_cons_self))
    · exact ⟨right, yields_singleton.1 first, mem_form_words.2 ⟨word, rest⟩⟩
  · rintro ⟨right, mem, hw⟩
    exact form_le_words mem hw

theorem words_terminal (lefts : NonTerminalLefts rules) (ha : Symbol.isTerminal a) : words rules a = {[a]} := by
  ext w
  constructor
  · rintro ⟨_, derives⟩
    rcases ReflTransGen.cases_head derives with rfl | ⟨right, first, _⟩
    · rfl
    · exact absurd (lefts _ (yields_singleton.1 first)) (Symbol.isTerminal_iff_not.1 ha)
  · rintro rfl
    exact singleton_mem_words ha

end

/-! ## A grammar to try things on -/

/-- the words of brackets in pairs, by a left-recursive grammar with an empty right side -/
def brackets : Grammar := ⟨'S', 'ε', .ofList [⟨'S', ['S', 'a', 'S', 'b']⟩, ⟨'S', []⟩]⟩

theorem brackets_wellFormed : brackets.WellFormed :=
  .ofList (by decide +kernel) (by decide +kernel) (by decide +kernel) (by decide +kernel)

theorem exists_of_bind {ε α β : Type} {x : Except ε α} {f : α → Except ε β} {b : β} (made : x.bind f = .ok b) :
    ∃ a, x = .ok a ∧ f a = .ok b := by
  cases x with
  | ok a => exact ⟨a, rfl, made⟩
  | error e => cases made

theorem exists_of_isOk {ε α : Type} {x : Except ε α} (ok : x.isOk) : ∃ a, x = .ok a := by
  cases x with
  | ok a => exact ⟨a, rfl⟩
  | error e => cases ok

end ContextFree
