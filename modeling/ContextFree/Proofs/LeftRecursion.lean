import ContextFree.Proofs.Proper
import ContextFree.Transformation.LeftRecursion

/-!
Removal of left recursion keeps the language. Two things happen to one non-terminal, and each is compared with the
grammar before by closed readings.

- `sortOut_forward`, `sortOut_backward`: what holds of the alternatives carries over through the sorting, and back;
- `turned_words`: turning direct recursion to the right changes the words of the fresh symbol only. The fresh symbol
  reads as what may follow a word of the recursive one;
- `Untangled.step`, `Untangled.run`: one step keeps the invariant `Untangled`, and so does a run;
- `removeLeftRecursion_spec`: the language is kept, and empty right sides stay confined.
-/

namespace ContextFree.Grammar

open Std (ExtTreeMap)

theorem mem_withTail {tail : Symbol} {alternatives : List (List Symbol)} {right : List Symbol} :
    right ∈ withTail tail alternatives ↔
      right ∈ alternatives ∨ ∃ x ∈ alternatives, x ≠ [] ∧ right = x ++ [tail] := by
  simp only [withTail, List.mem_append, List.mem_map, List.mem_filter, Bool.not_eq_true', List.isEmpty_eq_false_iff,
    and_assoc]
  simp only [eq_comm]

/-! ## Turning recursion to the right -/

section Turn

/-- productions with direct recursion: `left -> left α | β` -/
def direct (others : List Production) (left : Symbol) (kept recursive : List (List Symbol)) : List Production :=
  others ++ kept.map (⟨left, ·⟩) ++ recursive.map fun rest => ⟨left, left :: rest⟩

/-- the same with recursion to the right: `left -> β | β tail` and `tail -> α | α tail` -/
def turned (others : List Production) (left tail : Symbol) (kept recursive : List (List Symbol)) : List Production :=
  others ++ (withTail tail kept).map (⟨left, ·⟩) ++ (withTail tail recursive).map (⟨tail, ·⟩)

variable {others : List Production} {left tail s : Symbol} {kept recursive : List (List Symbol)} {p : Production}
  {f w v : List Symbol}

theorem mem_direct : p ∈ direct others left kept recursive ↔
    p ∈ others ∨ (∃ x ∈ kept, p = ⟨left, x⟩) ∨ ∃ x ∈ recursive, p = ⟨left, left :: x⟩ := by
  simp only [direct, List.mem_append, List.mem_map, or_assoc]
  simp only [eq_comm]

theorem mem_turned : p ∈ turned others left tail kept recursive ↔
    p ∈ others ∨ (∃ x ∈ withTail tail kept, p = ⟨left, x⟩) ∨ ∃ x ∈ withTail tail recursive, p = ⟨tail, x⟩ := by
  simp only [turned, List.mem_append, List.mem_map, or_assoc]
  simp only [eq_comm]

/-- when recursion can be turned: the tail is a new non-terminal, and the alternatives are those of the left side, none
of them empty -/
structure Turnable (others : List Production) (left tail : Symbol) (kept recursive : List (List Symbol)) : Prop where
  left_nonTerminal : Symbol.isNonTerminal left
  tail_nonTerminal : Symbol.isNonTerminal tail
  tail_ne : tail ≠ left
  tail_unused : ∀ p ∈ direct others left kept recursive, p.left ≠ tail ∧ tail ∉ p.right
  others_left : ∀ p ∈ others, p.left ≠ left
  kept_ne : [] ∉ kept
  recursive_ne : [] ∉ recursive

namespace Turnable

variable (t : Turnable others left tail kept recursive)

/-- The fresh symbol reads as what may follow a word of the recursive one. -/
def follower (others : List Production) (left tail : Symbol) (kept recursive : List (List Symbol)) : Reading := fun s =>
  {v | (s = tail → ∀ w ∈ words (direct others left kept recursive) left,
    w ++ v ∈ words (direct others left kept recursive) left) ∧
      (s ≠ tail → v ∈ words (direct others left kept recursive) s)}

theorem follower_tail : v ∈ follower others left tail kept recursive tail ↔
    ∀ w ∈ words (direct others left kept recursive) left, w ++ v ∈ words (direct others left kept recursive) left :=
  ⟨fun hv => hv.1 rfl, fun hv => ⟨fun _ => hv, fun ne => absurd rfl ne⟩⟩

theorem follower_old (h : s ≠ tail) :
    follower others left tail kept recursive s = words (direct others left kept recursive) s := by
  ext v
  exact ⟨fun hv => hv.2 h, fun hv => ⟨fun eq => absurd eq h, fun _ => hv⟩⟩

theorem follower_form (h : tail ∉ f) : (follower others left tail kept recursive).form f =
    (words (direct others left kept recursive)).form f := by
  refine Reading.form_congr fun s hs => follower_old ?_
  rintro rfl
  exact h hs

include t

theorem follower_closed :
    (follower others left tail kept recursive).Closed (turned others left tail kept recursive) := by
  refine ⟨fun a ha => ?_, fun p mem w hw => ?_⟩
  · rw [follower_old (Symbol.ne_of_isTerminal ha t.tail_nonTerminal)]
    exact singleton_mem_words ha
  rcases mem_turned.1 mem with mem | ⟨x, hx, rfl⟩ | ⟨x, hx, rfl⟩
  · have mem' : p ∈ direct others left kept recursive := mem_direct.2 (.inl mem)
    rw [follower_form (t.tail_unused p mem').2] at hw
    rw [follower_old (t.tail_unused p mem').1]
    exact words_closed.rule p mem' hw
  · rw [follower_old t.tail_ne.symm]
    have rule : ∀ β ∈ kept, ⟨left, β⟩ ∈ direct others left kept recursive := fun β hβ =>
      mem_direct.2 (.inr (.inl ⟨β, hβ, rfl⟩))
    rcases mem_withTail.1 hx with hx | ⟨β, hβ, -, rfl⟩
    · rw [follower_form (t.tail_unused _ (rule x hx)).2] at hw
      exact form_le_words (rule x hx) hw
    · obtain ⟨u, hu, v, hv, rfl⟩ := Reading.mem_form_append.1 hw
      rw [follower_form (t.tail_unused _ (rule β hβ)).2] at hu
      rw [Reading.form_singleton] at hv
      exact follower_tail.1 hv u (form_le_words (rule β hβ) hu)
  · apply follower_tail.2
    intro u hu
    -- a word of `α` may follow one of the left side, by the production `left -> left α`
    have step : ∀ α ∈ recursive, ∀ v ∈ (follower others left tail kept recursive).form α,
        u ++ v ∈ words (direct others left kept recursive) left := by
      intro α hα v hv
      have rule : ⟨left, left :: α⟩ ∈ direct others left kept recursive :=
        mem_direct.2 (.inr (.inr ⟨α, hα, rfl⟩))
      rw [follower_form fun used => (t.tail_unused _ rule).2 (List.mem_cons_of_mem _ used)] at hv
      exact form_le_words rule (Reading.mem_form_cons.2 ⟨u, hu, v, hv, rfl⟩)
    rcases mem_withTail.1 hx with hx | ⟨α, hα, -, rfl⟩
    · exact step x hx w hw
    · obtain ⟨v, hv, z, hz, rfl⟩ := Reading.mem_form_append.1 hw
      rw [Reading.form_singleton] at hz
      rw [← List.append_assoc]
      exact follower_tail.1 hz _ (step α hα v hv)

theorem turned_of_kept {β : List Symbol} (hβ : β ∈ kept) :
    ⟨left, β⟩ ∈ turned others left tail kept recursive ∧
      ⟨left, β ++ [tail]⟩ ∈ turned others left tail kept recursive := by
  have ne : β ≠ [] := fun h => t.kept_ne (h ▸ hβ)
  exact ⟨mem_turned.2 (.inr (.inl ⟨β, mem_withTail.2 (.inl hβ), rfl⟩)),
    mem_turned.2 (.inr (.inl ⟨_, mem_withTail.2 (.inr ⟨β, hβ, ne, rfl⟩), rfl⟩))⟩

theorem turned_of_recursive {α : List Symbol} (hα : α ∈ recursive) :
    ⟨tail, α⟩ ∈ turned others left tail kept recursive ∧
      ⟨tail, α ++ [tail]⟩ ∈ turned others left tail kept recursive := by
  have ne : α ≠ [] := fun h => t.recursive_ne (h ▸ hα)
  exact ⟨mem_turned.2 (.inr (.inr ⟨α, mem_withTail.2 (.inl hα), rfl⟩)),
    mem_turned.2 (.inr (.inr ⟨_, mem_withTail.2 (.inr ⟨α, hα, ne, rfl⟩), rfl⟩))⟩

/-- What the tail stands for can be prolonged. -/
theorem tail_append {α z : List Symbol} (hz : z ∈ words (turned others left tail kept recursive) tail)
    (hα : α ∈ recursive) (hv : v ∈ (words (turned others left tail kept recursive)).form α) :
    z ++ v ∈ words (turned others left tail kept recursive) tail := by
  refine words_induction (P := fun s z => s = tail → z ++ v ∈ words (turned others left tail kept recursive) tail)
    ?_ ?_ hz rfl
  · rintro a ha rfl
    exact absurd t.tail_nonTerminal (Symbol.isTerminal_iff_not.1 ha)
  intro p mem z hz eq
  rcases mem_turned.1 mem with mem | ⟨x, -, rfl⟩ | ⟨x, hx, rfl⟩
  · exact absurd eq (t.tail_unused p (mem_direct.2 (.inl mem))).1
  · exact absurd eq t.tail_ne.symm
  rcases mem_withTail.1 hx with hx | ⟨x, known, -, rfl⟩
  · refine form_le_words (t.turned_of_recursive hx).2 (Reading.mem_form_append.2 ⟨z, ?_, v, ?_, rfl⟩)
    · exact Reading.form_within_le hz
    · rw [Reading.form_singleton]
      exact form_le_words (t.turned_of_recursive hα).1 hv
  · -- the last part is a word of the tail again, and can be prolonged
    obtain ⟨y, hy, r, hr, rfl⟩ := Reading.mem_form_append.1 hz
    rw [Reading.form_singleton] at hr
    rw [List.append_assoc]
    refine form_le_words (t.turned_of_recursive known).2 (Reading.mem_form_append.2 ⟨y, ?_, r ++ v, ?_, rfl⟩)
    · exact Reading.form_within_le hy
    · rw [Reading.form_singleton]
      exact hr.2 rfl

theorem words_turned_closed :
    (words (turned others left tail kept recursive)).Closed (direct others left kept recursive) := by
  refine ⟨fun a => singleton_mem_words, fun p mem w hw => ?_⟩
  rcases mem_direct.1 mem with mem | ⟨β, hβ, rfl⟩ | ⟨α, hα, rfl⟩
  · exact words_closed.rule p (mem_turned.2 (.inl mem)) hw
  · exact form_le_words (t.turned_of_kept hβ).1 hw
  · obtain ⟨u, hu, v, hv, rfl⟩ := Reading.mem_form_cons.1 hw
    obtain ⟨right, rule, hu⟩ := (mem_words_iff t.left_nonTerminal).1 hu
    rcases mem_turned.1 rule with rule | ⟨x, hx, eq⟩ | ⟨x, -, eq⟩
    · exact absurd rfl (t.others_left _ rule)
    · cases eq
      rcases mem_withTail.1 hx with hx | ⟨β, hβ, -, rfl⟩
      · refine form_le_words (t.turned_of_kept hx).2 (Reading.mem_form_append.2 ⟨u, hu, v, ?_, rfl⟩)
        rw [Reading.form_singleton]
        exact form_le_words (t.turned_of_recursive hα).1 hv
      · obtain ⟨y, hy, z, hz, rfl⟩ := Reading.mem_form_append.1 hu
        rw [Reading.form_singleton] at hz
        rw [List.append_assoc]
        refine form_le_words (t.turned_of_kept hβ).2 (Reading.mem_form_append.2 ⟨y, hy, z ++ v, ?_, rfl⟩)
        rw [Reading.form_singleton]
        exact t.tail_append hz hα hv
    · cases eq
      exact absurd rfl t.tail_ne

/-- **Turning recursion to the right** changes the words of the fresh symbol only. -/
theorem turned_words (h : s ≠ tail) :
    words (turned others left tail kept recursive) s = words (direct others left kept recursive) s := by
  apply le_antisymm
  · calc words (turned others left tail kept recursive) s
        ≤ follower others left tail kept recursive s := words_le t.follower_closed s
      _ = words (direct others left kept recursive) s := follower_old h
  · exact words_le t.words_turned_closed s

/-- Only the fresh symbol is new on right sides, and no production becomes empty. -/
theorem shape (mem : p ∈ turned others left tail kept recursive) :
    (∀ s ∈ p.right, s = tail ∨ ∃ q ∈ direct others left kept recursive, s ∈ q.right) ∧
      (p.right = [] → p ∈ direct others left kept recursive) := by
  have before : ∀ x y, y ∈ direct others left kept recursive → x ⊆ y.right →
      ∀ s ∈ x ++ [tail], s = tail ∨ ∃ q ∈ direct others left kept recursive, s ∈ q.right := by
    intro x y hy sub s hs
    rcases List.mem_append.1 hs with hs | hs
    · exact .inr ⟨y, hy, sub hs⟩
    · exact .inl (List.mem_singleton.1 hs)
  rcases mem_turned.1 mem with mem | ⟨x, hx, rfl⟩ | ⟨x, hx, rfl⟩
  · have mem : p ∈ direct others left kept recursive := mem_direct.2 (.inl mem)
    exact ⟨fun s hs => .inr ⟨p, mem, hs⟩, fun _ => mem⟩
  · rcases mem_withTail.1 hx with hx | ⟨β, hβ, -, rfl⟩
    · have mem : ⟨left, x⟩ ∈ direct others left kept recursive := mem_direct.2 (.inr (.inl ⟨x, hx, rfl⟩))
      exact ⟨fun s hs => .inr ⟨_, mem, hs⟩, fun _ => mem⟩
    · have mem : ⟨left, β⟩ ∈ direct others left kept recursive := mem_direct.2 (.inr (.inl ⟨β, hβ, rfl⟩))
      exact ⟨before β _ mem (List.Subset.refl β), fun nil => absurd nil (by simp)⟩
  · have rule : ∀ α ∈ recursive, ⟨left, left :: α⟩ ∈ direct others left kept recursive := fun α hα =>
      mem_direct.2 (.inr (.inr ⟨α, hα, rfl⟩))
    rcases mem_withTail.1 hx with hx | ⟨α, hα, -, rfl⟩
    · refine ⟨fun s hs => .inr ⟨_, rule x hx, List.mem_cons_of_mem left hs⟩, fun nil => ?_⟩
      obtain rfl : x = [] := nil
      exact absurd hx t.recursive_ne
    · exact ⟨before α _ (rule α hα) (List.subset_cons_self left α), fun nil => absurd nil (by simp)⟩

end Turnable

end Turn

/-! ## Sorting out -/

section SortOut

variable {limits : Limits} {done : ExtTreeMap Symbol (List (List Symbol)) compare} {left : Symbol}
  {pending : List (List Symbol)} {sorted result : Alternatives} {P : List Symbol → Prop}

/-- What holds of the alternatives holds of the sorted ones, if it survives the replacement of a first symbol. -/
theorem sortOut_forward (made : sortOut limits done left pending sorted = .ok result)
    (replace : ∀ s rest heads, P (s :: rest) → done[s]? = some heads → ∀ head ∈ heads, P (head ++ rest))
    (hpending : ∀ right ∈ pending, P right) (hkept : ∀ right ∈ sorted.kept, P right)
    (hrecursive : ∀ rest ∈ sorted.recursive, P (left :: rest)) :
    (∀ right ∈ result.kept, P right) ∧ ∀ rest ∈ result.recursive, P (left :: rest) := by
  fun_induction sortOut limits done left pending sorted with
  | case1 sorted =>
    cases made
    exact ⟨hkept, hrecursive⟩
  | case2 sorted pending ih =>
    rw [List.forall_mem_cons] at hpending
    exact ih made hpending.2 (List.forall_mem_cons.2 ⟨hpending.1, hkept⟩) hrecursive
  | case3 => cases made
  | case4 sorted s rest pending heads known total within ih =>
    rw [List.forall_mem_cons] at hpending
    refine ih made (List.forall_mem_append.2 ⟨?_, hpending.2⟩) hkept hrecursive
    rw [followedBy, List.forall_mem_map]
    exact replace s rest heads hpending.1 known
  | case5 sorted rest pending recursive unknown ih =>
    rw [List.forall_mem_cons] at hpending
    apply ih made hpending.2 hkept
    intro x hx
    simp only [recursive] at hx
    split at hx
    · exact hrecursive x hx
    · rcases List.mem_cons.1 hx with rfl | hx
      · exact hpending.1
      · exact hrecursive x hx
  | case6 sorted s rest pending unknown other ih =>
    rw [List.forall_mem_cons] at hpending
    exact ih made hpending.2 (List.forall_mem_cons.2 ⟨hpending.1, hkept⟩) hrecursive

/-- What holds of the sorted alternatives holds of all, if it carries over to a first symbol from what replaces it.
The alternative that is the non-terminal itself is dropped. -/
theorem sortOut_backward (made : sortOut limits done left pending sorted = .ok result)
    (replace : ∀ s rest heads, done[s]? = some heads → (∀ head ∈ heads, P (head ++ rest)) → P (s :: rest))
    (itself : P [left]) (hkept : ∀ right ∈ result.kept, P right)
    (hrecursive : ∀ rest ∈ result.recursive, P (left :: rest)) :
    (∀ right ∈ pending, P right) ∧ (∀ right ∈ sorted.kept, P right) ∧ ∀ rest ∈ sorted.recursive, P (left :: rest) := by
  fun_induction sortOut limits done left pending sorted with
  | case1 sorted =>
    cases made
    exact ⟨fun _ h => absurd h List.not_mem_nil, hkept, hrecursive⟩
  | case2 sorted pending ih =>
    obtain ⟨hpending, hkept, hrecursive⟩ := ih made
    rw [List.forall_mem_cons] at hkept
    exact ⟨List.forall_mem_cons.2 ⟨hkept.1, hpending⟩, hkept.2, hrecursive⟩
  | case3 => cases made
  | case4 sorted s rest pending heads known total within ih =>
    obtain ⟨hpending, hkept, hrecursive⟩ := ih made
    rw [List.forall_mem_append, followedBy, List.forall_mem_map] at hpending
    exact ⟨List.forall_mem_cons.2 ⟨replace s rest heads known hpending.1, hpending.2⟩, hkept, hrecursive⟩
  | case5 sorted rest pending recursive unknown ih =>
    obtain ⟨hpending, hkept, hrecursive⟩ := ih made
    by_cases alone : rest = []
    · have same : recursive = sorted.recursive := by simp [recursive, alone]
      exact ⟨List.forall_mem_cons.2 ⟨alone ▸ itself, hpending⟩, hkept, same ▸ hrecursive⟩
    · have longer : recursive = rest :: sorted.recursive := by simp [recursive, alone]
      have all := List.forall_mem_cons.1 (longer ▸ hrecursive)
      exact ⟨List.forall_mem_cons.2 ⟨all.1, hpending⟩, hkept, all.2⟩
  | case6 sorted s rest pending unknown other ih =>
    obtain ⟨hpending, hkept, hrecursive⟩ := ih made
    rw [List.forall_mem_cons] at hkept
    exact ⟨List.forall_mem_cons.2 ⟨hkept.1, hpending⟩, hkept.2, hrecursive⟩

theorem sortOut_recursive_ne (made : sortOut limits done left pending sorted = .ok result)
    (ne : [] ∉ sorted.recursive) : [] ∉ result.recursive := by
  fun_induction sortOut limits done left pending sorted with
  | case1 sorted =>
    cases made
    exact ne
  | case2 sorted pending ih => exact ih made ne
  | case3 => cases made
  | case4 sorted s rest pending heads known total within ih => exact ih made ne
  | case5 sorted rest pending recursive unknown ih =>
    refine ih made ?_
    by_cases alone : rest = [] <;> simpa [recursive, alone] using ne
  | case6 sorted s rest pending unknown other ih => exact ih made ne

theorem mem_append_map {others : List Production} {rights : List (List Symbol)} {p : Production} :
    p ∈ others ++ rights.map (⟨left, ·⟩) ↔ p ∈ others ∨ ∃ right ∈ rights, p = ⟨left, right⟩ := by
  rw [List.mem_append, List.mem_map]
  simp only [eq_comm]

section Words

variable {others : List Production} {rights : List (List Symbol)} {total : Nat}
  (made : sortOut limits done left rights ⟨[], [], total⟩ = .ok result)
  (earlier : ∀ s heads, done[s]? = some heads →
    Symbol.isNonTerminal s ∧ s ≠ left ∧ ∀ right, ⟨s, right⟩ ∈ others ↔ right ∈ heads)

include made earlier

/-- Sorting out makes no new words, when `done` tells the productions of the earlier non-terminals. -/
theorem sorted_words_le :
    words (direct others left result.kept result.recursive) ≤ words (others ++ rights.map (⟨left, ·⟩)) := by
  set plainRules := others ++ rights.map (Production.mk left)
  have alternatives := sortOut_forward (P := fun right => (words plainRules).form right ≤ words plainRules left) made
    (fun s rest heads le known head mem => ?_) (fun right mem => ?_) (by simp) (by simp)
  · refine words_le ⟨fun a => singleton_mem_words, ?_⟩
    intro p mem
    rcases mem_direct.1 mem with mem | ⟨x, hx, rfl⟩ | ⟨x, hx, rfl⟩
    · exact words_closed.rule p (mem_append_map.2 (.inl mem))
    · exact alternatives.1 x hx
    · exact alternatives.2 x hx
  · have rule : ⟨s, head⟩ ∈ plainRules := mem_append_map.2 (.inl (((earlier s heads known).2.2 head).2 mem))
    refine le_trans ?_ le
    rw [Reading.form_append, Reading.form_cons]
    exact mul_le_mul' (form_le_words rule) le_rfl
  · exact form_le_words (mem_append_map.2 (.inr ⟨right, mem, rfl⟩))

/-- Sorting out loses no words. -/
theorem words_le_sorted :
    words (others ++ rights.map (⟨left, ·⟩)) ≤ words (direct others left result.kept result.recursive) := by
  set sortedRules := direct others left result.kept result.recursive
  have alternatives := sortOut_backward
    (P := fun right => (words sortedRules).form right ≤ words sortedRules left) made
    (fun s rest heads known le => ?_) ?_ (fun x hx => ?_) (fun x hx => ?_)
  · refine words_le ⟨fun a => singleton_mem_words, ?_⟩
    intro p mem
    rcases mem_append_map.1 mem with other | ⟨right, own, rfl⟩
    · exact words_closed.rule p (mem_direct.2 (.inl other))
    · exact alternatives.1 right own
  · -- a word of an earlier non-terminal comes from one of its alternatives
    obtain ⟨hs, ne, iff⟩ := earlier s heads known
    intro w hw
    obtain ⟨u, hu, v, hv, rfl⟩ := Reading.mem_form_cons.1 hw
    obtain ⟨head, rule, hu⟩ := (mem_words_iff hs).1 hu
    rcases mem_direct.1 rule with rule | ⟨x, -, eq⟩ | ⟨x, -, eq⟩
    · exact le head ((iff head).1 rule) (Reading.mem_form_append.2 ⟨u, hu, v, hv, rfl⟩)
    · exact absurd (congrArg Production.left eq) ne
    · exact absurd (congrArg Production.left eq) ne
  · rw [Reading.form_singleton]
  · exact form_le_words (mem_direct.2 (.inr (.inl ⟨x, hx, rfl⟩)))
  · exact form_le_words (mem_direct.2 (.inr (.inr ⟨x, hx, rfl⟩)))

theorem sortOut_words :
    words (direct others left result.kept result.recursive) = words (others ++ rights.map (⟨left, ·⟩)) :=
  le_antisymm (sorted_words_le made earlier) (words_le_sorted made earlier)

end Words

end SortOut

/-! ## One non-terminal after the other -/

section Run

variable {limits : Limits} {g h : Grammar} {u u' : Untangling} {p : Production} {left s : Symbol} {todo : List Symbol}
  {right w : List Symbol}

/-- the productions of a stage: those made, and the given ones of the non-terminals still to be dealt with -/
def Untangling.rules (u : Untangling) (g : Grammar) (todo : List Symbol) : List Production :=
  u.productions ++ g.rules.filter (·.left ∈ todo)

theorem Untangling.mem_productions : p ∈ u.productions ↔
    (∃ rights, u.done[p.left]? = some rights ∧ p.right ∈ rights) ∨
      ∃ rights, (p.left, rights) ∈ u.tails ∧ p.right ∈ rights := by
  simp only [productions, List.mem_flatMap, List.mem_append, ExtTreeMap.mem_toList_iff_getElem?_eq_some, List.mem_map,
    Prod.exists]
  constructor
  · rintro ⟨left, rights, known | known, right, mem, rfl⟩
    · exact .inl ⟨rights, known, mem⟩
    · exact .inr ⟨rights, known, mem⟩
  · rintro (⟨rights, known, mem⟩ | ⟨rights, known, mem⟩)
    · exact ⟨p.left, rights, .inl known, p.right, mem, rfl⟩
    · exact ⟨p.left, rights, .inr known, p.right, mem, rfl⟩

theorem Untangling.mem_rules : p ∈ u.rules g todo ↔ p ∈ u.productions ∨ p ∈ g.productions ∧ p.left ∈ todo := by
  simp [rules]

theorem Untangling.mem_made : p ∈ (g.withProductions (.ofList u.productions)).productions ↔ p ∈ u.rules g [] := by
  simp [Grammar.withProductions, rules]

/-- What a step does: it sorts the alternatives out, and turns direct recursion to the right if there is any. -/
theorem Untangling.step_cases {rights : List (List Symbol)} (made : u.step limits left rights = .ok u') :
    ∃ sorted, sortOut limits u.done left rights ⟨[], [], u.total⟩ = .ok sorted ∧
      ((sorted.recursive = [] ∧
        u' = ⟨u.done.insert left (FiniteSet.ofList sorted.kept).toList, u.tails, u.supply, sorted.total⟩) ∨
      (sorted.recursive ≠ [] ∧ ∃ tail supply total, u.supply.draw = .ok (tail, supply) ∧ limits.check total = .ok () ∧
        u' = ⟨u.done.insert left (FiniteSet.ofList (withTail tail sorted.kept)).toList,
          (tail, withTail tail sorted.recursive) :: u.tails, supply, total⟩)) := by
  simp only [Untangling.step, bind, Except.bind, pure, Except.pure] at made
  cases sort : sortOut limits u.done left rights ⟨[], [], u.total⟩ with
  | error e => simp [sort] at made
  | ok sorted =>
  refine ⟨sorted, rfl, ?_⟩
  simp only [sort] at made
  split at made
  · rename_i none
    simp only [Except.ok.injEq] at made
    exact .inl ⟨List.isEmpty_iff.1 none, made.symm⟩
  · rename_i some
    cases drawn : u.supply.draw with
    | error e => simp [drawn] at made
    | ok result =>
    obtain ⟨tail, supply⟩ := result
    simp only [drawn] at made
    split at made
    · cases made
    · rename_i within
      simp only [Except.ok.injEq] at made
      exact .inr ⟨fun none => some (List.isEmpty_iff.2 none), tail, supply, _, rfl, within, made.symm⟩

/-- The symbol stands on a right side, or it is a letter drawn so far. -/
def Untangling.Uses (u : Untangling) (g : Grammar) (s : Symbol) : Prop :=
  (∃ q ∈ g.productions, s ∈ q.right) ∨ s ∈ g.supply.free ∧ s ∉ u.supply.free

/-- what holds at every stage of the removal -/
structure Untangled (g : Grammar) (u : Untangling) (todo : List Symbol) : Prop where
  pending : ∀ s ∈ todo, Symbol.isNonTerminal s ∧ s ∉ g.supply.free ∧ u.done[s]? = none
  dealt : ∀ s rights, u.done[s]? = some rights → Symbol.isNonTerminal s ∧ s ∉ g.supply.free
  tails : ∀ t ∈ u.tails, t.1 ∈ g.supply.free ∧ t.1 ∉ u.supply.free
  supply : ∀ a ∈ u.supply.free, a ∈ g.supply.free
  nodup : u.supply.free.Nodup
  uses : ∀ p ∈ u.rules g todo, ∀ s ∈ p.right, u.Uses g s
  /-- No production has become empty. -/
  empty : ∀ p ∈ u.rules g todo, p.right = [] → p ∈ g.productions
  words_eq : ∀ s ∉ g.supply.free, words (u.rules g todo) s = words g.rules s

namespace Untangled

theorem left_ne (inv : Untangled g u (left :: todo)) (nodup : (left :: todo).Nodup) (mem : p ∈ u.rules g todo) :
    p.left ≠ left := by
  rintro rfl
  obtain ⟨-, old, unknown⟩ := inv.pending _ List.mem_cons_self
  rcases Untangling.mem_rules.1 mem with made | ⟨-, later⟩
  · rcases Untangling.mem_productions.1 made with ⟨rights, known, -⟩ | ⟨rights, known, -⟩
    · cases unknown.symm.trans known
    · exact old (inv.tails _ known).1
  · exact (List.nodup_cons.1 nodup).1 later

theorem earlier (inv : Untangled g u (left :: todo)) (heads : List (List Symbol)) (known : u.done[s]? = some heads) :
    Symbol.isNonTerminal s ∧ s ≠ left ∧ ∀ right, ⟨s, right⟩ ∈ u.rules g todo ↔ right ∈ heads := by
  obtain ⟨hs, old⟩ := inv.dealt s heads known
  refine ⟨hs, ?_, fun right => ⟨?_, ?_⟩⟩
  · rintro rfl
    cases (inv.pending _ List.mem_cons_self).2.2.symm.trans known
  · intro mem
    rcases Untangling.mem_rules.1 mem with made | ⟨-, later⟩
    · rcases Untangling.mem_productions.1 made with ⟨rights, also, mem⟩ | ⟨rights, also, -⟩
      · cases also.symm.trans known
        exact mem
      · exact absurd (inv.tails _ also).1 old
    · cases (inv.pending s (List.mem_cons_of_mem _ later)).2.2.symm.trans known
  · intro mem
    exact Untangling.mem_rules.2 (.inl (Untangling.mem_productions.2 (.inl ⟨heads, known, mem⟩)))

theorem mem_rules_cons : p ∈ u.rules g (left :: todo) ↔ p ∈ u.rules g todo ∨ p.left = left ∧ p ∈ g.productions := by
  rw [Untangling.mem_rules, Untangling.mem_rules, List.mem_cons, and_or_left, or_comm (a := _ ∧ _ = left), or_assoc,
    and_comm (b := _ = left)]

theorem not_uses (confined : g.EpsilonConfined) (mem : ⟨s, []⟩ ∈ g.productions) : ¬ u.Uses g s := by
  obtain ⟨rfl, free⟩ := confined _ mem rfl
  rintro (⟨q, hq, used⟩ | ⟨drawn, -⟩)
  · exact free q hq used
  · exact (fresh_of_mem_supply drawn).2.2.1 rfl

variable {sorted : Alternatives} {total : Nat}

theorem head_shape (inv : Untangled g u (left :: todo)) (confined : g.EpsilonConfined) {heads : List (List Symbol)}
    {head : List Symbol} (known : u.done[s]? = some heads) (mem : head ∈ heads) (used : u.Uses g s) :
    head ≠ [] ∧ ∀ t ∈ head, u.Uses g t := by
  have rule : ⟨s, head⟩ ∈ u.rules g (left :: todo) :=
    mem_rules_cons.2 (.inl (((inv.earlier heads known).2.2 head).2 mem))
  refine ⟨?_, inv.uses _ rule⟩
  rintro rfl
  exact not_uses confined (inv.empty _ rule rfl) used

/-- Sorting out uses no new symbol and makes no production empty. -/
theorem sorted_shape (inv : Untangled g u (left :: todo)) (confined : g.EpsilonConfined)
    (made : sortOut limits u.done left (g.rightsOf left) ⟨[], [], total⟩ = .ok sorted) :
    ∀ p ∈ direct (u.rules g todo) left sorted.kept sorted.recursive,
      (∀ s ∈ p.right, u.Uses g s) ∧ (p.right = [] → p ∈ g.productions) := by
  have alternatives := sortOut_forward made
    (P := fun right => (∀ s ∈ right, u.Uses g s) ∧ (right = [] → ⟨left, []⟩ ∈ g.productions))
    (fun s rest heads shape known head mem => ?_) (fun right mem => ?_) (by simp) (by simp)
  · intro p mem
    rcases mem_direct.1 mem with mem | ⟨x, hx, rfl⟩ | ⟨x, hx, rfl⟩
    · have mem : p ∈ u.rules g (left :: todo) := mem_rules_cons.2 (.inl mem)
      exact ⟨inv.uses p mem, inv.empty p mem⟩
    · obtain ⟨uses, empty⟩ := alternatives.1 x hx
      exact ⟨uses, fun nil => by simpa [show x = [] from nil] using empty nil⟩
    · exact ⟨(alternatives.2 x hx).1, fun nil => absurd nil (List.cons_ne_nil left x)⟩
  · obtain ⟨used, others⟩ := List.forall_mem_cons.1 shape.1
    obtain ⟨ne, uses⟩ := inv.head_shape confined known mem used
    exact ⟨List.forall_mem_append.2 ⟨uses, others⟩, fun nil => absurd (List.append_eq_nil_iff.1 nil).1 ne⟩
  · rw [mem_rightsOf] at mem
    exact ⟨fun s hs => .inl ⟨_, mem, hs⟩, fun nil => nil ▸ mem⟩

/-- Sorting out leaves the words of every symbol, the letters drawn so far included. -/
theorem sorted_words (inv : Untangled g u (left :: todo))
    (made : sortOut limits u.done left (g.rightsOf left) ⟨[], [], total⟩ = .ok sorted) :
    words (direct (u.rules g todo) left sorted.kept sorted.recursive) = words (u.rules g (left :: todo)) := by
  rw [sortOut_words made fun s heads => inv.earlier heads]
  refine words_congr fun p => ?_
  rw [mem_rules_cons, mem_append_map]
  refine or_congr_right ⟨?_, ?_⟩
  · rintro ⟨right, mem, rfl⟩
    exact ⟨rfl, mem_rightsOf.1 mem⟩
  · rintro ⟨rfl, mem⟩
    exact ⟨p.right, mem_rightsOf.2 mem, rfl⟩

theorem not_uses_of_free (ha : s ∈ u.supply.free) (sub : ∀ a ∈ u.supply.free, a ∈ g.supply.free) : ¬ u.Uses g s := by
  rintro (⟨q, hq, used⟩ | ⟨-, spent⟩)
  · exact (fresh_of_mem_supply (sub s ha)).2.1 (mem_symbols.2 ⟨q, hq, .inr used⟩)
  · exact spent ha

theorem left_not_free (inv : Untangled g u (left :: todo)) (mem : p ∈ u.rules g todo) : p.left ∉ u.supply.free := by
  intro free
  rcases Untangling.mem_rules.1 mem with made | ⟨-, later⟩
  · rcases Untangling.mem_productions.1 made with ⟨rights, known, -⟩ | ⟨rights, known, -⟩
    · exact (inv.dealt _ rights known).2 (inv.supply _ free)
    · exact (inv.tails _ known).2 free
  · exact (inv.pending _ (List.mem_cons_of_mem _ later)).2.1 (inv.supply _ free)

/-- Direct recursion can be turned with any letter that is left. -/
theorem turnable (inv : Untangled g u (left :: todo)) (nodup : (left :: todo).Nodup) (confined : g.EpsilonConfined)
    (made : sortOut limits u.done left (g.rightsOf left) ⟨[], [], total⟩ = .ok sorted)
    (some : sorted.recursive ≠ []) {tail : Symbol} (free : tail ∈ u.supply.free) :
    Turnable (u.rules g todo) left tail sorted.kept sorted.recursive := by
  obtain ⟨hleft, old, -⟩ := inv.pending left List.mem_cons_self
  have shape := inv.sorted_shape confined made
  have ne : tail ≠ left := fun eq => old (eq ▸ inv.supply tail free)
  refine ⟨hleft, (fresh_of_mem_supply (inv.supply tail free)).1, ne, fun p mem => ⟨?_, ?_⟩,
    fun p => inv.left_ne nodup, ?_, sortOut_recursive_ne made List.not_mem_nil⟩
  · intro eq
    rcases mem_direct.1 mem with mem | ⟨x, -, rfl⟩ | ⟨x, -, rfl⟩
    · exact inv.left_not_free mem (eq ▸ free)
    · exact ne eq.symm
    · exact ne eq.symm
  · intro used
    exact not_uses_of_free free inv.supply ((shape p mem).1 tail used)
  · intro nil
    -- an empty alternative and direct recursion exclude each other
    obtain ⟨x, rest, eq⟩ := List.exists_cons_of_ne_nil some
    have empty := (shape ⟨left, []⟩ (mem_direct.2 (.inr (.inl ⟨[], nil, rfl⟩)))).2 rfl
    have loop : ⟨left, left :: x⟩ ∈ direct (u.rules g todo) left sorted.kept sorted.recursive :=
      mem_direct.2 (.inr (.inr ⟨x, eq ▸ List.mem_cons_self, rfl⟩))
    exact not_uses confined empty ((shape _ loop).1 left List.mem_cons_self)

/-- The productions after a step: those of the others, the final alternatives of the non-terminal, and new tails. -/
theorem mem_rules_insert (inv : Untangled g u (left :: todo))
    {rights : List (List Symbol)} (tails : List (Symbol × List (List Symbol))) {supply : Supply} :
    p ∈ Untangling.rules ⟨u.done.insert left (FiniteSet.ofList rights).toList, tails ++ u.tails, supply, total⟩ g todo ↔
      p ∈ u.rules g todo ∨ (∃ x ∈ rights, p = ⟨left, x⟩) ∨
        ∃ alternatives, (p.left, alternatives) ∈ tails ∧ p.right ∈ alternatives := by
  have found : (∃ x ∈ rights, p = ⟨left, x⟩) ↔ p.left = left ∧ p.right ∈ rights := by
    constructor
    · rintro ⟨x, hx, rfl⟩
      exact ⟨rfl, hx⟩
    · rintro ⟨rfl, hx⟩
      exact ⟨p.right, hx, rfl⟩
  rw [found, Untangling.mem_rules, Untangling.mem_rules, Untangling.mem_productions, Untangling.mem_productions]
  have unknown := (inv.pending left List.mem_cons_self).2.2
  have look : (∃ alternatives, (u.done.insert left (FiniteSet.ofList rights).toList)[p.left]? = some alternatives ∧
      p.right ∈ alternatives) ↔ (∃ alternatives, u.done[p.left]? = some alternatives ∧ p.right ∈ alternatives) ∨
        p.left = left ∧ p.right ∈ rights := by
    by_cases own : p.left = left
    · simp [own, unknown, Std.ExtTreeSet.mem_toList]
    · simp [ExtTreeMap.getElem?_insert, own, Ne.symm own]
  have tail : (∃ alternatives, (p.left, alternatives) ∈ tails ++ u.tails ∧ p.right ∈ alternatives) ↔
      (∃ alternatives, (p.left, alternatives) ∈ tails ∧ p.right ∈ alternatives) ∨
        ∃ alternatives, (p.left, alternatives) ∈ u.tails ∧ p.right ∈ alternatives := by
    simp only [List.mem_append, or_and_right, exists_or]
  rw [look, tail]
  exact Iff.of_eq (by ac_rfl)

theorem mem_rules_plain (inv : Untangled g u (left :: todo)) (none : sorted.recursive = []) :
    p ∈ Untangling.rules ⟨u.done.insert left (FiniteSet.ofList sorted.kept).toList, u.tails, u.supply, total⟩ g todo ↔
      p ∈ direct (u.rules g todo) left sorted.kept sorted.recursive := by
  rw [mem_direct, none]
  exact (inv.mem_rules_insert []).trans (by simp)

/-- The productions after a step with direct recursion are those with the recursion turned. -/
theorem mem_rules_turned (inv : Untangled g u (left :: todo)) {tail : Symbol} {supply : Supply} :
    p ∈ Untangling.rules ⟨u.done.insert left (FiniteSet.ofList (withTail tail sorted.kept)).toList,
        (tail, withTail tail sorted.recursive) :: u.tails, supply, total⟩ g todo ↔
      p ∈ turned (u.rules g todo) left tail sorted.kept sorted.recursive := by
  rw [mem_turned]
  apply (inv.mem_rules_insert [(tail, withTail tail sorted.recursive)]).trans
  refine or_congr_right (or_congr_right ⟨?_, ?_⟩)
  · rintro ⟨alternatives, one, mem⟩
    cases List.mem_singleton.1 one
    exact ⟨p.right, mem, rfl⟩
  · rintro ⟨x, mem, rfl⟩
    exact ⟨_, List.mem_singleton_self _, mem⟩

/-- A step leaves the other non-terminals as they are. -/
theorem of_rules (inv : Untangled g u (left :: todo)) (nodup : (left :: todo).Nodup) {rights : List (List Symbol)}
    (tails : List (Symbol × List (List Symbol))) {supply : Supply}
    (new : ∀ t ∈ tails, t.1 ∈ g.supply.free ∧ t.1 ∉ supply.free) (sub : supply.free.Sublist u.supply.free)
    (stage : ∀ p, p ∈ u'.rules g todo → (∀ s ∈ p.right, u'.Uses g s) ∧ (p.right = [] → p ∈ g.productions))
    (same : ∀ s ∉ g.supply.free, words (u'.rules g todo) s = words g.rules s)
    (eq : u' = ⟨u.done.insert left (FiniteSet.ofList rights).toList, tails ++ u.tails, supply, total⟩) :
    Untangled g u' todo := by
  obtain ⟨hleft, old, -⟩ := inv.pending left List.mem_cons_self
  subst eq
  refine ⟨?_, ?_, ?_, ?_, inv.nodup.sublist sub,
    fun p mem => (stage p mem).1, fun p mem => (stage p mem).2, same⟩
  · intro s hs
    obtain ⟨hs', old', unknown⟩ := inv.pending s (List.mem_cons_of_mem _ hs)
    have ne : left ≠ s := fun eq => (List.nodup_cons.1 nodup).1 (eq ▸ hs)
    refine ⟨hs', old', ?_⟩
    rw [ExtTreeMap.getElem?_insert, if_neg (by simpa using ne)]
    exact unknown
  · intro s alternatives known
    rw [ExtTreeMap.getElem?_insert] at known
    split at known
    · rename_i eq
      obtain rfl : left = s := Std.LawfulEqCmp.eq_of_compare eq
      exact ⟨hleft, old⟩
    · exact inv.dealt s alternatives known
  · intro t ht
    rcases List.mem_append.1 ht with ht | ht
    · exact new t ht
    · exact ⟨(inv.tails t ht).1, fun free => (inv.tails t ht).2 (sub.subset free)⟩
  · exact fun a ha => inv.supply a (sub.subset ha)

/-- A step without direct recursion keeps the invariant: the sorted alternatives are final. -/
theorem step_plain (inv : Untangled g u (left :: todo)) (nodup : (left :: todo).Nodup) (confined : g.EpsilonConfined)
    (sort : sortOut limits u.done left (g.rightsOf left) ⟨[], [], u.total⟩ = .ok sorted)
    (none : sorted.recursive = []) :
    Untangled g ⟨u.done.insert left (FiniteSet.ofList sorted.kept).toList, u.tails, u.supply, sorted.total⟩ todo := by
  set u' : Untangling := ⟨_, u.tails, u.supply, sorted.total⟩ with made
  have stage : ∀ p, p ∈ u'.rules g todo ↔ p ∈ direct (u.rules g todo) left sorted.kept sorted.recursive := fun p =>
    inv.mem_rules_plain none
  refine inv.of_rules nodup [] (by simp) (List.Sublist.refl _) ?_ ?_ made
  · intro p mem
    exact inv.sorted_shape confined sort p ((stage p).1 mem)
  · intro s hs
    rw [words_congr stage, inv.sorted_words sort, inv.words_eq s hs]

/-- A step with direct recursion keeps the invariant: it turns the recursion to the right with a drawn letter. -/
theorem step_turned (inv : Untangled g u (left :: todo)) (nodup : (left :: todo).Nodup) (confined : g.EpsilonConfined)
    (sort : sortOut limits u.done left (g.rightsOf left) ⟨[], [], u.total⟩ = .ok sorted)
    (some : sorted.recursive ≠ []) {tail : Symbol} {supply : Supply} (drawn : u.supply.draw = .ok (tail, supply)) :
    Untangled g ⟨u.done.insert left (FiniteSet.ofList (withTail tail sorted.kept)).toList,
      (tail, withTail tail sorted.recursive) :: u.tails, supply, total⟩ todo := by
  set u' : Untangling := ⟨_, (tail, withTail tail sorted.recursive) :: u.tails, supply, total⟩ with made
  have free : u.supply.free = tail :: supply.free := Supply.free_of_draw drawn
  have htail : tail ∈ g.supply.free := inv.supply tail (free ▸ List.mem_cons_self)
  have spent : tail ∉ supply.free := (List.nodup_cons.1 (free ▸ inv.nodup)).1
  have sub : supply.free.Sublist u.supply.free := free ▸ List.sublist_cons_self tail supply.free
  have turnable := inv.turnable nodup confined sort some (free ▸ List.mem_cons_self)
  have stage : ∀ p, p ∈ u'.rules g todo ↔
      p ∈ turned (u.rules g todo) left tail sorted.kept sorted.recursive := fun p => inv.mem_rules_turned
  have uses : ∀ s, u.Uses g s ∨ s = tail → u'.Uses g s := by
    rintro s ((right | ⟨old, gone⟩) | rfl)
    · exact .inl right
    · exact .inr ⟨old, fun later => gone (sub.subset later)⟩
    · exact .inr ⟨htail, spent⟩
  refine inv.of_rules nodup [(tail, withTail tail sorted.recursive)] ?_ sub ?_ ?_ made
  · intro t ht
    obtain rfl := List.mem_singleton.1 ht
    exact ⟨htail, spent⟩
  · intro p mem
    have shape := inv.sorted_shape confined sort
    obtain ⟨symbols, empty⟩ := turnable.shape ((stage p).1 mem)
    refine ⟨fun s hs => uses s ?_, fun nil => (shape p (empty nil)).2 nil⟩
    rcases symbols s hs with rfl | ⟨q, hq, used⟩
    · exact .inr rfl
    · exact .inl ((shape q hq).1 s used)
  · intro s hs
    have ne : s ≠ tail := fun eq => hs (eq ▸ htail)
    rw [words_congr stage, turnable.turned_words ne, inv.sorted_words sort, inv.words_eq s hs]

/-- **One step** of the removal keeps the invariant. -/
theorem step (inv : Untangled g u (left :: todo)) (nodup : (left :: todo).Nodup) (confined : g.EpsilonConfined)
    (made : u.step limits left (g.rightsOf left) = .ok u') : Untangled g u' todo := by
  obtain ⟨sorted, sort, ⟨none, rfl⟩ | ⟨some, tail, supply, total, drawn, -, rfl⟩⟩ := Untangling.step_cases made
  · exact inv.step_plain nodup confined sort none
  · exact inv.step_turned nodup confined sort some drawn

/-- **A run** of the removal keeps the invariant. -/
theorem run (inv : Untangled g u todo) (nodup : todo.Nodup) (confined : g.EpsilonConfined)
    (made : u.run limits g.rightsOf todo = .ok u') : Untangled g u' [] := by
  induction todo generalizing u with
  | nil =>
    cases made
    exact inv
  | cons left todo ih =>
    obtain ⟨next, first, made⟩ := exists_of_bind made
    exact ih (inv.step nodup confined first) (List.nodup_cons.1 nodup).2 made

end Untangled

theorem nodup_lefts : g.lefts.Nodup := by
  have nodup : (FiniteSet.ofList (g.rules.map (·.left))).toList.Nodup := FiniteSet.nodup_toList
  simp only [lefts]
  split
  · exact List.nodup_cons.2 ⟨fun mem => (nodup.mem_erase_iff.1 mem).1 rfl, nodup.erase _⟩
  · exact nodup

/-- The removal starts with the invariant. -/
theorem untangled_start (wf : g.WellFormed) {total : Nat} : Untangled g { supply := g.supply, total } g.lefts := by
  have stage : ∀ p, p ∈ Untangling.rules { supply := g.supply, total } g g.lefts ↔ p ∈ g.rules := by
    intro p
    rw [Untangling.mem_rules, Untangling.mem_productions, mem_rules]
    have known : p ∈ g.productions → p.left ∈ g.lefts := fun mem => mem_lefts.2 ⟨p.right, mem⟩
    simpa using known
  refine ⟨?_, by simp, by simp, fun _ => id, Supply.nodup_avoiding, ?_, ?_,
    fun s _ => by rw [words_congr stage]⟩
  · intro s hs
    obtain ⟨right, mem⟩ := mem_lefts.1 hs
    refine ⟨wf.left_nonTerminal _ mem, fun free => ?_, by simp⟩
    exact (fresh_of_mem_supply free).2.1 (mem_symbols.2 ⟨_, mem, .inl rfl⟩)
  · intro p mem s hs
    exact .inl ⟨p, mem_rules.1 ((stage p).1 mem), hs⟩
  · intro p mem _
    exact mem_rules.1 ((stage p).1 mem)

theorem run_of_removeLeftRecursion (made : g.removeLeftRecursion limits = .ok h) :
    ∃ u, Untangling.run limits g.rightsOf { supply := g.supply, total := g.productions.size } g.lefts = .ok u ∧
      h = g.withProductions (.ofList u.productions) := by
  obtain ⟨u, run, made⟩ := exists_of_bind made
  cases made
  exact ⟨u, run, rfl⟩

theorem removeLeftRecursion_start (made : g.removeLeftRecursion limits = .ok h) : h.start = g.start := by
  obtain ⟨u, -, rfl⟩ := run_of_removeLeftRecursion made
  rfl

/-- **Removal of left recursion** keeps the language, and empty right sides stay confined. -/
theorem removeLeftRecursion_spec (wf : g.WellFormed) (confined : g.EpsilonConfined)
    (made : g.removeLeftRecursion limits = .ok h) :
    h.WellFormed ∧ h.EpsilonConfined ∧ ∀ w, h.Generates w ↔ g.Generates w := by
  obtain ⟨u, eq, made⟩ := run_of_removeLeftRecursion made
  have inv := (untangled_start wf).run nodup_lefts confined eq
  have stage : ∀ p, p ∈ h.productions ↔ p ∈ u.rules g [] := fun p => made ▸ Untangling.mem_made
  have start : h.start = g.start := by rw [made]; rfl
  have unused : g.start ∉ g.supply.free := fun free => (fresh_of_mem_supply free).2.2.1 rfl
  refine ⟨?_, ?_, ?_⟩
  · rw [made]
    apply wf.withProductions
    intro p mem
    have mem : p ∈ u.rules g [] := (stage p).1 (made ▸ mem)
    refine ⟨?_, ?_⟩
    · rcases Untangling.mem_rules.1 mem with mem | ⟨-, later⟩
      · rcases Untangling.mem_productions.1 mem with ⟨rights, known, -⟩ | ⟨rights, known, -⟩
        · exact (inv.dealt _ rights known).1
        · exact (fresh_of_mem_supply (inv.tails _ known).1).1
      · exact absurd later List.not_mem_nil
    · intro used
      rcases inv.uses p mem _ used with ⟨q, hq, used⟩ | ⟨drawn, -⟩
      · exact wf.epsilon_not_right q hq used
      · exact (fresh_of_mem_supply drawn).2.2.2 rfl
  · intro p mem nil
    have old := inv.empty p ((stage p).1 mem) nil
    obtain ⟨left, free⟩ := confined p old nil
    refine ⟨left.trans start.symm, fun q mem used => ?_⟩
    rw [start] at used
    rcases inv.uses q ((stage q).1 mem) _ used with ⟨r, hr, used⟩ | ⟨drawn, -⟩
    · exact free r hr used
    · exact unused drawn
  · intro w
    have same : words h.rules g.start = words g.rules g.start := by
      rw [← inv.words_eq _ unused]
      exact congrFun (words_congr fun p => by rw [Grammar.mem_rules, stage]) _
    rw [generates_iff, generates_iff, start, same]

theorem stages_of_eliminateLeftRecursion (rule : g.hasStartRule) (made : g.eliminateLeftRecursion limits = .ok h) :
    ∃ k, g.proper = .ok k ∧ k.removeLeftRecursion limits = .ok h := by
  rw [eliminateLeftRecursion, if_pos rule] at made
  exact exists_of_bind made

end Run

end ContextFree.Grammar
