import Mathlib.Data.Finset.Card
import Mathlib.Logic.Relation
import ContextFree.Search

/-!
The breadth-first search finds what can be reached, no less and no more. The bound on the levels is no restriction as
soon as it is at least the size of a world, a list that holds the starting values and all successors of its members:
a level that is not empty uses up at least one value of the world.

- `mem_discover`, `mem_reach`: what the search finds;
- `mem_numbered`: how the successors are named by position.
-/

namespace ContextFree.Search

open Std Relation

variable {α β : Type} {next : α → List (β × α)} {level : List α} {a b : α}

/-- the second value is a successor of the first -/
def Follows (next : α → List (β × α)) (a b : α) : Prop := ∃ label, (label, b) ∈ next a

/-- the successors of all values of a level -/
def beyond (next : α → List (β × α)) (level : List α) : List α := level.flatMap fun a => (next a).map Prod.snd

theorem mem_beyond : b ∈ beyond next level ↔ ∃ a ∈ level, Follows next a b := by
  simp [beyond, Follows]

theorem card_filter_lt {world : Finset α} {P Q : α → Prop} [DecidablePred P] [DecidablePred Q] (less : ∀ a, Q a → P a)
    (mem : a ∈ world) (old : P a) (gone : ¬ Q a) : (world.filter Q).card < (world.filter P).card := by
  apply Finset.card_lt_card
  rw [Finset.ssubset_iff_of_subset (Finset.monotone_filter_right world fun c _ => less c)]
  exact ⟨a, Finset.mem_filter.2 ⟨mem, old⟩, fun h => gone (Finset.mem_filter.1 h).2⟩

variable [Ord α] [TransOrd α] {bound : Nat} {seen : FiniteSet α}

/-- the values that the levels from `level` on hold -/
def explored (next : α → List (β × α)) (bound : Nat) (seen : FiniteSet α) (level : List α) : List α :=
  (explore next bound seen level).map Prod.fst

theorem explore_succ :
    explore next (bound + 1) seen level = level.map (fun a => (a, next a)) ++
      explore next bound (unseen seen (beyond next level)).2 (unseen seen (beyond next level)).1 := by
  cases level with
  | nil => cases bound <;> simp [explore, beyond, unseen]
  | cons a level =>
    simp only [explore]
    rw [show (((a :: level).map fun a => (a, next a)).flatMap fun row => row.2.map Prod.snd) =
      beyond next (a :: level) by rw [List.flatMap_map]; rfl]

theorem explored_succ :
    explored next (bound + 1) seen level = level ++
      explored next bound (unseen seen (beyond next level)).2 (unseen seen (beyond next level)).1 := by
  simp [explored, explore_succ, Function.comp_def]

theorem snd_of_mem_explore {row : α × List (β × α)} (h : row ∈ explore next bound seen level) :
    row.2 = next row.1 := by
  induction bound generalizing seen level with
  | zero => simp [explore] at h
  | succ bound ih =>
    rw [explore_succ] at h
    rcases List.mem_append.1 h with h | h
    · obtain ⟨a, -, rfl⟩ := List.mem_map.1 h
      rfl
    · exact ih h

variable [LawfulEqOrd α]

/-- What the search finds can be reached. -/
theorem reached_of_mem_explored (h : b ∈ explored next bound seen level) :
    ∃ a ∈ level, ReflTransGen (Follows next) a b := by
  induction bound generalizing seen level with
  | zero => simp [explored, explore] at h
  | succ bound ih =>
    rw [explored_succ] at h
    rcases List.mem_append.1 h with h | h
    · exact ⟨b, h, .refl⟩
    · obtain ⟨a, ha, hab⟩ := ih h
      obtain ⟨c, hc, hca⟩ := mem_beyond.1 (mem_unseen_fst.1 ha).1
      exact ⟨c, hc, .head hca hab⟩

/-- how much of a world is still unseen -/
def unseenIn (world : Finset α) (seen : FiniteSet α) : Nat := (world.filter (· ∉ seen)).card

theorem unseenIn_lt {world : Finset α} {l : List α} (seen : FiniteSet α) (sub : ∀ a ∈ l, a ∈ world)
    (fresh : (unseen seen l).1 ≠ []) : unseenIn world (unseen seen l).2 < unseenIn world seen := by
  obtain ⟨a, ha⟩ := List.exists_mem_of_ne_nil _ fresh
  obtain ⟨hal, has⟩ := mem_unseen_fst.1 ha
  refine card_filter_lt (fun c hc old => hc (mem_unseen_snd.2 (.inl old))) (sub a hal) has ?_
  exact fun absent => absent (mem_unseen_snd.2 (.inr hal))

/-- The search stands at a level: it is part of the world and was seen already, and only its values may still have
unseen successors. -/
structure Frontier (next : α → List (β × α)) (world : Finset α) (seen : FiniteSet α) (level : List α) : Prop where
  inside : ∀ a ∈ level, a ∈ world
  sub : ∀ a ∈ level, a ∈ seen
  old : ∀ a ∈ seen, a ∉ level → ∀ b, Follows next a b → b ∈ seen

theorem seen_or_fresh {l : List α} (h : a ∈ (unseen seen l).2) : a ∈ seen ∨ a ∈ (unseen seen l).1 := by
  by_cases old : a ∈ seen
  · exact .inl old
  · exact .inr (mem_unseen_fst.2 ⟨(mem_unseen_snd.1 h).resolve_left old, old⟩)

section

variable {world : Finset α} (closed : ∀ a ∈ world, ∀ b, Follows next a b → b ∈ world)

include closed

omit [LawfulEqOrd α] in
theorem Frontier.beyond_inside (h : Frontier next world seen level) : ∀ a ∈ beyond next level, a ∈ world := by
  intro a ha
  obtain ⟨c, hc, hca⟩ := mem_beyond.1 ha
  exact closed c (h.inside c hc) a hca

theorem Frontier.advance (h : Frontier next world seen level) :
    Frontier next world (unseen seen (beyond next level)).2 (unseen seen (beyond next level)).1 where
  inside a ha := h.beyond_inside closed a (mem_unseen_fst.1 ha).1
  sub a ha := mem_unseen_snd.2 (.inr (mem_unseen_fst.1 ha).1)
  old := by
    intro a ha hna b hab
    have has : a ∈ seen := (seen_or_fresh ha).resolve_right hna
    by_cases hal : a ∈ level
    · exact mem_unseen_snd.2 (.inr (mem_beyond.2 ⟨a, hal, hab⟩))
    · exact mem_unseen_snd.2 (.inl (h.old a has hal b hab))

/-- A level beyond which there is something new takes one off the count of what is unseen. -/
theorem Frontier.unseenIn_advance (h : Frontier next world seen level)
    (enough : level ≠ [] → unseenIn world seen < bound + 1)
    (fresh : (unseen seen (beyond next level)).1 ≠ []) :
    unseenIn world (unseen seen (beyond next level)).2 < bound := by
  have nonempty : level ≠ [] := by
    rintro rfl
    exact fresh (by simp [beyond, unseen])
  have := unseenIn_lt seen (h.beyond_inside closed) fresh
  have := enough nonempty
  omega

/-- The search ends with a closed set: with all values seen before, it holds its level and every successor of its
members. -/
theorem Frontier.explored_closed (bound : Nat) (h : Frontier next world seen level)
    (enough : level ≠ [] → unseenIn world seen < bound) :
    (∀ a ∈ level, a ∈ explored next bound seen level) ∧
      ∀ a, a ∈ seen ∨ a ∈ explored next bound seen level →
        ∀ b, Follows next a b → b ∈ seen ∨ b ∈ explored next bound seen level := by
  induction bound generalizing seen level with
  | zero =>
    have empty : level = [] := by
      by_contra nonempty
      exact absurd (enough nonempty) (Nat.not_lt_zero _)
    subst empty
    refine ⟨fun a ha => absurd ha List.not_mem_nil, ?_⟩
    rintro a (ha | ha) b hab
    · exact .inl (h.old a ha List.not_mem_nil b hab)
    · simp [explored, explore] at ha
  | succ bound ih =>
    obtain ⟨fresh, all⟩ := ih (h.advance closed) (h.unseenIn_advance closed enough)
    rw [explored_succ]
    refine ⟨fun a ha => List.mem_append_left _ ha, ?_⟩
    intro a ha b hab
    -- what was seen before the level is seen after it, so the closedness of the later levels applies
    have later : a ∈ (unseen seen (beyond next level)).2 ∨
        a ∈ explored next bound (unseen seen (beyond next level)).2 (unseen seen (beyond next level)).1 := by
      rcases ha with ha | ha
      · exact .inl (mem_unseen_snd.2 (.inl ha))
      · rcases List.mem_append.1 ha with ha | ha
        · exact .inl (mem_unseen_snd.2 (.inl (h.sub a ha)))
        · exact .inr ha
    rcases all a later b hab with hb | hb
    · rcases seen_or_fresh hb with hb | hb
      · exact .inl hb
      · exact .inr (List.mem_append_right _ (fresh b hb))
    · exact .inr (List.mem_append_right _ hb)

end

variable {starts : List α}

/-- **The search is exact**: within a world that is closed under successors and no larger than the bound, it finds the
values that can be reached from the starting values, each with its successors. -/
theorem mem_discover (world : List α) (closed : ∀ a ∈ world, ∀ b, Follows next a b → b ∈ world)
    (inside : ∀ a ∈ starts, a ∈ world) (enough : world.length ≤ bound) {row : List (β × α)} :
    (b, row) ∈ discover next bound starts ↔ row = next b ∧ ∃ a ∈ starts, ReflTransGen (Follows next) a b := by
  classical
  have values : b ∈ explored next bound (unseen ∅ starts).2 (unseen ∅ starts).1 ↔
      ∃ a ∈ starts, ReflTransGen (Follows next) a b := by
    constructor
    · intro h
      obtain ⟨a, ha, hab⟩ := reached_of_mem_explored h
      exact ⟨a, (mem_unseen_fst.1 ha).1, hab⟩
    · rintro ⟨a, ha, hab⟩
      have start : ∀ c ∈ (unseen ∅ starts).2, c ∈ (unseen ∅ starts).1 := fun c hc =>
        (seen_or_fresh hc).resolve_left (by simp)
      have frontier : Frontier next world.toFinset (unseen ∅ starts).2 (unseen ∅ starts).1 :=
        { inside := fun a ha => List.mem_toFinset.2 (inside a (mem_unseen_fst.1 ha).1)
          sub := fun a ha => mem_unseen_snd.2 (.inr (mem_unseen_fst.1 ha).1)
          old := fun c hc hn => absurd (start c hc) hn }
      have few : (unseen ∅ starts).1 ≠ [] → unseenIn world.toFinset (unseen ∅ starts).2 < bound := by
        intro nonempty
        have less := unseenIn_lt ∅ (fun a ha => List.mem_toFinset.2 (inside a ha)) nonempty
        have all : unseenIn world.toFinset (∅ : FiniteSet α) ≤ world.length :=
          (Finset.card_filter_le _ _).trans (List.toFinset_card_le world)
        omega
      obtain ⟨fresh, all⟩ := frontier.explored_closed
        (fun a ha b hab => List.mem_toFinset.2 (closed a (List.mem_toFinset.1 ha) b hab)) bound few
      have found : ∀ c, c ∈ (unseen ∅ starts).2 ∨ c ∈ explored next bound (unseen ∅ starts).2 (unseen ∅ starts).1 →
          c ∈ explored next bound (unseen ∅ starts).2 (unseen ∅ starts).1 :=
        fun c hc => hc.elim (fun h => fresh c (start c h)) id
      induction hab with
      | refl => exact found _ (.inl (mem_unseen_snd.2 (.inr ha)))
      | tail _ step ih => exact found _ (all _ (.inr ih) _ step)
  rw [← values]
  constructor
  · intro h
    exact ⟨snd_of_mem_explore h, List.mem_map.2 ⟨_, h, rfl⟩⟩
  · rintro ⟨rfl, h⟩
    obtain ⟨⟨c, row⟩, mem, rfl⟩ := List.mem_map.1 h
    obtain rfl : row = next c := snd_of_mem_explore mem
    exact mem

omit [LawfulEqOrd α] in
theorem getElem?_discover_zero : (discover next (bound + 1) [a])[0]? = some (a, next a) := by
  have single : unseen (∅ : FiniteSet α) [a] = ([a], (∅ : FiniteSet α).insert a) := by
    rw [unseen, if_neg (by simp)]
    rfl
  rw [discover, single]
  rfl

theorem mem_reach (world : List α) {next : α → List α} (closed : ∀ a ∈ world, ∀ b ∈ next a, b ∈ world)
    (inside : ∀ a ∈ starts, a ∈ world) (enough : world.length ≤ bound) :
    b ∈ reach next bound starts ↔ ∃ a ∈ starts, ReflTransGen (fun a b => b ∈ next a) a b := by
  have follows : Follows (fun a => (next a).map fun b => ((), b)) = fun a b => b ∈ next a := by
    funext a b
    simp [Follows]
  have exact_search : ∀ row, (b, row) ∈ discover (fun a => (next a).map fun b => ((), b)) bound starts ↔
      row = (next b).map (fun b => ((), b)) ∧ ∃ a ∈ starts, ReflTransGen (fun a b => b ∈ next a) a b := by
    intro row
    rw [← follows]
    exact mem_discover world (by rw [follows]; exact closed) inside enough
  constructor
  · intro h
    obtain ⟨⟨c, row⟩, mem, rfl⟩ := List.mem_map.1 h
    exact ((exact_search row).1 mem).2
  · intro h
    exact List.mem_map.2 ⟨_, (exact_search _).2 ⟨rfl, h⟩, rfl⟩

/-! ## Values by position -/

/-- A list without a key twice is looked up as it is listed. -/
theorem lookup_iff {γ : Type} {entries : List (α × γ)} (nodup : (entries.map Prod.fst).Nodup) {c : γ} :
    (ExtTreeMap.ofList entries compare)[a]? = some c ↔ (a, c) ∈ entries := by
  classical
  have distinct : entries.Pairwise fun x y => ¬ compare x.1 y.1 = .eq := by
    rw [List.Nodup, List.pairwise_map] at nodup
    exact nodup.imp fun ne eq => ne (LawfulEqCmp.eq_of_compare eq)
  constructor
  · intro known
    by_cases listed : a ∈ entries.map Prod.fst
    · obtain ⟨⟨k, d⟩, mem, rfl⟩ := List.mem_map.1 listed
      rw [ExtTreeMap.getElem?_ofList_of_mem (k := k) ReflCmp.compare_self distinct mem] at known
      cases known
      exact mem
    · rw [ExtTreeMap.getElem?_ofList_of_contains_eq_false (by simpa using listed)] at known
      cases known
  · exact fun mem => ExtTreeMap.getElem?_ofList_of_mem (k := a) ReflCmp.compare_self distinct mem

theorem lookup_zipIdx {γ δ : Type} (value : γ → δ) (rows : List γ) (n : Nat) :
    (ExtTreeMap.ofList (rows.zipIdx.map fun row => (row.2, value row.1)) compare)[n]? = (rows[n]?).map value := by
  ext c
  rw [lookup_iff]
  · simp [List.mem_zipIdx_iff_getElem?]
  · rw [List.map_map, show (Prod.fst ∘ fun row : γ × Nat => (row.2, value row.1)) = Prod.snd from rfl,
      List.zipIdx_map_snd]
    exact List.nodup_range'

theorem getD_position {values : List α} (nodup : values.Nodup) {i : Nat} (h : values[i]? = some a) :
    (ExtTreeMap.ofList values.zipIdx compare).getD a 0 = i := by
  have position : (ExtTreeMap.ofList values.zipIdx compare)[a]? = some i := by
    rw [lookup_iff (by rwa [List.zipIdx_map_fst]), List.mem_zipIdx_iff_getElem?]
    exact h
  rw [ExtTreeMap.getD_eq_getD_getElem?, position]
  rfl

/-- **Naming by position is faithful**: the row at a position lists the positions of the successors, as long as all
successors are values. -/
theorem mem_numbered {rows : List (α × List (β × α))} (nodup : (rows.map Prod.fst).Nodup)
    (closed : ∀ row ∈ rows, ∀ step ∈ row.2, step.2 ∈ rows.map Prod.fst) {i j : Nat} {label : β} :
    (∃ row, (numbered rows)[i]? = some row ∧ (label, j) ∈ row) ↔
      ∃ row, rows[i]? = some row ∧ ∃ b, (label, b) ∈ row.2 ∧ (rows.map Prod.fst)[j]? = some b := by
  simp only [numbered, List.getElem?_map, Option.map_eq_some_iff]
  constructor
  · rintro ⟨_, ⟨row, hrow, rfl⟩, mem⟩
    obtain ⟨⟨l, b⟩, hb, eq⟩ := List.mem_map.1 mem
    obtain ⟨k, hk⟩ := List.getElem?_of_mem (closed row (List.mem_of_getElem? hrow) _ hb)
    simp only [getD_position nodup hk, Prod.mk.injEq] at eq
    obtain ⟨rfl, rfl⟩ := eq
    rw [List.getElem?_map, Option.map_eq_some_iff] at hk
    exact ⟨row, hrow, b, hb, hk⟩
  · rintro ⟨row, hrow, b, hb, hj⟩
    refine ⟨_, ⟨row, hrow, rfl⟩, List.mem_map.2 ⟨(label, b), hb, ?_⟩⟩
    rw [← Option.map_eq_some_iff, ← List.getElem?_map] at hj
    simp only [getD_position nodup hj]

end ContextFree.Search
