import ContextFree.ParserKind
import ContextFree.Proofs.Chomsky

/-!
The tabular parser is right: a cell holds exactly the non-terminals that derive its part of the word, so the top cell
decides membership.

- `longerCell_exact`, `addRows_exact`: a row over exact rows is exact, and so is the whole table;
- `mem_top_iff`: the top cell holds the non-terminals that derive the word;
- `recognize_cyk`: the parser decides the language of the grammar it was given, in normal form or not.
-/

namespace ContextFree

open Std (ExtTreeSet)
open Grammar

variable {g h : Grammar} {p : Production} {s a : Symbol} {right w : List Symbol}

/-! ## Words of a grammar in normal form -/

namespace Grammar

/-- A word of a pair splits into two words that are not empty. -/
theorem mem_form_pair (confined : g.EpsilonConfined) {b c : Symbol} (mem : ⟨s, [b, c]⟩ ∈ g.productions) :
    w ∈ (words g.rules).form [b, c] ↔ ∃ i, i + 1 < w.length ∧
      w.take (i + 1) ∈ words g.rules b ∧ w.drop (i + 1) ∈ words g.rules c := by
  rw [Reading.mem_form_cons]
  constructor
  · rintro ⟨u, hu, v, hv, rfl⟩
    rw [Reading.form_singleton] at hv
    have left : u ≠ [] := fun eq => confined.nil_not_mem mem (s := b) (by simp) (eq ▸ hu)
    have right : v ≠ [] := fun eq => confined.nil_not_mem mem (s := c) (by simp) (eq ▸ hv)
    obtain ⟨i, hi⟩ := Nat.exists_eq_add_one.2 (List.length_pos_iff.2 left)
    refine ⟨i, ?_, ?_, ?_⟩
    · have := List.length_pos_iff.2 right
      rw [List.length_append]
      omega
    · rwa [← hi, List.take_left]
    · rwa [← hi, List.drop_left]
  · rintro ⟨i, -, hu, hv⟩
    exact ⟨_, hu, _, by rwa [Reading.form_singleton], List.take_append_drop _ w⟩

/-- The words of one symbol come from the right sides of one terminal. -/
theorem singleton_mem_words_iff (lefts : NonTerminalLefts g.rules) (shape : g.isChomsky) (hs : Symbol.isNonTerminal s) :
    [a] ∈ words g.rules s ↔ ⟨s, [a]⟩ ∈ g.productions := by
  have confined := confined_of_isChomsky shape
  rw [mem_words_iff hs]
  constructor
  · rintro ⟨right, mem, hw⟩
    rw [mem_rules] at mem
    rcases isChomsky_iff.1 shape _ mem with ⟨rfl, -, -⟩ | ⟨b, rfl, hb⟩ | ⟨b, c, rfl, -, -⟩
    · cases (show [a] = [] from hw)
    · rw [Reading.form_singleton, words_terminal lefts hb] at hw
      obtain rfl : a = b := List.singleton_inj.1 hw
      exact mem
    · obtain ⟨i, short, -⟩ := (mem_form_pair confined mem).1 hw
      exact absurd short (by simp)
  · intro mem
    refine ⟨[a], mem_rules.2 mem, ?_⟩
    rcases isChomsky_iff.1 shape _ mem with ⟨empty, -, -⟩ | ⟨b, eq, hb⟩ | ⟨b, c, eq, -, -⟩
    · cases empty
    · obtain rfl : a = b := List.singleton_inj.1 eq
      rw [Reading.form_singleton]
      exact singleton_mem_words hb
    · cases eq

/-- A longer word of a non-terminal splits into words of two others. -/
theorem long_mem_words_iff (lefts : NonTerminalLefts g.rules) (shape : g.isChomsky) (hs : Symbol.isNonTerminal s)
    (long : 2 ≤ w.length) : w ∈ words g.rules s ↔ ∃ b c, ⟨s, [b, c]⟩ ∈ g.productions ∧ ∃ i, i + 1 < w.length ∧
      w.take (i + 1) ∈ words g.rules b ∧ w.drop (i + 1) ∈ words g.rules c := by
  have confined := confined_of_isChomsky shape
  rw [mem_words_iff hs]
  constructor
  · rintro ⟨right, mem, hw⟩
    rw [mem_rules] at mem
    rcases isChomsky_iff.1 shape _ mem with ⟨rfl, -, -⟩ | ⟨b, rfl, hb⟩ | ⟨b, c, rfl, -, -⟩
    · obtain rfl : w = [] := hw
      exact absurd long (by simp)
    · rw [Reading.form_singleton, words_terminal lefts hb] at hw
      obtain rfl : w = [b] := hw
      exact absurd long (by simp)
    · exact ⟨b, c, mem, (mem_form_pair confined mem).1 hw⟩
  · rintro ⟨b, c, mem, split⟩
    exact ⟨[b, c], mem_rules.2 mem, (mem_form_pair confined mem).2 split⟩

end Grammar

/-! ## Cells -/

namespace Cyk

/-- the part of a word of a length from a position on -/
def part (word : List Symbol) (position length : Nat) : List Symbol := (word.drop position).take length

theorem length_part {word : List Symbol} {position length : Nat} (h : position + length ≤ word.length) :
    (part word position length).length = length := by
  rw [part, List.length_take, List.length_drop]
  omega

theorem take_part {word : List Symbol} {position length i : Nat} (h : i ≤ length) :
    (part word position length).take i = part word position i := by
  rw [part, part, List.take_take, Nat.min_eq_left h]

theorem drop_part {word : List Symbol} {position length i : Nat} :
    (part word position length).drop i = part word (position + i) (length - i) := by
  rw [part, part, List.drop_take, List.drop_drop]

/-- The cells of the rows hold the non-terminals that derive the parts. -/
def Exact (g : Grammar) (word : List Symbol) (rows : List (List Cell)) : Prop :=
  ∀ row < rows.length, ∀ column, column + row < word.length → ∀ s,
    s ∈ cellAt rows row column ↔ Symbol.isNonTerminal s ∧ part word column (row + 1) ∈ words g.rules s

variable {rules : List Production} {left left' : Cell} {rows : List (List Cell)} {word : List Symbol} {column : Nat}

theorem mem_combine : s ∈ combine rules left left' ↔ ∃ b ∈ left, ∃ c ∈ left', ⟨s, [b, c]⟩ ∈ rules := by
  unfold combine
  split
  · rename_i empty
    refine ⟨fun h => absurd h List.not_mem_nil, ?_⟩
    rintro ⟨b, hb, c, hc, -⟩
    rcases empty with empty | empty
    · simp [ExtTreeSet.isEmpty_iff.1 empty] at hb
    · simp [ExtTreeSet.isEmpty_iff.1 empty] at hc
  · rw [List.mem_filterMap]
    constructor
    · rintro ⟨⟨l, r⟩, mem, eq⟩
      split at eq
      · rename_i b c right
        simp only at right
        split at eq
        · rename_i both
          cases eq
          exact ⟨b, both.1, c, both.2, right ▸ mem⟩
        · cases eq
      · cases eq
    · rintro ⟨b, hb, c, hc, mem⟩
      exact ⟨_, mem, by simp [hb, hc]⟩

theorem mem_unitCell : s ∈ unitCell rules a ↔ ⟨s, [a]⟩ ∈ rules := by
  simp only [unitCell, FiniteSet.mem_ofList, List.mem_map, List.mem_filter, decide_eq_true_eq]
  constructor
  · rintro ⟨p, ⟨mem, right⟩, rfl⟩
    rwa [← right]
  · exact fun mem => ⟨_, ⟨mem, rfl⟩, rfl⟩

theorem mem_longerCell : s ∈ longerCell rules rows column ↔ ∃ i < rows.length,
    ∃ b ∈ cellAt rows i column, ∃ c ∈ cellAt rows (rows.length - 1 - i) (column + i + 1), ⟨s, [b, c]⟩ ∈ rules := by
  simp [longerCell, mem_combine]

theorem cellAt_append_lt {row : Nat} {last : List Cell} (h : row < rows.length) :
    cellAt (rows ++ [last]) row column = cellAt rows row column := by
  rw [cellAt, cellAt, List.getElem?_append_left h]

theorem cellAt_append_length {last : List Cell} :
    cellAt (rows ++ [last]) rows.length column = (last[column]?).getD ∅ := by
  rw [cellAt, List.getElem?_concat_length]
  rfl

/-- **A cell over exact rows is exact.** -/
theorem longerCell_exact (lefts : NonTerminalLefts g.rules) (shape : g.isChomsky) (ok : Exact g word rows)
    (nonempty : rows ≠ []) (h : column + rows.length < word.length) :
    s ∈ longerCell g.rules rows column ↔
      Symbol.isNonTerminal s ∧ part word column (rows.length + 1) ∈ words g.rules s := by
  have pos := List.length_pos_iff.2 nonempty
  have len : (part word column (rows.length + 1)).length = rows.length + 1 := length_part (by omega)
  -- the two cells of a split hold what derives the two parts
  have cells : ∀ i < rows.length, ∀ b c,
      (b ∈ cellAt rows i column ∧ c ∈ cellAt rows (rows.length - 1 - i) (column + i + 1)) ↔
        (Symbol.isNonTerminal b ∧ (part word column (rows.length + 1)).take (i + 1) ∈ words g.rules b) ∧
        (Symbol.isNonTerminal c ∧ (part word column (rows.length + 1)).drop (i + 1) ∈ words g.rules c) := by
    intro i hi b c
    rw [ok i hi column (by omega), ok (rows.length - 1 - i) (by omega) (column + i + 1) (by omega),
      take_part (by omega), drop_part, show rows.length - 1 - i + 1 = rows.length + 1 - (i + 1) by omega,
      Nat.add_assoc column i 1]
  rw [mem_longerCell]
  constructor
  · rintro ⟨i, hi, b, hb, c, hc, mem⟩
    rw [mem_rules] at mem
    have hs : Symbol.isNonTerminal s := lefts _ (mem_rules.2 mem)
    obtain ⟨⟨-, hu⟩, -, hv⟩ := (cells i hi b c).1 ⟨hb, hc⟩
    refine ⟨hs, (long_mem_words_iff lefts shape hs (by omega)).2 ⟨b, c, mem, i, by omega, hu, hv⟩⟩
  · rintro ⟨hs, hw⟩
    obtain ⟨b, c, mem, i, hi, hu, hv⟩ := (long_mem_words_iff lefts shape hs (by omega)).1 hw
    obtain ⟨hb, hc⟩ : Symbol.isNonTerminal b ∧ Symbol.isNonTerminal c := by
      rcases isChomsky_iff.1 shape _ mem with ⟨eq, -, -⟩ | ⟨x, eq, -⟩ | ⟨x, y, eq, hx, hy⟩
      · cases eq
      · cases eq
      · cases eq
        exact ⟨hx, hy⟩
    obtain ⟨first, second⟩ := (cells i (by omega) b c).2 ⟨⟨hb, hu⟩, hc, hv⟩
    exact ⟨i, by omega, b, first, c, second, mem_rules.2 mem⟩

/-- **A table over exact rows is exact.** -/
theorem addRows_exact (lefts : NonTerminalLefts g.rules) (shape : g.isChomsky) (missing : Nat) (nonempty : rows ≠ [])
    (total : rows.length + missing = word.length) (ok : Exact g word rows) :
    Exact g word (addRows g.rules rows missing) ∧ (addRows g.rules rows missing).length = word.length := by
  induction missing generalizing rows with
  | zero => exact ⟨ok, total⟩
  | succ missing ih =>
    apply ih (by simp) (by simp; omega)
    intro row hrow column hcolumn s
    rw [List.length_append, List.length_singleton] at hrow
    rcases Nat.lt_succ_iff_lt_or_eq.1 hrow with old | rfl
    · rw [cellAt_append_lt old]
      exact ok row old column hcolumn s
    · rw [cellAt_append_length, List.getElem?_map, List.getElem?_range (by omega)]
      exact longerCell_exact lefts shape ok nonempty hcolumn

/-- The first row is exact. -/
theorem units_exact (word : List Symbol) (lefts : NonTerminalLefts g.rules) (shape : g.isChomsky) :
    Exact g word [word.map (unitCell g.rules)] := by
  intro row hrow column hcolumn s
  obtain rfl : row = 0 := by simpa using hrow
  have inside : column < word.length := hcolumn
  have single : part word column 1 = [word[column]] := by
    rw [part, List.drop_eq_getElem_cons inside]
    rfl
  have cell : cellAt [word.map (unitCell g.rules)] 0 column = unitCell g.rules word[column] := by
    simp [cellAt, inside]
  rw [cell, mem_unitCell, mem_rules, single]
  constructor
  · intro mem
    have hs : Symbol.isNonTerminal s := lefts _ (mem_rules.2 mem)
    exact ⟨hs, (singleton_mem_words_iff lefts shape hs).2 mem⟩
  · rintro ⟨hs, hw⟩
    exact (singleton_mem_words_iff lefts shape hs).1 hw

/-! ## The verdict -/

theorem any_top?_iff {t : Triangle} : t.top?.any (s ∈ ·) ↔ s ∈ cellAt t.rows (t.rows.length - 1) 0 := by
  have first : t.top? = t.rows[t.rows.length - 1]?.bind (·[0]?) := by
    simp only [Triangle.top?, List.getLast?_eq_getElem?, List.head?_eq_getElem?]
  rw [first, cellAt]
  cases t.rows[t.rows.length - 1]?.bind (·[0]?) with
  | none => simp
  | some cell => simp

theorem isAccepted_parse : (parse g word).verdict.isAccepted ↔ (triangle g word).top?.any (g.start ∈ ·) := by
  simp only [parse]
  split <;> simp_all [Verdict.isAccepted]

/-- The top cell of a grammar in normal form holds the start symbol if the word belongs to the language. -/
theorem mem_top_iff (wf : g.WellFormed) (shape : g.isChomsky) :
    (triangle g word).top?.any (g.start ∈ ·) ↔ g.Generates word := by
  rw [any_top?_iff]
  cases word with
  | nil =>
    rw [generates_iff, (confined_of_isChomsky shape).nil_mem_words_iff wf.start_nonTerminal, ← hasStartEpsilon_iff]
    by_cases empty : g.hasStartEpsilon
    · simp [triangle, cellAt, empty]
    · simp [triangle, cellAt, empty]
  | cons a rest =>
    obtain ⟨ok, length⟩ := addRows_exact wf.lefts shape rest.length (by simp) (by simp; omega)
      (units_exact (a :: rest) wf.lefts shape)
    have rows : (triangle g (a :: rest)).rows = addRows g.rules [(a :: rest).map (unitCell g.rules)] rest.length := rfl
    have whole : part (a :: rest) 0 (rest.length + 1) = a :: rest := by
      rw [part, List.drop_zero, ← List.length_cons (a := a), List.take_length]
    rw [rows, length, List.length_cons, Nat.add_sub_cancel, ok rest.length (by rw [length]; simp) 0 (by simp), whole]
    exact ⟨fun h => h.2, fun h => ⟨wf.start_nonTerminal, h⟩⟩

/-- Every symbol in the cells is a left side. -/
def OnlyLefts (rules : List Production) (rows : List (List Cell)) : Prop :=
  ∀ cells ∈ rows, ∀ cell ∈ cells, ∀ s ∈ cell, ∃ right, ⟨s, right⟩ ∈ rules

theorem addRows_onlyLefts {missing : Nat} (only : OnlyLefts rules rows) :
    OnlyLefts rules (addRows rules rows missing) := by
  induction missing generalizing rows with
  | zero => exact only
  | succ missing ih =>
    apply ih
    intro cells mem cell hc s hs
    rcases List.mem_append.1 mem with mem | mem
    · exact only cells mem cell hc s hs
    · obtain rfl := List.mem_singleton.1 mem
      obtain ⟨column, -, rfl⟩ := List.mem_map.1 hc
      obtain ⟨-, -, b, -, c, -, rule⟩ := mem_longerCell.1 hs
      exact ⟨_, rule⟩

/-- Without a production for the start symbol no word is accepted. -/
theorem not_mem_top (none : ¬ g.hasStartRule) : ¬ (triangle g word).top?.any (g.start ∈ ·) := by
  rw [hasStartRule_iff] at none
  have only : OnlyLefts g.rules (triangle g word).rows := by
    cases word with
    | nil =>
      have empty : ¬ g.hasStartEpsilon := fun h => none ⟨_, hasStartEpsilon_iff.1 h⟩
      simp [triangle, empty, OnlyLefts]
    | cons a rest =>
      apply addRows_onlyLefts
      intro cells mem cell hc s hs
      obtain rfl := List.mem_singleton.1 mem
      obtain ⟨b, -, rfl⟩ := List.mem_map.1 hc
      exact ⟨_, mem_unitCell.1 hs⟩
  intro found
  obtain ⟨cell, eq, mem⟩ := (Option.any_eq_true _ _).1 found
  obtain ⟨cells, last, first⟩ := Option.bind_eq_some_iff.1 eq
  obtain ⟨right, rule⟩ := only cells (List.mem_of_getLast? last) cell (List.mem_of_head? first) g.start
    (by simpa using mem)
  exact none ⟨right, mem_rules.1 rule⟩

/-- The verdict on the working grammar is about the given one. -/
theorem isAccepted_parse_iff (wf : g.WellFormed) (made : workingGrammar g = .ok h) :
    (parse h word).verdict.isAccepted ↔ g.Generates word := by
  rw [isAccepted_parse]
  by_cases shape : g.isChomsky
  · obtain rfl : g = h := by simpa [workingGrammar, shape] using made
    exact mem_top_iff wf shape
  rw [workingGrammar, if_neg shape] at made
  by_cases rule : g.hasStartRule
  · obtain ⟨wf', shape', generates⟩ := toChomsky_spec wf rule made
    rw [mem_top_iff wf' shape', generates]
  · obtain rfl : g = h := by simpa [toChomsky, rule] using made
    exact iff_of_false (not_mem_top rule) fun generates => rule (hasStartRule_of_generates wf generates)

end Cyk

/-- **The tabular parser decides the language of the grammar it is given**, whether or not that is in normal form and
whether or not its start symbol has a production, as soon as there is a grammar to work with. -/
theorem recognize_cyk (wf : g.WellFormed) (made : Cyk.workingGrammar g = .ok h) (word : List Symbol) :
    ∃ accepted, ParserKind.recognize g word .cyk = some (.ok accepted) ∧ (accepted = true ↔ g.Generates word) := by
  refine ⟨(Cyk.parse h word).verdict.isAccepted, ?_, Cyk.isAccepted_parse_iff wf made⟩
  rw [ParserKind.recognize, made]
  rfl

set_option maxRecDepth 100000 in
/-- The grammar of brackets is not in normal form, but the parser has one to work with. -/
theorem recognize_cyk_brackets : brackets.WellFormed ∧ ∃ h, Cyk.workingGrammar brackets = .ok h ∧
    ∃ accepted, ParserKind.recognize brackets ['a', 'b'] .cyk = some (.ok accepted) ∧
      (accepted = true ↔ brackets.Generates ['a', 'b']) := by
  obtain ⟨h, made⟩ : ∃ h, Cyk.workingGrammar brackets = .ok h := exists_of_isOk (by decide +kernel)
  exact ⟨brackets_wellFormed, h, made, recognize_cyk brackets_wellFormed made ['a', 'b']⟩

end ContextFree
