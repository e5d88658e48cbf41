import ContextFree.Cyk.Cells
import ContextFree.Proofs.Cyk

/-!
Every cell of the triangle is right. The rows get shorter by one cell from each to the next, so every look-up on the way
finds its cell, and the cells that are there in the end are those of the parts of the word.

- `Shaped.cellAt?_eq`: a cell is there when its part lies in the word;
- `longerCell?_eq`, `addRows?_eq`: so no look-up fails while rows are added, and the rows keep their shape;
- `get?_triangle`: which cells there are;
- `triangle_exact`: what is in them.
-/

namespace ContextFree.Cyk

open Grammar

variable {g : Grammar} {rules : List Production} {rows : List (List Cell)} {word : List Symbol}
  {row column missing n : Nat}

/-! ## Look-ups -/

/-- A function with a result for every member has one for the list. -/
theorem mapM_eq_some {α β : Type} {l : List α} {f : α → Option β} {r : α → β} (each : ∀ a ∈ l, f a = some (r a)) :
    l.mapM f = some (l.map r) := by
  induction l with
  | nil => rfl
  | cons a l ih =>
    rw [List.forall_mem_cons] at each
    rw [List.mapM_cons, each.1, ih each.2]
    rfl

/-- Each row has a cell for every part of its length in a word of length `n`. -/
def Shaped (n : Nat) (rows : List (List Cell)) : Prop := ∀ row cells, rows[row]? = some cells → cells.length + row = n

theorem shaped_units (word : List Symbol) : Shaped word.length [word.map (unitCell rules)] := by
  intro row cells found
  obtain ⟨less, rfl⟩ := List.getElem?_eq_some_iff.1 found
  obtain rfl : row = 0 := by simpa using less
  simp

theorem cellAt_eq : cellAt rows row column = (cellAt? rows row column).getD ∅ := rfl

theorem Shaped.isSome_cellAt? (shaped : Shaped n rows) :
    (cellAt? rows row column).isSome ↔ row < rows.length ∧ column + row < n := by
  rw [cellAt?]
  cases found : rows[row]? with
  | none =>
    have beyond := List.getElem?_eq_none_iff.1 found
    exact iff_of_false Bool.false_ne_true fun h => absurd h.1 (by omega)
  | some cells =>
    have length := shaped row cells found
    obtain ⟨inside, -⟩ := List.getElem?_eq_some_iff.1 found
    have there : (cells[column]?).isSome ↔ column < cells.length := by simp
    rw [Option.bind_some, there, and_iff_right inside]
    omega

/-- **A look-up finds its cell** when the part lies in the word. -/
theorem Shaped.cellAt?_eq (shaped : Shaped n rows) (inside : row < rows.length) (part : column + row < n) :
    cellAt? rows row column = some (cellAt rows row column) := by
  obtain ⟨cell, found⟩ := Option.isSome_iff_exists.1 (shaped.isSome_cellAt?.2 ⟨inside, part⟩)
  rw [cellAt_eq, found]
  rfl

/-- Both cells of every split are there. -/
theorem longerCell?_eq (shaped : Shaped n rows) (part : column + rows.length < n) :
    longerCell? rules rows column = some (longerCell rules rows column) := by
  have splits : (List.range rows.length).mapM (fun i => do
        let left ← cellAt? rows i column
        let right ← cellAt? rows (rows.length - 1 - i) (column + i + 1)
        return combine rules left right) =
      some ((List.range rows.length).map fun i =>
        combine rules (cellAt rows i column) (cellAt rows (rows.length - 1 - i) (column + i + 1))) := by
    refine mapM_eq_some fun i hi => ?_
    have inside := List.mem_range.1 hi
    have other : rows.length - 1 - i < rows.length := by omega
    rw [shaped.cellAt?_eq inside (by omega), shaped.cellAt?_eq other (by omega)]
    rfl
  rw [longerCell?, splits, longerCell, List.flatMap]
  rfl

theorem Shaped.add (shaped : Shaped n rows) (total : rows.length + (missing + 1) = n) (f : Nat → Cell) :
    Shaped n (rows ++ [(List.range (missing + 1)).map f]) := by
  intro row cells found
  rcases Nat.lt_or_ge row rows.length with old | new
  · rw [List.getElem?_append_left old] at found
    exact shaped row cells found
  · rw [List.getElem?_append_right new] at found
    obtain ⟨less, rfl⟩ := List.getElem?_eq_some_iff.1 found
    have last : row = rows.length := by
      rw [List.length_singleton] at less
      omega
    simp [last]
    omega

/-- **No look-up fails** while rows are added, and each of them has the cells of its length. -/
theorem addRows?_eq (shaped : Shaped n rows) (total : rows.length + missing = n) (nonempty : rows ≠ []) :
    addRows? rules rows missing = some (addRows rules rows missing) ∧ Shaped n (addRows rules rows missing) := by
  induction missing generalizing rows with
  | zero => exact ⟨rfl, shaped⟩
  | succ missing ih =>
    have row : (List.range (missing + 1)).mapM (longerCell? rules rows) =
        some ((List.range (missing + 1)).map (longerCell rules rows)) := by
      refine mapM_eq_some fun column hc => longerCell?_eq shaped ?_
      have inside := List.mem_range.1 hc
      omega
    rw [addRows?, row]
    exact ih (shaped.add total _) (by simp; omega) (by simp)

/-! ## The triangle -/

theorem triangle?_eq (g : Grammar) (word : List Symbol) : triangle? g word = some (triangle g word) := by
  cases word with
  | nil => rfl
  | cons a rest =>
    have built : addRows? g.rules [(a :: rest).map (unitCell g.rules)] rest.length =
        some (addRows g.rules [(a :: rest).map (unitCell g.rules)] rest.length) :=
      (addRows?_eq (shaped_units (a :: rest)) (by simp; omega) (by simp)).1
    rw [triangle?, built]
    rfl

theorem shaped_triangle (nonempty : word ≠ []) : Shaped word.length (triangle g word).rows := by
  obtain ⟨a, rest, rfl⟩ := List.exists_cons_of_ne_nil nonempty
  exact (addRows?_eq (shaped_units (a :: rest)) (by simp; omega) (by simp)).2

theorem get?_triangle (nonempty : word ≠ []) (length position : Nat) : (triangle g word).get? length position =
    if length = 0 ∨ position = 0 then none else cellAt? (triangle g word).rows (length - 1) (position - 1) := by
  have more : (triangle g word).word.isEmpty = false := by simpa [triangle] using nonempty
  simp only [Triangle.get?, more, Bool.false_eq_true, if_false]
  by_cases hl : length = 0
  · simp [hl]
  · by_cases hp : position = 0
    · simp [hp]
    · simp only [hl, hp, or_self, if_false]
      rfl

section

variable (lefts : NonTerminalLefts g.rules) (shape : g.isChomsky) (nonempty : word ≠ [])

include lefts shape nonempty

theorem exact_triangle :
    Exact g word (triangle g word).rows ∧ (triangle g word).rows.length = word.length := by
  obtain ⟨a, rest, rfl⟩ := List.exists_cons_of_ne_nil nonempty
  exact addRows_exact lefts shape rest.length (by simp) (by simp; omega) (units_exact (a :: rest) lefts shape)

/-- **The cells of a triangle** are those of the parts of its word. -/
theorem isSome_get?_triangle (length position : Nat) : ((triangle g word).get? length position).isSome ↔
    (1 ≤ length ∧ length ≤ word.length) ∧ 1 ≤ position ∧ position ≤ word.length - length + 1 := by
  obtain ⟨-, count⟩ := exact_triangle lefts shape nonempty
  rw [get?_triangle nonempty]
  split
  · exact iff_of_false Bool.false_ne_true (by omega)
  · rw [(shaped_triangle nonempty).isSome_cellAt?, count]
    omega

theorem mem_get?_triangle {length position : Nat} {cell : Cell}
    (found : (triangle g word).get? length position = some cell) (s : Symbol) :
    s ∈ cell ↔ Symbol.isNonTerminal s ∧ (word.drop (position - 1)).take length ∈ words g.rules s := by
  obtain ⟨ok, count⟩ := exact_triangle lefts shape nonempty
  obtain ⟨bounds, first, last⟩ := (isSome_get?_triangle lefts shape nonempty length position).1 (by rw [found]; rfl)
  rw [get?_triangle nonempty, if_neg (by omega)] at found
  have here : cellAt (triangle g word).rows (length - 1) (position - 1) = cell := by rw [cellAt_eq, found]; rfl
  rw [← here, ok (length - 1) (by omega) (position - 1) (by omega) s, part, Nat.sub_add_cancel bounds.1]

theorem tabulates_triangle : (triangle g word).Tabulates g word where
  rows := (exact_triangle lefts shape nonempty).2
  row := by
    intro length first last
    obtain ⟨-, count⟩ := exact_triangle lefts shape nonempty
    have inside : length - 1 < (triangle g word).rows.length := by omega
    have cells := shaped_triangle nonempty _ _ (List.getElem?_eq_getElem inside)
    exact ⟨_, List.getElem?_eq_getElem inside, by omega⟩
  get := isSome_get?_triangle lefts shape nonempty
  cell := fun _ _ _ found => mem_get?_triangle lefts shape nonempty found

end

theorem derives_nil_iff (lefts : NonTerminalLefts g.rules) (shape : g.isChomsky) :
    Derives g.rules [g.start] [] ↔ g.hasStartEpsilon := by
  have word : Derives g.rules [g.start] [] ↔ [] ∈ words g.rules g.start := ⟨fun h => ⟨isWord_nil, h⟩, fun h => h.2⟩
  rw [word]
  by_cases upper : Symbol.isNonTerminal g.start
  · rw [(confined_of_isChomsky shape).nil_mem_words_iff upper, hasStartEpsilon_iff]
  · rw [words_terminal lefts (Symbol.isTerminal_iff_not.2 upper), hasStartEpsilon_iff]
    refine iff_of_false (fun single => ?_) fun mem => upper (lefts _ (mem_rules.2 mem))
    cases (show [] = [g.start] from single)

theorem tabulatesEmpty_triangle (lefts : NonTerminalLefts g.rules) (shape : g.isChomsky) :
    (triangle g []).TabulatesEmpty g where
  rows := ⟨_, rfl⟩
  get := by
    intro length position
    simp only [Triangle.get?, triangle, List.isEmpty_nil, if_true]
    by_cases hp : position = 0
    · simp [hp]
    · simp only [hp, if_false, Option.bind_some]
      cases length with
      | zero => simp; omega
      | succ length => simp
  cell := by
    intro cell found s
    have here : (if g.hasStartEpsilon then FiniteSet.ofList [g.start] else ∅) = cell := Option.some.inj found
    have empty := derives_nil_iff lefts shape
    rw [← here]
    by_cases has : g.hasStartEpsilon
    · rw [if_pos has, FiniteSet.mem_ofList, List.mem_singleton]
      exact ⟨fun eq => ⟨eq, eq ▸ empty.2 has⟩, fun h => h.1⟩
    · rw [if_neg has]
      refine iff_of_false (by simp) ?_
      rintro ⟨rfl, derives⟩
      exact has (empty.1 derives)

/-- **Every cell is exact** under a grammar in normal form, whatever grammar it was made from. No cell is looked up
that is not there; a word has one cell for every part of it, by length and position, with the non-terminals that
derive the part. The empty word has a single cell, with the start symbol if that derives the empty word. -/
theorem triangle_exact (lefts : NonTerminalLefts g.rules) (shape : g.isChomsky) (word : List Symbol) :
    triangle? g word = some (parse g word).triangle ∧
      (word ≠ [] → (parse g word).triangle.Tabulates g word) ∧
      (word = [] → (parse g word).triangle.TabulatesEmpty g) := by
  refine ⟨triangle?_eq g word, tabulates_triangle lefts shape, ?_⟩
  rintro rfl
  exact tabulatesEmpty_triangle lefts shape

/-- a grammar in normal form: the empty word, and `a`s before one `b` -/
def rising : Grammar :=
  ⟨'S', 'ε', .ofList [⟨'S', []⟩, ⟨'S', ['A', 'B']⟩, ⟨'A', ['A', 'A']⟩, ⟨'A', ['a']⟩, ⟨'B', ['b']⟩]⟩

set_option maxRecDepth 100000 in
/-- The cells of `aab` by length and position; that of `ab` shows that `S` derives it. -/
theorem triangle_rising : NonTerminalLefts rising.rules ∧ rising.isChomsky ∧
    triangle? rising ['a', 'a', 'b'] = some (parse rising ['a', 'a', 'b']).triangle ∧
    (parse rising ['a', 'a', 'b']).triangle.Tabulates rising ['a', 'a', 'b'] ∧
    (parse rising []).triangle.TabulatesEmpty rising ∧ Derives rising.rules ['S'] ['a', 'b'] := by
  have lefts : NonTerminalLefts rising.rules := by
    unfold NonTerminalLefts
    decide +kernel
  have shape : rising.isChomsky := by decide +kernel
  obtain ⟨found, tabulates, -⟩ := triangle_exact lefts shape ['a', 'a', 'b']
  obtain ⟨-, -, empty⟩ := triangle_exact lefts shape []
  have part : ((parse rising ['a', 'a', 'b']).triangle.get? 2 2).any ('S' ∈ ·) := by decide +kernel
  obtain ⟨cell, there, mem⟩ := (Option.any_eq_true _ _).1 part
  obtain ⟨-, -, derives⟩ := ((tabulates (by simp)).cell 2 2 cell there 'S').1 (of_decide_eq_true mem)
  exact ⟨lefts, shape, found, tabulates (by simp), empty rfl, derives⟩

end ContextFree.Cyk
