import ContextFree.Proofs.Pieces

/-!
Chomsky normal form is what it claims to be.

- `Binarized.generates_iff`, `Binarized.isChomsky`: one pass keeps the language and, after the proper form, makes the
  shape;
- `toChomsky_spec`: the conversion keeps the language, and its result is in Chomsky normal form;
- `toChomsky_normalForm`: what that says of each right side, and of the empty word.
-/

namespace ContextFree.Grammar

open PieceNames

/-! ## The pieces of a right side -/

section Pieces

variable {right piece rest : List Symbol} {s t : Symbol}

/-- The long suffixes of a right side are its proper suffixes of two or more symbols. -/
theorem mem_longSuffixes :
    piece ∈ longSuffixes right ↔ piece <:+ right ∧ 2 ≤ piece.length ∧ piece.length < right.length := by
  induction right with
  | nil => simp [longSuffixes]
  | cons s right ih =>
    -- a proper suffix is a suffix of what comes after the first symbol
    have proper : piece <:+ s :: right ∧ piece.length < (s :: right).length ↔ piece <:+ right := by
      rw [List.suffix_cons_iff]
      constructor
      · rintro ⟨rfl | suffix, short⟩
        · exact absurd short (lt_irrefl _)
        · exact suffix
      · exact fun suffix => ⟨.inr suffix, Nat.lt_succ_of_le suffix.length_le⟩
    have whole : piece <:+ right ↔ piece = right ∨ piece <:+ right ∧ piece.length < right.length := by
      constructor
      · intro suffix
        exact suffix.length_le.eq_or_lt.imp suffix.eq_of_length fun short => ⟨suffix, short⟩
      · rintro (rfl | ⟨suffix, -⟩)
        · exact List.suffix_rfl
        · exact suffix
    calc piece ∈ longSuffixes (s :: right) ↔ 2 ≤ piece.length ∧ piece <:+ right := by
          rw [longSuffixes, whole]
          split
          · rw [List.mem_cons, ih]
            grind
          · grind
      _ ↔ piece <:+ s :: right ∧ 2 ≤ piece.length ∧ piece.length < (s :: right).length := by
          rw [← proper, and_left_comm]

theorem length_of_mem_longSuffixes (h : piece ∈ longSuffixes right) : 2 ≤ piece.length := (mem_longSuffixes.1 h).2.1

theorem mem_pieces : piece ∈ pieces right ↔
    (∃ s ∈ right, Symbol.isTerminal s ∧ piece = [s]) ∨ piece ∈ longSuffixes right := by
  simp only [pieces, List.mem_append, List.mem_map, List.mem_filter, and_assoc]
  simp only [eq_comm]

theorem isTerminal_of_mem_pieces (h : [s] ∈ pieces right) : Symbol.isTerminal s := by
  rcases mem_pieces.1 h with ⟨t, -, ht, eq⟩ | h
  · rwa [(List.cons_eq_cons.1 eq).1]
  · exact absurd (length_of_mem_longSuffixes h) (by simp)

theorem ne_nil_of_mem_pieces (h : piece ∈ pieces right) : piece ≠ [] := by
  rcases mem_pieces.1 h with ⟨t, -, -, rfl⟩ | h
  · exact List.cons_ne_nil t []
  · exact List.ne_nil_of_length_pos (Nat.lt_of_lt_of_le Nat.two_pos (length_of_mem_longSuffixes h))

theorem subset_of_mem_longSuffixes (h : piece ∈ longSuffixes right) : piece ⊆ right := (mem_longSuffixes.1 h).1.subset

theorem longSuffixes_sub (h : piece ∈ longSuffixes right) : longSuffixes piece ⊆ longSuffixes right := by
  intro x hx
  obtain ⟨suffix, -, short⟩ := mem_longSuffixes.1 h
  obtain ⟨inner, long, shorter⟩ := mem_longSuffixes.1 hx
  exact mem_longSuffixes.2 ⟨inner.trans suffix, long, shorter.trans short⟩

theorem subset_of_mem_pieces (h : piece ∈ pieces right) : piece ⊆ right := by
  rcases mem_pieces.1 h with ⟨t, ht, -, rfl⟩ | h
  · simpa using ht
  · exact subset_of_mem_longSuffixes h

/-- A piece of two or more symbols has no pieces but those of the right side that it comes from. -/
theorem pieces_sub (h : piece ∈ longSuffixes right) : pieces piece ⊆ pieces right := by
  intro x hx
  rcases mem_pieces.1 hx with ⟨s, hs, terminal, rfl⟩ | hx
  · exact mem_pieces.2 (.inl ⟨s, subset_of_mem_longSuffixes h hs, terminal, rfl⟩)
  · exact mem_pieces.2 (.inr (longSuffixes_sub h hx))

end Pieces

/-! ## Halving -/

namespace PieceNames

variable {names : PieceNames} {supply : Supply} {wanted : List (List Symbol)} {right : List Symbol} {s : Symbol}

/-- Every part that halving refers to has a symbol, down to the last two symbols. -/
def Covers (names : PieceNames) : List Symbol → Prop
  | s :: t :: rest => names.Has [s] ∧ names.Has (t :: rest) ∧ names.Covers (t :: rest)
  | _ => True

theorem mem_halve (ok : Names names supply wanted) (covers : names.Covers right)
    (h : s ∈ names.halve right) : s ∈ right ∨ names.IsLetter s := by
  match right, covers with
  | [], _ => exact absurd h List.not_mem_nil
  | [_], _ => exact .inl h
  | t :: u :: rest, ⟨first, second, _⟩ =>
    rcases List.mem_cons.1 h with rfl | h
    · exact (symbolOf_cases ok first).imp_left fun h => List.mem_cons.2 (.inl (List.mem_singleton.1 h))
    · obtain rfl := List.mem_singleton.1 h
      exact (symbolOf_cases ok second).imp_left (List.mem_cons_of_mem _)

/-- Halving refers to named pieces only, once the pieces of the right side are named. -/
theorem covers_of_pieces (h : 2 ≤ right.length → ∀ x ∈ pieces right, ∃ a, names[x]? = some a) :
    names.Covers right := by
  induction right with
  | nil => trivial
  | cons s right ih =>
    cases right with
    | nil => trivial
    | cons t rest =>
      have long : 2 ≤ (s :: t :: rest).length := by simp
      have symbol : ∀ u ∈ s :: t :: rest, names.Has [u] := by
        intro u hu
        by_cases terminal : Symbol.isTerminal u
        · exact .inr (h long [u] (mem_pieces.2 (.inl ⟨u, hu, terminal, rfl⟩)))
        · exact .inl ⟨u, rfl, Symbol.not_isTerminal.1 terminal⟩
      refine ⟨symbol s (by simp), ?_, ih fun long' x hx => h long x (pieces_sub ?_ hx)⟩
      · cases rest with
        | nil => exact symbol t (by simp)
        | cons u rest => exact .inr (h long _ (mem_pieces.2 (.inr (by simp [longSuffixes]))))
      · rw [longSuffixes, if_pos long']
        exact List.mem_cons_self

end PieceNames

/-! ## Binarization -/

/-- the pieces of all right sides of two or more symbols -/
def longPieces (g : Grammar) : List (List Symbol) :=
  (g.rules.filter fun p => 2 ≤ p.right.length).flatMap fun p => pieces p.right

variable {g h : Grammar} {names : PieceNames} {p : Production} {s a : Symbol} {piece right w : List Symbol}

theorem mem_longPieces : piece ∈ g.longPieces ↔ ∃ p ∈ g.productions, 2 ≤ p.right.length ∧ piece ∈ pieces p.right := by
  simp [longPieces, and_assoc]

/-- what binarization makes -/
def Binarized (g h : Grammar) (names : PieceNames) : Prop := Cut g h names g.longPieces names.halve

/-- Binarization cuts right sides by the names of their pieces. -/
theorem names_of_binarize (made : g.binarize = .ok h) :
    ∃ names, namePieces g.supply g.longPieces = .ok names ∧ Binarized g h names := by
  simp only [binarize, bind, Except.bind, pure, Except.pure] at made
  generalize eq : namePieces g.supply _ = result at made
  cases result with
  | error e => cases made
  | ok names =>
  simp only [Except.ok.injEq] at made
  subst made
  refine ⟨names, eq, rfl, rfl, namePieces_spec Supply.nodup_avoiding ?_ eq, ?_, ?_⟩
  · intro s hs
    obtain ⟨q, -, -, hs⟩ := mem_longPieces.1 hs
    exact isTerminal_of_mem_pieces hs
  · intro piece mem
    obtain ⟨q, hq, -, mem⟩ := mem_longPieces.1 mem
    exact ⟨ne_nil_of_mem_pieces mem, q, hq, subset_of_mem_pieces mem⟩
  · intro p
    simp only [Grammar.withProductions, FiniteSet.mem_ofList, List.mem_append, List.mem_map, mem_rules, Prod.exists,
      Std.ExtTreeMap.mem_toList_iff_getElem?_eq_some]
    simp only [eq_comm]

theorem binarized_of_ok (made : g.binarize = .ok h) : ∃ names, Binarized g h names :=
  (names_of_binarize made).imp fun _ => And.right

namespace Binarized

theorem covers (b : Binarized g h names) (whole : Whole g names right) : names.Covers right := by
  rcases whole with ⟨p, hp, rfl⟩ | ⟨a, named⟩
  · exact covers_of_pieces fun long x hx => b.named.known x (mem_longPieces.2 ⟨p, hp, long, hx⟩)
  · obtain ⟨p, hp, long, mem⟩ := mem_longPieces.1 (b.named.wanted right a named)
    rcases mem_pieces.1 mem with ⟨t, -, -, rfl⟩ | mem
    · trivial
    · exact covers_of_pieces fun _ x hx => b.named.known x (mem_longPieces.2 ⟨p, hp, long, pieces_sub mem hx⟩)

theorem mem_halve (b : Binarized g h names) (whole : Whole g names right) (hs : s ∈ names.halve right) :
    s ∈ right ∨ names.IsLetter s :=
  PieceNames.mem_halve b.named (b.covers whole) hs

theorem reading_halve (b : Binarized g h names) (whole : Whole g names right) :
    (cutReading g names).form (names.halve right) = (words g.rules).form right := by
  have old := fun s (hs : s ∈ right) => b.not_letter_of_whole whole hs
  match right, b.covers whole, old with
  | [], _, _ => rfl
  | [s], _, old => exact Reading.form_congr fun t ht => cutReading_old (old t ht)
  | s :: t :: rest, ⟨first, second, _⟩, old =>
    rw [List.forall_mem_cons] at old
    rw [PieceNames.halve, Reading.form_cons, Reading.form_singleton, b.cutReading_symbolOf first (by simpa using old.1),
      b.cutReading_symbolOf second old.2, Reading.form_singleton, ← Reading.form_cons]

theorem form_le_symbolOf (b : Binarized g h names) (has : names.Has piece) (covers : names.Covers piece) :
    (words h.rules).form piece ≤ words h.rules (names.symbolOf piece) := by
  induction piece with
  | nil =>
    rcases has with ⟨t, eq, -⟩ | ⟨a, named⟩
    · cases eq
    · rw [symbolOf_named b.named named]
      exact b.letter_rule named
  | cons s rest ih =>
    cases rest with
    | nil =>
      rw [Reading.form_singleton]
      exact b.le_symbolOf_singleton (fun _ => rfl) has
    | cons t rest =>
      obtain ⟨first, second, covers⟩ := covers
      obtain ⟨u, eq, -⟩ | ⟨a, named⟩ := has
      · cases eq
      · rw [symbolOf_named b.named named]
        refine le_trans ?_ (b.letter_rule named)
        rw [PieceNames.halve, Reading.form_cons, Reading.form_cons (f := [_]), Reading.form_singleton]
        exact mul_le_mul' (b.le_symbolOf_singleton (fun _ => rfl) first) (ih second covers)

theorem form_le_halve (b : Binarized g h names) (whole : Whole g names right) :
    (words h.rules).form right ≤ (words h.rules).form (names.halve right) := by
  match right, b.covers whole with
  | [], _ | [_], _ => exact le_rfl
  | s :: t :: rest, ⟨first, second, covers⟩ =>
    rw [PieceNames.halve, Reading.form_cons, Reading.form_cons (f := [_]), Reading.form_singleton]
    exact mul_le_mul' (b.le_symbolOf_singleton (fun _ => rfl) first) (b.form_le_symbolOf second covers)

theorem generates_iff (b : Binarized g h names) : h.Generates w ↔ g.Generates w :=
  Cut.generates_iff b (fun _ => b.reading_halve) (fun _ => b.form_le_halve)

theorem wellFormed (b : Binarized g h names) (wf : g.WellFormed) : h.WellFormed :=
  Cut.wellFormed b wf fun _ whole _ => b.mem_halve whole

theorem confined (b : Binarized g h names) (confined : g.EpsilonConfined) : h.EpsilonConfined := by
  apply Cut.confined b confined (fun _ whole _ => b.mem_halve whole)
  intro right nil
  rcases right with _ | ⟨s, _ | ⟨t, rest⟩⟩
  · rfl
  · exact nil
  · cases nil

end Binarized

/-! ## Chomsky normal form -/

/-- what `isChomsky` tests, case by case -/
inductive ChomskyRight (g : Grammar) (p : Production) : Prop
  | empty : p.right = [] → p.left = g.start → (∀ q ∈ g.productions, g.start ∉ q.right) → ChomskyRight g p
  | single (a : Symbol) : p.right = [a] → Symbol.isTerminal a → ChomskyRight g p
  | pair (b c : Symbol) : p.right = [b, c] → Symbol.isNonTerminal b → Symbol.isNonTerminal c → ChomskyRight g p

theorem isChomsky_iff : g.isChomsky ↔ ∀ p ∈ g.productions, ChomskyRight g p := by
  simp only [isChomsky, List.all_eq_true, mem_rules]
  apply forall₂_congr
  intro p _
  constructor
  · intro test
    split at test
    · rename_i right
      rw [Bool.and_eq_true, Bool.not_eq_true', startOnRight_eq_false_iff, beq_iff_eq] at test
      exact .empty right test.1 test.2
    · rename_i a right
      exact .single a right test
    · rename_i b c right
      rw [Bool.and_eq_true] at test
      exact .pair b c right test.1 test.2
    · cases test
  · rintro (⟨right, left, start⟩ | ⟨a, right, ha⟩ | ⟨b, c, right, hb, hc⟩)
    · simp only [right, Bool.and_eq_true, Bool.not_eq_true', beq_iff_eq]
      exact ⟨left, startOnRight_eq_false_iff.2 start⟩
    · simp only [right]
      exact ha
    · simp only [right, Bool.and_eq_true]
      exact ⟨hb, hc⟩

theorem confined_of_isChomsky (shape : g.isChomsky) : g.EpsilonConfined := by
  intro p mem empty
  rcases isChomsky_iff.1 shape p mem with ⟨-, left, free⟩ | ⟨a, right, -⟩ | ⟨b, c, right, -, -⟩
  · exact ⟨left, free⟩
  · cases empty.symm.trans right
  · cases empty.symm.trans right

theorem Binarized.isNonTerminal_halve (b : Binarized g h names) (whole : Whole g names right)
    (long : 2 ≤ right.length) :
    ∃ s t, names.halve right = [s, t] ∧ Symbol.isNonTerminal s ∧ Symbol.isNonTerminal t := by
  match right, b.covers whole, long with
  | s :: t :: rest, ⟨first, second, _⟩, _ =>
    exact ⟨_, _, rfl, isNonTerminal_symbolOf b.named first, isNonTerminal_symbolOf b.named second⟩

/-- One pass makes the shape, once the empty right sides are confined and there are no unit productions. -/
theorem Binarized.isChomsky (b : Binarized g h names) (confined : g.EpsilonConfined) (unitFree : g.UnitFree) :
    h.isChomsky := by
  apply isChomsky_iff.2
  intro p mem
  obtain ⟨right, whole, eq⟩ := b.mem_of_whole mem
  match right, whole, eq with
  | [], _, eq =>
    obtain ⟨left, free⟩ := b.confined confined p mem eq
    exact .empty eq left free
  | [s], whole, eq =>
    refine .single s eq ?_
    rcases whole with ⟨q, hq, right⟩ | ⟨a, named⟩
    · exact Symbol.isTerminal_iff_not.2 fun hs => unitFree q hq (isUnit_iff.2 ⟨s, right, hs⟩)
    · exact b.named.single s a named
  | s :: t :: rest, whole, eq =>
    obtain ⟨x, y, halves, hx, hy⟩ := b.isNonTerminal_halve whole (by simp)
    exact .pair x y (eq.trans halves) hx hy

theorem stages_of_toChomsky (rule : g.hasStartRule) (made : g.toChomsky = .ok h) :
    ∃ k, g.proper = .ok k ∧ k.binarize = .ok h := by
  rw [toChomsky, if_pos rule] at made
  exact exists_of_bind made

/-- **Conversion to Chomsky normal form** keeps the language and makes the shape. -/
theorem toChomsky_spec (wf : g.WellFormed) (rule : g.hasStartRule) (made : g.toChomsky = .ok h) :
    h.WellFormed ∧ h.isChomsky ∧ ∀ w, h.Generates w ↔ g.Generates w := by
  obtain ⟨k, proper, made⟩ := stages_of_toChomsky rule made
  have form := proper_spec wf rule proper
  obtain ⟨names, b⟩ := binarized_of_ok made
  refine ⟨b.wellFormed form.wellFormed, b.isChomsky form.confined form.unitFree, fun w => ?_⟩
  rw [b.generates_iff, form.generates w]

/-- **Chomsky normal form, right side by right side.** The test passes and every production is of one of the three
kinds, the language is the same, and the start symbol has an empty right side exactly when the empty word belongs to
it. -/
theorem toChomsky_normalForm (wf : g.WellFormed) (rule : g.hasStartRule) (made : g.toChomsky = .ok h) :
    (h.isChomsky ∧ ∀ p ∈ h.productions, ChomskyRight h p) ∧ (∀ w, h.Generates w ↔ g.Generates w) ∧
      (h.hasStartEpsilon ↔ g.Generates []) := by
  obtain ⟨wfResult, shape, same⟩ := toChomsky_spec wf rule made
  have confined := confined_of_isChomsky shape
  refine ⟨⟨shape, isChomsky_iff.1 shape⟩, same, ?_⟩
  calc h.hasStartEpsilon ↔ ⟨h.start, []⟩ ∈ h.productions := by rw [hasStartEpsilon_iff]
    _ ↔ [] ∈ words h.rules h.start := (confined.nil_mem_words_iff wfResult.start_nonTerminal).symm
    _ ↔ g.Generates [] := same []

set_option maxRecDepth 100000 in
/-- The start symbol of the grammar of brackets is nullable and stands on a right side, so it gets a new one above it. -/
theorem toChomsky_brackets : brackets.WellFormed ∧ brackets.hasStartRule ∧ ∃ h, brackets.toChomsky = .ok h ∧
    (h.isChomsky ∧ ∀ p ∈ h.productions, ChomskyRight h p) ∧ (∀ w, h.Generates w ↔ brackets.Generates w) ∧
      (h.hasStartEpsilon ↔ brackets.Generates []) := by
  have rule : brackets.hasStartRule := by decide +kernel
  obtain ⟨h, made⟩ : ∃ h, brackets.toChomsky = .ok h := exists_of_isOk (by decide +kernel)
  exact ⟨brackets_wellFormed, rule, h, made, toChomsky_normalForm brackets_wellFormed rule made⟩

end ContextFree.Grammar
