import ContextFree.Proofs.Proper
import ContextFree.Transformation.Chomsky

/-!
Right sides that are cut into pieces. A letter drawn for a piece stands for the words of that piece, in both directions:
it derives them, and in a reading that gives it exactly these words the new productions are closed.

- `namePieces_spec`: every piece gets a letter of its own, none of which was in use;
- `Cut.words_eq`: a grammar whose right sides are cut derives the same words, provided that a cut right side stands for
  the words of the whole one;
- `Cut.wellFormed`, `Cut.confined`: it stays well-formed, and its empty right sides stay confined.
-/

namespace ContextFree.Grammar

open Std (ExtTreeMap ExtTreeSet)

/-! ## Letters for pieces -/

namespace PieceNames

variable {names : PieceNames} {supply : Supply} {pieces : List (List Symbol)} {piece : List Symbol} {a s : Symbol}

/-- The pieces of a list, and they alone, have letters of the supply, no two the same; of the single symbols only
terminals have one. -/
structure Names (names : PieceNames) (supply : Supply) (pieces : List (List Symbol)) : Prop where
  known : ∀ piece ∈ pieces, ∃ a, names[piece]? = some a
  wanted : ∀ (piece : List Symbol) a, names[piece]? = some a → piece ∈ pieces
  fresh : ∀ (piece : List Symbol) a, names[piece]? = some a → a ∈ supply.free
  distinct : ∀ (piece other : List Symbol) a, names[piece]? = some a → names[other]? = some a → piece = other
  single : ∀ s a, names[[s]]? = some a → Symbol.isTerminal s

/-- The piece is a single non-terminal, or it has a letter. -/
def Has (names : PieceNames) (piece : List Symbol) : Prop :=
  (∃ s, piece = [s] ∧ Symbol.isNonTerminal s) ∨ ∃ a, names[piece]? = some a

/-- It is the letter of some piece. -/
def IsLetter (names : PieceNames) (a : Symbol) : Prop := ∃ piece : List Symbol, names[piece]? = some a

theorem symbolOf_nonTerminal (hs : Symbol.isNonTerminal s) : names.symbolOf [s] = s := by
  simp [symbolOf, hs]

theorem symbolOf_named (ok : Names names supply pieces) (h : names[piece]? = some a) : names.symbolOf piece = a := by
  unfold symbolOf
  split
  · rename_i s
    rw [if_neg (Symbol.isTerminal_iff_not.1 (ok.single s a h)), ExtTreeMap.getD_eq_getD_getElem?, h]
    rfl
  · rw [ExtTreeMap.getD_eq_getD_getElem?, h]
    rfl

theorem isNonTerminal_symbolOf {g : Grammar} (ok : Names names g.supply pieces) (has : names.Has piece) :
    Symbol.isNonTerminal (names.symbolOf piece) := by
  rcases has with ⟨s, rfl, hs⟩ | ⟨a, ha⟩
  · rwa [symbolOf_nonTerminal hs]
  · rw [symbolOf_named ok ha]
    exact (fresh_of_mem_supply (ok.fresh piece a ha)).1

/-- The symbol for a piece is a symbol of the piece, or a letter. -/
theorem symbolOf_cases (ok : Names names supply pieces) (has : names.Has piece) :
    names.symbolOf piece ∈ piece ∨ names.IsLetter (names.symbolOf piece) := by
  rcases has with ⟨s, rfl, hs⟩ | ⟨a, ha⟩
  · rw [symbolOf_nonTerminal hs]
    exact .inl (List.mem_singleton_self s)
  · rw [symbolOf_named ok ha]
    exact .inr ⟨piece, ha⟩

end PieceNames

open PieceNames

theorem unseen_mem {α : Type} [Ord α] [Std.TransOrd α] [Std.LawfulEqOrd α] {l : List α} {a : α} :
    a ∈ (Search.unseen ∅ l).1 ↔ a ∈ l := by
  rw [Search.mem_unseen_fst]
  simp

section Naming

variable {supply : Supply} {pieces : List (List Symbol)} {names : PieceNames} {piece other : List Symbol} {a : Symbol}

/-- the letters that a supply has for pieces, in the order in which they first occur, as far as they go -/
def lettersFor (supply : Supply) (pieces : List (List Symbol)) : PieceNames :=
  ExtTreeMap.ofList ((Search.unseen ∅ pieces).1.zip supply.free) compare

/-- The supply has a letter for every different piece. -/
def Suffices (supply : Supply) (pieces : List (List Symbol)) : Prop :=
  (Search.unseen ∅ pieces).1.length ≤ supply.free.length

theorem namePieces_ok (enough : Suffices supply pieces) : namePieces supply pieces = .ok (lettersFor supply pieces) := by
  have drawn : supply.name (Search.unseen ∅ pieces).1 = .ok _ := if_pos enough
  rw [namePieces, drawn]
  rfl

theorem namePieces_error (short : ¬ Suffices supply pieces) : namePieces supply pieces = .error .symbolsExhausted := by
  have exhausted : supply.name (Search.unseen ∅ pieces).1 = .error _ := if_neg short
  rw [namePieces, exhausted]
  rfl

theorem getElem?_lettersFor :
    (lettersFor supply pieces)[piece]? = some a ↔ (piece, a) ∈ (Search.unseen ∅ pieces).1.zip supply.free := by
  refine Search.lookup_iff ?_
  rw [List.zip_eq_zip_take_min, List.map_fst_zip (by simp)]
  exact Search.nodup_unseen_fst.sublist (List.take_sublist _ _)

theorem lettersFor_free (named : (lettersFor supply pieces)[piece]? = some a) : a ∈ supply.free :=
  (List.of_mem_zip (getElem?_lettersFor.1 named)).2

theorem lettersFor_injective (nodup : supply.free.Nodup) (named : (lettersFor supply pieces)[piece]? = some a)
    (also : (lettersFor supply pieces)[other]? = some a) : piece = other := by
  obtain ⟨i, hi, first⟩ := List.getElem_of_mem (getElem?_lettersFor.1 named)
  obtain ⟨j, hj, second⟩ := List.getElem_of_mem (getElem?_lettersFor.1 also)
  simp only [List.getElem_zip, Prod.mk.injEq] at first second
  have same : i = j := (List.Nodup.getElem_inj_iff nodup).1 (first.2.trans second.2.symm)
  subst same
  exact first.1.symm.trans second.1

/-- **Naming is one to one**: every piece gets a letter, and no two pieces the same. -/
theorem namePieces_spec (nodup : supply.free.Nodup) (single : ∀ s, [s] ∈ pieces → Symbol.isTerminal s)
    (made : namePieces supply pieces = .ok names) : Names names supply pieces := by
  by_cases enough : Suffices supply pieces
  swap
  · cases (namePieces_error enough).symm.trans made
  cases (namePieces_ok enough).symm.trans made
  have wanted : ∀ (piece : List Symbol) a, (lettersFor supply pieces)[piece]? = some a → piece ∈ pieces := fun _ _ named =>
    unseen_mem.1 (List.of_mem_zip (getElem?_lettersFor.1 named)).1
  refine ⟨fun piece mem => ?_, wanted, fun _ _ => lettersFor_free, fun _ _ _ => lettersFor_injective nodup,
    fun s a named => single s (wanted [s] a named)⟩
  have known := unseen_mem.2 mem
  rw [← List.map_fst_zip enough] at known
  obtain ⟨⟨x, a⟩, paired, rfl⟩ := List.mem_map.1 known
  exact ⟨a, getElem?_lettersFor.2 paired⟩

end Naming

/-! ## Cut right sides -/

/-- Every right side is cut, and there is one production for every letter. -/
structure Cut (g h : Grammar) (names : PieceNames) (pieces : List (List Symbol))
    (cut : List Symbol → List Symbol) : Prop where
  start : h.start = g.start
  epsilon : h.epsilon = g.epsilon
  named : Names names g.supply pieces
  origin : ∀ piece ∈ pieces, piece ≠ [] ∧ ∃ p ∈ g.productions, piece ⊆ p.right
  productions : ∀ p, p ∈ h.productions ↔ (∃ q ∈ g.productions, p = ⟨q.left, cut q.right⟩) ∨
    ∃ (piece : List Symbol) (a : Symbol), names[piece]? = some a ∧ p = ⟨a, cut piece⟩

variable {g h : Grammar} {names : PieceNames} {pieces : List (List Symbol)} {cut : List Symbol → List Symbol}
  {p : Production} {s a : Symbol} {piece right w : List Symbol}

/-- what is cut: a right side, or a named piece -/
def Whole (g : Grammar) (names : PieceNames) (right : List Symbol) : Prop :=
  (∃ p ∈ g.productions, p.right = right) ∨ ∃ a, names[right]? = some a

/-- Letters stand for the words of their pieces, the other symbols for what they derived before. -/
def cutReading (g : Grammar) (names : PieceNames) : Reading := fun s =>
  {w | (∀ piece : List Symbol, names[piece]? = some s → w ∈ (words g.rules).form piece) ∧
    ((∀ piece : List Symbol, names[piece]? ≠ some s) → w ∈ words g.rules s)}

theorem cutReading_old (none : ∀ piece : List Symbol, names[piece]? ≠ some s) :
    cutReading g names s = words g.rules s := by
  ext w
  exact ⟨fun hw => hw.2 none, fun hw => ⟨fun piece named => absurd named (none piece), fun _ => hw⟩⟩

namespace Cut

theorem letter_unused (c : Cut g h names pieces cut) (named : names[piece]? = some a) :
    Symbol.isNonTerminal a ∧ a ∉ g.symbols ∧ a ≠ g.start ∧ a ≠ g.epsilon :=
  fresh_of_mem_supply (c.named.fresh piece a named)

theorem mem_right_of_whole (c : Cut g h names pieces cut) (whole : Whole g names right) (hs : s ∈ right) :
    ∃ p ∈ g.productions, s ∈ p.right := by
  rcases whole with ⟨p, hp, rfl⟩ | ⟨a, named⟩
  · exact ⟨p, hp, hs⟩
  · obtain ⟨-, p, hp, sub⟩ := c.origin right (c.named.wanted right a named)
    exact ⟨p, hp, sub hs⟩

theorem not_letter (c : Cut g h names pieces cut) (hs : s ∈ g.symbols) (piece : List Symbol) :
    names[piece]? ≠ some s :=
  fun named => (c.letter_unused named).2.1 hs

theorem not_letter_of_whole (c : Cut g h names pieces cut) (whole : Whole g names right) (hs : s ∈ right)
    (piece : List Symbol) : names[piece]? ≠ some s := by
  obtain ⟨p, hp, used⟩ := c.mem_right_of_whole whole hs
  exact c.not_letter (mem_symbols.2 ⟨p, hp, .inr used⟩) piece

theorem old_production (c : Cut g h names pieces cut) (mem : p ∈ g.productions) :
    ⟨p.left, cut p.right⟩ ∈ h.productions :=
  (c.productions _).2 (.inl ⟨p, mem, rfl⟩)

theorem letter_production (c : Cut g h names pieces cut) (named : names[piece]? = some a) :
    ⟨a, cut piece⟩ ∈ h.productions :=
  (c.productions _).2 (.inr ⟨piece, a, named, rfl⟩)

theorem mem_of_whole (c : Cut g h names pieces cut) (mem : p ∈ h.productions) :
    ∃ right, Whole g names right ∧ p.right = cut right := by
  rcases (c.productions p).1 mem with ⟨q, hq, rfl⟩ | ⟨piece, a, named, rfl⟩
  · exact ⟨q.right, .inl ⟨q, hq, rfl⟩, rfl⟩
  · exact ⟨piece, .inr ⟨a, named⟩, rfl⟩

/-! ### Nothing more is derived -/

theorem cutReading_letter (c : Cut g h names pieces cut) (named : names[piece]? = some a) :
    cutReading g names a = (words g.rules).form piece := by
  ext w
  constructor
  · exact fun hw => hw.1 piece named
  · refine fun hw => ⟨fun other also => ?_, fun none => absurd named (none piece)⟩
    rwa [c.named.distinct other piece a also named]

theorem cutReading_symbolOf (c : Cut g h names pieces cut) (has : names.Has piece)
    (old : ∀ s ∈ piece, ∀ other : List Symbol, names[other]? ≠ some s) :
    cutReading g names (names.symbolOf piece) = (words g.rules).form piece := by
  rcases has with ⟨s, rfl, hs⟩ | ⟨a, ha⟩
  · rw [symbolOf_nonTerminal hs, Reading.form_singleton]
    exact cutReading_old (old s (List.mem_singleton_self s))
  · rw [symbolOf_named c.named ha]
    exact c.cutReading_letter ha

theorem cutReading_closed (c : Cut g h names pieces cut)
    (same : ∀ right, Whole g names right → (cutReading g names).form (cut right) = (words g.rules).form right) :
    (cutReading g names).Closed h.rules := by
  refine ⟨?_, ?_⟩
  · intro a ha
    rw [cutReading_old fun piece named => Symbol.isTerminal_iff_not.1 ha (c.letter_unused named).1]
    exact singleton_mem_words ha
  · intro p mem
    rcases (c.productions p).1 (mem_rules.1 mem) with ⟨q, hq, rfl⟩ | ⟨piece, a, named, rfl⟩
    · have left : q.left ∈ g.symbols := mem_symbols.2 ⟨q, hq, .inl rfl⟩
      rw [same q.right (.inl ⟨q, hq, rfl⟩), cutReading_old (c.not_letter left)]
      exact words_closed.rule q (mem_rules.2 hq)
    · rw [same piece (.inr ⟨a, named⟩), c.cutReading_letter named]

/-! ### Nothing is lost -/

theorem letter_rule (c : Cut g h names pieces cut) (named : names[piece]? = some a) :
    (words h.rules).form (cut piece) ≤ words h.rules a :=
  form_le_words (mem_rules.2 (c.letter_production named))

theorem le_symbolOf_singleton (c : Cut g h names pieces cut) (alone : ∀ s, cut [s] = [s]) (has : names.Has [s]) :
    words h.rules s ≤ words h.rules (names.symbolOf [s]) := by
  rcases has with ⟨t, eq, ht⟩ | ⟨a, named⟩
  · obtain ⟨rfl, -⟩ := List.cons_eq_cons.1 eq
    rw [symbolOf_nonTerminal ht]
  · have rule := c.letter_rule named
    rwa [alone, Reading.form_singleton, ← symbolOf_named c.named named] at rule

/-- **Cutting right sides** leaves the words of the symbols that were there before. -/
theorem words_eq (c : Cut g h names pieces cut)
    (same : ∀ right, Whole g names right → (cutReading g names).form (cut right) = (words g.rules).form right)
    (le : ∀ right, Whole g names right → (words h.rules).form right ≤ (words h.rules).form (cut right))
    (none : ∀ piece : List Symbol, names[piece]? ≠ some s) : words h.rules s = words g.rules s := by
  apply le_antisymm
  · calc words h.rules s ≤ cutReading g names s := words_le (c.cutReading_closed same) s
      _ = words g.rules s := cutReading_old none
  · refine words_le ⟨fun a => singleton_mem_words, fun p mem => ?_⟩ s
    have mem := mem_rules.1 mem
    exact (le p.right (.inl ⟨p, mem, rfl⟩)).trans (form_le_words (mem_rules.2 (c.old_production mem)))

theorem generates_iff (c : Cut g h names pieces cut)
    (same : ∀ right, Whole g names right → (cutReading g names).form (cut right) = (words g.rules).form right)
    (le : ∀ right, Whole g names right → (words h.rules).form right ≤ (words h.rules).form (cut right)) :
    h.Generates w ↔ g.Generates w := by
  rw [Grammar.generates_iff, Grammar.generates_iff, c.start,
    c.words_eq same le fun piece named => (c.letter_unused named).2.2.1 rfl]

/-! ### What is kept -/

theorem wellFormed (c : Cut g h names pieces cut) (wf : g.WellFormed)
    (sub : ∀ right, Whole g names right → ∀ s ∈ cut right, s ∈ right ∨ names.IsLetter s) : h.WellFormed := by
  refine ⟨?_, ?_, ?_, ?_⟩
  · rw [c.start]
    exact wf.start_nonTerminal
  · intro p mem
    rcases (c.productions p).1 mem with ⟨q, hq, rfl⟩ | ⟨piece, a, named, rfl⟩
    · exact wf.left_nonTerminal q hq
    · exact (c.letter_unused named).1
  · rw [c.epsilon]
    exact wf.epsilon_terminal
  · intro p mem used
    obtain ⟨right, whole, eq⟩ := c.mem_of_whole mem
    rw [c.epsilon, eq] at used
    rcases sub right whole _ used with used | ⟨piece, named⟩
    · obtain ⟨q, hq, used⟩ := c.mem_right_of_whole whole used
      exact wf.epsilon_not_right q hq used
    · exact (c.letter_unused named).2.2.2 rfl

theorem confined (c : Cut g h names pieces cut) (confined : g.EpsilonConfined)
    (sub : ∀ right, Whole g names right → ∀ s ∈ cut right, s ∈ right ∨ names.IsLetter s)
    (empty : ∀ right, cut right = [] → right = []) : h.EpsilonConfined := by
  intro p mem nil
  rcases (c.productions p).1 mem with ⟨q, hq, rfl⟩ | ⟨piece, a, named, rfl⟩
  · obtain ⟨left, free⟩ := confined q hq (empty _ nil)
    refine ⟨left.trans c.start.symm, fun r mem used => ?_⟩
    obtain ⟨right, whole, eq⟩ := c.mem_of_whole mem
    rw [c.start, eq] at used
    rcases sub right whole _ used with used | ⟨piece, named⟩
    · obtain ⟨q', hq', used⟩ := c.mem_right_of_whole whole used
      exact free q' hq' used
    · exact (c.letter_unused named).2.2.1 rfl
  · exact absurd (empty _ nil) (c.origin piece (c.named.wanted piece a named)).1

end Cut

end ContextFree.Grammar
