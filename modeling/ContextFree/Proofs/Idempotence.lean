import ContextFree.Proofs.Useful
import ContextFree.Proofs.Chomsky

/-!
A grammar in Chomsky normal form that the conversion made is not changed by a second conversion. Each stage leaves it as
it is, for a reason of its own:

- `Binarized.useful`: it has no useless symbol, since binarization keeps grammars useful;
- `EpsilonConfined.removeEpsilonProductions_eq`: its empty right side is the one that the removal of empty right sides
  puts back;
- `proper_eq_self`: so the proper form of a grammar that is already proper is the grammar, and no new start symbol is
  drawn;
- `binarize_eq_self`: right sides of two non-terminals have no pieces, so no letter is drawn and nothing is split;
- `toChomsky_idempotent`: the second conversion succeeds, draws nothing, and returns what it is given.
-/

namespace ContextFree.Grammar

open Relation PieceNames

variable {g h : Grammar} {names : PieceNames} {p : Production} {s t x : Symbol} {piece right : List Symbol}

/-! ## Binarization keeps grammars useful -/

/-- The symbol leads to every symbol of the right side, and to the symbol of every piece of it. -/
structure Spans (h : Grammar) (names : PieceNames) (x : Symbol) (right : List Symbol) : Prop where
  symbols : ∀ u ∈ right, ReflTransGen h.Leads x u
  pieces : ∀ piece ∈ pieces right, ReflTransGen h.Leads x (names.symbolOf piece)

theorem pieces_cons (mem : piece ∈ pieces (s :: right)) :
    piece = [s] ∨ piece = right ∨ piece ∈ pieces right := by
  rcases mem_pieces.1 mem with ⟨u, hu, terminal, rfl⟩ | long
  · exact (List.mem_cons.1 hu).imp (congrArg ([·])) fun hu => .inr (mem_pieces.2 (.inl ⟨u, hu, terminal, rfl⟩))
  · simp only [longSuffixes] at long
    split at long
    · exact .inr ((List.mem_cons.1 long).imp_right fun long => mem_pieces.2 (.inr long))
    · cases long

namespace Binarized

theorem leads_symbolOf_singleton (b : Binarized g h names) (has : names.Has [s]) :
    ReflTransGen h.Leads (names.symbolOf [s]) s := by
  rcases has with ⟨t, eq, ht⟩ | ⟨a, named⟩
  · obtain ⟨rfl, -⟩ := List.cons_eq_cons.1 eq
    rw [symbolOf_nonTerminal ht]
  · rw [symbolOf_named b.named named]
    exact .single ⟨[s], b.letter_production named, List.mem_singleton_self s⟩

/-- What is halved is spanned, once the second half is spanned by its own symbol. -/
theorem spans_halved (b : Binarized g h names) (rule : ⟨x, names.halve (s :: t :: right)⟩ ∈ h.productions)
    (first : names.Has [s]) (tail : Spans h names (names.symbolOf (t :: right)) (t :: right)) :
    Spans h names x (s :: t :: right) := by
  have head : ReflTransGen h.Leads x (names.symbolOf [s]) := .single ⟨_, rule, List.mem_cons_self⟩
  have second : ReflTransGen h.Leads x (names.symbolOf (t :: right)) :=
    .single ⟨_, rule, List.mem_cons_of_mem _ List.mem_cons_self⟩
  constructor
  · exact List.forall_mem_cons.2
      ⟨head.trans (b.leads_symbolOf_singleton first), fun u hu => second.trans (tail.symbols u hu)⟩
  · intro piece mem
    rcases pieces_cons mem with rfl | rfl | mem
    · exact head
    · exact second
    · exact second.trans (tail.pieces piece mem)

/-- The symbol of a piece spans the piece. The induction goes down the second halves. -/
theorem spans_symbolOf (b : Binarized g h names) (has : names.Has piece) (covers : names.Covers piece) :
    Spans h names (names.symbolOf piece) piece := by
  induction piece with
  | nil => exact ⟨by simp, by simp [Grammar.pieces, longSuffixes]⟩
  | cons s rest ih =>
    cases rest with
    | nil =>
      refine ⟨by simpa using b.leads_symbolOf_singleton has, fun piece mem => ?_⟩
      obtain rfl : piece = [s] := by
        rcases mem_pieces.1 mem with ⟨u, hu, -, rfl⟩ | long
        · rw [List.mem_singleton.1 hu]
        · simp [longSuffixes] at long
      exact .refl
    | cons t rest =>
      obtain ⟨first, second, covers⟩ := covers
      obtain ⟨u, eq, -⟩ | ⟨a, named⟩ := has
      · cases eq
      · rw [symbolOf_named b.named named]
        exact b.spans_halved (b.letter_production named) first (ih second covers)

theorem spans (b : Binarized g h names) (mem : p ∈ g.productions) (long : 2 ≤ p.right.length) :
    Spans h names p.left p.right := by
  have rule := b.old_production mem
  match p.right, b.covers (.inl ⟨p, mem, rfl⟩), long, rule with
  | s :: t :: rest, ⟨first, second, covers⟩, _, rule =>
    exact b.spans_halved rule first (b.spans_symbolOf second covers)

theorem leads (b : Binarized g h names) (reached : ReflTransGen g.Leads s t) : ReflTransGen h.Leads s t := by
  induction reached with
  | refl => exact .refl
  | tail _ step ih =>
    obtain ⟨right, mem, used⟩ := step
    match right, mem, used with
    | [u], mem, used => exact .tail ih ⟨[u], b.old_production mem, used⟩
    | u :: v :: rest, mem, used => exact ih.trans ((b.spans mem (by simp)).symbols _ used)

theorem words_eq (b : Binarized g h names) (known : s ∈ g.symbols) : words h.rules s = words g.rules s :=
  Cut.words_eq b (fun _ => b.reading_halve) (fun _ => b.form_le_halve) (b.not_letter known)

/-- **Binarization keeps grammars useful**: letters are reached by way of the right sides that they were drawn for. -/
theorem useful (b : Binarized g h names) (useful : g.Useful) : h.Useful := by
  apply useful_of_rules
  · intro p mem
    rw [b.start]
    rcases (b.productions p).1 mem with ⟨q, hq, rfl⟩ | ⟨piece, a, named, rfl⟩
    · exact b.leads (useful q.left (mem_symbols.2 ⟨q, hq, .inl rfl⟩)).2
    · obtain ⟨q, hq, long, mem⟩ := mem_longPieces.1 (b.named.wanted piece a named)
      have reached := b.leads (useful q.left (mem_symbols.2 ⟨q, hq, .inl rfl⟩)).2
      rw [← symbolOf_named b.named named]
      exact reached.trans ((b.spans hq long).pieces piece mem)
  · intro p mem
    obtain ⟨right, whole, eq⟩ := b.mem_of_whole mem
    have derived : ∀ s ∈ right, ∃ w, w ∈ words h.rules s := by
      intro s hs
      obtain ⟨q, hq, used⟩ := b.mem_right_of_whole whole hs
      have known : s ∈ g.symbols := mem_symbols.2 ⟨q, hq, .inr used⟩
      rw [b.words_eq known]
      exact (useful s known).1
    obtain ⟨w, hw⟩ := exists_mem_form_iff.2 derived
    exact ⟨w, eq ▸ b.form_le_halve whole hw⟩

theorem hasStartRule_of (b : Binarized g h names) (rule : h.hasStartRule) : g.hasStartRule := by
  obtain ⟨right, mem⟩ := hasStartRule_iff.1 rule
  rw [b.start] at mem
  rcases (b.productions _).1 mem with ⟨q, hq, eq⟩ | ⟨piece, a, named, eq⟩
  · have start : g.start = q.left := congrArg Production.left eq
    exact hasStartRule_iff.2 ⟨q.right, start ▸ hq⟩
  · exact absurd (congrArg Production.left eq).symm (b.letter_unused named).2.2.1

end Binarized

/-! ## Proper grammars -/

theorem mem_variants_iff_eq {nullable : FiniteSet Symbol} {variant : List Symbol} (none : ∀ s ∈ right, s ∉ nullable) :
    variant ∈ variants nullable right ↔ variant = right := by
  induction right generalizing variant with
  | nil => simp [variants]
  | cons s right ih =>
    rw [List.forall_mem_cons] at none
    simp [mem_variants_cons, none.1, ih none.2]

/-- **Where empty right sides are confined there is nothing to remove.** The empty right side of the start symbol is
dropped and put back. -/
theorem EpsilonConfined.removeEpsilonProductions_eq (confined : g.EpsilonConfined)
    (start : Symbol.isNonTerminal g.start) : g.removeEpsilonProductions = g := by
  by_cases none : g.nullableSymbols.isEmpty
  · exact Grammar.removeEpsilonProductions_eq none
  -- no symbol of a right side is nullable, so nothing can be left out of it
  have alone : ∀ q ∈ g.productions, ∀ variant,
      variant ∈ variants g.nullableSymbols q.right ↔ variant = q.right := fun q mem _ =>
    mem_variants_iff_eq fun s hs null => confined.nil_not_mem mem hs (mem_nullable.1 (nullableSymbols_sub null))
  refine eq_of_productions removeEpsilonProductions_start removeEpsilonProductions_epsilon fun p => ?_
  rw [mem_removeEpsilonProductions none]
  constructor
  · rintro (⟨rfl, null⟩ | ⟨q, mem, left, variant, -⟩)
    · exact (confined.nil_mem_words_iff start).1 (mem_nullable.1 (nullableSymbols_sub null))
    · obtain ⟨left', right⟩ := p
      obtain rfl : left' = q.left := left
      obtain rfl : right = q.right := (alone q mem right).1 variant
      exact mem
  · intro mem
    by_cases empty : p.right = []
    · obtain ⟨left, right⟩ := p
      obtain rfl : right = [] := empty
      obtain ⟨rfl, -⟩ := confined _ mem rfl
      refine .inl ⟨rfl, ?_⟩
      rw [nullableSymbols, if_pos (hasStartRule_iff.2 ⟨[], mem⟩)]
      exact nullable_closed mem (by simp)
    · exact .inr ⟨p, mem, rfl, (alone p mem _).2 rfl, empty⟩

theorem EpsilonConfined.start_not_both (confined : g.EpsilonConfined) :
    ¬ (g.start ∈ g.nullableSymbols ∧ g.startOnRight) := by
  rintro ⟨null, used⟩
  obtain ⟨q, mem, hs⟩ := startOnRight_iff.1 used
  exact confined.nil_not_mem mem hs (mem_nullable.1 (nullableSymbols_sub null))

/-- **A proper grammar is its own proper form.** -/
theorem proper_eq_self (useful : g.Useful) (start : Symbol.isNonTerminal g.start) (confined : g.EpsilonConfined)
    (unitFree : g.UnitFree) : g.proper = .ok g := by
  by_cases rule : g.hasStartRule
  swap
  · simp [proper, useful.removeUseless_eq, rule]
  have unit : g.removeUnitProductions = g := removeUnitProductions_eq ((unitProductions_isEmpty rule).2 unitFree)
  simp only [proper, useful.removeUseless_eq, rule, if_neg confined.start_not_both]
  simp only [confined.removeEpsilonProductions_eq start, unit, useful.removeUseless_eq]
  rfl

theorem useful_of_proper (made : g.proper = .ok h) (rule : h.hasStartRule) : h.Useful := by
  obtain ⟨none, rfl⟩ | ⟨-, k, rfl, -⟩ := proper_cases made
  · exact absurd rule none
  · exact removeUseless_useful rule

/-! ## Chomsky normal form -/

theorem pieces_pair (hs : Symbol.isNonTerminal s) (ht : Symbol.isNonTerminal t) : pieces [s, t] = [] := by
  simp [pieces, longSuffixes, Symbol.isTerminal, hs, ht]

theorem unitFree_of_isChomsky (shape : g.isChomsky) : g.UnitFree := by
  intro p mem unit
  obtain ⟨s, single, hs⟩ := isUnit_iff.1 (show Production.isUnit ⟨p.left, p.right⟩ from unit)
  rcases isChomsky_iff.1 shape p mem with ⟨right, -, -⟩ | ⟨a, right, ha⟩ | ⟨b, c, right, -, -⟩
  · cases single.symm.trans right
  · cases single.symm.trans right
    exact Symbol.not_isTerminal.2 hs ha
  · cases single.symm.trans right

theorem longPieces_eq_nil (shape : g.isChomsky) : g.longPieces = [] := by
  apply List.eq_nil_iff_forall_not_mem.2
  intro piece mem
  obtain ⟨p, hp, long, mem⟩ := mem_longPieces.1 mem
  rcases isChomsky_iff.1 shape p hp with ⟨right, -, -⟩ | ⟨a, right, -⟩ | ⟨s, t, right, hs, ht⟩
  · simp [right] at long
  · simp [right] at long
  · rw [right, pieces_pair hs ht] at mem
    cases mem

theorem halve_eq_self (shape : g.isChomsky) (mem : p ∈ g.productions) : names.halve p.right = p.right := by
  rcases isChomsky_iff.1 shape p mem with ⟨right, -, -⟩ | ⟨a, right, -⟩ | ⟨s, t, right, hs, ht⟩
  · rw [right]
    rfl
  · rw [right]
    rfl
  · rw [right, halve, symbolOf_nonTerminal hs, symbolOf_nonTerminal ht]

/-- **Binarization leaves Chomsky normal form as it is.** -/
theorem binarize_eq_self (shape : g.isChomsky) : g.binarize = .ok g := by
  have none := longPieces_eq_nil shape
  -- naming no piece cannot fail
  obtain ⟨h, made⟩ : ∃ h, g.binarize = .ok h := by
    have stages : g.binarize = (namePieces g.supply g.longPieces).bind _ := rfl
    rw [none] at stages
    exact ⟨_, stages⟩
  obtain ⟨names, b⟩ := binarized_of_ok made
  rw [made]
  refine congrArg Except.ok (eq_of_productions b.start b.epsilon fun p => ?_)
  rw [b.productions]
  constructor
  · rintro (⟨q, hq, rfl⟩ | ⟨piece, a, named, -⟩)
    · rwa [halve_eq_self shape hq]
    · have wanted := b.named.wanted piece a named
      rw [none] at wanted
      cases wanted
  · exact fun mem => .inl ⟨p, mem, by rw [halve_eq_self shape mem]⟩

/-- The conversion draws no letter: it needs no new start symbol, and it has no piece to name. -/
def DrawsNothing (g : Grammar) : Prop :=
  g.hasStartRule →
    ¬ (g.removeUseless.start ∈ g.removeUseless.nullableSymbols ∧ g.removeUseless.startOnRight) ∧
      ∀ k, g.proper = .ok k → k.longPieces = []

/-- **A useful grammar in Chomsky normal form** is what the conversion makes of it. -/
theorem toChomsky_eq_self (wf : g.WellFormed) (useful : g.Useful) (shape : g.isChomsky) :
    g.toChomsky = .ok g ∧ g.DrawsNothing := by
  have confined := confined_of_isChomsky shape
  have proper := proper_eq_self useful wf.start_nonTerminal confined (unitFree_of_isChomsky shape)
  constructor
  · rw [toChomsky, proper]
    split
    · exact binarize_eq_self shape
    · rfl
  · intro _
    rw [useful.removeUseless_eq, proper]
    refine ⟨confined.start_not_both, fun k same => ?_⟩
    cases same
    exact longPieces_eq_nil shape

theorem toChomsky_of_not (none : ¬ g.hasStartRule) : g.toChomsky = .ok g := by rw [toChomsky, if_neg none]

/-- **The conversion is idempotent.** A second one succeeds, draws nothing, and returns the same start symbol, the same
sentinel and the same productions. -/
theorem toChomsky_idempotent (wf : g.WellFormed) (made : g.toChomsky = .ok h) :
    h.toChomsky = .ok h ∧ h.DrawsNothing := by
  -- without a production for the start symbol the conversion has nothing to do, be it the first or the second
  by_cases kept : h.hasStartRule
  swap
  · exact ⟨toChomsky_of_not kept, fun rule => absurd rule kept⟩
  by_cases rule : g.hasStartRule
  swap
  · cases (toChomsky_of_not rule).symm.trans made
    exact absurd kept rule
  obtain ⟨wfResult, shape, -⟩ := toChomsky_spec wf rule made
  obtain ⟨k, proper, made⟩ := stages_of_toChomsky rule made
  obtain ⟨names, b⟩ := binarized_of_ok made
  exact toChomsky_eq_self wfResult (b.useful (useful_of_proper proper (b.hasStartRule_of kept))) shape

set_option maxRecDepth 100000 in
/-- The grammar of brackets is not in Chomsky normal form, so the first conversion changes it; the second does not. -/
theorem toChomsky_idempotent_brackets : brackets.WellFormed ∧ ∃ h, brackets.toChomsky = .ok h ∧ h ≠ brackets ∧
    h.toChomsky = .ok h ∧ h.DrawsNothing := by
  obtain ⟨h, made⟩ : ∃ h, brackets.toChomsky = .ok h := exists_of_isOk (by decide +kernel)
  obtain ⟨-, shape, -⟩ := toChomsky_spec brackets_wellFormed (by decide +kernel) made
  have other : ¬ brackets.isChomsky := by decide +kernel
  exact ⟨brackets_wellFormed, h, made, fun same => other (same ▸ shape),
    toChomsky_idempotent brackets_wellFormed made⟩

end ContextFree.Grammar
