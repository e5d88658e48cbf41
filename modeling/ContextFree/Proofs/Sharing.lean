import ContextFree.Proofs.Idempotence
import ContextFree.Proofs.Pipeline

/-!
What binarization introduces, and no more than that. The naming of pieces speaks about right sides as they were; here
its letters are told by right sides with their terminals lifted, as two functions: `lift` gives the non-terminal for a
symbol, `chain` the one for a suffix of a lifted right side.

- `Binarized.lift_injOn`, `Binarized.chain_map`: lifting can be undone, so a suffix of a lifted right side is as good a
  name as the piece that it was made of;
- `Binarized.isLetter_iff`: the letters are those of the lifted terminals and of the long suffixes;
- `Binarized.letter_production_iff`, `Binarized.letter_words`: each has one production, and the words of its piece;
- `binarize_shares`: both as statements about the two functions, with the productions and the words of the result.
-/

namespace ContextFree.Grammar

open PieceNames

/-! ## Lifted right sides and their suffixes -/

/-- The terminal stands on a right side of two or more symbols. -/
def IsLifted (g : Grammar) (a : Symbol) : Prop :=
  Symbol.isTerminal a ∧ ∃ p ∈ g.productions, 2 ≤ p.right.length ∧ a ∈ p.right

/-- a proper suffix, of two or more symbols, of a lifted right side -/
def IsLongSuffix (g : Grammar) (lift : Symbol → Symbol) (x : List Symbol) : Prop :=
  2 ≤ x.length ∧ ∃ p ∈ g.productions, x <:+ p.right.map lift ∧ x.length < p.right.length

/-- the right side of two symbols: of more than two, the first and what stands for the others -/
def twoOf (chain : List Symbol → Symbol) : List Symbol → List Symbol
  | s :: t :: u :: rest => [s, chain (t :: u :: rest)]
  | short => short

/-- **Suffixes are shared exactly**: one fresh non-terminal for each lifted terminal, one for each long suffix. -/
structure SharesSuffixes (g h : Grammar) (lift : Symbol → Symbol) (chain : List Symbol → Symbol) : Prop where
  /-- A non-terminal is not lifted. -/
  lift_nonTerminal : ∀ s, Symbol.isNonTerminal s → lift s = s
  /-- The symbols that are new stand for lifted terminals and long suffixes, and for each of these there is one. -/
  introduced : ∀ s, (h.Mentions s ∧ ¬ g.Mentions s) ↔
    (∃ a, g.IsLifted a ∧ s = lift a) ∨ ∃ x, g.IsLongSuffix lift x ∧ s = chain x
  fresh : ∀ s, h.Mentions s → ¬ g.Mentions s → Symbol.isNonTerminal s ∧ s ≠ g.epsilon
  /-- No symbol stands for two of them. -/
  lift_injective : ∀ a b, g.IsLifted a → g.IsLifted b → lift a = lift b → a = b
  chain_injective : ∀ x y, g.IsLongSuffix lift x → g.IsLongSuffix lift y → chain x = chain y → x = y
  lift_ne_chain : ∀ a x, g.IsLifted a → g.IsLongSuffix lift x → lift a ≠ chain x
  /-- A right side of two or more symbols is lifted and, if longer, shortened; the others stay. -/
  old_productions : ∀ left right, g.Mentions left → (⟨left, right⟩ ∈ h.productions ↔
    ∃ whole, ⟨left, whole⟩ ∈ g.productions ∧
      right = if 2 ≤ whole.length then twoOf chain (whole.map lift) else whole)
  /-- A new symbol has one production. -/
  lift_production : ∀ a, g.IsLifted a → ∀ right, ⟨lift a, right⟩ ∈ h.productions ↔ right = [a]
  chain_production : ∀ x, g.IsLongSuffix lift x → ∀ right, ⟨chain x, right⟩ ∈ h.productions ↔ right = twoOf chain x
  /-- It derives its terminal, or the words of its suffix. -/
  lift_words : ∀ a, g.IsLifted a → words h.rules (lift a) = {[a]}
  chain_words : ∀ x, g.IsLongSuffix lift x → words h.rules (chain x) = (words h.rules).form x
  /-- The symbols that are not new derive what they derived before. -/
  words_eq : ∀ s, g.Mentions s → words h.rules s = words g.rules s
  /-- So do right sides, once they are lifted. -/
  form_eq : ∀ p ∈ g.productions, (words h.rules).form (p.right.map lift) = (words g.rules).form p.right

section Suffixes

variable {g : Grammar} {p : Production} {lift : Symbol → Symbol} {piece x : List Symbol}

theorem isLongSuffix_iff :
    g.IsLongSuffix lift x ↔ ∃ p ∈ g.productions, ∃ piece ∈ longSuffixes p.right, x = piece.map lift := by
  constructor
  · rintro ⟨long, p, mem, lifted, short⟩
    obtain ⟨piece, suffix, rfl⟩ := List.suffix_map_iff.1 lifted
    rw [List.length_map] at long short
    exact ⟨p, mem, piece, mem_longSuffixes.2 ⟨suffix, long, short⟩, rfl⟩
  · rintro ⟨p, mem, piece, suffix, rfl⟩
    obtain ⟨suffix, long, short⟩ := mem_longSuffixes.1 suffix
    exact ⟨by simpa using long, p, mem, suffix.map lift, by simpa using short⟩

theorem symbols_of_suffix (mem : p ∈ g.productions) (suffix : piece ∈ longSuffixes p.right) :
    ∀ s ∈ piece, s ∈ g.symbols := fun _ hs =>
  right_mem_symbols mem (subset_of_mem_longSuffixes suffix hs)

end Suffixes

/-! ## Lifting -/

variable {g h : Grammar} {names : PieceNames} {p : Production} {s t a : Symbol} {piece right form x : List Symbol}

theorem map_invFunOn {f : Symbol → Symbol} {old : Set Symbol} (injective : Set.InjOn f old) (sub : ∀ s ∈ piece, s ∈ old) :
    (piece.map f).map (Function.invFunOn f old) = piece := by
  rw [List.map_map]
  exact (List.map_congr_left fun s hs => injective.leftInvOn_invFunOn (sub s hs)).trans (List.map_id piece)

/-- the symbol that stands for a symbol in a lifted right side -/
def PieceNames.lift (names : PieceNames) (s : Symbol) : Symbol := names.symbolOf [s]

/-- the symbol that stands for a suffix of a lifted right side -/
noncomputable def PieceNames.chain (names : PieceNames) (g : Grammar) (x : List Symbol) : Symbol :=
  names.symbolOf (x.map (Function.invFunOn names.lift {s | s ∈ g.symbols}))

theorem PieceNames.lift_cases (s : Symbol) : names.lift s = s ∨ names[[s]]? = some (names.lift s) := by
  by_cases hs : Symbol.isNonTerminal s
  · exact .inl (symbolOf_nonTerminal hs)
  · rw [lift, symbolOf, if_neg hs, Std.ExtTreeMap.getD_eq_getD_getElem?]
    cases names[[s]]? with
    | none => exact .inl rfl
    | some a => exact .inr rfl

/-- **Lifting can be undone**: a letter is no symbol of the grammar, and no two terminals have the same. -/
theorem PieceNames.lift_injOn (new : ∀ (piece : List Symbol) s, names[piece]? = some s → s ∉ g.symbols)
    (distinct : ∀ (piece other : List Symbol) s, names[piece]? = some s → names[other]? = some s → piece = other) :
    Set.InjOn names.lift {s | s ∈ g.symbols} := by
  intro s hs t ht same
  rcases names.lift_cases s with keeps | named <;> rcases names.lift_cases t with keeps' | named'
  · rw [← keeps, same, keeps']
  · rw [← same, keeps] at named'
    exact absurd hs (new [t] s named')
  · rw [same, keeps'] at named
    exact absurd ht (new [s] t named)
  · rw [same] at named
    exact (List.cons_eq_cons.1 (distinct [s] [t] _ named named')).1

namespace Binarized

theorem lift_injOn (b : Binarized g h names) : Set.InjOn names.lift {s | s ∈ g.symbols} :=
  PieceNames.lift_injOn (fun piece _ named known => b.not_letter known piece named) b.named.distinct

theorem chain_map (b : Binarized g h names) (known : ∀ s ∈ piece, s ∈ g.symbols) :
    names.chain g (piece.map names.lift) = names.symbolOf piece := by
  rw [chain, map_invFunOn b.lift_injOn known]

/-- **Halving** takes a right side in two as it is, or after lifting. -/
theorem halve_eq_twoOf (b : Binarized g h names) (known : ∀ s ∈ right, s ∈ g.symbols) (long : 2 ≤ right.length) :
    names.halve right = twoOf (names.chain g) (right.map names.lift) := by
  match right, long with
  | [s, t], _ => rfl
  | s :: t :: u :: rest, _ =>
    have tail : ∀ v ∈ t :: u :: rest, v ∈ g.symbols := fun v hv => known v (List.mem_cons_of_mem s hv)
    rw [halve, ← b.chain_map tail]
    rfl

/-! ## Letters -/

theorem named_symbolOf (b : Binarized g h names) (wanted : piece ∈ g.longPieces) :
    names[piece]? = some (names.symbolOf piece) := by
  obtain ⟨a, named⟩ := b.named.known piece wanted
  rw [named, symbolOf_named b.named named]

theorem named_lift (b : Binarized g h names) (lifted : g.IsLifted a) : names[[a]]? = some (names.lift a) := by
  obtain ⟨terminal, p, mem, long, used⟩ := lifted
  exact b.named_symbolOf (mem_longPieces.2 ⟨p, mem, long, mem_pieces.2 (.inl ⟨a, used, terminal, rfl⟩)⟩)

/-- The symbol of a long suffix is the letter of the piece that it was made of. -/
theorem named_chain (b : Binarized g h names) (isLong : g.IsLongSuffix names.lift x) :
    ∃ piece : List Symbol, names[piece]? = some (names.chain g x) ∧ x = piece.map names.lift ∧ 2 ≤ piece.length ∧
      ∀ s ∈ piece, s ∈ g.symbols := by
  obtain ⟨p, mem, piece, suffix, rfl⟩ := isLongSuffix_iff.1 isLong
  have known := symbols_of_suffix mem suffix
  obtain ⟨-, long, short⟩ := mem_longSuffixes.1 suffix
  refine ⟨piece, ?_, rfl, long, known⟩
  rw [b.chain_map known]
  exact b.named_symbolOf (mem_longPieces.2 ⟨p, mem, (long.trans_lt short).le, mem_pieces.2 (.inr suffix)⟩)

/-- **The letters** are those of the lifted terminals and of the long suffixes. -/
theorem isLetter_iff (b : Binarized g h names) : names.IsLetter s ↔
    (∃ a, g.IsLifted a ∧ s = names.lift a) ∨ ∃ x, g.IsLongSuffix names.lift x ∧ s = names.chain g x := by
  constructor
  · rintro ⟨piece, named⟩
    obtain ⟨p, mem, long, wanted⟩ := mem_longPieces.1 (b.named.wanted piece s named)
    rcases mem_pieces.1 wanted with ⟨a, used, terminal, rfl⟩ | suffix
    · exact .inl ⟨a, ⟨terminal, p, mem, long, used⟩, (symbolOf_named b.named named).symm⟩
    · refine .inr ⟨piece.map names.lift, isLongSuffix_iff.2 ⟨p, mem, piece, suffix, rfl⟩, ?_⟩
      rw [b.chain_map (symbols_of_suffix mem suffix), symbolOf_named b.named named]
  · rintro (⟨a, lifted, rfl⟩ | ⟨x, suffix, rfl⟩)
    · exact ⟨[a], b.named_lift lifted⟩
    · obtain ⟨piece, named, -⟩ := b.named_chain suffix
      exact ⟨piece, named⟩

theorem introduces_letter_iff (b : Binarized g h names) : h.Mentions s ∧ ¬ g.Mentions s ↔ names.IsLetter s := by
  have introduces : Introduces g h [⟨g, names.letters⟩] := Cut.introduces b fun _ whole _ => b.mem_halve whole
  constructor
  · rintro ⟨known, new⟩
    have letter := (introduces.complete s known).resolve_left new
    exact mem_letters.1 (by simpa using letter)
  · rintro ⟨piece, named⟩
    exact ⟨mentions_left (b.letter_production named), not_mentions_of_free (b.named.fresh piece s named)⟩

/-- **A letter has one production**, that of its piece. -/
theorem letter_production_iff (b : Binarized g h names) (named : names[piece]? = some a) :
    ⟨a, right⟩ ∈ h.productions ↔ right = names.halve piece := by
  constructor
  · intro mem
    rcases (b.productions _).1 mem with ⟨q, hq, eq⟩ | ⟨other, letter, named', eq⟩
    · have left : a = q.left := congrArg Production.left eq
      exact absurd (left ▸ named) (b.not_letter (mem_symbols.2 ⟨q, hq, .inl rfl⟩) piece)
    · obtain rfl : a = letter := congrArg Production.left eq
      rw [b.named.distinct piece other a named named']
      exact congrArg Production.right eq
  · rintro rfl
    exact b.letter_production named

/-- **A letter derives the words of its piece**: what it stands for is derived from it, and in the reading that gives
it these words the productions are closed. -/
theorem letter_words (b : Binarized g h names) (named : names[piece]? = some a) :
    words h.rules a = (words g.rules).form piece := by
  have known : ∀ s ∈ piece, words h.rules s = words g.rules s := by
    intro s hs
    obtain ⟨p, mem, used⟩ := b.mem_right_of_whole (.inr ⟨a, named⟩) hs
    exact b.words_eq (right_mem_symbols mem used)
  apply le_antisymm
  · calc words h.rules a ≤ cutReading g names a := words_le (b.cutReading_closed fun _ => b.reading_halve) a
      _ = (words g.rules).form piece := b.cutReading_letter named
  · calc (words g.rules).form piece = (words h.rules).form piece := (Reading.form_congr known).symm
      _ ≤ words h.rules (names.symbolOf piece) := b.form_le_symbolOf (.inr ⟨a, named⟩) (b.covers (.inr ⟨a, named⟩))
      _ = words h.rules a := by rw [symbolOf_named b.named named]

/-! ## Lifted forms -/

theorem lift_words (b : Binarized g h names) (known : s ∈ g.symbols) :
    words h.rules (names.lift s) = words g.rules s := by
  rcases names.lift_cases s with keeps | named
  · rw [keeps, b.words_eq known]
  · rw [b.letter_words named, Reading.form_singleton]

theorem form_lift (b : Binarized g h names) (known : ∀ s ∈ form, s ∈ g.symbols) :
    (words h.rules).form (form.map names.lift) = (words g.rules).form form := by
  induction form with
  | nil => rfl
  | cons s form ih =>
    rw [List.forall_mem_cons] at known
    rw [List.map_cons, Reading.form_cons, Reading.form_cons, b.lift_words known.1, ih known.2]

theorem halve_eq (b : Binarized g h names) (mem : p ∈ g.productions) : names.halve p.right =
    if 2 ≤ p.right.length then twoOf (names.chain g) (p.right.map names.lift) else p.right := by
  split
  · rename_i long
    exact b.halve_eq_twoOf (fun _ => right_mem_symbols mem) long
  · rename_i short
    match p.right, short with
    | [], _ => rfl
    | [_], _ => rfl
    | _ :: _ :: _, short => exact absurd (Nat.le_add_left 2 _) short

theorem old_production_iff (b : Binarized g h names) (old : g.Mentions s) : ⟨s, right⟩ ∈ h.productions ↔
    ∃ whole, ⟨s, whole⟩ ∈ g.productions ∧ right = names.halve whole := by
  constructor
  · intro mem
    rcases (b.productions _).1 mem with ⟨⟨left, whole⟩, hq, eq⟩ | ⟨piece, letter, named, eq⟩
    · cases eq
      exact ⟨whole, hq, rfl⟩
    · cases eq
      exact absurd old (not_mentions_of_free (b.named.fresh piece s named))
  · rintro ⟨whole, mem, rfl⟩
    exact b.old_production mem

theorem words_eq_of_mentions (b : Binarized g h names) (old : g.Mentions s) : words h.rules s = words g.rules s :=
  Cut.words_eq b (fun _ => b.reading_halve) (fun _ => b.form_le_halve) fun piece named =>
    not_mentions_of_free (b.named.fresh piece s named) old

theorem shares (b : Binarized g h names) (wf : g.WellFormed) : SharesSuffixes g h names.lift (names.chain g) where
  lift_nonTerminal s hs := symbolOf_nonTerminal hs
  introduced s := b.introduces_letter_iff.trans b.isLetter_iff
  fresh s known new := by
    obtain ⟨piece, named⟩ := b.introduces_letter_iff.1 ⟨known, new⟩
    obtain ⟨upper, -, -, sentinel⟩ := b.letter_unused named
    exact ⟨upper, sentinel⟩
  lift_injective a c ha hc same := by
    have named := b.named_lift ha
    rw [same] at named
    exact (List.cons_eq_cons.1 (b.named.distinct [a] [c] _ named (b.named_lift hc))).1
  chain_injective x y hx hy same := by
    obtain ⟨piece, named, rfl, -⟩ := b.named_chain hx
    obtain ⟨other, named', rfl, -⟩ := b.named_chain hy
    rw [same] at named
    rw [b.named.distinct piece other _ named named']
  lift_ne_chain a x ha hx same := by
    obtain ⟨piece, named, -, long, -⟩ := b.named_chain hx
    rw [← same] at named
    rw [b.named.distinct piece [a] _ named (b.named_lift ha)] at long
    exact absurd long (by simp)
  old_productions left right old := by
    rw [b.old_production_iff old]
    apply exists_congr
    intro whole
    apply and_congr_right
    intro mem
    rw [b.halve_eq mem]
  lift_production a ha right := b.letter_production_iff (b.named_lift ha)
  chain_production x hx right := by
    obtain ⟨piece, named, rfl, long, known⟩ := b.named_chain hx
    rw [b.letter_production_iff named, b.halve_eq_twoOf known long]
  lift_words a ha := by
    rw [b.letter_words (b.named_lift ha), Reading.form_singleton, words_terminal wf.lefts ha.1]
  chain_words x hx := by
    obtain ⟨piece, named, rfl, -, known⟩ := b.named_chain hx
    rw [b.letter_words named, b.form_lift known]
  words_eq s old := b.words_eq_of_mentions old
  form_eq p mem := b.form_lift fun _ => right_mem_symbols mem

end Binarized

/-- **Binarization shares suffixes exactly**: there is one non-terminal for each lifted terminal, and one for each long
suffix of a lifted right side. -/
theorem binarize_shares (wf : g.WellFormed) (made : g.binarize = .ok h) :
    ∃ lift chain, SharesSuffixes g h lift chain := by
  obtain ⟨names, b⟩ := binarized_of_ok made
  exact ⟨names.lift, names.chain g, b.shares wf⟩

/-- two long right sides with the same end, and a short one that is this end's own end -/
def sharing : Grammar := ⟨'S', 'ε', .ofList
  [⟨'S', ['a', 'B', 'c', 'D']⟩, ⟨'S', ['b', 'B', 'c', 'D']⟩, ⟨'S', ['c', 'D']⟩, ⟨'B', ['b']⟩, ⟨'D', ['d']⟩]⟩

theorem sharing_wellFormed : sharing.WellFormed :=
  .ofList (by decide +kernel) (by decide +kernel) (by decide +kernel) (by decide +kernel)

set_option maxRecDepth 100000 in
/-- Three terminals are lifted here, and there are two long suffixes: five productions more than before. -/
theorem binarize_shares_sharing : sharing.WellFormed ∧ ∃ h, sharing.binarize = .ok h ∧ h.productions.size = 10 ∧
    ∃ lift chain, SharesSuffixes sharing h lift chain ∧ sharing.IsLongSuffix lift ['B', lift 'c', 'D'] := by
  have counted : sharing.binarize.bind (fun h => .ok h.productions.size) = .ok 10 := by decide +kernel
  obtain ⟨h, made, size⟩ := exists_of_bind counted
  obtain ⟨lift, chain, shares⟩ := binarize_shares sharing_wellFormed made
  have suffix : ['B', lift 'c', 'D'] <:+ ['a', 'B', 'c', 'D'].map lift := by
    refine ⟨[lift 'a'], ?_⟩
    simp only [List.map_cons, List.map_nil, List.cons_append, List.nil_append]
    rw [shares.lift_nonTerminal 'B' (by decide), shares.lift_nonTerminal 'D' (by decide)]
  exact ⟨sharing_wellFormed, h, made, Except.ok.inj size, lift, chain, shares, by simp,
    ⟨'S', ['a', 'B', 'c', 'D']⟩, by decide +kernel, suffix, by simp⟩

end ContextFree.Grammar
