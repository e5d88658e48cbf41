import ContextFree.Proofs.Sharing
import ContextFree.Transformation.Chains

/-!
Binarization in turn is binarization. The letters are told before the loop starts, by the order in which pieces first
occur; the loop draws the same ones, since it draws where a piece is met for the first time. Where it stops at a suffix
that has a letter, the suffixes of that one have theirs, with their productions.

- `Drawn.next`: what is drawn for the first piece not met before is the letter of that piece;
- `Met.lift`, `Met.chain`, `Taken.take`: what the loop has met and written down after a symbol, a chain, a production;
- `binarizeInTurn_eq`: both have the same result, be it a grammar or that the letters do not suffice.
-/

namespace ContextFree.Grammar

open Std Binarizing

/-! ## Letters in turn -/

section Lasts

variable {α β : Type} {g : Grammar} {result : Except GrammarError α} {post : α → Prop}

/-- The result is as described, or there are too few letters. -/
def Lasts (g : Grammar) (result : Except GrammarError α) (post : α → Prop) : Prop :=
  (∃ a, result = .ok a ∧ post a) ∨ result = .error .symbolsExhausted ∧ ¬ Suffices g.supply g.longPieces

theorem Lasts.bind {next : α → Except GrammarError β} {later : β → Prop} (first : g.Lasts result post)
    (second : ∀ a, post a → g.Lasts (next a) later) : g.Lasts (result >>= next) later := by
  rcases first with ⟨a, rfl, done⟩ | ⟨rfl, short⟩
  · exact second a done
  · exact .inr ⟨rfl, short⟩

theorem Lasts.imp {later : α → Prop} (first : g.Lasts result post) (weaker : ∀ a, post a → later a) :
    g.Lasts result later :=
  first.imp_left fun ⟨a, eq, done⟩ => ⟨a, eq, weaker a done⟩

end Lasts

variable {g : Grammar} {supply : Supply} {b : Binarizing} {met more : List (List Symbol)} {piece right : List Symbol}
  {p : Production} {s a left : Symbol} {done rules : List Production}

/-- the letters of the pieces of a grammar, as far as they go -/
abbrev pieceNames (g : Grammar) : PieceNames := lettersFor g.supply g.longPieces

theorem unseen_append {seen : FiniteSet (List Symbol)} :
    (Search.unseen seen (met ++ more)).1 =
      (Search.unseen seen met).1 ++ (Search.unseen (Search.unseen seen met).2 more).1 := by
  induction met generalizing seen with
  | nil => rfl
  | cons x met ih =>
    rw [List.cons_append, Search.unseen, Search.unseen]
    split
    · exact ih
    · simp [ih]

theorem unseen_old {seen : FiniteSet (List Symbol)} (old : ∀ x ∈ more, x ∈ seen) : (Search.unseen seen more).1 = [] := by
  apply List.eq_nil_iff_forall_not_mem.2
  intro x mem
  obtain ⟨listed, new⟩ := Search.mem_unseen_fst.1 mem
  exact new (old x listed)

/-- What is left in the supply when the letters of these pieces have been drawn. -/
def Drawn (g : Grammar) (supply : Supply) (met : List (List Symbol)) : Prop :=
  ∃ used, g.supply.free = used ++ supply.free ∧ used.length = (Search.unseen ∅ met).1.length

/-- **The next letter** is that of the piece which is met next. -/
theorem Drawn.next (drawn : g.Drawn supply met) (comes : met ++ [piece] <+: g.longPieces) (new : piece ∉ met) :
    g.Lasts supply.draw fun r => g.pieceNames[piece]? = some r.1 ∧ g.Drawn r.2 (met ++ [piece]) := by
  obtain ⟨used, whole, length⟩ := drawn
  obtain ⟨rest, pieces⟩ := comes
  have grown : (Search.unseen ∅ (met ++ [piece])).1 = (Search.unseen ∅ met).1 ++ [piece] := by
    rw [unseen_append, Search.unseen, if_neg (by simpa [Search.mem_unseen_snd] using new)]
    rfl
  have firsts : (Search.unseen ∅ (met ++ [piece] ++ rest)).1 = _ := unseen_append
  rw [pieces, grown] at firsts
  obtain ⟨free⟩ := supply
  cases free with
  | nil =>
    refine .inr ⟨rfl, fun enough => ?_⟩
    rw [Suffices, firsts, whole] at enough
    simp only [List.length_append, List.length_singleton, List.append_nil] at enough
    omega
  | cons letter free =>
    refine .inl ⟨(letter, ⟨free⟩), rfl, ?_, used ++ [letter], by simp [whole], by simp [grown, length]⟩
    rw [getElem?_lettersFor, firsts, whole, List.append_assoc, List.zip_append length.symm]
    simp

/-! ## What the loop has met -/

/-- What is kept once these pieces are met: the letters of all of them, and of no others. -/
structure Met (g : Grammar) (b : Binarizing) (met : List (List Symbol)) : Prop where
  drawn : g.Drawn b.supply met
  named : ∀ piece ∈ met, ∃ a, g.pieceNames[piece]? = some a
  lifted : ∀ s, b.lifted[s]? = if [s] ∈ met then g.pieceNames[[s]]? else none
  chains : ∀ piece, 2 ≤ piece.length → (∀ s ∈ piece, s ∈ g.symbols) →
    b.chains[piece.map g.pieceNames.lift]? = if piece ∈ met then g.pieceNames[piece]? else none

theorem pieceNames_injOn : Set.InjOn g.pieceNames.lift {s | s ∈ g.symbols} :=
  PieceNames.lift_injOn (fun _ _ named => (fresh_of_mem_supply (lettersFor_free named)).2.1) fun _ _ _ =>
    lettersFor_injective Supply.nodup_avoiding

theorem lift_terminal (terminal : Symbol.isTerminal s) (named : g.pieceNames[[s]]? = some a) :
    g.pieceNames.lift s = a := by
  rw [PieceNames.lift, PieceNames.symbolOf, if_neg (Symbol.isTerminal_iff_not.1 terminal),
    ExtTreeMap.getD_eq_getD_getElem?, named]
  rfl

theorem symbolOf_long (long : 2 ≤ piece.length) (named : g.pieceNames[piece]? = some a) :
    g.pieceNames.symbolOf piece = a := by
  have other : ∀ s, piece ≠ [s] := by
    rintro s rfl
    exact absurd long (by simp)
  rw [PieceNames.symbolOf, ExtTreeMap.getD_eq_getD_getElem?, named]
  · rfl
  · exact other

namespace Met

theorem start : g.Met { supply := g.supply } [] where
  drawn := ⟨[], rfl, rfl⟩
  named := by simp
  lifted := by simp
  chains := by simp

theorem add (m : g.Met b met) : g.Met (b.add left right) met := ⟨m.drawn, m.named, m.lifted, m.chains⟩

/-- Nothing is drawn for pieces that are met again. -/
theorem again (m : g.Met b met) (old : ∀ x ∈ more, x ∈ met) : g.Met b (met ++ more) := by
  have same : ∀ x, x ∈ met ++ more ↔ x ∈ met := fun x => by
    rw [List.mem_append, or_iff_left_of_imp (old x)]
  obtain ⟨used, whole, length⟩ := m.drawn
  refine ⟨⟨used, whole, ?_⟩, fun x mem => m.named x ((same x).1 mem), fun s => ?_, fun x long known => ?_⟩
  · rw [length, unseen_append, unseen_old fun x mem => Search.mem_unseen_snd.2 (.inr (old x mem)), List.append_nil]
  · simp only [same, m.lifted]
  · simp only [same, m.chains x long known]

theorem named_concat (m : g.Met b met) (named : g.pieceNames[piece]? = some a) :
    ∀ x ∈ met ++ [piece], ∃ a, g.pieceNames[x]? = some a := by
  rw [List.forall_mem_append]
  exact ⟨m.named, by simpa using ⟨a, named⟩⟩

theorem terminal (m : g.Met b met) (drawn : g.Drawn supply (met ++ [[s]])) (named : g.pieceNames[[s]]? = some a) :
    g.Met { b with supply, lifted := b.lifted.insert s a } (met ++ [[s]]) where
  drawn := drawn
  named := m.named_concat named
  lifted t := by
    rw [ExtTreeMap.getElem?_insert, m.lifted]
    by_cases same : s = t
    · subst same
      simp [named]
    · simp [same, Ne.symm same]
  chains x long known := by
    have other : x ≠ [s] := by
      rintro rfl
      exact absurd long (by simp)
    simp [m.chains x long known, other]

theorem suffix (m : g.Met b met) (drawn : g.Drawn supply (met ++ [piece])) (named : g.pieceNames[piece]? = some a)
    (long : 2 ≤ piece.length) (known : ∀ s ∈ piece, s ∈ g.symbols) :
    g.Met { b with supply, chains := b.chains.insert (piece.map g.pieceNames.lift) a } (met ++ [piece]) where
  drawn := drawn
  named := m.named_concat named
  lifted t := by
    have other : [t] ≠ piece := by
      rintro rfl
      exact absurd long (by simp)
    simp [m.lifted, other]
  chains x long' known' := by
    rw [ExtTreeMap.getElem?_insert, m.chains x long' known']
    by_cases same : piece = x
    · subst same
      simp [named]
    · have apart : piece.map g.pieceNames.lift ≠ x.map g.pieceNames.lift := fun eq => same <| by
        rw [← map_invFunOn pieceNames_injOn known, eq, map_invFunOn pieceNames_injOn known']
      simp [apart, Ne.symm same]

end Met

/-! ## Lifting -/

/-- the pieces of one symbol -/
def terminalPieces (right : List Symbol) : List (List Symbol) := (right.filter Symbol.isTerminal).map ([·])

namespace Met

theorem lift (m : g.Met b met) (comes : met ++ terminalPieces [s] <+: g.longPieces) :
    g.Lasts (b.lift s) fun r => r.1 = g.pieceNames.lift s ∧ g.Met r.2 (met ++ terminalPieces [s]) ∧
      r.2.productions = b.productions := by
  by_cases upper : Symbol.isNonTerminal s
  · have none : terminalPieces [s] = [] := by simp [terminalPieces, Symbol.isTerminal, upper]
    rw [none, List.append_nil]
    exact .inl ⟨(s, b), if_pos upper, (PieceNames.symbolOf_nonTerminal upper).symm, m, rfl⟩
  have terminal : Symbol.isTerminal s := Symbol.isTerminal_iff_not.2 upper
  have single : terminalPieces [s] = [[s]] := by simp [terminalPieces, terminal]
  rw [single] at comes ⊢
  rw [Binarizing.lift, if_neg upper, m.lifted]
  by_cases old : [s] ∈ met
  · obtain ⟨a, named⟩ := m.named [s] old
    rw [if_pos old, named]
    exact .inl ⟨(a, b), rfl, (lift_terminal terminal named).symm, m.again (by simpa using old), rfl⟩
  · rw [if_neg old]
    refine (m.drawn.next comes old).bind ?_
    rintro ⟨a, supply⟩ ⟨named, drawn⟩
    exact .inl ⟨_, rfl, (lift_terminal terminal named).symm, m.terminal drawn named, rfl⟩

theorem liftAll (m : g.Met b met) (comes : met ++ terminalPieces right <+: g.longPieces) :
    g.Lasts (b.liftAll right) fun r => r.1 = right.map g.pieceNames.lift ∧ g.Met r.2 (met ++ terminalPieces right) ∧
      r.2.productions = b.productions := by
  induction right generalizing b met with
  | nil => exact .inl ⟨([], b), rfl, rfl, by simpa [terminalPieces] using m, rfl⟩
  | cons s right ih =>
    have split : terminalPieces (s :: right) = terminalPieces [s] ++ terminalPieces right := by
      simp only [terminalPieces, ← List.map_append, ← List.filter_append, List.singleton_append]
    rw [split, ← List.append_assoc] at comes ⊢
    refine (m.lift ((List.prefix_append _ _).trans comes)).bind ?_
    rintro ⟨symbol, b'⟩ ⟨rfl, m', same⟩
    refine (ih m' comes).bind ?_
    rintro ⟨symbols, b''⟩ ⟨rfl, m'', same'⟩
    exact .inl ⟨_, rfl, rfl, m'', same'.trans same⟩

end Met

/-! ## Chains -/

/-- The production is that of the piece. -/
def Writes (g : Grammar) (piece : List Symbol) (p : Production) : Prop :=
  ∃ a, g.pieceNames[piece]? = some a ∧ p = ⟨a, g.pieceNames.halve piece⟩

/-- What a chain does: it meets the suffixes of its right side, and those not met before get their productions. -/
structure Chained (g : Grammar) (met : List (List Symbol)) (before : FiniteSet Production) (left : Symbol)
    (piece : List Symbol) (next : Binarizing) : Prop where
  kept : g.Met next (met ++ longSuffixes piece)
  productions : ∀ p, p ∈ next.productions ↔ p ∈ before ∨ p = ⟨left, g.pieceNames.halve piece⟩ ∨
    ∃ x ∈ longSuffixes piece, x ∉ met ∧ g.Writes x p

theorem mem_add : p ∈ (b.add left right).productions ↔ p = ⟨left, right⟩ ∨ p ∈ b.productions := by
  rw [Binarizing.add, ExtTreeSet.mem_insert, LawfulEqCmp.compare_eq_iff_eq, eq_comm]

theorem longSuffixes_cons (long : 2 ≤ piece.length) : longSuffixes (s :: piece) = piece :: longSuffixes piece := by
  rw [longSuffixes, if_pos long]

theorem halve_cons (long : 2 ≤ piece.length) (named : g.pieceNames[piece]? = some a) :
    g.pieceNames.halve (s :: piece) = [g.pieceNames.lift s, a] := by
  match piece, long with
  | t :: rest, long =>
    rw [PieceNames.halve, symbolOf_long long named]
    rfl

/-- **A chain may stop** at a suffix that was met before, if the suffixes of that one were met with it. -/
theorem Met.shared (m : g.Met b met) (long : 2 ≤ piece.length) (old : piece ∈ met) (closed : longSuffixes piece ⊆ met)
    (named : g.pieceNames[piece]? = some a) :
    g.Chained met b.productions left (s :: piece) (b.add left [g.pieceNames.lift s, a]) := by
  have all : ∀ x ∈ longSuffixes (s :: piece), x ∈ met := by
    rw [longSuffixes_cons long]
    exact List.forall_mem_cons.2 ⟨old, fun x mem => closed mem⟩
  refine ⟨(m.again all).add, fun p => ?_⟩
  have none : ¬ ∃ x ∈ longSuffixes (s :: piece), x ∉ met ∧ g.Writes x p := fun ⟨x, mem, new, _⟩ => new (all x mem)
  rw [mem_add, halve_cons long named, or_iff_left none, or_comm]

/-- Otherwise it goes on with the suffix, under the letter that was drawn for it. -/
theorem Chained.onward {next : Binarizing} (long : 2 ≤ piece.length) (new : piece ∉ met)
    (named : g.pieceNames[piece]? = some a)
    (rest : g.Chained (met ++ [piece]) (b.add left [g.pieceNames.lift s, a]).productions a piece next) :
    g.Chained met b.productions left (s :: piece) next := by
  refine ⟨by simpa [longSuffixes_cons long] using rest.kept, fun p => ?_⟩
  have others : (∃ x ∈ longSuffixes piece, x ∉ met ++ [piece] ∧ g.Writes x p) ↔
      ∃ x ∈ longSuffixes piece, x ∉ met ∧ g.Writes x p := by
    refine exists_congr fun x => and_congr_right fun mem => ?_
    have other : x ≠ piece := fun eq => absurd (mem_longSuffixes.1 mem).2.2 (by simp [eq])
    simp [other]
  have first : piece ∉ met ∧ g.Writes piece p ↔ p = ⟨a, g.pieceNames.halve piece⟩ := by
    simp [Writes, named, new]
  rw [rest.productions, mem_add, halve_cons long named, longSuffixes_cons long, List.exists_mem_cons_iff, first, others,
    or_assoc, or_left_comm]

namespace Met

/-- **A chain** is written down as far as it is new. What was met before, and is shorter, had its suffixes met with it. -/
theorem chain (m : g.Met b met) (comes : met ++ longSuffixes piece <+: g.longPieces) (long : 2 ≤ piece.length)
    (known : ∀ s ∈ piece, s ∈ g.symbols) (closed : ∀ x ∈ met, x.length < piece.length → longSuffixes x ⊆ met) :
    g.Lasts (b.chain left (piece.map g.pieceNames.lift)) (g.Chained met b.productions left piece) := by
  induction piece generalizing b met left with
  | nil => cases long
  | cons s tail ih =>
    rcases tail with _ | ⟨t, _ | ⟨u, rest⟩⟩
    · exact absurd long (by simp)
    · refine .inl ⟨_, rfl, by simpa [longSuffixes] using m.add, fun p => ?_⟩
      rw [mem_add, or_comm]
      simp [longSuffixes, PieceNames.halve, PieceNames.lift]
    · have tailLong : 2 ≤ (t :: u :: rest).length := by simp
      have tailKnown : ∀ s ∈ t :: u :: rest, s ∈ g.symbols := fun v mem => known v (List.mem_cons_of_mem s mem)
      have found := m.chains _ tailLong tailKnown
      simp only [List.map_cons] at found ⊢
      rw [Binarizing.chain, found]
      by_cases old : t :: u :: rest ∈ met
      · obtain ⟨a, named⟩ := m.named _ old
        rw [if_pos old, named]
        exact .inl ⟨_, rfl, m.shared tailLong old (closed _ old (Nat.lt_succ_self _)) named⟩
      · rw [longSuffixes_cons tailLong, List.append_cons] at comes
        rw [if_neg old]
        refine (m.drawn.next ((List.prefix_append _ _).trans comes) old).bind ?_
        rintro ⟨a, supply⟩ ⟨named, drawn⟩
        -- nothing is asked yet of the suffix that was just met, since it is not shorter than itself
        have closed' : ∀ x ∈ met ++ [t :: u :: rest], x.length < (t :: u :: rest).length →
            longSuffixes x ⊆ met ++ [t :: u :: rest] := by
          intro x mem short y hy
          rcases List.mem_append.1 mem with mem | mem
          · exact List.mem_append_left _ (closed x mem (short.trans (Nat.lt_succ_self _)) hy)
          · exact absurd short (by simp [List.mem_singleton.1 mem])
        exact (ih (m.suffix drawn named tailLong tailKnown).add comes tailLong tailKnown closed').imp fun _ chained =>
          chained.onward tailLong old named

end Met

/-! ## Productions in turn -/

/-- the pieces of some productions -/
def piecesOf (rules : List Production) : List (List Symbol) :=
  (rules.filter fun p => 2 ≤ p.right.length).flatMap fun p => pieces p.right

/-- What is there when some productions were taken: the pieces of their right sides are met, and everything is written
down but the productions of lifted terminals. -/
structure Taken (g : Grammar) (rules : List Production) (b : Binarizing) : Prop where
  met : g.Met b (piecesOf rules)
  productions : ∀ p, p ∈ b.productions ↔ (∃ q ∈ rules, p = ⟨q.left, g.pieceNames.halve q.right⟩) ∨
    ∃ x ∈ piecesOf rules, 2 ≤ x.length ∧ g.Writes x p

theorem piecesOf_append : piecesOf (done ++ rules) = piecesOf done ++ piecesOf rules := by
  simp [piecesOf]

theorem piecesOf_singleton (long : 2 ≤ p.right.length) :
    piecesOf [p] = terminalPieces p.right ++ longSuffixes p.right := by
  simp [piecesOf, long, pieces, terminalPieces]

theorem longSuffixes_of_terminalPieces (mem : piece ∈ terminalPieces right) : longSuffixes piece = [] := by
  obtain ⟨s, -, rfl⟩ := List.mem_map.1 mem
  rfl

theorem not_long_of_terminalPieces (mem : piece ∈ terminalPieces right) : ¬ 2 ≤ piece.length := by
  obtain ⟨s, -, rfl⟩ := List.mem_map.1 mem
  simp

theorem longSuffixes_sub_piecesOf (mem : piece ∈ piecesOf rules) : longSuffixes piece ⊆ piecesOf rules := by
  intro x suffix
  obtain ⟨p, taken, inside⟩ := List.mem_flatMap.1 mem
  rcases mem_pieces.1 inside with ⟨s, -, -, rfl⟩ | inside
  · cases suffix
  · exact List.mem_flatMap.2 ⟨p, taken, mem_pieces.2 (.inr (longSuffixes_sub inside suffix))⟩

theorem halve_short (short : right.length ≤ 1) : g.pieceNames.halve right = right := by
  match right, short with
  | [], _ | [_], _ => rfl

namespace Taken

theorem start : g.Taken [] { supply := g.supply } := ⟨.start, by simp [piecesOf]⟩

theorem add (t : g.Taken done b) (short : p.right.length ≤ 1) : g.Taken (done ++ [p]) (b.add p.left p.right) := by
  have none : piecesOf [p] = [] := by simp [piecesOf, Nat.lt_succ_of_le short]
  have pieces : piecesOf (done ++ [p]) = piecesOf done := by rw [piecesOf_append, none, List.append_nil]
  refine ⟨pieces ▸ t.met.add, fun x => ?_⟩
  rw [mem_add, t.productions, pieces, ← or_assoc]
  refine or_congr ?_ Iff.rfl
  simp [or_and_right, exists_or, halve_short short, or_comm]

/-- A right side of two or more symbols, once it is lifted and its chain is written down. -/
theorem chained (t : g.Taken done b) (long : 2 ≤ p.right.length) {next : Binarizing}
    (c : g.Chained (piecesOf done ++ terminalPieces p.right) b.productions p.left p.right next) :
    g.Taken (done ++ [p]) next := by
  have pieces : piecesOf (done ++ [p]) = piecesOf done ++ terminalPieces p.right ++ longSuffixes p.right := by
    rw [piecesOf_append, piecesOf_singleton long, List.append_assoc]
  refine ⟨pieces ▸ c.kept, fun x => ?_⟩
  rw [c.productions, t.productions, pieces]
  constructor
  · rintro ((⟨q, mem, eq⟩ | ⟨y, mem, twice, writes⟩) | eq | ⟨y, mem, -, writes⟩)
    · exact .inl ⟨q, List.mem_append_left _ mem, eq⟩
    · exact .inr ⟨y, List.mem_append_left _ (List.mem_append_left _ mem), twice, writes⟩
    · exact .inl ⟨p, by simp, eq⟩
    · exact .inr ⟨y, List.mem_append_right _ mem, length_of_mem_longSuffixes mem, writes⟩
  · rintro (⟨q, mem, eq⟩ | ⟨y, mem, twice, writes⟩)
    · rcases List.mem_append.1 mem with mem | mem
      · exact .inl (.inl ⟨q, mem, eq⟩)
      · exact .inr (.inl (List.mem_singleton.1 mem ▸ eq))
    · by_cases old : y ∈ piecesOf done
      · exact .inl (.inr ⟨y, old, twice, writes⟩)
      · have single : y ∉ terminalPieces p.right := fun mem => not_long_of_terminalPieces mem twice
        have new : y ∉ piecesOf done ++ terminalPieces p.right := by simp [old, single]
        exact .inr (.inr ⟨y, (List.mem_append.1 mem).resolve_left new, new, writes⟩)

/-- **One production.** -/
theorem take (t : g.Taken done b) (comes : done ++ [p] <+: g.rules) : g.Lasts (b.take p) (g.Taken (done ++ [p])) := by
  have ahead : piecesOf (done ++ [p]) <+: g.longPieces := by
    obtain ⟨rest, whole⟩ := comes
    exact ⟨piecesOf rest, by rw [← piecesOf_append, whole]; rfl⟩
  by_cases short : p.right.length ≤ 1
  · rw [Binarizing.take, if_pos short]
    exact .inl ⟨_, rfl, t.add short⟩
  have long : 2 ≤ p.right.length := Nat.lt_of_not_le short
  have mem : p ∈ g.productions := mem_rules.1 (comes.subset (by simp))
  rw [piecesOf_append, piecesOf_singleton long, ← List.append_assoc] at ahead
  rw [Binarizing.take, if_neg short]
  refine (t.met.liftAll ((List.prefix_append _ _).trans ahead)).bind ?_
  rintro ⟨right, b'⟩ ⟨rfl, m, same⟩
  have closed : ∀ x ∈ piecesOf done ++ terminalPieces p.right,
      longSuffixes x ⊆ piecesOf done ++ terminalPieces p.right := by
    intro x mem
    rcases List.mem_append.1 mem with mem | mem
    · exact fun y suffix => List.mem_append_left _ (longSuffixes_sub_piecesOf mem suffix)
    · rw [longSuffixes_of_terminalPieces mem]
      exact List.nil_subset _
  refine (m.chain ahead long (fun _ => right_mem_symbols mem) fun x mem _ => closed x mem).imp fun next c => ?_
  exact t.chained long (same ▸ c)

/-- **All productions**, by induction on those that are left. -/
theorem foldlM (t : g.Taken done b) (comes : done ++ rules <+: g.rules) :
    g.Lasts (rules.foldlM Binarizing.take b) (g.Taken (done ++ rules)) := by
  induction rules generalizing done b with
  | nil => exact .inl ⟨b, rfl, by simpa using t⟩
  | cons p rules ih =>
    rw [List.append_cons] at comes ⊢
    rw [List.foldlM_cons]
    exact (t.take ((List.prefix_append _ _).trans comes)).bind fun _ taken => ih taken comes

end Taken

theorem Met.mem_lifted (m : g.Met b met) :
    p ∈ b.lifted.toList.map (fun (s, a) => Production.mk a [s]) ↔ ∃ s, [s] ∈ met ∧ g.Writes [s] p := by
  simp only [List.mem_map, Prod.exists, ExtTreeMap.mem_toList_iff_getElem?_eq_some, m.lifted, Writes]
  constructor
  · rintro ⟨s, a, named, rfl⟩
    obtain ⟨mem, named⟩ := Option.ite_none_right_eq_some.1 named
    exact ⟨s, mem, a, named, rfl⟩
  · rintro ⟨s, mem, a, named, rfl⟩
    exact ⟨s, a, by rw [if_pos mem, named], rfl⟩

/-- **All pieces** have their productions then, for a piece has one symbol or more. -/
theorem exists_writes_iff :
    (∃ x ∈ g.longPieces, 2 ≤ x.length ∧ g.Writes x p) ∨ (∃ s, [s] ∈ g.longPieces ∧ g.Writes [s] p) ↔
      ∃ x, g.Writes x p := by
  constructor
  · rintro (⟨x, -, -, writes⟩ | ⟨s, -, writes⟩)
    · exact ⟨x, writes⟩
    · exact ⟨[s], writes⟩
  · rintro ⟨x, a, named, eq⟩
    have mem : x ∈ g.longPieces := unseen_mem.1 (List.of_mem_zip (getElem?_lettersFor.1 named)).1
    obtain ⟨q, -, -, inside⟩ := mem_longPieces.1 mem
    rcases mem_pieces.1 inside with ⟨s, -, -, rfl⟩ | inside
    · exact .inr ⟨s, mem, a, named, eq⟩
    · exact .inl ⟨x, mem, length_of_mem_longSuffixes inside, a, named, eq⟩

theorem suffices_of_drawn (drawn : g.Drawn supply g.longPieces) : Suffices g.supply g.longPieces := by
  obtain ⟨used, whole, length⟩ := drawn
  rw [Suffices, ← length, whole, List.length_append]
  exact Nat.le_add_right _ _

/-- **Binarization in turn is binarization.** Both have the same result, be it a grammar or an error. -/
theorem binarizeInTurn_eq (g : Grammar) : g.binarizeInTurn = g.binarize := by
  have stages : g.binarize = (namePieces g.supply g.longPieces).bind _ := rfl
  have inTurn : g.Lasts (g.rules.foldlM Binarizing.take { supply := g.supply }) (g.Taken g.rules) :=
    Taken.start.foldlM List.prefix_rfl
  rcases inTurn with ⟨b, made, taken⟩ | ⟨failed, short⟩
  · have named : namePieces g.supply g.longPieces = .ok g.pieceNames :=
      namePieces_ok (suffices_of_drawn taken.met.drawn)
    obtain ⟨h, whole⟩ : ∃ h, g.binarize = .ok h := by
      rw [stages, named]
      exact ⟨_, rfl⟩
    obtain ⟨names, eq, binarized⟩ := names_of_binarize whole
    cases named.symm.trans eq
    rw [whole, binarizeInTurn, made]
    refine congrArg Except.ok (eq_of_productions binarized.start.symm binarized.epsilon.symm fun p => ?_)
    calc p ∈ b.productions ∪ .ofList (b.lifted.toList.map fun (s, a) => Production.mk a [s])
        ↔ (∃ q ∈ g.rules, p = ⟨q.left, g.pieceNames.halve q.right⟩) ∨ ∃ x, g.Writes x p := by
          rw [ExtTreeSet.mem_union_iff, FiniteSet.mem_ofList, taken.met.mem_lifted, taken.productions, or_assoc]
          exact or_congr Iff.rfl exists_writes_iff
      _ ↔ p ∈ h.productions := by
          rw [binarized.productions]
          simp only [mem_rules, Writes]
  · rw [stages, namePieces_error short, binarizeInTurn, failed]
    rfl

end ContextFree.Grammar
