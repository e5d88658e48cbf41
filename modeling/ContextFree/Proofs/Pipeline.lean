import ContextFree.Grammar.Draft
import ContextFree.Proofs.Idempotence
import ContextFree.Proofs.Vocabulary
import ContextFree.Transformation.Pipeline

/-!
Well-formedness survives every pipeline, and letters never collide. That the letters of one place are new and different
comes from the supply; that those of different places are different needs more, since each place computes its supply
anew: a letter drawn earlier must still be a symbol of the later grammar.

- `Introduces.next`: the letters of the next place are different from the earlier ones, while those are symbols still;
- `proper_introduces`, `Cut.introduces`, `removeLeftRecursion_introduces`: what each place draws;
- `Tailed.step`, `Tailed.run`: the tails are what the supply has given, and each derives a word;
- `greibach_introduces`: no letter is lost on the way, because each derives a word and every stage keeps its words;
- `pipeline_wellFormed`: both things, for every grammar that is built and every sequence of transformations.
-/

namespace ContextFree.Grammar

open PieceNames

variable {limits : Limits} {g h k : Grammar} {names : PieceNames} {p : Production} {left s a : Symbol}
  {letters todo right : List Symbol} {drawings : List Drawing}

/-! ## Symbols of a grammar -/

theorem forall_mentions {P : Symbol → Prop} (start : P g.start)
    (each : ∀ p ∈ g.productions, P p.left ∧ ∀ s ∈ p.right, P s) : ∀ s, g.Mentions s → P s := by
  rintro s (rfl | known)
  · exact start
  · obtain ⟨p, mem, rfl | used⟩ := mem_symbols.1 known
    · exact (each p mem).1
    · exact (each p mem).2 s used

theorem mentions_left (mem : ⟨left, right⟩ ∈ g.productions) : g.Mentions left :=
  .inr (mem_symbols.2 ⟨_, mem, .inl rfl⟩)

theorem mentions_right (mem : p ∈ g.productions) (hs : s ∈ p.right) : g.Mentions s :=
  .inr (mem_symbols.2 ⟨p, mem, .inr hs⟩)

theorem not_mentions_of_free (free : a ∈ g.supply.free) : ¬ g.Mentions a := by
  obtain ⟨-, unknown, start, -⟩ := fresh_of_mem_supply free
  rintro (eq | known)
  · exact start eq
  · exact unknown known

theorem mentions_of_not_free (wf : g.WellFormed) (hs : Symbol.isNonTerminal s) (taken : s ∉ g.supply.free) :
    g.Mentions s := by
  by_contra unknown
  refine taken (Supply.mem_avoiding.2 ⟨hs, ?_⟩)
  simp only [Mentions, not_or] at unknown
  simp only [Std.ExtTreeSet.mem_insert, Std.compare_eq_iff_eq, not_or]
  refine ⟨?_, Ne.symm unknown.1, unknown.2⟩
  rintro rfl
  exact Symbol.isTerminal_iff_not.1 wf.epsilon_terminal hs

theorem mentions_of_word (hs : Symbol.isNonTerminal s) (derives : ∃ w, w ∈ words g.rules s) : g.Mentions s := by
  obtain ⟨w, hw⟩ := derives
  obtain ⟨right, mem, -⟩ := (mem_words_iff hs).1 hw
  exact mentions_left (mem_rules.1 mem)

/-! ### Stages without letters -/

theorem keep_mentions (test : Production → Bool) : ∀ s, (g.keep test).Mentions s → g.Mentions s :=
  forall_mentions (.inl rfl) fun _ mem =>
    have old := (mem_keep.1 mem).1
    ⟨mentions_left old, fun _ hs => mentions_right old hs⟩

theorem removeEpsilonProductions_mentions : ∀ s, g.removeEpsilonProductions.Mentions s → g.Mentions s := by
  refine forall_mentions (.inl removeEpsilonProductions_start) fun p mem => ⟨?_, fun s hs => ?_⟩
  · by_cases none : g.nullableSymbols.isEmpty
    · rw [removeEpsilonProductions_eq none] at mem
      exact mentions_left mem
    · rcases (mem_removeEpsilonProductions none).1 mem with ⟨rfl, -⟩ | ⟨q, hq, left, -⟩
      · exact .inl rfl
      · exact left ▸ mentions_left hq
  · obtain ⟨q, hq, used⟩ := mem_right_of_removeEpsilonProductions mem hs
    exact mentions_right hq used

theorem removeUnitProductions_mentions : ∀ s, g.removeUnitProductions.Mentions s → g.Mentions s := by
  refine forall_mentions (.inl removeUnitProductions_start) fun p mem => ?_
  by_cases none : g.unitProductions.isEmpty
  · rw [removeUnitProductions_eq none] at mem
    exact ⟨mentions_left mem, fun s hs => mentions_right mem hs⟩
  · obtain ⟨known, -, source, -, old⟩ := (mem_removeUnitProductions none).1 mem
    obtain ⟨right, first⟩ := mem_lefts.1 known
    exact ⟨mentions_left first, fun s hs => mentions_right old hs⟩

theorem removals_start : g.removeEpsilonProductions.removeUnitProductions.removeUseless.start = g.start := by
  rw [removeUseless, keep, withProductions, removeUnitProductions_start, removeEpsilonProductions_start]

theorem removals_mention :
    ∀ s, g.removeEpsilonProductions.removeUnitProductions.removeUseless.Mentions s → g.Mentions s := fun s known =>
  removeEpsilonProductions_mentions s (removeUnitProductions_mentions s (keep_mentions _ s known))

theorem expandLeading_mentions : ∀ s, g.expandLeading.Mentions s → g.Mentions s := by
  refine forall_mentions (.inl rfl) fun p mem => ⟨?_, fun s hs => ?_⟩
  · rcases mem_expandLeading.1 mem with ⟨old, -⟩ | ⟨t, rest, head, -, old, -⟩
    · exact mentions_left old
    · exact mentions_left old
  · obtain ⟨q, hq, used⟩ := mem_right_of_expandLeading mem hs
    exact mentions_right hq used

theorem settle_mentions {rounds : Nat} (made : settle limits rounds g = .ok h) : ∀ s, h.Mentions s → g.Mentions s := by
  induction rounds generalizing g with
  | zero => cases made
  | succ rounds ih =>
    rw [settle] at made
    split at made
    · cases made
      exact fun _ => id
    · obtain ⟨-, -, made⟩ := exists_of_bind made
      exact fun s known => expandLeading_mentions s (ih made s known)

/-! ## Drawings, one after the other -/

@[simp] theorem lettersOf_nil : Drawing.lettersOf [] = [] := rfl

@[simp] theorem lettersOf_cons {d : Drawing} :
    Drawing.lettersOf (d :: drawings) = d.letters ++ Drawing.lettersOf drawings := List.flatMap_cons

@[simp] theorem lettersOf_append {more : List Drawing} :
    Drawing.lettersOf (drawings ++ more) = Drawing.lettersOf drawings ++ Drawing.lettersOf more := List.flatMap_append

theorem Introduces.nil (complete : ∀ s, h.Mentions s → g.Mentions s) : Introduces g h [] :=
  ⟨by simp, by simp, fun s known => .inl (complete s known)⟩

theorem introduces_of_supply (free : ∀ a ∈ letters, a ∈ g.supply.free) (nodup : letters.Nodup)
    (complete : ∀ s, h.Mentions s → g.Mentions s ∨ s ∈ letters) : Introduces g h [⟨g, letters⟩] := by
  refine ⟨fun d mem a ha => ?_, by simpa using nodup, by simpa using complete⟩
  obtain rfl := List.mem_singleton.1 mem
  obtain ⟨upper, -, -, sentinel⟩ := fresh_of_mem_supply (free a ha)
  exact ⟨upper, not_mentions_of_free (free a ha), sentinel⟩

namespace Introduces

theorem after (i : Introduces g k drawings) (fewer : ∀ s, h.Mentions s → k.Mentions s) : Introduces g h drawings :=
  ⟨i.fresh, i.distinct, fun s known => i.complete s (fewer s known)⟩

theorem before (i : Introduces k h drawings) (fewer : ∀ s, k.Mentions s → g.Mentions s) : Introduces g h drawings :=
  ⟨i.fresh, i.distinct, fun s known => (i.complete s known).imp_left (fewer s)⟩

/-- **The next drawing** is of other letters, as long as the earlier ones are symbols of the grammar still. -/
theorem next (i : Introduces g k drawings) (kept : ∀ a ∈ Drawing.lettersOf drawings, k.Mentions a)
    (j : Introduces k h [⟨k, letters⟩]) : Introduces g h (drawings ++ [⟨k, letters⟩]) := by
  have fresh := j.fresh ⟨k, letters⟩ (List.mem_singleton_self _)
  have distinct : letters.Nodup := by simpa using j.distinct
  have complete : ∀ s, h.Mentions s → k.Mentions s ∨ s ∈ letters := by simpa using j.complete
  have all : Drawing.lettersOf (drawings ++ [⟨k, letters⟩]) = Drawing.lettersOf drawings ++ letters := by simp
  refine ⟨List.forall_mem_append.2 ⟨i.fresh, j.fresh⟩, ?_, fun s known => ?_⟩
  · rw [all, List.nodup_append]
    refine ⟨i.distinct, distinct, ?_⟩
    rintro a old b new rfl
    exact (fresh a new).2.1 (kept a old)
  · rw [all, List.mem_append, ← or_assoc]
    exact (complete s known).imp_left (i.complete s)

end Introduces

/-! ## Letters for pieces -/

theorem mem_letters : a ∈ names.letters ↔ names.IsLetter a := by
  simp [letters, IsLetter, Std.ExtTreeMap.mem_toList_iff_getElem?_eq_some]

theorem nodup_letters {supply : Supply} {pieces : List (List Symbol)} (named : Names names supply pieces) :
    names.letters.Nodup := by
  have keys : names.toList.Pairwise fun x y => x.1 ≠ y.1 := by
    refine Std.ExtTreeMap.distinct_keys_toList.imp fun {x y} apart same => apart ?_
    rw [same]
    exact Std.ReflCmp.compare_self
  rw [letters, List.Nodup, List.pairwise_map]
  refine keys.imp_of_mem fun {x y} hx hy apart same => apart ?_
  have hx := Std.ExtTreeMap.mem_toList_iff_getElem?_eq_some.1 hx
  have hy := Std.ExtTreeMap.mem_toList_iff_getElem?_eq_some.1 hy
  exact named.distinct x.1 y.1 x.2 hx (same ▸ hy)

/-- **Cutting right sides** introduces the letters of the pieces. -/
theorem Cut.introduces {pieces : List (List Symbol)} {cut : List Symbol → List Symbol} (c : Cut g h names pieces cut)
    (sub : ∀ right, Whole g names right → ∀ s ∈ cut right, s ∈ right ∨ names.IsLetter s) :
    Introduces g h [⟨g, names.letters⟩] := by
  refine introduces_of_supply (fun a ha => ?_) (nodup_letters c.named) ?_
  · obtain ⟨piece, named⟩ := mem_letters.1 ha
    exact c.named.fresh piece a named
  · refine forall_mentions (.inl (.inl c.start)) fun p mem => ⟨?_, fun s hs => ?_⟩
    · rcases (c.productions p).1 mem with ⟨q, hq, rfl⟩ | ⟨piece, a, named, rfl⟩
      · exact .inl (mentions_left hq)
      · exact .inr (mem_letters.2 ⟨piece, named⟩)
    · obtain ⟨right, whole, eq⟩ := c.mem_of_whole mem
      rcases sub right whole s (eq ▸ hs) with used | letter
      · obtain ⟨q, hq, used⟩ := c.mem_right_of_whole whole used
        exact .inl (mentions_right hq used)
      · exact .inr (mem_letters.2 letter)

theorem nameDrawing_eq {pieces : List (List Symbol)} (named : namePieces g.supply pieces = .ok names) :
    g.nameDrawing pieces = .ok ⟨g, names.letters⟩ := by
  rw [nameDrawing, named]
  rfl

theorem binarize_introduces (made : g.binarize = .ok h) : ∃ letters, g.pieceDrawing = .ok ⟨g, letters⟩ ∧
    Introduces g h [⟨g, letters⟩] ∧ ∀ a ∈ letters, h.Mentions a := by
  obtain ⟨names, named, b⟩ := names_of_binarize made
  refine ⟨names.letters, nameDrawing_eq named, Cut.introduces b fun _ whole _ => b.mem_halve whole, fun a ha => ?_⟩
  obtain ⟨piece, found⟩ := mem_letters.1 ha
  exact mentions_left (b.letter_production found)

theorem liftTrailingTerminals_introduces (made : g.liftTrailingTerminals = .ok h) :
    ∃ letters, g.trailingDrawing = .ok ⟨g, letters⟩ ∧ Introduces g h [⟨g, letters⟩] := by
  obtain ⟨names, named, l⟩ := names_of_liftTrailingTerminals made
  exact ⟨names.letters, nameDrawing_eq named, Cut.introduces l fun _ whole _ => l.mem_liftTail whole⟩

/-! ## A new start symbol -/

theorem withNewStart_introduces (free : a ∈ g.supply.free) : Introduces g (g.withNewStart a) [⟨g, [a]⟩] := by
  have new : a ∈ [a] := List.mem_singleton_self a
  refine introduces_of_supply (by simpa using free) (List.nodup_singleton a) ?_
  refine forall_mentions (.inr new) fun p mem => ?_
  rcases mem_withNewStart.1 mem with rfl | rfl | old
  · exact ⟨.inr new, by simp⟩
  · exact ⟨.inr new, by simpa using .inl (.inl rfl)⟩
  · exact ⟨.inl (mentions_left old), fun s hs => .inl (mentions_right old hs)⟩

/-- **The proper form** introduces its start symbol, or nothing. -/
theorem proper_introduces (made : g.proper = .ok h) :
    ∃ d, g.startDrawing = .ok d ∧ Introduces g h [d] ∧ ∀ a ∈ d.letters, a = h.start := by
  have none : ∀ k : Grammar, (∀ s, h.Mentions s → k.Mentions s) → Introduces k h [⟨k, []⟩] := fun k fewer =>
    introduces_of_supply (by simp) List.nodup_nil fun s known => .inl (fewer s known)
  have useful : ∀ s, g.removeUseless.Mentions s → g.Mentions s := keep_mentions _
  simp only [proper] at made
  simp only [startDrawing]
  split at made
  · rename_i rule
    cases made
    rw [if_neg fun all => by simp [all.1] at rule]
    exact ⟨_, rfl, (none _ fun _ => id).before useful, by simp⟩
  rename_i rule
  have rule : g.removeUseless.hasStartRule := by simpa using rule
  split at made
  · rename_i both
    obtain ⟨⟨start, supply⟩, drawn, made⟩ := exists_of_bind made
    obtain rfl := Except.ok.inj made
    rw [if_pos ⟨rule, both⟩, drawn]
    have free : start ∈ g.removeUseless.supply.free := Supply.free_of_draw drawn ▸ List.mem_cons_self
    refine ⟨⟨g.removeUseless, [start]⟩, rfl, ?_, fun a ha => ?_⟩
    · exact ((withNewStart_introduces free).after removals_mention).before useful
    · rw [List.mem_singleton.1 ha, removals_start]
      rfl
  · rename_i both
    cases made
    rw [if_neg fun all => both all.2]
    exact ⟨_, rfl, (none _ removals_mention).before useful, by simp⟩

/-! ## Tails -/

/-- Every symbol derives some word. -/
def Fertile (g : Grammar) : Prop := ∀ s ∈ g.symbols, ∃ w, w ∈ words g.rules s

/-- what holds of the tails at every stage: they are what the supply has given, and each derives a word -/
structure Tailed (g : Grammar) (u : Untangling) (todo : List Symbol) : Prop where
  free : g.supply.free = (u.tails.map (·.1)).reverse ++ u.supply.free
  derives : ∀ a ∈ u.tails.map (·.1), ∃ w, w ∈ words (u.rules g todo) a

namespace Tailed

variable {u u' : Untangling}

theorem of_uses (tailed : Tailed g u todo) (inv : Untangled g u todo) (fertile : g.Fertile) (used : u.Uses g s) :
    ∃ w, w ∈ words (u.rules g todo) s := by
  rcases used with ⟨q, hq, used⟩ | ⟨drawn, spent⟩
  · have known : s ∈ g.symbols := mem_symbols.2 ⟨q, hq, .inr used⟩
    rw [inv.words_eq s fun free => (fresh_of_mem_supply free).2.1 known]
    exact fertile s known
  · rw [tailed.free, List.mem_append, List.mem_reverse] at drawn
    exact tailed.derives s (drawn.resolve_right spent)

/-- **One step** keeps the account of the tails. -/
theorem step (tailed : Tailed g u (left :: todo)) (inv : Untangled g u (left :: todo)) (fertile : g.Fertile)
    (nodup : (left :: todo).Nodup) (confined : g.EpsilonConfined)
    (made : u.step limits left (g.rightsOf left) = .ok u') : Tailed g u' todo := by
  obtain ⟨sorted, sort, ⟨none, rfl⟩ | ⟨some, tail, supply, total, drawn, -, rfl⟩⟩ := Untangling.step_cases made
  · refine ⟨tailed.free, fun a ha => ?_⟩
    rw [words_congr fun p => inv.mem_rules_plain none, inv.sorted_words sort]
    exact tailed.derives a ha
  have free : u.supply.free = tail :: supply.free := Supply.free_of_draw drawn
  have turnable := inv.turnable nodup confined sort some (free ▸ List.mem_cons_self)
  have old : ∀ s ≠ tail, words (turned (u.rules g todo) left tail sorted.kept sorted.recursive) s =
      words (u.rules g (left :: todo)) s := fun s ne => by
    rw [turnable.turned_words ne, inv.sorted_words sort]
  refine ⟨by rw [tailed.free, free]; simp, fun a ha => ?_⟩
  rw [words_congr fun p => inv.mem_rules_turned]
  rcases List.mem_cons.1 ha with rfl | ha
  · -- a new tail derives what follows the non-terminal in some recursive alternative
    obtain ⟨x, rest, eq⟩ := List.exists_cons_of_ne_nil some
    have mem : x ∈ sorted.recursive := eq ▸ List.mem_cons_self
    have rule : ⟨left, left :: x⟩ ∈ direct (u.rules g todo) left sorted.kept sorted.recursive :=
      mem_direct.2 (.inr (.inr ⟨x, mem, rfl⟩))
    have each : ∀ s ∈ x, ∃ w, w ∈ words (turned (u.rules g todo) left a sorted.kept sorted.recursive) s := by
      intro s hs
      have hs : s ∈ left :: x := List.mem_cons_of_mem left hs
      rw [old s fun eq => (turnable.tail_unused _ rule).2 (eq ▸ hs)]
      exact tailed.of_uses inv fertile ((inv.sorted_shape confined sort _ rule).1 s hs)
    obtain ⟨w, hw⟩ := exists_mem_form_iff.2 each
    exact ⟨w, form_le_words (turnable.turned_of_recursive mem).1 hw⟩
  · obtain ⟨e, he, rfl⟩ := List.mem_map.1 ha
    have ne : e.1 ≠ tail := fun eq => (inv.tails e he).2 (free ▸ eq ▸ List.mem_cons_self)
    rw [old e.1 ne]
    exact tailed.derives _ ha

/-- **A run** keeps the account of the tails. -/
theorem run (tailed : Tailed g u todo) (inv : Untangled g u todo) (fertile : g.Fertile) (nodup : todo.Nodup)
    (confined : g.EpsilonConfined) (made : u.run limits g.rightsOf todo = .ok u') : Tailed g u' [] := by
  induction todo generalizing u with
  | nil =>
    cases made
    exact tailed
  | cons left todo ih =>
    obtain ⟨next, first, made⟩ := exists_of_bind made
    exact ih (tailed.step inv fertile nodup confined first) (inv.step nodup confined first)
      (List.nodup_cons.1 nodup).2 made

end Tailed

theorem tailed_of_run {u : Untangling} (wf : g.WellFormed) (confined : g.EpsilonConfined) (fertile : g.Fertile)
    (run : Untangling.run limits g.rightsOf { supply := g.supply, total := g.productions.size } g.lefts = .ok u) :
    Tailed g u [] := by
  have start : Tailed g { supply := g.supply, total := g.productions.size } g.lefts := ⟨by simp, by simp⟩
  exact start.run (untangled_start wf) fertile nodup_lefts confined run

/-- What a finished run has made introduces the tails. -/
theorem Tailed.introduces {u : Untangling} (tailed : Tailed g u []) (inv : Untangled g u []) (wf : g.WellFormed) :
    Introduces g (g.withProductions (.ofList u.productions)) [⟨g, u.tails.map (·.1)⟩] := by
  have drawn : ∀ a ∈ u.tails.map (·.1), a ∈ g.supply.free := fun a ha => by
    rw [tailed.free, List.mem_append, List.mem_reverse]
    exact .inl ha
  have nodup : g.supply.free.Nodup := Supply.nodup_avoiding
  rw [tailed.free] at nodup
  refine introduces_of_supply drawn (List.nodup_reverse.1 (List.nodup_append.1 nodup).1) ?_
  refine forall_mentions (.inl (.inl rfl)) fun p mem => ⟨?_, fun s hs => ?_⟩
  · rcases Untangling.mem_productions.1 (FiniteSet.mem_ofList.1 mem) with ⟨rights, known, -⟩ | ⟨rights, known, -⟩
    · obtain ⟨nonTerminal, taken⟩ := inv.dealt p.left rights known
      exact .inl (mentions_of_not_free wf nonTerminal taken)
    · exact .inr (List.mem_map_of_mem known)
  · rcases inv.uses p (Untangling.mem_made.1 mem) s hs with ⟨q, hq, used⟩ | ⟨drawn, spent⟩
    · exact .inl (mentions_right hq used)
    · rw [tailed.free, List.mem_append, List.mem_reverse] at drawn
      exact .inr (drawn.resolve_right spent)

/-- **Removal of left recursion** introduces the tails. Each derives a word, and the symbols of the grammar derive what
they did. -/
theorem removeLeftRecursion_introduces (wf : g.WellFormed) (confined : g.EpsilonConfined) (fertile : g.Fertile)
    (made : g.removeLeftRecursion limits = .ok h) : ∃ letters, g.tailDrawing limits = .ok ⟨g, letters⟩ ∧
      Introduces g h [⟨g, letters⟩] ∧ (∀ a ∈ letters, Symbol.isNonTerminal a ∧ ∃ w, w ∈ words h.rules a) ∧
      ∀ s ∈ g.symbols, words h.rules s = words g.rules s := by
  obtain ⟨u, run, rfl⟩ := run_of_removeLeftRecursion made
  have inv := (untangled_start wf).run nodup_lefts confined run
  have tailed := tailed_of_run wf confined fertile run
  have stage : words (g.withProductions (.ofList u.productions)).rules = words (u.rules g []) :=
    words_congr fun p => mem_rules.trans Untangling.mem_made
  refine ⟨u.tails.map (·.1), by rw [tailDrawing, run]; rfl, tailed.introduces inv wf, fun a ha => ?_, fun s known => ?_⟩
  · obtain ⟨e, he, rfl⟩ := List.mem_map.1 ha
    rw [stage]
    exact ⟨(fresh_of_mem_supply (inv.tails e he).1).1, tailed.derives _ ha⟩
  · rw [stage, inv.words_eq s fun free => (fresh_of_mem_supply free).2.1 known]

/-! ## Whole transformations -/

theorem fertile_of_useful (useful : g.hasStartRule → g.Useful) (some : g.hasStartRule ∨ g.productions = ∅) :
    g.Fertile := by
  rcases some with rule | none
  · exact fun s known => (useful rule s known).1
  · intro s known
    obtain ⟨p, mem, -⟩ := mem_symbols.1 known
    rw [none] at mem
    exact absurd mem Std.ExtTreeSet.not_mem_empty

theorem leftRecursion_introduces (wf : g.WellFormed) (rule : g.hasStartRule)
    (made : g.eliminateLeftRecursion limits = .ok h) :
    ∃ drawings, g.leftRecursionDrawings limits = .ok drawings ∧ Introduces g h drawings := by
  obtain ⟨k, proper, made⟩ := stages_of_eliminateLeftRecursion rule made
  have form := proper_spec wf rule proper
  have fertile : k.Fertile := fertile_of_useful (useful_of_proper proper)
    (hasStartRule_of_normal rule ⟨k, proper, .refl form.wellFormed, form.generates⟩)
  obtain ⟨d, start, introduces, raised⟩ := proper_introduces proper
  obtain ⟨letters, tails, more, -⟩ := removeLeftRecursion_introduces form.wellFormed form.confined fertile made
  refine ⟨[d, ⟨k, letters⟩], ?_, introduces.next (fun a ha => .inl (raised a (by simpa using ha))) more⟩
  rw [leftRecursionDrawings, start, proper]
  simp [tails, bind, Except.bind, pure, Except.pure]

/-- **The conversion to Chomsky normal form** introduces letters that are symbols of its result. -/
theorem chomsky_introduces (rule : g.hasStartRule) (made : g.toChomsky = .ok h) :
    ∃ drawings, g.chomskyDrawings = .ok drawings ∧ Introduces g h drawings ∧
      ∀ a ∈ Drawing.lettersOf drawings, h.Mentions a := by
  obtain ⟨k, proper, made⟩ := stages_of_toChomsky rule made
  obtain ⟨d, start, introduces, raised⟩ := proper_introduces proper
  obtain ⟨letters, pieces, more, known⟩ := binarize_introduces made
  obtain ⟨names, b⟩ := binarized_of_ok made
  refine ⟨[d, ⟨k, letters⟩], ?_, introduces.next (fun a ha => .inl (raised a (by simpa using ha))) more, ?_⟩
  · rw [chomskyDrawings, start, proper]
    simp [pieces, bind, Except.bind, pure, Except.pure]
  · simp only [lettersOf_cons, lettersOf_nil, List.append_nil, List.mem_append]
    rintro a (ha | ha)
    · exact .inl ((raised a ha).trans b.start.symm)
    · exact known a ha

theorem fertile_of_toChomsky (wf : g.WellFormed) (rule : g.hasStartRule) (made : g.toChomsky = .ok h) : h.Fertile := by
  refine fertile_of_useful (fun kept => ?_) (hasStartRule_of_normal rule (exists_proper_of_toChomsky wf rule made))
  obtain ⟨k, proper, made⟩ := stages_of_toChomsky rule made
  obtain ⟨names, b⟩ := binarized_of_ok made
  exact b.useful (useful_of_proper proper (b.hasStartRule_of kept))

/-- **The conversion to Greibach normal form** introduces different letters in four places. The letters of the first
three derive words, so they are symbols still when the last ones are drawn. -/
theorem greibach_introduces (wf : g.WellFormed) (rule : g.hasStartRule) (made : g.toGreibach limits = .ok h) :
    ∃ drawings, g.greibachDrawings limits = .ok drawings ∧ Introduces g h drawings := by
  obtain ⟨g₁, g₂, g₃, g₄, chomsky, untangled, settled, lifted, rfl⟩ := stages_of_toGreibach rule made
  obtain ⟨wf₁, shape, -⟩ := toChomsky_spec wf rule chomsky
  have fertile := fertile_of_toChomsky wf rule chomsky
  obtain ⟨first, firstDrawn, introduces, known⟩ := chomsky_introduces rule chomsky
  obtain ⟨tails, tailsDrawn, more, derives, same⟩ :=
    removeLeftRecursion_introduces wf₁ (confined_of_isChomsky shape) fertile untangled
  obtain ⟨trailing, trailingDrawn, last⟩ := liftTrailingTerminals_introduces lifted
  obtain ⟨start₃, words₃⟩ := settle_words settled
  -- what derives a word after the removal of left recursion is a symbol after the rounds
  have kept : ∀ a, Symbol.isNonTerminal a → (∃ w, w ∈ words g₂.rules a) → g₃.Mentions a := fun a nonTerminal some =>
    mentions_of_word nonTerminal ((words₃ a).symm ▸ some)
  have next := (introduces.next known more).after (settle_mentions settled)
  have still : ∀ a ∈ Drawing.lettersOf (first ++ [⟨g₁, tails⟩]), g₃.Mentions a := by
    simp only [lettersOf_append, lettersOf_cons, lettersOf_nil, List.append_nil, List.mem_append]
    rintro a (old | tail)
    · rcases known a old with rfl | symbol
      · exact .inl (start₃.trans (removeLeftRecursion_start untangled)).symm
      · obtain ⟨d, hd, ha⟩ := List.mem_flatMap.1 old
        exact kept a (introduces.fresh d hd a ha).1 (same a symbol ▸ fertile a symbol)
    · exact kept a (derives a tail).1 (derives a tail).2
  refine ⟨_, ?_, (next.next still last).after (keep_mentions _)⟩
  rw [greibachDrawings, firstDrawn, chomsky]
  simp only [tailsDrawn, untangled, settled, trailingDrawn, bind, Except.bind, pure, Except.pure]

/-- **What a transformation introduces.** Whenever it succeeds its letters are new to the grammar that each is added to,
no two of them are the same, and nothing else is new. -/
theorem apply_introduces (wf : g.WellFormed) {t : Transformation} (made : t.apply limits g = .ok h) :
    ∃ drawings, t.drawings limits g = .ok drawings ∧ Introduces g h drawings := by
  have itself : (.ok g : Except GrammarError Grammar) = .ok h → Introduces g h [] := by
    rintro ⟨⟩
    exact .nil fun _ => id
  cases t with
  | removeUngenerative =>
    cases made
    refine ⟨[], rfl, .nil ?_⟩
    unfold removeUngenerative
    split
    · exact keep_mentions _
    · exact fun _ => id
  | removeUnreachable =>
    cases made
    refine ⟨[], rfl, .nil ?_⟩
    unfold removeUnreachable
    split
    · exact keep_mentions _
    · exact fun _ => id
  | removeUseless =>
    cases made
    exact ⟨[], rfl, .nil (keep_mentions _)⟩
  | removeEpsilonProductions =>
    cases made
    exact ⟨[], rfl, .nil removeEpsilonProductions_mentions⟩
  | removeUnitProductions =>
    cases made
    exact ⟨[], rfl, .nil removeUnitProductions_mentions⟩
  | eliminateLeftRecursion =>
    by_cases rule : g.hasStartRule
    · simpa only [Transformation.drawings, if_pos rule] using leftRecursion_introduces wf rule made
    · exact ⟨[], if_neg rule, itself ((if_neg rule).symm.trans made)⟩
  | toChomsky =>
    by_cases rule : g.hasStartRule
    · obtain ⟨drawings, drawn, introduces, -⟩ := chomsky_introduces rule made
      exact ⟨drawings, (if_pos rule).trans drawn, introduces⟩
    · exact ⟨[], if_neg rule, itself ((if_neg rule).symm.trans made)⟩
  | toGreibach =>
    by_cases rule : g.hasStartRule
    · simpa only [Transformation.drawings, if_pos rule] using greibach_introduces wf rule made
    · exact ⟨[], if_neg rule, itself ((if_neg rule).symm.trans made)⟩

/-! ## Pipelines -/

/-- **A pipeline keeps the vocabulary**: what it gives descends from what it was given. -/
theorem applyAll_descends {steps : List (Limits × Transformation)} (wf : g.WellFormed)
    (run : Transformation.applyAll g steps = .ok h) : Descends g h := by
  induction steps generalizing g with
  | nil =>
    cases run
    exact .refl wf
  | cons step steps ih =>
    obtain ⟨k, first, run⟩ := exists_of_bind run
    have descends := apply_descends wf first
    exact descends.trans (ih descends.wellFormed run)

/-- **Well-formedness survives every pipeline.** Whatever sequence of transformations a grammar that was built goes
through, under whatever limits, each result is well-formed, has the sentinel of the first grammar, and has no terminal
that the first grammar had not. And whatever transformation comes next, its letters are non-terminals that are new to
the grammar that each is added to, and no two of them are the same. -/
theorem pipeline_wellFormed {d : Draft} {steps : List (Limits × Transformation)} (built : d.build = .ok g)
    (run : Transformation.applyAll g steps = .ok h) :
    (h.WellFormed ∧ h.epsilon = g.epsilon ∧ ∀ a ∈ h.terminals, a ∈ g.terminals) ∧
      ∀ (limits : Limits) (t : Transformation) (k : Grammar), t.apply limits h = .ok k →
        ∃ drawings, t.drawings limits h = .ok drawings ∧ Introduces h k drawings := by
  have descends := applyAll_descends (Draft.wellFormed_of_build built) run
  have wf := descends.wellFormed
  refine ⟨⟨wf, descends.epsilon, fun a ha => ?_⟩, fun limits t k made => apply_introduces wf made⟩
  obtain ⟨known, terminal⟩ := mem_terminals.1 ha
  obtain ⟨p, mem, rfl | used⟩ := mem_symbols.1 known
  · exact absurd (wf.left_nonTerminal p mem) (Symbol.isTerminal_iff_not.1 terminal)
  · obtain ⟨q, hq, used⟩ := descends.terminals p mem a used terminal
    exact mem_terminals.2 ⟨mem_symbols.2 ⟨q, hq, .inr used⟩, terminal⟩

set_option maxRecDepth 100000 in
/-- Nothing is removed from this grammar. Then its left recursion goes, for which letters are drawn in two places: the
new start symbol `A`, and the tail `B`. -/
theorem pipeline_wellFormed_leftRecursive : ∃ (d : Draft) (g h k : Grammar), d.build = .ok g ∧
    Transformation.applyAll g [({}, .removeUseless), (⟨5, 5⟩, .removeUnitProductions)] = .ok h ∧
    Transformation.eliminateLeftRecursion.apply {} h = .ok k ∧
    (h.WellFormed ∧ h.epsilon = g.epsilon ∧ ∀ a ∈ h.terminals, a ∈ g.terminals) ∧
    ∃ drawings, Transformation.eliminateLeftRecursion.drawings {} h = .ok drawings ∧
      drawings.map (·.letters) = [['A'], ['B']] ∧ Introduces h k drawings := by
  set g : Grammar := ⟨'S', 'ε', .ofList [⟨'S', []⟩, ⟨'S', ['S', 'a']⟩]⟩
  have built : Draft.build { rules := [⟨'S', ['ε']⟩, ⟨'S', ['S', 'a']⟩] } = .ok g := by decide +kernel
  have run : Transformation.applyAll g [({}, .removeUseless), (⟨5, 5⟩, .removeUnitProductions)] = .ok g := by
    decide +kernel
  obtain ⟨k, made⟩ : ∃ k, Transformation.eliminateLeftRecursion.apply {} g = .ok k := exists_of_isOk (by decide +kernel)
  have letters : (Transformation.eliminateLeftRecursion.drawings {} g).map (List.map (·.letters)) =
      .ok [['A'], ['B']] := by decide +kernel
  obtain ⟨sound, introduces⟩ := pipeline_wellFormed built run
  obtain ⟨drawings, drawn, introduces⟩ := introduces {} .eliminateLeftRecursion k made
  rw [drawn] at letters
  exact ⟨_, g, g, k, built, run, made, sound, drawings, drawn, Except.ok.inj letters, introduces⟩

end ContextFree.Grammar
