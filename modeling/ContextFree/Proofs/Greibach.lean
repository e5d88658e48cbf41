import ContextFree.Proofs.Chomsky
import ContextFree.Proofs.LeftRecursion
import ContextFree.Transformation.Greibach

/-!
Greibach normal form is what it claims to be. The shape is tested when the expansion of leading symbols ends, so no
order of the non-terminals is needed for it; what every stage has to carry along is that empty right sides are confined.

- `expandLeading_words`: replacing all leading non-terminals at once keeps the words of every symbol;
- `settle_spec`: what the rounds end in keeps the language and is settled;
- `liftTrailingTerminals_spec`: fresh letters for trailing terminals keep the language and make the shape;
- `toGreibach_spec`: the conversion keeps the language, and its result is in Greibach normal form.
-/

namespace ContextFree.Grammar

open PieceNames

variable {limits : Limits} {g h : Grammar} {names : PieceNames} {p : Production} {s a : Symbol} {right w : List Symbol}

/-! ## Leading symbols -/

theorem mem_expandLeading : p ∈ g.expandLeading.productions ↔ p ∈ g.productions ∧ isSettled p ∨
    ∃ s rest head, Symbol.isNonTerminal s ∧ ⟨p.left, s :: rest⟩ ∈ g.productions ∧ ⟨s, head⟩ ∈ g.productions ∧
      p.right = head ++ rest := by
  simp only [expandLeading, Grammar.withProductions, FiniteSet.mem_ofList, List.mem_flatMap, mem_rules]
  constructor
  · rintro ⟨q, hq, mem⟩
    split at mem
    · rename_i nil
      obtain rfl := List.mem_singleton.1 mem
      exact .inl ⟨hq, by simp [isSettled, nil]⟩
    · rename_i s rest right
      split at mem
      · rename_i terminal
        obtain rfl := List.mem_singleton.1 mem
        exact .inl ⟨hq, by simp [isSettled, right, terminal]⟩
      · rename_i nonTerminal
        obtain ⟨head, rule, rfl⟩ := List.mem_map.1 mem
        rw [getD_index, mem_rightsOf] at rule
        refine .inr ⟨s, rest, head, Symbol.not_isTerminal.1 nonTerminal, ?_, rule, rfl⟩
        rwa [← right]
  · rintro (⟨mem, settled⟩ | ⟨s, rest, head, hs, mem, rule, right⟩)
    · refine ⟨p, mem, ?_⟩
      split
      · exact List.mem_singleton_self p
      · rename_i s rest right
        have terminal : Symbol.isTerminal s := by simpa [isSettled, right] using settled
        rw [if_pos terminal]
        exact List.mem_singleton_self p
    · refine ⟨_, mem, ?_⟩
      simp only
      rw [if_neg (fun terminal => Symbol.isTerminal_iff_not.1 terminal hs), List.mem_map]
      exact ⟨head, by rwa [getD_index, mem_rightsOf], by rw [← right]⟩

theorem isSettled_iff : isSettled p ↔ ∀ s rest, p.right = s :: rest → Symbol.isTerminal s := by
  unfold isSettled
  cases p.right with
  | nil => simp
  | cons s rest => simp

/-- **Replacing all leading non-terminals at once** keeps the words of every symbol. -/
theorem expandLeading_words : words g.expandLeading.rules s = words g.rules s := by
  apply le_antisymm
  · refine words_le ⟨fun a => singleton_mem_words, fun p mem => ?_⟩ s
    rcases mem_expandLeading.1 (mem_rules.1 mem) with ⟨mem, -⟩ | ⟨t, rest, head, ht, mem, rule, right⟩
    · exact words_closed.rule p (mem_rules.2 mem)
    · calc (words g.rules).form p.right
          = (words g.rules).form head * (words g.rules).form rest := by rw [right, Reading.form_append]
        _ ≤ words g.rules t * (words g.rules).form rest := mul_le_mul' (form_le_words (mem_rules.2 rule)) le_rfl
        _ = (words g.rules).form (t :: rest) := Reading.form_cons.symm
        _ ≤ words g.rules p.left := form_le_words (mem_rules.2 mem)
  · -- a word is derived anew, and it is still one of an old right side, with the new words for its symbols
    intro w hw
    refine (words_induction (P := fun s w => w ∈ words g.expandLeading.rules s ∧ (Symbol.isNonTerminal s →
      ∃ right, ⟨s, right⟩ ∈ g.productions ∧ w ∈ (words g.expandLeading.rules).form right)) ?_ ?_ hw).1
    · exact fun a ha => ⟨singleton_mem_words ha, fun hs => absurd hs (Symbol.isTerminal_iff_not.1 ha)⟩
    intro p mem w hw
    rw [mem_rules] at mem
    have new : w ∈ (words g.expandLeading.rules).form p.right := Reading.form_mono (fun _ _ _ h => h.2.1) hw
    refine ⟨?_, fun _ => ⟨p.right, mem, new⟩⟩
    by_cases settled : isSettled p
    · exact words_closed.rule p (mem_rules.2 (mem_expandLeading.2 (.inl ⟨mem, settled⟩))) new
    · simp only [isSettled_iff, not_forall] at settled
      obtain ⟨t, rest, right, ht⟩ := settled
      rw [Symbol.not_isTerminal] at ht
      rw [right] at hw
      obtain ⟨x, hx, y, hy, rfl⟩ := Reading.mem_form_cons.1 hw
      obtain ⟨head, rule, hx⟩ := hx.2.2 ht
      have made : ⟨p.left, head ++ rest⟩ ∈ g.expandLeading.productions :=
        mem_expandLeading.2 (.inr ⟨t, rest, head, ht, right ▸ mem, rule, rfl⟩)
      refine form_le_words (mem_rules.2 made) (Reading.mem_form_append.2 ⟨x, hx, y, ?_, rfl⟩)
      exact Reading.form_mono (fun _ _ _ h => h.2.1) hy

theorem mem_right_of_expandLeading (mem : p ∈ g.expandLeading.productions) (hs : s ∈ p.right) :
    ∃ q ∈ g.productions, s ∈ q.right := by
  rcases mem_expandLeading.1 mem with ⟨mem, -⟩ | ⟨t, rest, head, -, mem, rule, right⟩
  · exact ⟨p, mem, hs⟩
  · rw [right] at hs
    rcases List.mem_append.1 hs with hs | hs
    · exact ⟨_, rule, hs⟩
    · exact ⟨_, mem, List.mem_cons_of_mem t hs⟩

theorem WellFormed.expandLeading (wf : g.WellFormed) : g.expandLeading.WellFormed := by
  refine wf.withProductions fun p mem => ⟨?_, ?_⟩
  · rcases mem_expandLeading.1 mem with ⟨old, -⟩ | ⟨t, rest, head, -, old, -⟩
    · exact wf.left_nonTerminal p old
    · exact wf.left_nonTerminal ⟨p.left, t :: rest⟩ old
  · intro used
    obtain ⟨q, hq, used⟩ := mem_right_of_expandLeading mem used
    exact wf.epsilon_not_right q hq used

theorem EpsilonConfined.expandLeading (confined : g.EpsilonConfined) : g.expandLeading.EpsilonConfined := by
  intro p mem nil
  have free : ∀ {s}, ⟨s, []⟩ ∈ g.productions → ∀ q ∈ g.productions, s ∉ q.right := by
    intro s mem
    obtain ⟨rfl, free⟩ := confined _ mem rfl
    exact free
  rcases mem_expandLeading.1 mem with ⟨old, -⟩ | ⟨t, rest, head, -, mem, rule, right⟩
  · obtain ⟨left, free⟩ := confined p old nil
    refine ⟨left, fun q mem used => ?_⟩
    obtain ⟨r, hr, used⟩ := mem_right_of_expandLeading mem used
    exact free r hr used
  · obtain rfl : head = [] := (List.append_eq_nil_iff.1 (right.symm.trans nil)).1
    exact absurd List.mem_cons_self (free rule _ mem)

/-- The rounds keep the start symbol and the words of every symbol. -/
theorem settle_words {rounds : Nat} (made : settle limits rounds g = .ok h) :
    h.start = g.start ∧ ∀ s, words h.rules s = words g.rules s := by
  induction rounds generalizing g with
  | zero => cases made
  | succ rounds ih =>
    rw [settle] at made
    split at made
    · cases made
      exact ⟨rfl, fun s => rfl⟩
    · obtain ⟨-, -, made⟩ := exists_of_bind made
      obtain ⟨start, same⟩ := ih made
      exact ⟨start, fun s => (same s).trans expandLeading_words⟩

/-- **The rounds** keep the language and end with settled right sides. -/
theorem settle_spec {rounds : Nat} (wf : g.WellFormed) (confined : g.EpsilonConfined)
    (made : settle limits rounds g = .ok h) :
    h.WellFormed ∧ h.EpsilonConfined ∧ (∀ p ∈ h.productions, isSettled p) ∧ ∀ w, h.Generates w ↔ g.Generates w := by
  have shape : h.WellFormed ∧ h.EpsilonConfined ∧ ∀ p ∈ h.productions, isSettled p := by
    induction rounds generalizing g with
    | zero => cases made
    | succ rounds ih =>
      rw [settle] at made
      split at made
      · rename_i settled
        cases made
        exact ⟨wf, confined, by simpa using settled⟩
      · obtain ⟨-, -, made⟩ := exists_of_bind made
        exact ih wf.expandLeading confined.expandLeading made
  obtain ⟨start, same⟩ := settle_words made
  exact ⟨shape.1, shape.2.1, shape.2.2, fun w => by rw [generates_iff, generates_iff, start, same]⟩

/-! ## Trailing terminals -/

/-- the right side with letters for the terminals behind its first symbol -/
def liftTail (names : PieceNames) (right : List Symbol) : List Symbol :=
  right.take 1 ++ right.tail.map fun s => names.symbolOf [s]

/-- the trailing terminals of all right sides, each as a piece -/
def trailing (g : Grammar) : List (List Symbol) :=
  (g.rules.flatMap fun p => p.right.tail.filter Symbol.isTerminal).map ([·])

theorem mem_trailing {piece : List Symbol} :
    piece ∈ g.trailing ↔ ∃ p ∈ g.productions, ∃ s ∈ p.right.tail, Symbol.isTerminal s ∧ piece = [s] := by
  simp only [trailing, List.mem_map, List.mem_flatMap, List.mem_filter, mem_rules]
  constructor
  · rintro ⟨s, ⟨p, hp, hs, terminal⟩, rfl⟩
    exact ⟨p, hp, s, hs, terminal, rfl⟩
  · rintro ⟨p, hp, s, hs, terminal, rfl⟩
    exact ⟨s, ⟨p, hp, hs, terminal⟩, rfl⟩

/-- what the lifting makes -/
def Lifted (g h : Grammar) (names : PieceNames) : Prop := Cut g h names g.trailing (liftTail names)

/-- Lifting cuts right sides by the names of their trailing terminals. -/
theorem names_of_liftTrailingTerminals (made : g.liftTrailingTerminals = .ok h) :
    ∃ names, namePieces g.supply g.trailing = .ok names ∧ Lifted g h names := by
  simp only [liftTrailingTerminals, bind, Except.bind, pure, Except.pure] at made
  generalize eq : namePieces g.supply _ = result at made
  cases result with
  | error e => cases made
  | ok names =>
  simp only [Except.ok.injEq] at made
  subst made
  have named : Names names g.supply g.trailing := by
    refine namePieces_spec Supply.nodup_avoiding (fun s hs => ?_) eq
    obtain ⟨-, -, t, -, terminal, one⟩ := mem_trailing.1 hs
    rwa [List.singleton_inj.1 one]
  -- a named piece is one terminal, and such a right side is not changed
  have alone : ∀ (piece : List Symbol) a, names[piece]? = some a → liftTail names piece = piece := by
    intro piece a found
    obtain ⟨-, -, t, -, -, rfl⟩ := mem_trailing.1 (named.wanted piece a found)
    rfl
  refine ⟨names, eq, rfl, rfl, named, ?_, ?_⟩
  · intro piece mem
    obtain ⟨q, hq, s, hs, -, rfl⟩ := mem_trailing.1 mem
    refine ⟨List.cons_ne_nil s [], q, hq, ?_⟩
    simpa using List.mem_of_mem_tail hs
  · intro p
    simp only [Grammar.withProductions, FiniteSet.mem_ofList, List.mem_append, List.mem_map, mem_rules, Prod.exists,
      Std.ExtTreeMap.mem_toList_iff_getElem?_eq_some]
    refine or_congr ⟨?_, ?_⟩ ⟨?_, ?_⟩
    · rintro ⟨q, hq, rfl⟩
      exact ⟨q, hq, rfl⟩
    · rintro ⟨q, hq, rfl⟩
      exact ⟨q, hq, rfl⟩
    · rintro ⟨piece, a, found, rfl⟩
      exact ⟨piece, a, found, by rw [alone piece a found]⟩
    · rintro ⟨piece, a, found, rfl⟩
      exact ⟨piece, a, found, by rw [alone piece a found]⟩

theorem lifted_of_ok (made : g.liftTrailingTerminals = .ok h) : ∃ names, Lifted g h names :=
  (names_of_liftTrailingTerminals made).imp fun _ => And.right

namespace Lifted

theorem has (l : Lifted g h names) (whole : Whole g names right) (hs : s ∈ right.tail) : names.Has [s] := by
  by_cases terminal : Symbol.isTerminal s
  · rcases whole with ⟨p, hp, rfl⟩ | ⟨a, found⟩
    · exact .inr (l.named.known [s] (mem_trailing.2 ⟨p, hp, s, hs, terminal, rfl⟩))
    · obtain ⟨-, -, t, -, -, rfl⟩ := mem_trailing.1 (l.named.wanted right a found)
      exact absurd hs List.not_mem_nil
  · exact .inl ⟨s, rfl, Symbol.not_isTerminal.1 terminal⟩

theorem mem_liftTail (l : Lifted g h names) (whole : Whole g names right) (hs : s ∈ liftTail names right) :
    s ∈ right ∨ names.IsLetter s := by
  rcases List.mem_append.1 hs with hs | hs
  · exact .inl (List.mem_of_mem_take hs)
  · obtain ⟨t, ht, rfl⟩ := List.mem_map.1 hs
    apply (symbolOf_cases l.named (l.has whole ht)).imp_left
    intro eq
    rw [List.mem_singleton.1 eq]
    exact List.mem_of_mem_tail ht

theorem reading_liftTail (l : Lifted g h names) (whole : Whole g names right) :
    (cutReading g names).form (liftTail names right) = (words g.rules).form right := by
  cases right with
  | nil => rfl
  | cons s rest =>
    have old := fun t (ht : t ∈ s :: rest) => l.not_letter_of_whole whole ht
    have tail : (cutReading g names).form (rest.map fun t => names.symbolOf [t]) = (words g.rules).form rest := by
      rw [Reading.form, Reading.form, List.map_map]
      refine congrArg List.prod (List.map_congr_left fun t ht => ?_)
      have single := l.cutReading_symbolOf (l.has whole (s := t) ht) (by simpa using old t (List.mem_cons_of_mem s ht))
      rwa [Reading.form_singleton] at single
    rw [Reading.form_cons, ← tail, ← cutReading_old (old s List.mem_cons_self)]
    exact Reading.form_cons

theorem form_le_liftTail (l : Lifted g h names) (whole : Whole g names right) :
    (words h.rules).form right ≤ (words h.rules).form (liftTail names right) := by
  cases right with
  | nil => exact le_rfl
  | cons s rest =>
    have tail : ∀ f : List Symbol, f ⊆ rest →
        (words h.rules).form f ≤ (words h.rules).form (f.map fun t => names.symbolOf [t]) := by
      intro f sub
      induction f with
      | nil => exact le_rfl
      | cons t f ih =>
        rw [List.cons_subset] at sub
        rw [List.map_cons, Reading.form_cons, Reading.form_cons]
        exact mul_le_mul' (l.le_symbolOf_singleton (fun _ => rfl) (l.has whole sub.1)) (ih sub.2)
    calc (words h.rules).form (s :: rest)
        = words h.rules s * (words h.rules).form rest := Reading.form_cons
      _ ≤ words h.rules s * (words h.rules).form (rest.map fun t => names.symbolOf [t]) :=
          mul_le_mul' le_rfl (tail rest (List.Subset.refl rest))
      _ = (words h.rules).form (liftTail names (s :: rest)) := Reading.form_cons.symm

end Lifted

/-! ## Greibach normal form -/

theorem isGreibach_iff : g.isGreibach ↔ g.EpsilonConfined ∧ ∀ p ∈ g.productions, ∀ a rest, p.right = a :: rest →
    Symbol.isTerminal a ∧ ∀ s ∈ rest, Symbol.isNonTerminal s := by
  simp only [isGreibach, List.all_eq_true, mem_rules, EpsilonConfined, ← forall₂_and]
  apply forall₂_congr
  intro p _
  cases p.right with
  | nil => simp [startOnRight_eq_false_iff]
  | cons a rest => simp

/-- **Letters for trailing terminals** keep the language and make the shape of settled right sides. -/
theorem liftTrailingTerminals_spec (confined : g.EpsilonConfined) (settled : ∀ p ∈ g.productions, isSettled p)
    (made : g.liftTrailingTerminals = .ok h) : h.isGreibach ∧ ∀ w, h.Generates w ↔ g.Generates w := by
  obtain ⟨names, l⟩ := lifted_of_ok made
  refine ⟨isGreibach_iff.2 ⟨?_, ?_⟩, ?_⟩
  · apply l.confined confined (fun _ whole _ => l.mem_liftTail whole)
    intro right nil
    exact (List.take_eq_nil_iff.1 (List.append_eq_nil_iff.1 nil).1).resolve_left Nat.one_ne_zero
  · intro p mem a rest eq
    obtain ⟨right, whole, cut⟩ := l.mem_of_whole mem
    cases right with
    | nil => cases eq.symm.trans cut
    | cons b tail =>
      obtain ⟨rfl, rfl⟩ := List.cons_eq_cons.1 (eq.symm.trans cut)
      refine ⟨?_, ?_⟩
      · rcases whole with ⟨q, hq, right⟩ | ⟨letter, found⟩
        · exact isSettled_iff.1 (settled q hq) a tail right
        · obtain ⟨-, -, t, -, terminal, one⟩ := mem_trailing.1 (l.named.wanted _ letter found)
          rwa [(List.cons_eq_cons.1 one).1]
      · intro s hs
        obtain ⟨t, ht, rfl⟩ := List.mem_map.1 hs
        exact isNonTerminal_symbolOf l.named (l.has whole ht)
  · intro w
    exact l.generates_iff (fun _ => l.reading_liftTail) (fun _ => l.form_le_liftTail)

theorem isGreibach_removeUseless (shape : g.isGreibach) : g.removeUseless.isGreibach := by
  rw [isGreibach_iff] at shape ⊢
  exact ⟨shape.1.removeUseless, fun p mem => shape.2 p (removeUseless_sub mem)⟩

theorem stages_of_toGreibach (rule : g.hasStartRule) (made : g.toGreibach limits = .ok h) :
    ∃ g₁ g₂ g₃ g₄, g.toChomsky = .ok g₁ ∧ g₁.removeLeftRecursion limits = .ok g₂ ∧
      g₂.substituteLeading limits = .ok g₃ ∧ g₃.liftTrailingTerminals = .ok g₄ ∧ g₄.removeUseless = h := by
  rw [toGreibach, if_pos rule] at made
  obtain ⟨g₁, chomsky, made⟩ := exists_of_bind made
  obtain ⟨g₂, untangled, made⟩ := exists_of_bind made
  obtain ⟨g₃, settled, made⟩ := exists_of_bind made
  obtain ⟨g₄, lifted, made⟩ := exists_of_bind made
  exact ⟨g₁, g₂, g₃, g₄, chomsky, untangled, settled, lifted, Except.ok.inj made⟩

/-- What the last removal is made of has the language and the shape already. -/
theorem exists_greibach_of_toGreibach (wf : g.WellFormed) (rule : g.hasStartRule) (made : g.toGreibach limits = .ok h) :
    ∃ k : Grammar, k.removeUseless = h ∧ k.isGreibach ∧ ∀ w, k.Generates w ↔ g.Generates w := by
  obtain ⟨g₁, g₂, g₃, g₄, chomsky, untangled, settled, lifted, last⟩ := stages_of_toGreibach rule made
  obtain ⟨wf₁, shape₁, same₁⟩ := toChomsky_spec wf rule chomsky
  obtain ⟨wf₂, confined₂, same₂⟩ := removeLeftRecursion_spec wf₁ (confined_of_isChomsky shape₁) untangled
  obtain ⟨-, confined₃, settled₃, same₃⟩ := settle_spec wf₂ confined₂ settled
  obtain ⟨shape₄, same₄⟩ := liftTrailingTerminals_spec confined₃ settled₃ lifted
  refine ⟨g₄, last, shape₄, fun w => ?_⟩
  calc g₄.Generates w ↔ g₃.Generates w := same₄ w
    _ ↔ g₂.Generates w := same₃ w
    _ ↔ g₁.Generates w := same₂ w
    _ ↔ g.Generates w := same₁ w

/-- **Conversion to Greibach normal form** keeps the language, the empty word included, and makes the shape, whatever
the limits. -/
theorem toGreibach_spec (wf : g.WellFormed) (rule : g.hasStartRule) (limits : Limits)
    (made : g.toGreibach limits = .ok h) : h.isGreibach ∧ ∀ w, h.Generates w ↔ g.Generates w := by
  obtain ⟨k, rfl, shape, same⟩ := exists_greibach_of_toGreibach wf rule made
  exact ⟨isGreibach_removeUseless shape, fun w => removeUseless_generates.trans (same w)⟩

set_option maxRecDepth 100000 in
/-- The grammar of brackets is converted under the usual limits. -/
theorem toGreibach_brackets : brackets.WellFormed ∧ brackets.hasStartRule ∧ ∃ h, brackets.toGreibach {} = .ok h ∧
    h.isGreibach ∧ ∀ w, h.Generates w ↔ brackets.Generates w := by
  have rule : brackets.hasStartRule := by decide +kernel
  obtain ⟨h, made⟩ : ∃ h, brackets.toGreibach {} = .ok h := exists_of_isOk (by decide +kernel)
  exact ⟨brackets_wellFormed, rule, h, made, toGreibach_spec brackets_wellFormed rule {} made⟩

end ContextFree.Grammar
