import ContextFree.Proofs.Collection
import ContextFree.Proofs.Recognition

/-!
The items of a state are the valid ones. An item that a rightmost derivation shows behind some symbols is one that a
parse may be at there, in every grammar: what the derivation puts behind its non-terminals is what the items before it
predict. The other direction needs a grammar in which every symbol of a right side derives a word, for else an item may
expect a terminal that no derivation of a word ever puts in this place.

- `Foresees.step`: what the form of a rightmost derivation says about items is kept by its next step;
- `Valid.reads`, `Reads.valid`: the two directions;
- `mem_itemsOf_iff_valid`: so the state after some symbols holds the items that are valid for them;
- `Valid.exists_generates`: in particular what the stack stands for begins a word of the language.
-/

namespace ContextFree.Lr

open Relation

variable {g : Grammar} {a : Augmented} {m : Automaton} {start s x : Symbol} {i j : Item} {p top : Production}
  {γ δ u v w before after : List Symbol} {ps : List Production} {rules : List Production} {q : Nat}

/-! ## Rules whose symbols derive words -/

/-- Every symbol of a right side derives a word. -/
def Productive (rules : List Production) : Prop := ∀ p ∈ rules, ∀ s ∈ p.right, ∃ w, w ∈ words rules s

theorem Productive.of_derives (productive : Productive rules) (each : ∀ s ∈ u, ∃ w, w ∈ words rules s)
    (h : Derives rules u v) : ∀ s ∈ v, ∃ w, w ∈ words rules s :=
  (h.confine each fun p mem _ => ⟨mem, productive p mem⟩).2

theorem eq_of_mem_form (lefts : NonTerminalLefts rules) (word : IsWord u) (h : v ∈ (words rules).form u) : v = u := by
  rcases ReflTransGen.cases_head (derives_of_mem_form h).2 with eq | ⟨_, first, -⟩
  · exact eq.symm
  · obtain ⟨before, after, mem⟩ := first
    have terminal := word _ List.mem_append_cons_self
    exact absurd (lefts _ mem) (Symbol.isTerminal_iff_not.1 terminal)

namespace Augments

variable (aug : Augments g a start)

include aug

/-- Below the new start symbol the words are those of the grammar. -/
theorem words_le_words (ne : s ≠ start) : words a.productions s ≤ words g.rules s := by
  intro w hw
  refine words_induction (P := fun s w => s ≠ start → w ∈ words g.rules s) ?_ ?_ hw ne
  · exact fun b terminal _ => singleton_mem_words terminal
  · intro p mem w hw ne
    have old : p ∈ g.rules := by
      rw [aug.productions] at mem
      exact (List.mem_cons.1 mem).resolve_left fun eq => ne (eq ▸ rfl)
    refine words_closed.rule p old (Reading.form_mono (fun t ht v hv => hv.2 ?_) hw)
    exact fun eq => aug.start_not_right mem (eq ▸ ht)

/-- **The new start symbol derives the words of the grammar.** -/
theorem generates_of_mem_words (h : w ∈ words a.productions start) : g.Generates w := by
  obtain ⟨upper, unused, ne, -⟩ := Grammar.fresh_of_mem_supply aug.fresh
  obtain ⟨right, mem, hw⟩ := (mem_words_iff upper).1 h
  rw [aug.productions] at mem
  rcases List.mem_cons.1 mem with eq | mem
  · cases eq
    rw [Reading.form_singleton] at hw
    exact aug.words_le_words ne.symm hw
  · exact absurd (Grammar.mem_symbols.2 ⟨_, Grammar.mem_rules.1 mem, .inl rfl⟩) unused

theorem productive (rule : g.hasStartRule) (useful : g.uselessSymbols.isEmpty) : Productive a.productions := by
  have each : ∀ s ∈ g.symbols, ∃ w, w ∈ words a.productions s := by
    intro s known
    obtain ⟨w, hw⟩ := Grammar.exists_word_of_mem_generating (Grammar.mem_generating_of_useful rule useful known)
    exact ⟨w, words_mono (fun p => aug.mem_of_mem_rules) s hw⟩
  intro p mem s hs
  rw [aug.productions] at mem
  rcases List.mem_cons.1 mem with rfl | mem
  · obtain rfl := List.mem_singleton.1 hs
    obtain ⟨right, first⟩ := Grammar.hasStartRule_iff.1 rule
    exact each _ (Grammar.mem_symbols.2 ⟨_, first, .inl rfl⟩)
  · exact each s (Grammar.mem_symbols.2 ⟨p, Grammar.mem_rules.1 mem, .inr hs⟩)

end Augments

/-! ## What derivations show is read -/

namespace Augmented

/-- Wherever a non-terminal stands in the form, a parse with the symbols before it may be at the beginning of its
productions, with the first symbol of any word that comes after it. -/
def Foresees (a : Augmented) (form : List Symbol) : Prop :=
  ∀ before p after n w, form = before ++ p.left :: after → a.productions[n]? = some p →
    w ∈ (words a.productions).form after → a.Reads before ⟨n, 0, w.headD endMark⟩

theorem foresees_start (aug : Augments g a start) : a.Foresees [start] := by
  obtain ⟨-, unused, -, -⟩ := Grammar.fresh_of_mem_supply aug.fresh
  intro before p after n w eq found hw
  obtain ⟨rfl, rfl, rfl⟩ : before = [] ∧ start = p.left ∧ after = [] := by
    cases before with
    | nil => exact ⟨rfl, by simpa [eq_comm] using eq⟩
    | cons => simp at eq
  obtain rfl : w = [] := hw
  rw [aug.productions] at found
  cases n with
  | zero => exact .start
  | succ n =>
    have mem := Grammar.mem_rules.1 (List.mem_of_getElem? found)
    exact absurd (Grammar.mem_symbols.2 ⟨p, mem, .inl rfl⟩) unused

/-- **The next step of a rightmost derivation** keeps what the form says about items. -/
theorem Foresees.step (aug : Augments g a start) (wf : g.WellFormed) (mem : p ∈ a.productions) (word : IsWord after)
    (h : a.Foresees (before ++ p.left :: after)) : a.Foresees (before ++ p.right ++ after) := by
  intro b r y n w eq found hw
  rw [List.append_assoc] at eq
  rcases Grammar.append_eq_append_cons eq with ⟨x, rfl⟩ | ⟨z, rfl, behind⟩
  · -- the non-terminal stands before the right side, which belongs to the left side
    obtain rfl : y = x ++ (p.right ++ after) := by simpa using eq.symm
    refine h b r (x ++ p.left :: after) n w (by simp) found ?_
    rw [Reading.form_append, Reading.form_append, ← mul_assoc] at hw
    rw [Reading.form_append, Reading.form_cons, ← mul_assoc]
    exact mul_le_mul' (mul_le_mul' le_rfl (words_closed.rule p mem)) le_rfl hw
  rcases Grammar.append_eq_append_cons behind with ⟨x, right⟩ | ⟨z', rfl, rfl⟩
  · -- it stands on the right side, and the item of the production itself predicts it
    obtain rfl : y = x ++ after := by simpa [right] using behind.symm
    obtain ⟨v, hv, v', hv', rfl⟩ := Reading.mem_form_append.1 hw
    obtain rfl := eq_of_mem_form (aug.lefts wf) word hv'
    obtain ⟨k, known⟩ := List.getElem?_of_mem mem
    have began := h before p v' k v' rfl known (words_closed.mem_form_self word)
    have ahead : (a.right k).drop 0 = z ++ (r.left :: x) := by rw [right_eq known, List.drop_zero, right]
    have reads := began.over (i := ⟨k, 0, v'.headD endMark⟩) ahead
    have further : (a.right k).drop (0 + z.length) = r.left :: (x ++ []) := by
      rw [← List.drop_drop, ahead, List.drop_left, List.append_nil]
    refine aug.predict (η := []) wf reads found further hv (expects_of_drop_eq_nil ?_)
    have last := drop_advance (i := ⟨k, 0 + z.length, v'.headD endMark⟩) further
    simp only [← List.drop_drop, last, List.append_nil, List.drop_length]
  · -- it cannot stand in the word behind
    have terminal := word _ List.mem_append_cons_self
    exact absurd (aug.lefts wf r (List.mem_of_getElem? found)) (Symbol.isTerminal_iff_not.1 terminal)

theorem Foresees.of_rightmost (aug : Augments g a start) (wf : g.WellFormed)
    (derivation : RightmostDerivation a.productions u ps v) (h : a.Foresees u) : a.Foresees v := by
  induction derivation with
  | refl => exact h
  | step mem word _ ih => exact ih (h.step aug wf mem word)

/-- **A valid item is one that a parse may be at**, whatever symbols the grammar has. -/
theorem Valid.reads (aug : Augments g a start) (wf : g.WellFormed) (h : a.Valid γ i) : a.Reads γ i := by
  obtain ⟨top, p, first, found, before, after, ps, derivation, word, le, rfl, look⟩ := h
  obtain rfl : top = ⟨start, [g.start]⟩ := by
    rw [aug.productions] at first
    exact (Option.some.inj first).symm
  have foresees := (foresees_start aug).of_rightmost aug wf derivation
  have began := foresees before p after i.production after rfl found (words_closed.mem_form_self word)
  have ahead : (a.right i.production).drop 0 = p.right.take i.dot ++ p.right.drop i.dot := by
    rw [right_eq found, List.drop_zero, List.take_append_drop]
  have reads := began.over (i := ⟨i.production, 0, after.headD endMark⟩) ahead
  rwa [List.length_take_of_le le, Nat.zero_add, ← look] at reads

/-! ## What is read derivations show -/

theorem valid_start (aug : Augments g a start) : a.Valid [] Item.start := by
  refine ⟨⟨start, [g.start]⟩, ⟨start, [g.start]⟩, ?_, ?_, [], [], [], .refl _, isWord_nil, Nat.zero_le _, rfl, rfl⟩
  · rw [aug.productions]
    rfl
  · rw [aug.productions]
    rfl

theorem Valid.advance (h : a.Valid γ i) (behind : a.behind i = some s) : a.Valid (γ ++ [s]) i.advance := by
  obtain ⟨top, p, first, found, before, after, ps, derivation, word, -, rfl, look⟩ := h
  rw [behind_eq found] at behind
  refine ⟨top, p, first, found, before, after, ps, derivation, word, ?_, ?_, look⟩
  · exact (List.getElem?_eq_some_iff.1 behind).1
  · rw [Item.advance, List.take_add_one, behind, List.append_assoc]
    rfl

/-- What can follow does follow, in a word that what stands behind derives. -/
theorem CanFollow.exists_word (productive : Productive a.productions) (lefts : NonTerminalLefts a.productions)
    (h : a.CanFollow i x) :
    ∃ v ∈ (words a.productions).form ((a.right i.production).drop (i.dot + 1)),
      ∀ after, i.lookahead = after.headD endMark → (v ++ after).headD endMark = x := by
  rcases h with ⟨terminal, rest, derives⟩ | ⟨empty, rfl⟩
  · have each : ∀ s ∈ (a.right i.production).drop (i.dot + 1), ∃ w, w ∈ words a.productions s := by
      intro s hs
      rw [right] at hs
      cases found : a.productions[i.production]? with
      | none => simp [found] at hs
      | some p => exact productive p (List.mem_of_getElem? found) s (List.mem_of_mem_drop (by simpa [found] using hs))
    obtain ⟨w, hw⟩ := Grammar.exists_mem_form_iff.2 (productive.of_derives each derives)
    obtain ⟨word, onward⟩ := derives_of_mem_form hw
    refine ⟨w, mem_form_words.2 ⟨word, ReflTransGen.trans derives onward⟩, fun after _ => ?_⟩
    obtain ⟨u, hu, v, -, rfl⟩ := Reading.mem_form_cons.1 hw
    rw [words_terminal lefts terminal] at hu
    obtain rfl : u = [x] := hu
    rfl
  · exact ⟨[], mem_form_words.2 ⟨isWord_nil, empty⟩, fun after look => look.symm⟩

/-- An item that a valid one predicts is valid. -/
theorem Valid.predict (productive : Productive a.productions) (lefts : NonTerminalLefts a.productions)
    (h : a.Valid γ i) (behind : a.behind i = some p.left) (found : a.productions[j.production]? = some p)
    (dot : j.dot = 0) (follows : a.CanFollow i j.lookahead) : a.Valid γ j := by
  obtain ⟨top, q, first, known, before, after, ps, derivation, word, -, rfl, look⟩ := h
  obtain ⟨v, hv, next⟩ := follows.exists_word productive lefts
  rw [right_eq known] at hv
  have ahead : q.right.drop i.dot = p.left :: q.right.drop (i.dot + 1) := by
    simpa only [Item.advance, right_eq known] using drop_of_behind behind
  have form : before ++ q.right ++ after =
      before ++ q.right.take i.dot ++ [p.left] ++ q.right.drop (i.dot + 1) ++ after := calc
    before ++ q.right ++ after = before ++ (q.right.take i.dot ++ q.right.drop i.dot) ++ after := by
      rw [List.take_append_drop]
    _ = before ++ q.right.take i.dot ++ [p.left] ++ q.right.drop (i.dot + 1) ++ after := by
      rw [ahead]
      simp only [List.append_assoc, List.singleton_append]
  -- what stands behind the symbol is rewritten to the word
  obtain ⟨isWord, derives⟩ := derives_of_mem_form hv
  obtain ⟨ts, qs, forest⟩ := exists_forest derives isWord
  have others := forest.rightmost.inside (before ++ q.right.take i.dot ++ [p.left]) word
  have step := RightmostDerivation.step (List.mem_of_getElem? known) word (form ▸ others)
  refine ⟨top, p, first, found, before ++ q.right.take i.dot, v ++ after, ps ++ q :: qs, ?_,
    isWord_append.2 ⟨isWord, word⟩, ?_, ?_, (next after look).symm⟩
  · simpa only [List.append_assoc, List.cons_append, List.nil_append] using derivation.trans step
  · exact dot ▸ Nat.zero_le _
  · rw [dot, List.take_zero, List.append_nil]

/-- **An item that a parse may be at is valid** when every symbol of a right side derives a word. -/
theorem Reads.valid (aug : Augments g a start) (wf : g.WellFormed) (productive : Productive a.productions)
    (h : a.Reads γ i) : a.Valid γ i := by
  induction h with
  | start => exact valid_start aug
  | advance _ behind ih => exact ih.advance behind
  | predict _ behind _ mem ih =>
    obtain ⟨p, found, rfl, dot, follows⟩ := mem_predicted.1 mem
    exact ih.predict productive (aug.lefts wf) behind found dot ((aug.mem_follow_iff_canFollow wf).1 follows)

/-- **What the symbols before a dot stand for begins a word**: the word that derives from the rest of the right side and
from what comes after it completes it. -/
theorem Valid.exists_generates (aug : Augments g a start) (productive : Productive a.productions) (h : a.Valid γ i)
    (hu : u ∈ (words a.productions).form γ) : ∃ v, g.Generates (u ++ v) := by
  obtain ⟨top, p, first, found, before, after, ps, derivation, word, -, rfl, -⟩ := h
  obtain rfl : top = ⟨start, [g.start]⟩ := by
    rw [aug.productions] at first
    exact (Option.some.inj first).symm
  have mem := List.mem_of_getElem? found
  obtain ⟨u₁, hu₁, u₂, hu₂, rfl⟩ := Reading.mem_form_append.1 hu
  obtain ⟨v, hv⟩ := Grammar.exists_mem_form_iff.2 fun s hs => productive p mem s (List.mem_of_mem_drop (i := i.dot) hs)
  have whole : u₂ ++ v ∈ (words a.productions).form p.right := by
    rw [← List.take_append_drop i.dot p.right]
    exact Reading.mem_form_append.2 ⟨u₂, hu₂, v, hv, rfl⟩
  have sentence : u₁ ++ (u₂ ++ v ++ after) ∈ (words a.productions).form (before ++ p.left :: after) :=
    Reading.mem_form_append.2 ⟨u₁, hu₁, _, Reading.mem_form_cons.2
      ⟨_, words_closed.rule p mem whole, after, words_closed.mem_form_self word, rfl⟩, rfl⟩
  obtain ⟨isWord, onward⟩ := derives_of_mem_form sentence
  have derived : Derives a.productions [start] _ := ReflTransGen.trans derivation.derives onward
  refine ⟨v ++ after, aug.generates_of_mem_words ⟨?_, ?_⟩⟩
  · simpa only [List.append_assoc] using isWord
  · simpa only [List.append_assoc] using derived

end Augmented

/-- **The items of a state are the valid ones** in a grammar without useless symbols: a run over some symbols ends in a
state that holds an item exactly when a rightmost derivation of the augmented grammar shows the item behind these
symbols. This is so whether the table has conflicts or not. -/
theorem mem_itemsOf_iff_valid (wf : g.WellFormed) (rule : g.hasStartRule) (useful : g.uselessSymbols.isEmpty)
    (made : Automaton.ofGrammar g = .ok m) : m.augmented.Extends g ∧
    ∀ γ i, (∃ q, m.dfa.run γ = some q ∧ i ∈ m.itemsOf q) ↔ m.augmented.Valid γ i := by
  obtain ⟨start, aug⟩ := exists_augments made
  refine ⟨aug.extends_grammar, fun γ i => ⟨fun h => ?_, fun valid => ?_⟩⟩
  · obtain ⟨q, run, mem⟩ := h
    exact ((mem_itemsOf wf made run).1 mem).valid aug wf (aug.productive rule useful)
  · have reads := valid.reads aug wf
    obtain ⟨q, run⟩ := exists_run wf made reads
    exact ⟨q, run, (mem_itemsOf wf made run).2 reads⟩

set_option maxRecDepth 100000 in
/-- Behind `S` and `a` the grammar of brackets may be at its empty right side, with the closing bracket ahead. -/
theorem valid_brackets : brackets.WellFormed ∧ brackets.hasStartRule ∧ brackets.uselessSymbols.isEmpty ∧
    ∃ m, Automaton.ofGrammar brackets = .ok m ∧ m.augmented.Extends brackets ∧
      (∃ q, m.dfa.run ['S', 'a'] = some q ∧ ⟨1, 0, 'b'⟩ ∈ m.itemsOf q) ∧ m.augmented.Valid ['S', 'a'] ⟨1, 0, 'b'⟩ := by
  have rule : brackets.hasStartRule := by decide +kernel
  have useful : brackets.uselessSymbols.isEmpty := by decide +kernel
  have run : (Automaton.ofGrammar brackets).toOption.any fun m =>
      (m.dfa.run ['S', 'a']).any fun q => ⟨1, 0, 'b'⟩ ∈ m.itemsOf q := by decide +kernel
  cases made : Automaton.ofGrammar brackets with
  | error e =>
    rw [made] at run
    cases run
  | ok m =>
    rw [made] at run
    simp only [Except.toOption, Option.any_some, Option.any_eq_true, decide_eq_true_eq] at run
    obtain ⟨above, valid⟩ := mem_itemsOf_iff_valid brackets_wellFormed rule useful made
    exact ⟨brackets_wellFormed, rule, useful, m, rfl, above, run, (valid _ _).1 run⟩

end ContextFree.Lr
