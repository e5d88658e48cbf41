import ContextFree.Proofs.Collection
import ContextFree.Transformation.Proper

/-!
A grammar stays LR(1) when productions are taken away. The automaton of what is left is another one: its new start symbol
may be another letter, productions have other numbers, fewer symbols are nullable, FIRST sets are smaller, and states are
found in another order. But an item that a parse may be at by the fewer productions has a `Counterpart` at which a parse
may be by all productions, after the same symbols: the same production, dot and lookahead. So two actions in one cell of
the smaller table give two in one cell of the larger table.

- `Thins.free`, `exists_ofGrammar_iff`: letters stay free and the end marker unused, so there is an automaton;
- `Augments.canFollow`: what can follow by the fewer productions can follow by all of them;
- `exists_counterpart`: items have counterparts, by induction on how a parse gets to them;
- `Asked.exists_alike`, `Alike.unique`: so every action has one that is alike, and no two have the same;
- `isLr1?_of_thins`: so there is no conflict that was not there before.
-/

namespace ContextFree

open Relation

/-! ## Fewer productions -/

namespace Grammar

variable {g k : Grammar} {s : Symbol}

/-- The first grammar is the second with some of its productions only. -/
structure Thins (k g : Grammar) : Prop where
  start : k.start = g.start
  epsilon : k.epsilon = g.epsilon
  productions : ∀ p ∈ k.productions, p ∈ g.productions

theorem thins_withProductions {productions : FiniteSet Production} (sub : ∀ p ∈ productions, p ∈ g.productions) :
    Thins (g.withProductions productions) g := ⟨rfl, rfl, sub⟩

theorem thins_refl : Thins g g := ⟨rfl, rfl, fun _ mem => mem⟩

theorem thins_keep {test : Production → Bool} : Thins (g.keep test) g :=
  thins_withProductions fun _ mem => (mem_keep.1 mem).1

theorem thins_removeUngenerative : Thins g.removeUngenerative g := by
  unfold removeUngenerative
  split
  · exact thins_keep
  · exact thins_refl

theorem thins_removeUnreachable : Thins g.removeUnreachable g := by
  unfold removeUnreachable
  split
  · exact thins_keep
  · exact thins_refl

namespace Thins

variable (thin : Thins k g)

include thin

theorem wellFormed (wf : g.WellFormed) : k.WellFormed where
  start_nonTerminal := thin.start ▸ wf.start_nonTerminal
  left_nonTerminal p mem := wf.left_nonTerminal p (thin.productions p mem)
  epsilon_terminal := thin.epsilon ▸ wf.epsilon_terminal
  epsilon_not_right p mem := thin.epsilon ▸ wf.epsilon_not_right p (thin.productions p mem)

theorem symbols (known : s ∈ k.symbols) : s ∈ g.symbols := by
  obtain ⟨p, mem, used⟩ := mem_symbols.1 known
  exact mem_symbols.2 ⟨p, thin.productions p mem, used⟩

theorem free (h : s ∈ g.supply.free) : s ∈ k.supply.free := by
  obtain ⟨upper, unused, start, epsilon⟩ := fresh_of_mem_supply h
  refine Supply.mem_avoiding.2 ⟨upper, ?_⟩
  simp only [Std.ExtTreeSet.mem_insert, Std.compare_eq_iff_eq, not_or, thin.start, thin.epsilon]
  exact ⟨epsilon.symm, start.symm, fun known => unused (thin.symbols known)⟩

end Thins

end Grammar

namespace Lr

open Grammar (Thins)

variable {g k : Grammar} {a b : Augmented} {start top s x : Symbol} {i j : Item} {γ u v : List Symbol} {q n : Nat}
  {m small : Automaton} {act other : Action}

/-- **A grammar has an automaton** unless it uses the end marker or leaves no letter for a new start symbol. -/
theorem exists_ofGrammar_iff :
    (∃ m, Automaton.ofGrammar g = .ok m) ↔ endMark ∉ g.terminals ∧ ∃ s, s ∈ g.supply.free := by
  refine ⟨fun ⟨m, made⟩ => ?_, fun ⟨unmarked, s, free⟩ => ?_⟩
  · obtain ⟨start, aug⟩ := exists_augments made
    exact ⟨aug.unmarked, start, aug.fresh⟩
  · have drawn : ∃ result, g.supply.draw = .ok result := by
      unfold Supply.draw
      split
      · rename_i none
        rw [none] at free
        cases free
      · exact ⟨_, rfl⟩
    obtain ⟨result, drawn⟩ := drawn
    have made : ∃ a, Augmented.ofGrammar g = .ok a := by
      rw [Augmented.ofGrammar, if_neg unmarked, drawn]
      exact ⟨_, rfl⟩
    obtain ⟨a, made⟩ := made
    rw [Automaton.ofGrammar, made]
    exact ⟨_, rfl⟩

theorem exists_ofGrammar_of_thins (thin : Thins k g) (made : Automaton.ofGrammar g = .ok m) :
    ∃ small, Automaton.ofGrammar k = .ok small := by
  obtain ⟨unmarked, s, free⟩ := exists_ofGrammar_iff.1 ⟨m, made⟩
  refine exists_ofGrammar_iff.2 ⟨fun used => unmarked ?_, s, thin.free free⟩
  obtain ⟨known, terminal⟩ := Grammar.mem_terminals.1 used
  exact Grammar.mem_terminals.2 ⟨thin.symbols known, terminal⟩

/-! ## Items and their counterparts -/

namespace Augments

open Augmented

theorem derives_rules (aug : Augments g a start) (h : Derives a.productions u v) (absent : start ∉ u) :
    Derives g.rules u v ∧ start ∉ v := by
  have kept : Derives g.rules u v ∧ ∀ s ∈ v, s ≠ start := by
    refine h.confine (fun s hs eq => absent (eq ▸ hs)) fun p mem left => ?_
    have right : ∀ s ∈ p.right, s ≠ start := fun s hs eq => aug.start_not_right mem (eq ▸ hs)
    rw [aug.productions] at mem
    exact ⟨(List.mem_cons.1 mem).resolve_left fun eq => left (congrArg Production.left eq), right⟩
  exact ⟨kept.1, fun hs => kept.2 start hs rfl⟩

theorem start_not_mem_right (aug : Augments g a start) (n : Nat) : start ∉ a.right n := by
  unfold Augmented.right
  cases found : a.productions[n]? with
  | none => exact List.not_mem_nil
  | some p => exact aug.start_not_right (List.mem_of_getElem? found)

theorem nodup (aug : Augments g a start) : a.productions.Nodup := by
  rw [aug.productions]
  refine List.nodup_cons.2 ⟨fun mem => ?_, FiniteSet.nodup_toList⟩
  have known : start ∈ g.symbols := Grammar.mem_symbols.2 ⟨_, Grammar.mem_rules.1 mem, .inl rfl⟩
  exact (Grammar.fresh_of_mem_supply aug.fresh).2.1 known

end Augments

/-- The second item stands for the first among more productions. -/
structure Counterpart (b a : Augmented) (i j : Item) : Prop where
  dot : j.dot = i.dot
  lookahead : j.lookahead = i.lookahead
  top : i.production = 0 ↔ j.production = 0
  /-- Apart from production 0 it is the same production. -/
  production : i.production ≠ 0 → b.productions[i.production]? = a.productions[j.production]?

section Counterparts

variable (thin : Thins k g) (augSmall : Augments k b top) (aug : Augments g a start)

include thin augSmall aug

theorem Counterpart.right (c : Counterpart b a i j) : a.right j.production = b.right i.production := by
  by_cases zero : i.production = 0
  · rw [zero, c.top.1 zero, aug.right_zero, augSmall.right_zero, thin.start]
  · rw [Augmented.right, Augmented.right, c.production zero]

theorem Counterpart.behind (c : Counterpart b a i j) : a.behind j = b.behind i := by
  rw [Augmented.behind, Augmented.behind, c.right thin augSmall aug, c.dot]

/-- What can follow by the fewer productions can follow by all of them. -/
theorem Counterpart.canFollow (c : Counterpart b a i j) (h : b.CanFollow i x) : a.CanFollow j x := by
  have more : ∀ {u v}, top ∉ u → Derives b.productions u v → Derives a.productions u v := fun absent derives =>
    (augSmall.derives_rules derives absent).1.mono fun p mem =>
      aug.mem_of_mem_rules (Grammar.mem_rules.2 (thin.productions p (Grammar.mem_rules.1 mem)))
  have absent : top ∉ (b.right i.production).drop (i.dot + 1) := fun mem =>
    augSmall.start_not_mem_right _ (List.mem_of_mem_drop mem)
  unfold Augmented.CanFollow
  rw [c.right thin augSmall aug, c.dot, c.lookahead]
  obtain ⟨terminal, rest, derives⟩ | ⟨derives, eq⟩ := h
  · exact .inl ⟨terminal, rest, more absent derives⟩
  · exact .inr ⟨more absent derives, eq⟩

/-- **Every item has a counterpart** at which a parse may be after the same symbols. -/
theorem exists_counterpart (wf : g.WellFormed) (h : b.Reads γ i) : ∃ j, a.Reads γ j ∧ Counterpart b a i j := by
  induction h with
  | start => exact ⟨.start, .start, rfl, rfl, Iff.rfl, fun inner => absurd rfl inner⟩
  | @advance γ i s _ behind ih =>
    obtain ⟨j, reads, c⟩ := ih
    have step := c.behind thin augSmall aug
    exact ⟨j.advance, .advance reads (step.trans behind), congrArg (· + 1) c.dot, c.lookahead, c.top, c.production⟩
  | @predict γ i next s _ behind upper predicted ih =>
    obtain ⟨j, reads, c⟩ := ih
    obtain ⟨p, found, rfl, dot, follows⟩ := Augmented.mem_predicted.1 predicted
    rw [augSmall.mem_follow_iff_canFollow (thin.wellFormed wf)] at follows
    -- the production is not the new one, whose left side stands behind no dot
    obtain ⟨r, holds, used⟩ := Augmented.exists_of_behind behind
    have ne : p.left ≠ top := fun eq =>
      augSmall.start_not_right (List.mem_of_getElem? holds) (eq ▸ List.mem_of_getElem? used)
    have inner : next.production ≠ 0 := by
      intro zero
      rw [zero, augSmall.productions] at found
      cases found
      exact ne rfl
    have old : p ∈ k.rules := by
      have mem := List.mem_of_getElem? found
      rw [augSmall.productions] at mem
      exact (List.mem_cons.1 mem).resolve_left fun eq => ne (congrArg Production.left eq)
    obtain ⟨n, known⟩ := List.getElem?_of_mem
      (Grammar.mem_rules.2 (thin.productions p (Grammar.mem_rules.1 old)))
    have known : a.productions[n + 1]? = some p := by rw [aug.productions, List.getElem?_cons_succ, known]
    refine ⟨⟨n + 1, 0, next.lookahead⟩, .predict reads ((c.behind thin augSmall aug).trans behind) upper ?_, dot.symm,
      rfl, iff_of_false inner (Nat.succ_ne_zero n), fun _ => found.trans known.symm⟩
    refine Augmented.mem_predicted.2 ⟨p, known, rfl, rfl, ?_⟩
    exact (aug.mem_follow_iff_canFollow wf).2 (c.canFollow thin augSmall aug follows)

end Counterparts

/-! ## Actions -/

namespace Automaton

/-- **A table has no conflicts** when no cell offers two actions. -/
theorem isLr1_iff : m.isLr1 ↔ ∀ q s act other, m.Offers q s act → m.Offers q s other → act = other := by
  refine ⟨fun lr1 q s act other h h' => ?_, fun unique => List.all_eq_true.2 fun cell mem => ?_⟩
  · rw [← action?_eq_iff lr1] at h h'
    exact Option.some.inj (h.symm.trans h')
  · obtain ⟨q, s, actions⟩ := cell
    simp only [cells, List.mem_flatMap, Prod.exists, List.mem_zipIdx_iff_getElem?, List.mem_map, Prod.mk.injEq] at mem
    obtain ⟨row, id, found, s', actions', known, rfl, rfl, rfl⟩ := mem
    have offers : ∀ act ∈ actions'.toList, m.Offers id s' act := fun act mem => by
      rw [Std.ExtTreeMap.mem_toList_iff_getElem?_eq_some] at known
      exact ⟨actions', by rw [actions?, found, Option.bind_some, known], Std.ExtTreeSet.mem_toList.1 mem⟩
    have nodup : actions'.toList.Nodup := FiniteSet.nodup_toList
    rw [decide_eq_true_eq, ← Std.ExtTreeSet.length_toList]
    rcases eq : actions'.toList with _ | ⟨x, _ | ⟨y, rest⟩⟩
    · exact Nat.zero_le 1
    · exact le_rfl
    · rw [eq] at nodup offers
      have same := unique id s' x y (offers x (by simp)) (offers y (by simp))
      exact absurd (same ▸ List.mem_cons_self) (List.nodup_cons.1 nodup).1

/-- The actions are of one kind, and reductions are by one production. What the first asks for after the symbols is a
move that the automaton makes. -/
inductive Alike (small m : Automaton) (γ : List Symbol) (s : Symbol) : Action → Action → Prop
  | shift {t : Nat} (t' : Nat) : small.dfa.run (γ ++ [s]) = some t → Alike small m γ s (.shift t) (.shift t')
  | reduce {n n' : Nat} {p : Production} : small.production? n = some p → m.production? n' = some p →
    Alike small m γ s (.reduce n) (.reduce n')
  | goto {t : Nat} (t' : Nat) : small.dfa.run (γ ++ [s]) = some t → Alike small m γ s (.goto t) (.goto t')
  | accept : Alike small m γ s .accept .accept

/-- No two actions are like the same one. -/
theorem Alike.unique {one two : Action} (nodup : small.augmented.productions.Nodup) (h : Alike small m γ s one act)
    (h' : Alike small m γ s two act) : one = two := by
  cases h with
  | shift _ run =>
    cases h' with
    | shift _ run' => exact congrArg Action.shift (Option.some.inj (run.symm.trans run'))
  | goto _ run =>
    cases h' with
    | goto _ run' => exact congrArg Action.goto (Option.some.inj (run.symm.trans run'))
  | reduce found known =>
    cases h' with
    | reduce found' known' =>
      cases known.symm.trans known'
      have within := (List.getElem?_eq_some_iff.1 found).1
      exact congrArg Action.reduce ((List.getElem?_inj within nodup).1 (found.trans found'.symm))
  | accept =>
    cases h' with
    | accept => rfl

section

variable (wf : g.WellFormed) (thin : Thins k g) (made : ofGrammar g = .ok m) (madeSmall : ofGrammar k = .ok small)

include wf thin made madeSmall

theorem exists_run_of_thins {t : Nat} (run : small.dfa.run γ = some t) : ∃ t', m.dfa.run γ = some t' := by
  obtain ⟨start, aug⟩ := exists_augments made
  obtain ⟨top, augSmall⟩ := exists_augments madeSmall
  obtain ⟨i, reads⟩ := exists_reads (thin.wellFormed wf) madeSmall run
  obtain ⟨j, reads, -⟩ := exists_counterpart thin augSmall aug wf reads
  exact exists_run wf made reads

/-- **What is asked for in the smaller automaton** has its like in the larger one. -/
theorem Asked.exists_alike (h : small.Asked γ s act) : ∃ other, m.Asked γ s other ∧ Alike small m γ s act other := by
  obtain ⟨start, aug⟩ := exists_augments made
  obtain ⟨top, augSmall⟩ := exists_augments madeSmall
  cases h with
  | shift reads behind terminal run =>
    obtain ⟨j, reads, c⟩ := exists_counterpart thin augSmall aug wf reads
    obtain ⟨t', run'⟩ := exists_run_of_thins wf thin made madeSmall run
    have behind := (c.behind thin augSmall aug).trans behind
    exact ⟨.shift t', .shift reads behind terminal run', .shift t' run⟩
  | reduce reads complete inner =>
    obtain ⟨-, p, found, -⟩ := Augmented.mem_world.1 (augSmall.mem_world_of_reads (thin.wellFormed wf) reads)
    obtain ⟨j, reads, c⟩ := exists_counterpart thin augSmall aug wf reads
    have complete := (c.behind thin augSmall aug).trans complete
    refine ⟨.reduce j.production, ?_, .reduce found ((c.production inner).symm.trans found)⟩
    exact c.lookahead ▸ .reduce reads complete fun zero => inner (c.top.2 zero)
  | accept reads complete zero =>
    obtain ⟨j, reads, c⟩ := exists_counterpart thin augSmall aug wf reads
    have complete := (c.behind thin augSmall aug).trans complete
    exact ⟨.accept, c.lookahead ▸ .accept reads complete (c.top.1 zero), .accept⟩
  | goto upper run =>
    obtain ⟨t', run'⟩ := exists_run_of_thins wf thin made madeSmall run
    exact ⟨.goto t', .goto upper run', .goto t' run⟩

/-- **No conflict comes up** in the smaller table. -/
theorem isLr1_of_thins (lr1 : m.isLr1) : small.isLr1 := by
  obtain ⟨top, augSmall⟩ := exists_augments madeSmall
  refine isLr1_iff.2 fun q s act other h h' => ?_
  rcases state_cases madeSmall q with ⟨γ, run⟩ | ⟨-, -, empty⟩
  · rw [offers_iff (thin.wellFormed wf) madeSmall run] at h h'
    obtain ⟨one, asked, alike⟩ := Asked.exists_alike wf thin made madeSmall h
    obtain ⟨two, asked', alike'⟩ := Asked.exists_alike wf thin made madeSmall h'
    obtain ⟨t, run'⟩ := exists_run_of_thins wf thin made madeSmall run
    rw [← offers_iff wf made run'] at asked asked'
    obtain rfl := isLr1_iff.1 lr1 t s one two asked asked'
    exact alike.unique augSmall.nodup alike'
  · obtain ⟨actions, known, -⟩ := h
    cases (empty s).symm.trans known

end

end Automaton

end Lr

namespace Grammar

variable {g k : Grammar}

theorem isLr1?_eq_true_iff : g.isLr1? = some true ↔ ∃ m, Lr.Automaton.ofGrammar g = .ok m ∧ m.isLr1 := by
  unfold isLr1?
  cases Lr.Automaton.ofGrammar g with
  | ok m => simp [Except.toOption]
  | error e => simp [Except.toOption]

theorem isLr1?_of_thins (wf : g.WellFormed) (thin : Thins k g) (lr1 : g.isLr1? = some true) : k.isLr1? = some true := by
  obtain ⟨m, made, lr1⟩ := isLr1?_eq_true_iff.1 lr1
  obtain ⟨small, madeSmall⟩ := Lr.exists_ofGrammar_of_thins thin made
  exact isLr1?_eq_true_iff.2 ⟨small, madeSmall, Lr.Automaton.isLr1_of_thins wf thin made madeSmall lr1⟩

/-- **Taking productions away makes no conflict.** A grammar that has an automaton without conflicts has one with any
part of its productions; so the removals of useless symbols keep a grammar LR(1). -/
theorem isLr1?_withProductions (wf : g.WellFormed) (lr1 : g.isLr1? = some true) :
    (∀ productions : FiniteSet Production, (∀ p ∈ productions, p ∈ g.productions) →
      (g.withProductions productions).isLr1? = some true) ∧
    g.removeUngenerative.isLr1? = some true ∧ g.removeUnreachable.isLr1? = some true ∧
      g.removeUseless.isLr1? = some true := by
  have thinned : ∀ {k}, Thins k g → k.isLr1? = some true := fun thin => isLr1?_of_thins wf thin lr1
  exact ⟨fun productions sub => thinned (thins_withProductions sub), thinned thins_removeUngenerative,
    thinned thins_removeUnreachable, thinned thins_keep⟩

set_option maxRecDepth 100000 in
/-- The grammar of brackets is LR(1), and so are its parts. -/
theorem isLr1?_withProductions_brackets : brackets.WellFormed ∧ brackets.isLr1? = some true ∧
    (∀ productions : FiniteSet Production, (∀ p ∈ productions, p ∈ brackets.productions) →
      (brackets.withProductions productions).isLr1? = some true) ∧
    brackets.removeUngenerative.isLr1? = some true ∧ brackets.removeUnreachable.isLr1? = some true ∧
      brackets.removeUseless.isLr1? = some true := by
  have lr1 : brackets.isLr1? = some true := by decide +kernel
  exact ⟨brackets_wellFormed, lr1, isLr1?_withProductions brackets_wellFormed lr1⟩

end Grammar

end ContextFree
