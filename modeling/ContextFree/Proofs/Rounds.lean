import ContextFree.Proofs.Limits
import ContextFree.Proofs.Pipeline

/-!
Few rounds settle what the removal of left recursion leaves. A leading non-terminal ranks higher than the left side, and
each round doubles that distance (`Gap.expandLeading`). What remains is to measure it by places among the left sides: a
leading non-terminal always is a left side, since it derives a word, so the places are fewer than the left sides and a
logarithmic number of rounds is enough.

- `Gap.place`: where all non-terminals of right sides are left sides, a leading one has a later place;
- `Gap.settle_cases`: with more rounds than doublings are needed, only the number of productions stops them;
- `grounded_of_removeLeftRecursion`: after the removal of left recursion the non-terminals of right sides are left sides;
- `settlesInTime_of_removeLeftRecursion`: so the rounds do not run out when there are enough of them for the number of
  left sides, and the usual number always is.
-/

namespace ContextFree.Grammar

variable {limits : Limits} {g h k : Grammar} {rank : Symbol → Nat} {n rounds : Nat} {p : Production} {s : Symbol}

/-! ## Places among the left sides -/

/-- how many left sides rank lower than this one -/
def place (g : Grammar) (rank : Symbol → Nat) (s : Symbol) : Nat :=
  if s ∈ g.lefts then (g.lefts.toFinset.filter fun t => rank t < rank s).card else 0

theorem place_le (g : Grammar) (rank : Symbol → Nat) (s : Symbol) : g.place rank s ≤ g.lefts.length - 1 := by
  unfold place
  split
  · rename_i known
    have fewer :
        (g.lefts.toFinset.filter fun t => rank t < rank s).card < (g.lefts.toFinset.filter fun _ => True).card :=
      Search.card_filter_lt (fun _ _ => trivial) (List.mem_toFinset.2 known) trivial (lt_irrefl _)
    have all : (g.lefts.toFinset.filter fun _ => True).card ≤ g.lefts.length := by
      simpa using List.toFinset_card_le g.lefts
    omega
  · exact Nat.zero_le _

/-- Every non-terminal of a right side is a left side. -/
def Grounded (g : Grammar) : Prop := ∀ p ∈ g.productions, ∀ s ∈ p.right, Symbol.isNonTerminal s → s ∈ g.lefts

/-- **A leading non-terminal has a later place** than the left side. -/
theorem Gap.place (gap : Gap rank 1 g) (grounded : g.Grounded) : Gap (g.place rank) 1 g := by
  intro left s rest mem hs
  have own : left ∈ g.lefts := mem_lefts.2 ⟨s :: rest, mem⟩
  have known : s ∈ g.lefts := grounded _ mem s List.mem_cons_self hs
  have less : rank left < rank s := gap left s rest mem hs
  unfold Grammar.place
  rw [if_pos own, if_pos known]
  exact Search.card_filter_lt (fun t lower => lower.trans less) (List.mem_toFinset.2 own) less (lt_irrefl _)

/-! ## The rounds do not run out -/

/-- **With more rounds than doublings** that make the gap wider than all ranks, the rounds settle, unless there are too
many productions on the way. -/
theorem Gap.settle_cases {top doublings : Nat} (bounded : ∀ s, rank s ≤ top) (confined : g.EpsilonConfined)
    (gap : Gap rank n g) (wide : top < 2 ^ doublings * n) (enough : doublings < rounds) :
    (∃ h, settle limits rounds g = .ok h) ∨
      settle limits rounds g = .error (.tooManyProductions limits.maxProductions) := by
  induction doublings generalizing g n rounds with
  | zero =>
    obtain ⟨rounds, rfl⟩ := Nat.exists_eq_add_one.2 enough
    rw [settle, if_pos (gap.settled bounded (by simpa using wide))]
    exact .inl ⟨g, rfl⟩
  | succ doublings ih =>
    obtain ⟨rounds, rfl⟩ := Nat.exists_eq_add_one.2 (Nat.zero_lt_of_lt enough)
    have wide : top < 2 ^ doublings * (2 * n) := by rwa [pow_succ, mul_assoc] at wide
    have rest := ih confined.expandLeading (gap.expandLeading confined) wide (Nat.lt_of_succ_lt_succ enough)
    by_cases settled : g.rules.all isSettled
    · rw [settle, if_pos settled]
      exact .inl ⟨g, rfl⟩
    · have round : settle limits (rounds + 1) g =
          limits.check g.expandLeading.productions.size >>= fun _ => settle limits rounds g.expandLeading := by
        rw [settle, if_neg settled]
      rw [round, Limits.check]
      split
      · exact .inr rfl
      · exact rest

/-! ## After the removal of left recursion -/

/-- What the removal of left recursion leaves on a right side derives a word, so a non-terminal there is a left
side. -/
theorem grounded_of_removeLeftRecursion (wf : g.WellFormed) (confined : g.EpsilonConfined) (fertile : g.Fertile)
    (made : g.removeLeftRecursion limits = .ok h) : h.Grounded := by
  obtain ⟨u, run, rfl⟩ := run_of_removeLeftRecursion made
  have inv := (untangled_start wf).run nodup_lefts confined run
  have tailed := tailed_of_run wf confined fertile run
  intro p mem s hs nonTerminal
  have used : u.Uses g s := inv.uses p (Untangling.mem_made.1 mem) s hs
  obtain ⟨w, hw⟩ := tailed.of_uses inv fertile used
  obtain ⟨right, rule, -⟩ := (mem_words_iff nonTerminal).1 hw
  exact mem_lefts.2 ⟨right, Untangling.mem_made.2 rule⟩

theorem length_lefts_le (g : Grammar) : g.lefts.length ≤ 2 ^ 21 := by
  have nodup : (g.lefts.map Char.toNat).Nodup := nodup_lefts.map fun _ _ same => Char.toNat_inj.1 same
  have sub : g.lefts.map Char.toNat ⊆ List.range (2 ^ 21) := by
    intro code mem
    obtain ⟨s, -, rfl⟩ := List.mem_map.1 mem
    have valid : s.toNat.isValidChar := s.valid
    unfold Nat.isValidChar at valid
    rw [List.mem_range]
    omega
  calc g.lefts.length = (g.lefts.map Char.toNat).length := (List.length_map _).symm
    _ ≤ (List.range (2 ^ 21)).length := (List.subperm_of_subset nodup sub).length_le
    _ = 2 ^ 21 := List.length_range

/-- The rounds do not run out under these limits: the expansion settles, or there are too many productions on the
way. -/
def SettlesInTime (limits : Limits) (g : Grammar) : Prop :=
  (∃ h, g.substituteLeading limits = .ok h) ∨
    g.substituteLeading limits = .error (.tooManyProductions limits.maxProductions)

/-- **Logarithmically many rounds are enough.** On the way to Greibach normal form the rounds do not run out when two to
the power of their number, less one, reaches the number of left sides; and under the usual number of rounds never. -/
theorem settlesInTime_of_removeLeftRecursion (wf : g.WellFormed) (rule : g.hasStartRule) (chomsky : g.toChomsky = .ok k)
    {before : Limits} (untangled : k.removeLeftRecursion before = .ok h) :
    (∀ limits : Limits, 1 ≤ limits.maxRounds → h.lefts.length ≤ 2 ^ (limits.maxRounds - 1) → h.SettlesInTime limits) ∧
      ∀ limits : Limits, limits.maxRounds = ({} : Limits).maxRounds → h.SettlesInTime limits := by
  obtain ⟨wfChomsky, shape, -⟩ := toChomsky_spec wf rule chomsky
  have confined := confined_of_isChomsky shape
  obtain ⟨-, confinedAfter, -⟩ := removeLeftRecursion_spec wfChomsky confined untangled
  have gap : Gap k.rank 1 h := gap_of_removeLeftRecursion wfChomsky confined (unitFree_of_isChomsky shape) untangled
  have grounded := grounded_of_removeLeftRecursion wfChomsky confined (fertile_of_toChomsky wf rule chomsky) untangled
  have enough : ∀ limits : Limits, 1 ≤ limits.maxRounds → h.lefts.length ≤ 2 ^ (limits.maxRounds - 1) →
      h.SettlesInTime limits := by
    intro limits some many
    have positive : 0 < 2 ^ (limits.maxRounds - 1) := Nat.two_pow_pos _
    have wide : h.lefts.length - 1 < 2 ^ (limits.maxRounds - 1) * 1 := by omega
    exact (gap.place grounded).settle_cases (h.place_le k.rank) confinedAfter wide (by omega)
  refine ⟨enough, ?_⟩
  intro limits usual
  have many : 21 ≤ limits.maxRounds - 1 := by
    rw [usual]
    decide
  refine enough limits (by omega) ?_
  calc h.lefts.length ≤ 2 ^ 21 := h.length_lefts_le
    _ ≤ 2 ^ (limits.maxRounds - 1) := Nat.pow_le_pow_right Nat.two_pos many

/-- a chain of four non-terminals, in Chomsky normal form and without left recursion -/
def stairs : Grammar := ⟨'S', 'ε', .ofList [⟨'S', ['A', 'A']⟩, ⟨'A', ['B', 'B']⟩, ⟨'B', ['C', 'C']⟩, ⟨'C', ['c']⟩]⟩

theorem stairs_wellFormed : stairs.WellFormed :=
  .ofList (by decide +kernel) (by decide +kernel) (by decide +kernel) (by decide +kernel)

set_option maxRecDepth 100000 in
/-- Four left sides need three rounds, and two are not enough. -/
theorem settlesInTime_stairs : stairs.WellFormed ∧ stairs.hasStartRule ∧ ∃ k h, stairs.toChomsky = .ok k ∧
    k.removeLeftRecursion {} = .ok h ∧ h.lefts.length = 2 ^ (3 - 1) ∧
      h.SettlesInTime ⟨10000, 3⟩ ∧ h.SettlesInTime {} ∧
        h.substituteLeading ⟨10000, 2⟩ = .error (.tooManyRounds 2) := by
  have rule : stairs.hasStartRule := by decide +kernel
  have counted : (stairs.toChomsky.bind (removeLeftRecursion {})).bind (fun h => .ok h.lefts.length) = .ok 4 := by
    decide +kernel
  have exhausted : (stairs.toChomsky.bind (removeLeftRecursion {})).bind (substituteLeading ⟨10000, 2⟩) =
      .error (.tooManyRounds 2) := by decide +kernel
  obtain ⟨h, made, four⟩ := exists_of_bind counted
  have four : h.lefts.length = 4 := Except.ok.inj four
  rw [made] at exhausted
  obtain ⟨k, chomsky, untangled⟩ := exists_of_bind made
  obtain ⟨few, usual⟩ := settlesInTime_of_removeLeftRecursion stairs_wellFormed rule chomsky untangled
  exact ⟨stairs_wellFormed, rule, k, h, chomsky, untangled, four, few ⟨10000, 3⟩ (by decide) four.le, usual {} rfl,
    exhausted⟩

end ContextFree.Grammar
