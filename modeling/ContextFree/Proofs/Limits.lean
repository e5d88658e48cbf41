import ContextFree.Proofs.Greibach
import ContextFree.Proofs.Idempotence
import ContextFree.Proofs.LeftOrder

/-!
Limits cut a conversion off, and they never change what it gives. A computation under limits `Approaches` a result when
it gives that result or says which limit is exceeded, and gives the result under all limits that are large enough; it
is only `CutOff` when the result owes nothing to the limits. Chains of such computations are again of this kind, so only
the two loops need an argument:

- `sortOut_approaches`: every replacement of a first symbol makes the alternative begin with a later one, so sorting out
  comes to an end;
- `Gap.expandLeading`, `exists_settlesTo`: every round doubles the distance in rank between a left side and a leading
  non-terminal, so the rounds come to an end;
- `Untangled.run_cutOff`, `removeLeftRecursion_cutOff`, `substituteLeading_cutOff`: both loops are only cut off;
- `conversions_cutOff`: so are the two conversions with limits.
-/

namespace ContextFree

variable {α β : Type}

/-! ## Computations under limits -/

/-- The result is the error that tells that one of the limits is exceeded. -/
def Limits.Exceeded (limits : Limits) (result : Except GrammarError α) : Prop :=
  result = .error (.tooManyProductions limits.maxProductions) ∨ result = .error (.tooManyRounds limits.maxRounds)

/-- Under any limits the result is this one or an exceeded limit, and under large enough limits it is this one. -/
structure Approaches (f : Limits → Except GrammarError α) (result : Except GrammarError α) : Prop where
  within : ∀ limits, f limits = result ∨ limits.Exceeded (f limits)
  enough : ∃ least : Limits, ∀ limits : Limits, least.maxProductions ≤ limits.maxProductions →
    least.maxRounds ≤ limits.maxRounds → f limits = result

/-- The result is a value, or the error that there is no letter left. -/
def Unlimited (result : Except GrammarError α) : Prop := (∃ a, result = .ok a) ∨ result = .error .symbolsExhausted

/-- Limits do nothing but cut the computation off. -/
def CutOff (f : Limits → Except GrammarError α) : Prop := ∃ result, Unlimited result ∧ Approaches f result

section Chains

variable {f : Limits → Except GrammarError α} {k : Limits → α → Except GrammarError β} {a : α}
  {result : Except GrammarError α} {final : Except GrammarError β}

theorem Unlimited.bind {next : α → Except GrammarError β} (first : Unlimited result)
    (second : ∀ a, result = .ok a → Unlimited (next a)) : Unlimited (result >>= next) := by
  obtain ⟨a, rfl⟩ | rfl := first
  · exact second a rfl
  · exact .inr rfl

theorem approaches_const : Approaches (fun _ => result) result := ⟨fun _ => .inl rfl, {}, fun _ _ _ => rfl⟩

theorem approaches_check (n : Nat) : Approaches (fun limits => limits.check n) (.ok ()) := by
  refine ⟨fun limits => ?_, ⟨n, 0⟩, fun limits more _ => if_neg (Nat.not_lt.2 more)⟩
  unfold Limits.check
  split
  · exact .inr (.inl rfl)
  · exact .inl rfl

/-- What follows a value is approached after it. -/
theorem Approaches.bind (first : Approaches f (.ok a)) (second : Approaches (fun limits => k limits a) final) :
    Approaches (fun limits => f limits >>= k limits) final := by
  refine ⟨fun limits => ?_, ?_⟩
  · rcases first.within limits with eq | eq | eq
    · rw [eq]
      exact second.within limits
    · rw [eq]
      exact .inr (.inl rfl)
    · rw [eq]
      exact .inr (.inr rfl)
  · obtain ⟨least, enough⟩ := first.enough
    obtain ⟨least', enough'⟩ := second.enough
    refine ⟨⟨max least.maxProductions least'.maxProductions, max least.maxRounds least'.maxRounds⟩,
      fun limits productions rounds => ?_⟩
    rw [enough limits (le_of_max_le_left productions) (le_of_max_le_left rounds)]
    exact enough' limits (le_of_max_le_right productions) (le_of_max_le_right rounds)

theorem Approaches.bind_error {e : GrammarError} (first : Approaches f (.error e)) :
    Approaches (fun limits => f limits >>= k limits) (.error e) := by
  refine ⟨fun limits => ?_, ?_⟩
  · rcases first.within limits with eq | eq | eq
    · exact .inl (by rw [eq]; rfl)
    · exact .inr (.inl (by rw [eq]; rfl))
    · exact .inr (.inr (by rw [eq]; rfl))
  · obtain ⟨least, enough⟩ := first.enough
    exact ⟨least, fun limits productions rounds => by rw [enough limits productions rounds]; rfl⟩

theorem Approaches.cutOff (h : Approaches f (.ok a)) : CutOff f := ⟨.ok a, .inl ⟨a, rfl⟩, h⟩

theorem Unlimited.cutOff (h : Unlimited result) : CutOff fun _ => result := ⟨result, h, approaches_const⟩

/-- **A chain is only cut off** when its parts are, the second one for the values that the first can give. -/
theorem CutOff.bind (first : CutOff f) (second : ∀ a limits, f limits = .ok a → CutOff fun limits => k limits a) :
    CutOff fun limits => f limits >>= k limits := by
  obtain ⟨result, ⟨a, rfl⟩ | rfl, approaches⟩ := first
  · obtain ⟨least, enough⟩ := approaches.enough
    obtain ⟨final, unlimited, onward⟩ := second a least (enough least le_rfl le_rfl)
    exact ⟨final, unlimited, approaches.bind onward⟩
  · exact ⟨_, .inr rfl, approaches.bind_error⟩

end Chains

/-! ## Stages without limits -/

theorem Supply.draw_unlimited (s : Supply) : Unlimited s.draw := by
  unfold draw
  split
  · exact .inr rfl
  · exact .inl ⟨_, rfl⟩

theorem Supply.name_unlimited (s : Supply) (things : List α) : Unlimited (s.name things) := by
  unfold name
  split
  · exact .inl ⟨_, rfl⟩
  · exact .inr rfl

namespace Grammar

open Std (ExtTreeMap)

theorem namePieces_unlimited (supply : Supply) (pieces : List (List Symbol)) : Unlimited (namePieces supply pieces) :=
  (supply.name_unlimited _).bind fun _ _ => .inl ⟨_, rfl⟩

theorem proper_unlimited (g : Grammar) : Unlimited g.proper := by
  simp only [proper]
  split
  · exact .inl ⟨_, rfl⟩
  split
  · exact (Supply.draw_unlimited _).bind fun _ _ => .inl ⟨_, rfl⟩
  · exact .inl ⟨_, rfl⟩

theorem toChomsky_unlimited (g : Grammar) : Unlimited g.toChomsky := by
  unfold toChomsky
  split
  · exact g.proper_unlimited.bind fun k _ => (namePieces_unlimited k.supply _).bind fun _ _ => .inl ⟨_, rfl⟩
  · exact .inl ⟨g, rfl⟩

theorem liftTrailingTerminals_unlimited (g : Grammar) : Unlimited g.liftTrailingTerminals :=
  (namePieces_unlimited g.supply _).bind fun _ _ => .inl ⟨_, rfl⟩

/-! ## Sorting out comes to an end -/

section SortOut

variable {limits : Limits} {done : ExtTreeMap Symbol (List (List Symbol)) compare} {left : Symbol}

/-- Sorting out goes through the alternatives one after the other. -/
theorem sortOut_append (first second : List (List Symbol)) (sorted : Alternatives) :
    sortOut limits done left (first ++ second) sorted =
      sortOut limits done left first sorted >>= sortOut limits done left second := by
  fun_induction sortOut limits done left first sorted with
  | case1 sorted => rfl
  | case2 sorted pending ih => rw [List.cons_append, sortOut, ih]
  | case3 sorted s rest pending heads known total above =>
    rw [List.cons_append, sortOut]
    simp only [known]
    rw [if_pos above]
    rfl
  | case4 sorted s rest pending heads known total within ih =>
    rw [List.cons_append, sortOut]
    simp only [known]
    rw [if_neg within, ← List.append_assoc, ih]
  | case5 sorted rest pending recursive unknown ih =>
    rw [List.cons_append, sortOut]
    simp only [unknown, if_true]
    exact ih
  | case6 sorted s rest pending unknown other ih =>
    rw [List.cons_append, sortOut]
    simp only [unknown]
    rw [if_neg other, ih]

/-- A first symbol is replaced when there is room for what replaces it; then the others are sorted out. -/
theorem sortOut_replace {s : Symbol} {rest : List Symbol} {pending heads : List (List Symbol)} {sorted : Alternatives}
    (known : done[s]? = some heads) :
    sortOut limits done left ((s :: rest) :: pending) sorted =
      limits.check (sorted.total + heads.length) >>= fun _ =>
        sortOut limits done left (followedBy heads rest) { sorted with total := sorted.total + heads.length } >>=
          sortOut limits done left pending := by
  rw [sortOut]
  simp only [known]
  unfold Limits.check
  split
  · rfl
  · exact sortOut_append _ _ _

/-- **Sorting out comes to an end** when every replacement of a first symbol lowers the height of the alternative. The
induction is on the height, and inside it on the list of the alternatives. -/
theorem sortOut_approaches (P : List Symbol → Prop) (height : List Symbol → Nat)
    (replace : ∀ s rest heads, P (s :: rest) → done[s]? = some heads →
      ∀ head ∈ heads, P (head ++ rest) ∧ height (head ++ rest) < height (s :: rest))
    (bound : Nat) (pending : List (List Symbol)) (all : ∀ right ∈ pending, P right ∧ height right < bound)
    (sorted : Alternatives) :
    ∃ result, Approaches (fun limits => sortOut limits done left pending sorted) (.ok result) := by
  induction bound generalizing pending sorted with
  | zero =>
    have none : pending = [] := List.eq_nil_iff_forall_not_mem.2 fun right mem => Nat.not_lt_zero _ (all right mem).2
    subst none
    exact ⟨sorted, by simpa only [sortOut] using approaches_const⟩
  | succ bound lower =>
    induction pending generalizing sorted with
    | nil => exact ⟨sorted, by simpa only [sortOut] using approaches_const⟩
    | cons right pending others =>
      obtain ⟨⟨own, low⟩, remaining⟩ := List.forall_mem_cons.1 all
      cases right with
      | nil =>
        simp only [sortOut]
        exact others remaining _
      | cons s rest =>
        cases known : done[s]? with
        | some heads =>
          obtain ⟨result, first⟩ := lower (followedBy heads rest)
            (List.forall_mem_map.2 fun head mem => by
              obtain ⟨holds, less⟩ := replace s rest heads own known head mem
              exact ⟨holds, by omega⟩)
            { sorted with total := sorted.total + heads.length }
          obtain ⟨final, second⟩ := others remaining result
          refine ⟨final, ?_⟩
          simp only [sortOut_replace known]
          exact (approaches_check _).bind (first.bind second)
        | none =>
          simp only [sortOut, known]
          by_cases own : s = left
          · simp only [own, if_true]
            exact others remaining _
          · simp only [own, if_false]
            exact others remaining _

end SortOut

/-! ## Removal of left recursion comes to an end -/

section Run

variable {g : Grammar} {u : Untangling} {left : Symbol} {todo dealt : List Symbol}

/-- the number of places in the order from the first symbol on -/
def height (g : Grammar) (right : List Symbol) : Nat :=
  match right with
  | [] => 0
  | s :: _ => g.lefts.length - g.lefts.idxOf s

namespace Untangled

/-- What replaces a first symbol begins with a later one. -/
theorem exists_sorted (inv : Untangled g u (left :: todo)) (ord : Ordered g u dealt (left :: todo))
    (confined : g.EpsilonConfined) : ∃ sorted, Approaches
      (fun limits => sortOut limits u.done left (g.rightsOf left) ⟨[], [], u.total⟩) (.ok sorted) := by
  have replace : ∀ s rest heads, (∀ t ∈ s :: rest, u.Uses g t) → u.done[s]? = some heads → ∀ head ∈ heads,
      (∀ t ∈ head ++ rest, u.Uses g t) ∧ g.height (head ++ rest) < g.height (s :: rest) := by
    intro s rest heads uses known head mem
    obtain ⟨used, others⟩ := List.forall_mem_cons.1 uses
    obtain ⟨ne, uses⟩ := inv.head_shape confined known mem used
    obtain ⟨t, more, rfl⟩ := List.exists_cons_of_ne_nil ne
    refine ⟨List.forall_mem_append.2 ⟨uses, others⟩, ?_⟩
    have later := ord.later s heads known _ mem t rfl
    have last : g.lefts.idxOf t ≤ g.lefts.length := List.idxOf_le_length
    simp only [List.cons_append, height]
    omega
  refine sortOut_approaches (fun right => ∀ s ∈ right, u.Uses g s) g.height replace (g.lefts.length + 1) _ ?_ _
  intro right mem
  rw [mem_rightsOf] at mem
  refine ⟨fun s hs => .inl ⟨_, mem, hs⟩, ?_⟩
  unfold height
  split <;> omega

/-- **One step** of the removal is only cut off. -/
theorem step_cutOff (inv : Untangled g u (left :: todo)) (ord : Ordered g u dealt (left :: todo))
    (confined : g.EpsilonConfined) : CutOff fun limits => u.step limits left (g.rightsOf left) := by
  obtain ⟨sorted, approaches⟩ := inv.exists_sorted ord confined
  unfold Untangling.step
  refine approaches.cutOff.bind fun sorted _ _ => ?_
  split
  · exact approaches_const.cutOff
  · refine (Supply.draw_unlimited u.supply).cutOff.bind fun drawn _ _ => ?_
    exact (approaches_check _).cutOff.bind fun _ _ _ => approaches_const.cutOff

/-- **A run** of the removal is only cut off. -/
theorem run_cutOff (inv : Untangled g u todo) (ord : Ordered g u dealt todo) (confined : g.EpsilonConfined)
    (unitFree : g.UnitFree) : CutOff fun limits => u.run limits g.rightsOf todo := by
  induction todo generalizing u dealt with
  | nil => exact approaches_const.cutOff
  | cons left todo ih =>
    refine (inv.step_cutOff ord confined).bind fun next limits made => ?_
    have nodup : (left :: todo).Nodup := (List.nodup_append.1 (ord.lefts ▸ nodup_lefts)).2.1
    exact ih (inv.step nodup confined made) (ord.step inv confined unitFree made)

end Untangled

theorem removeLeftRecursion_cutOff (wf : g.WellFormed) (confined : g.EpsilonConfined) (unitFree : g.UnitFree) :
    CutOff fun limits => g.removeLeftRecursion limits := by
  have start : Ordered g { supply := g.supply, total := g.productions.size } [] g.lefts :=
    ⟨rfl, by simp, by simp, by simp, by simp⟩
  exact ((untangled_start wf).run_cutOff start confined unitFree).bind fun _ _ _ => approaches_const.cutOff

end Run

/-! ## The rounds come to an end -/

section Rounds

variable {g h : Grammar} {rank : Symbol → Nat} {n : Nat}

/-- A leading non-terminal ranks at least so much higher than the left side. -/
def Gap (rank : Symbol → Nat) (n : Nat) (g : Grammar) : Prop :=
  ∀ left s rest, ⟨left, s :: rest⟩ ∈ g.productions → Symbol.isNonTerminal s → rank left + n ≤ rank s

/-- **A round doubles the gap.** -/
theorem Gap.expandLeading (gap : Gap rank n g) (confined : g.EpsilonConfined) : Gap rank (2 * n) g.expandLeading := by
  intro left s rest mem hs
  rcases mem_expandLeading.1 mem with ⟨-, settled⟩ | ⟨t, more, head, ht, mem, rule, right⟩
  · exact absurd (isSettled_iff.1 settled s rest rfl) (Symbol.not_isTerminal.2 hs)
  · cases head with
    | nil =>
      obtain ⟨rfl, free⟩ := confined _ rule rfl
      exact absurd List.mem_cons_self (free _ mem)
    | cons s' head =>
      obtain ⟨rfl, -⟩ := List.cons_eq_cons.1 right
      have below := gap left t more mem ht
      have above := gap t s head rule hs
      omega

theorem Gap.settled (gap : Gap rank n g) {top : Nat} (bounded : ∀ s, rank s ≤ top) (wide : top < n) :
    g.rules.all isSettled := by
  refine List.all_eq_true.2 fun p mem => isSettled_iff.2 fun s rest right => Symbol.isTerminal_iff_not.2 fun hs => ?_
  have far := gap p.left s rest (right ▸ mem_rules.1 mem) hs
  have near := bounded s
  omega

/-- The rounds end in the second grammar, given so many productions and so many rounds, or a limit is exceeded. -/
structure SettlesTo (g h : Grammar) (productions rounds : Nat) : Prop where
  within : ∀ (limits : Limits) n, settle limits n g = .ok h ∨ limits.Exceeded (settle limits n g)
  enough : ∀ (limits : Limits) n, productions ≤ limits.maxProductions → rounds ≤ n → settle limits n g = .ok h

theorem settlesTo_of_settled (settled : g.rules.all isSettled) : SettlesTo g g 0 1 := by
  have look : ∀ (limits : Limits) n, settle limits (n + 1) g = .ok g := fun limits n => by rw [settle, if_pos settled]
  refine ⟨fun limits n => ?_, fun limits n _ some => ?_⟩
  · cases n with
    | zero => exact .inr (.inr rfl)
    | succ n => exact .inl (look limits n)
  · obtain ⟨n, rfl⟩ := Nat.exists_eq_add_one.2 some
    exact look limits n

/-- One round more comes before what the expanded grammar settles to. -/
theorem SettlesTo.of_expandLeading {productions rounds : Nat} (unsettled : ¬ g.rules.all isSettled)
    (next : SettlesTo g.expandLeading h productions rounds) :
    SettlesTo g h (max productions g.expandLeading.productions.size) (rounds + 1) := by
  have round : ∀ (limits : Limits) n, settle limits (n + 1) g =
      limits.check g.expandLeading.productions.size >>= fun _ => settle limits n g.expandLeading :=
    fun limits n => by rw [settle, if_neg unsettled]
  refine ⟨fun limits n => ?_, fun limits n productions some => ?_⟩
  · cases n with
    | zero => exact .inr (.inr rfl)
    | succ n =>
      rw [round, Limits.check]
      split
      · exact .inr (.inl rfl)
      · exact next.within limits n
  · obtain ⟨n, rfl⟩ := Nat.exists_eq_add_one.2 (Nat.lt_of_lt_of_le (Nat.succ_pos rounds) some)
    rw [round, Limits.check, if_neg (Nat.not_lt.2 (le_of_max_le_right productions))]
    exact next.enough limits n (le_of_max_le_left productions) (Nat.le_of_succ_le_succ some)

/-- **The rounds come to an end.** As many doublings as make the gap wider than all ranks, and one more look, are all
that it takes. -/
theorem exists_settlesTo {top : Nat} (bounded : ∀ s, rank s ≤ top) (doublings : Nat) (confined : g.EpsilonConfined)
    (gap : Gap rank n g) (wide : top < 2 ^ doublings * n) :
    ∃ h productions rounds, rounds ≤ doublings + 1 ∧ SettlesTo g h productions rounds := by
  induction doublings generalizing g n with
  | zero =>
    have settled := gap.settled bounded (by simpa using wide)
    exact ⟨g, 0, 1, le_rfl, settlesTo_of_settled settled⟩
  | succ doublings ih =>
    by_cases settled : g.rules.all isSettled
    · exact ⟨g, 0, 1, by omega, settlesTo_of_settled settled⟩
    · have wide : top < 2 ^ doublings * (2 * n) := by rwa [pow_succ, mul_assoc] at wide
      obtain ⟨h, productions, rounds, few, next⟩ := ih confined.expandLeading (gap.expandLeading confined) wide
      exact ⟨h, _, rounds + 1, Nat.succ_le_succ few, next.of_expandLeading settled⟩

theorem substituteLeading_cutOff {top : Nat} (bounded : ∀ s, rank s ≤ top) (confined : g.EpsilonConfined)
    (gap : Gap rank 1 g) : CutOff fun limits => g.substituteLeading limits := by
  have wide : top < 2 ^ top * 1 := by simpa using Nat.lt_two_pow_self
  obtain ⟨h, productions, rounds, -, settles⟩ := exists_settlesTo bounded top confined gap wide
  exact Approaches.cutOff ⟨fun limits => settles.within limits limits.maxRounds, ⟨productions, rounds⟩,
    fun limits => settles.enough limits limits.maxRounds⟩

end Rounds

/-! ## The conversions -/

section Conversions

variable {g h : Grammar} {limits : Limits}

theorem rank_le (g : Grammar) (s : Symbol) : g.rank s ≤ g.lefts.length + 1 := by
  have last : g.lefts.idxOf s ≤ g.lefts.length := List.idxOf_le_length
  unfold rank
  split <;> omega

theorem gap_of_removeLeftRecursion (wf : g.WellFormed) (confined : g.EpsilonConfined) (unitFree : g.UnitFree)
    (made : g.removeLeftRecursion limits = .ok h) : Gap g.rank 1 h := fun _ _ rest mem _ =>
  rank_lt_of_leadStep wf confined unitFree made ⟨[], rest, mem, by simp⟩

theorem eliminateLeftRecursion_cutOff (wf : g.WellFormed) (rule : g.hasStartRule) :
    CutOff fun limits => g.eliminateLeftRecursion limits := by
  simp only [eliminateLeftRecursion, rule, if_true]
  refine g.proper_unlimited.cutOff.bind fun k _ proper => ?_
  have form := proper_spec wf rule proper
  exact removeLeftRecursion_cutOff form.wellFormed form.confined form.unitFree

theorem toGreibach_cutOff (wf : g.WellFormed) (rule : g.hasStartRule) : CutOff fun limits => g.toGreibach limits := by
  simp only [toGreibach, rule, if_true]
  refine g.toChomsky_unlimited.cutOff.bind fun g₁ _ chomsky => ?_
  obtain ⟨wf₁, shape, -⟩ := toChomsky_spec wf rule chomsky
  have confined := confined_of_isChomsky shape
  have unitFree := unitFree_of_isChomsky shape
  refine (removeLeftRecursion_cutOff wf₁ confined unitFree).bind fun g₂ limits untangled => ?_
  obtain ⟨-, confined₂, -⟩ := removeLeftRecursion_spec wf₁ confined untangled
  have gap := gap_of_removeLeftRecursion wf₁ confined unitFree untangled
  refine (substituteLeading_cutOff g₁.rank_le confined₂ gap).bind fun g₃ _ _ => ?_
  exact (g₃.liftTrailingTerminals_unlimited.bind fun _ _ => .inl ⟨_, rfl⟩).cutOff

/-- **Limits cut off, but never change, a result.** For the removal of left recursion and for the conversion to Greibach
normal form there is one result, a grammar or the error that no letter is left; under any limits the conversion gives it
or tells which limit is exceeded, and from some limits on it gives it. -/
theorem conversions_cutOff (wf : g.WellFormed) :
    CutOff (fun limits => g.eliminateLeftRecursion limits) ∧ CutOff (fun limits => g.toGreibach limits) := by
  by_cases rule : g.hasStartRule
  · exact ⟨eliminateLeftRecursion_cutOff wf rule, toGreibach_cutOff wf rule⟩
  · -- without a production for its start symbol the grammar is its own result
    have itself : CutOff fun _ : Limits => (.ok g : Except GrammarError Grammar) := approaches_const.cutOff
    simp only [eliminateLeftRecursion, toGreibach, rule, Bool.false_eq_true, if_false]
    exact ⟨itself, itself⟩

set_option maxRecDepth 100000 in
/-- The grammar of brackets is left-recursive; it is converted under the usual limits, and not without any room. -/
theorem conversions_cutOff_brackets : brackets.WellFormed ∧
    (brackets.toGreibach {}).isOk ∧ ¬ (brackets.toGreibach ⟨0, 0⟩).isOk ∧
      CutOff (fun limits => brackets.eliminateLeftRecursion limits) ∧
        CutOff (fun limits => brackets.toGreibach limits) :=
  ⟨brackets_wellFormed, by decide +kernel, by decide +kernel, conversions_cutOff brackets_wellFormed⟩

end Conversions

end Grammar

end ContextFree
