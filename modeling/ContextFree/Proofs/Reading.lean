import ContextFree.Proofs.Notation

/-!
The reader accepts exactly the notation, and of every other text it reports the fault that comes first.

- `separated_iff`, `parted_iff`, `cut_eq_some_iff`: where the reader takes a text apart;
- `writesRule_or_faulty`, `writesRules_or_faulty`: what is not written properly is faulty;
- `readRule_of_writes`, `readRule_of_faulty`, `readEach_of_writes`, `readEach_of_faulty`: what the reader makes of one
  rule, and of the rules in order;
- `readRules_iff`: so it gives the productions of a written text, and the fault of a faulty one.
-/

namespace ContextFree.Reading

variable {c sep : Char} {text rule rest body before after left right : List Char}
  {pieces rules : List (List Char)} {ps : List Production} {productions : List (List Production)} {fault : RuleFault}
  {n : Nat}

/-! ## Taking apart -/

theorem separated_iff : Separated sep pieces text ↔ split sep text = pieces := by
  rw [split_eq_splitOn]
  constructor
  · rintro ⟨ne, free, rfl⟩
    exact List.splitOn_intercalate sep free ne
  · rintro rfl
    refine ⟨List.splitOn_ne_nil sep text, fun piece mem used => ?_, (List.intercalate_splitOn sep).symm⟩
    rw [← split_eq_splitOn] at mem
    exact (mem_of_mem_split mem used).2 rfl

/-- The text comes apart at any arrow. -/
theorem splitArrow_append : splitArrow (before ++ '-' :: '>' :: after) = splitArrow before ++ splitArrow after := by
  fun_induction splitArrow before with
  | case1 => rfl
  | case2 before ih => rw [List.cons_append, List.cons_append, splitArrow, ih, List.cons_append]
  | case3 c before other ih =>
    obtain ⟨x, pieces, eq⟩ := List.exists_cons_of_ne_nil (splitArrow_ne_nil before)
    rw [List.cons_append, splitArrow, ih, eq]
    · rfl
    · rintro rest rfl
      cases before with
      | nil => simp
      | cons d before => exact fun eq => other before rfl (by rw [(List.cons.inj eq).1])

/-- The one arrow of a rule parts it as the reader does. -/
theorem parted_iff : Parted rule before after ↔ splitArrow rule = [before, after] := by
  constructor
  · rintro ⟨rfl, one⟩
    have two := length_splitArrow (before ++ '-' :: '>' :: after)
    rw [one, splitArrow_append, List.length_append] at two
    -- either part is a single piece
    have first := List.length_pos_iff.2 (splitArrow_ne_nil before)
    have second := List.length_pos_iff.2 (splitArrow_ne_nil after)
    rw [splitArrow_append, splitArrow_of_length_eq_one (by omega), splitArrow_of_length_eq_one (by omega)]
    rfl
  · intro apart
    have whole := intercalate_splitArrow rule
    have count := length_splitArrow rule
    rw [apart] at whole count
    exact ⟨by simpa using whole.symm, by simpa using count.symm⟩

theorem cut_eq_some_iff : cut sep text = some (body, rest) ↔ text = body ++ sep :: rest ∧ sep ∉ body := by
  constructor
  · intro found
    refine ⟨?_, fun used => (mem_of_cut found used).2 rfl⟩
    induction text generalizing body with
    | nil => cases found
    | cons c text ih =>
      rw [cut] at found
      split at found
      · rename_i same
        cases found
        rw [same]
        rfl
      · obtain ⟨⟨before, after⟩, later, eq⟩ := Option.map_eq_some_iff.1 found
        cases eq
        rw [ih later]
        rfl
  · rintro ⟨rfl, free⟩
    exact cut_append free

theorem not_mem_of_cut_eq_none (none : cut sep text = none) : sep ∉ text := by
  intro used
  obtain ⟨before, after, rfl, free⟩ := List.eq_append_cons_of_mem used
  rw [cut_append free] at none
  cases none

/-! ## One rule -/

theorem readLeft_nonTerminal {s : Symbol} (hs : Symbol.isNonTerminal s) : readLeft [s] = .ok s := if_pos hs

theorem readLeft_invalid (ne : left ≠ []) (invalid : ∀ s, left = [s] → Symbol.isTerminal s) :
    readLeft left = .error (.invalidLeft (String.ofList left)) := by
  match left, ne with
  | [s], _ => exact if_neg (Symbol.isTerminal_iff_not.1 (invalid s rfl))
  | _ :: _ :: _, _ => rfl

theorem readRule_of_writes (writes : WritesRule rule ps) : readRule rule = .ok ps := by
  obtain ⟨parted, hs, pieces, full⟩ := writes
  rw [readRule, parted_iff.1 parted]
  simp only [readLeft_nonTerminal hs, separated_iff.1 pieces]
  exact if_neg full

theorem readRule_of_faulty (faulty : FaultyRule rule fault) : readRule rule = .error fault := by
  have pieces := length_splitArrow rule
  cases faulty with
  | missingArrow none =>
    rw [readRule, splitArrow_of_length_eq_one (pieces.trans (congrArg (· + 1) none))]
  | repeatedArrow several =>
    have long : 3 ≤ (splitArrow rule).length := by omega
    rw [readRule]
    generalize splitArrow rule = parts at long
    rcases parts with _ | ⟨x, _ | ⟨y, _ | ⟨z, more⟩⟩⟩
    · exact absurd long (by simp)
    · exact absurd long (by simp)
    · exact absurd long (by simp)
    · rfl
  | emptyLeft parted =>
    rw [readRule, parted_iff.1 parted]
    rfl
  | invalidLeft parted ne invalid =>
    rw [readRule, parted_iff.1 parted]
    simp only [readLeft_invalid ne invalid]
  | emptyAlternative parted hs pieces empty =>
    rw [readRule, parted_iff.1 parted]
    simp only [readLeft_nonTerminal hs, separated_iff.1 pieces]
    exact if_pos empty

/-- **A rule is written properly or faulty.** -/
theorem writesRule_or_faulty (rule : List Char) : (∃ ps, WritesRule rule ps) ∨ ∃ fault, FaultyRule rule fault := by
  rcases Nat.lt_trichotomy (arrows rule) 1 with none | one | several
  · exact .inr ⟨_, .missingArrow (Nat.lt_one_iff.1 none)⟩
  · have two := length_splitArrow rule
    obtain ⟨left, right, apart⟩ := List.length_eq_two.1 (two.trans (congrArg (· + 1) one))
    have parted := parted_iff.2 apart
    have pieces : Separated '|' (split '|' right) right := separated_iff.2 rfl
    by_cases empty : left = []
    · exact .inr ⟨_, .emptyLeft (empty ▸ parted)⟩
    · by_cases valid : ∃ s, left = [s] ∧ Symbol.isNonTerminal s
      · obtain ⟨s, rfl, hs⟩ := valid
        by_cases full : [] ∈ split '|' right
        · exact .inr ⟨_, .emptyAlternative parted hs pieces full⟩
        · exact .inl ⟨_, .alternatives parted hs pieces full⟩
      · refine .inr ⟨_, .invalidLeft parted empty fun s eq => Symbol.isTerminal_iff_not.2 fun hs => valid ⟨s, eq, hs⟩⟩
  · exact .inr ⟨_, .repeatedArrow several⟩

/-! ## Rules in order -/

theorem readEach_of_writes (writes : List.Forall₂ WritesRule rules productions) :
    readEach n rules = .ok productions.flatten := by
  induction writes generalizing n with
  | nil => rfl
  | cons first _ ih =>
    rw [readEach, readRule_of_writes first]
    simp only [ih, Except.map, List.flatten_cons]

/-- The first faulty rule is reported under its number. -/
theorem readEach_of_faulty {earlier later : List (List Char)} (proper : ∀ r ∈ earlier, ∃ ps, WritesRule r ps)
    (faulty : FaultyRule rule fault) :
    readEach n (earlier ++ rule :: later) = .error (.malformedRule (n + earlier.length) fault) := by
  induction earlier generalizing n with
  | nil =>
    rw [List.nil_append, readEach, readRule_of_faulty faulty]
    rfl
  | cons r earlier ih =>
    obtain ⟨⟨ps, writes⟩, proper⟩ := List.forall_mem_cons.1 proper
    rw [List.cons_append, readEach, readRule_of_writes writes]
    simp only [ih proper, Except.map, List.length_cons, Nat.add_assoc, Nat.add_comm 1]

theorem writesEach_or_faulty (rules : List (List Char)) : (∃ productions, List.Forall₂ WritesRule rules productions) ∨
    ∃ earlier rule later fault, rules = earlier ++ rule :: later ∧ (∀ r ∈ earlier, ∃ ps, WritesRule r ps) ∧
      FaultyRule rule fault := by
  induction rules with
  | nil => exact .inl ⟨[], .nil⟩
  | cons rule rules ih =>
    rcases writesRule_or_faulty rule with ⟨ps, writes⟩ | ⟨fault, faulty⟩
    · rcases ih with ⟨productions, others⟩ | ⟨earlier, r, later, fault, rfl, proper, faulty⟩
      · exact .inl ⟨ps :: productions, .cons writes others⟩
      · exact .inr ⟨rule :: earlier, r, later, fault, rfl, List.forall_mem_cons.2 ⟨⟨ps, writes⟩, proper⟩, faulty⟩
    · exact .inr ⟨[], rule, rules, fault, rfl, by simp, faulty⟩

/-! ## Whole texts -/

/-- **A text without blanks is written properly or faulty.** -/
theorem writesRules_or_faulty (text : List Char) : (∃ ps, WritesRules text ps) ∨ ∃ n fault, Faulty text n fault := by
  by_cases none : text = []
  · exact .inl ⟨[], none ▸ .nothing⟩
  have segments : ∀ body, Separated ';' (split ';' body) body := fun body => separated_iff.2 rfl
  cases found : cut '.' text with
  | none => exact .inr ⟨_, _, .missingTerminator none (not_mem_of_cut_eq_none found) (segments text)⟩
  | some parts =>
    obtain ⟨body, rest⟩ := parts
    obtain ⟨rfl, free⟩ := cut_eq_some_iff.1 found
    by_cases more : rest = []
    · subst more
      by_cases empty : body = []
      · subst empty
        exact .inl ⟨[], .stop⟩
      · rcases writesEach_or_faulty (split ';' body) with ⟨productions, writes⟩ | ⟨_, _, _, _, eq, proper, faulty⟩
        · exact .inl ⟨_, .rules empty free (segments body) writes⟩
        · exact .inr ⟨_, _, .rule empty free (eq ▸ segments body) proper faulty⟩
    · exact .inr ⟨_, _, .trailingInput free more (segments body)⟩

theorem readRules_of_writes (writes : WritesRules (withoutBlanks text) ps) : readRules text = .ok ps := by
  rw [withoutBlanks] at writes
  simp only [readRules]
  generalize (text.filter fun c => !isBlank c) = text at writes
  cases writes with
  | nothing => rfl
  | stop => rfl
  | rules ne free pieces writes =>
    rw [if_neg (by simp), cut_append free]
    simp only [ne_eq, not_true_eq_false, if_false, ne, separated_iff.1 pieces]
    exact readEach_of_writes writes

theorem readRules_of_faulty (faulty : Faulty (withoutBlanks text) n fault) :
    readRules text = .error (.malformedRule n fault) := by
  rw [withoutBlanks] at faulty
  simp only [readRules]
  generalize (text.filter fun c => !isBlank c) = text at faulty
  cases faulty with
  | missingTerminator ne free pieces =>
    have none : cut '.' text = none := by
      rw [← Option.not_isSome_iff_eq_none, Option.isSome_iff_exists]
      rintro ⟨⟨body, rest⟩, found⟩
      exact free ((cut_eq_some_iff.1 found).1 ▸ by simp)
    rw [if_neg ne, none, separated_iff.1 pieces]
  | trailingInput free more pieces =>
    rw [if_neg (by simp), cut_append free]
    simp only [ne_eq, more, not_false_eq_true, if_true, separated_iff.1 pieces]
  | rule ne free pieces proper faulty =>
    rw [if_neg (by simp), cut_append free]
    simp only [ne_eq, not_true_eq_false, if_false, ne, separated_iff.1 pieces]
    rw [readEach_of_faulty proper faulty, Nat.add_comm]

/-- **The reader accepts exactly the notation.** It gives the productions that the text writes, in their order and with
nothing lost or added; a text that writes none is refused, for the fault and under the number that come first. -/
theorem readRules_iff (text : List Char) :
    (∀ ps, readRules text = .ok ps ↔ WritesRules (withoutBlanks text) ps) ∧
    ∀ e, readRules text = .error e ↔ ∃ n fault, Faulty (withoutBlanks text) n fault ∧ e = .malformedRule n fault := by
  refine ⟨fun ps => ⟨fun read => ?_, readRules_of_writes⟩, fun e => ⟨fun read => ?_, ?_⟩⟩
  · rcases writesRules_or_faulty (withoutBlanks text) with ⟨ps', writes⟩ | ⟨n, fault, faulty⟩
    · cases read.symm.trans (readRules_of_writes writes)
      exact writes
    · cases read.symm.trans (readRules_of_faulty faulty)
  · rcases writesRules_or_faulty (withoutBlanks text) with ⟨ps, writes⟩ | ⟨n, fault, faulty⟩
    · cases read.symm.trans (readRules_of_writes writes)
    · cases read.symm.trans (readRules_of_faulty faulty)
      exact ⟨n, fault, faulty, rfl⟩
  · rintro ⟨n, fault, faulty, rfl⟩
    exact readRules_of_faulty faulty

end ContextFree.Reading
