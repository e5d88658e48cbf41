import ContextFree.Grammar.Draft
import ContextFree.Grammar.Notation
import ContextFree.Proofs.Language

/-!
Reading what was written. The notation has no escapes: it cannot show a full stop, a semicolon, a bar or a blank, and a
right side that shows an arrow is taken apart at it. It does not name the start symbol either, which is the left side of
the first rule.

- `length_splitArrow`, `intercalate_splitArrow`: the reader takes a text apart exactly at its arrows;
- `readRules_text`: the reader finds the rules of a text again, when its symbols are plain;
- `readWith_text`: without arrows in right sides it gives the productions and the sentinel back, under the first left
  side as the start symbol (`reread`);
- `readWith_text_of_arrow`: with one it refuses the text;
- `of_readWith`: a grammar that was read is plain, and its start symbol has a rule unless it is empty;
- `readWith_text_iff`: so a plain grammar whose start symbol has a rule, such as one that was read, is what its text
  means exactly when no right side shows an arrow.
-/

namespace ContextFree

/-- a character that can be written in a right side -/
def isPlain (c : Char) : Bool := !isBlank c && c != '.' && c != ';' && c != '|'

/-- An arrow stands in the text. -/
def HasArrow (text : List Char) : Prop := ['-', '>'] <:+: text

variable {c sep : Char} {text rest piece body : List Char} {pieces : List (List Char)} {e left s : Symbol}
  {right : List Symbol} {g : Grammar} {p : Production} {lefts : List Symbol} {rules : List Production} {n : Nat}

theorem isPlain_iff : isPlain c ↔ isBlank c = false ∧ c ≠ '.' ∧ c ≠ ';' ∧ c ≠ '|' := by
  simp [isPlain, and_assoc]

theorem ranges_apart : ∀ r ∈ UpperCase.ranges, 0x40 < r.first ∧ (r.last < 0x7C ∨ 0x7C < r.first) ∧
    (r.last < 0x85 ∨ 0x85 < r.first) ∧ (r.last < 0xA0 ∨ 0xA0 < r.first) ∧ (r.last < 0x1680 ∨ 0x1680 < r.first) ∧
    (r.last < 0x2000 ∨ 0x200A < r.first) ∧ (r.last < 0x2028 ∨ 0x2029 < r.first) ∧
    (r.last < 0x202F ∨ 0x202F < r.first) ∧ (r.last < 0x205F ∨ 0x205F < r.first) ∧
    (r.last < 0x3000 ∨ 0x3000 < r.first) := by decide +kernel

/-- No upper-case letter is a sign of the notation. -/
theorem isPlain_of_isNonTerminal (h : Symbol.isNonTerminal c) : isPlain c ∧ c ≠ '-' := by
  obtain ⟨r, hr, code⟩ := (UpperCase.inRanges_iff UpperCase.ranges_proper UpperCase.ranges_ascending).1 h
  obtain ⟨first, last, -⟩ := (r.mem_codes (UpperCase.ranges_proper r hr)).1 code
  have apart := ranges_apart r hr
  have blank : isBlank c = false := by
    simp only [isBlank, Bool.or_eq_false_iff, Bool.and_eq_false_iff, decide_eq_false_iff_not, beq_eq_false_iff_ne]
    omega
  have other : ∀ d : Char, d.toNat ≤ 0x40 ∨ d.toNat = 0x7C → c ≠ d := by
    intro d code eq
    subst eq
    omega
  exact ⟨isPlain_iff.2 ⟨blank, other '.' (by decide), other ';' (by decide), other '|' (by decide)⟩,
    other '-' (by decide)⟩

namespace Reading

/-! ## Taking apart -/

theorem split_eq_splitOn : split sep text = text.splitOn sep := by
  induction text with
  | nil => rfl
  | cons c text ih =>
    have next : (c :: text).splitOn sep = if c == sep then _ else _ := List.splitOnP_cons_eq_if_modifyHead c text
    rw [split, ih, next]
    by_cases same : c = sep
    · simp [same, List.splitOn]
    · obtain ⟨first, others, eq⟩ := List.exists_cons_of_ne_nil (List.splitOn_ne_nil sep text)
      rw [if_neg same, if_neg (by simpa using same), eq, show List.splitOnP (· == sep) text = _ from eq]
      rfl

theorem mem_of_mem_consFirst (mem : piece ∈ consFirst c pieces) {d : Char} (hd : d ∈ piece) :
    d = c ∨ ∃ x ∈ pieces, d ∈ x := by
  cases pieces with
  | nil =>
    obtain rfl := List.mem_singleton.1 mem
    exact .inl (List.mem_singleton.1 hd)
  | cons x pieces =>
    rcases List.mem_cons.1 mem with rfl | mem
    · exact (List.mem_cons.1 hd).imp_right fun hd => ⟨x, List.mem_cons_self, hd⟩
    · exact .inr ⟨piece, List.mem_cons_of_mem x mem, hd⟩

/-- A piece holds characters of the text, and no separator. -/
theorem mem_of_mem_split (mem : piece ∈ split sep text) (hc : c ∈ piece) : c ∈ text ∧ c ≠ sep := by
  induction text generalizing piece with
  | nil =>
    obtain rfl := List.mem_singleton.1 mem
    exact absurd hc List.not_mem_nil
  | cons d text ih =>
    rw [split] at mem
    split at mem
    · rcases List.mem_cons.1 mem with rfl | mem
      · exact absurd hc List.not_mem_nil
      · exact (ih mem hc).imp_left (List.mem_cons_of_mem d)
    · rename_i other
      rcases mem_of_mem_consFirst mem hc with rfl | ⟨x, mem, hc⟩
      · exact ⟨List.mem_cons_self, other⟩
      · exact (ih mem hc).imp_left (List.mem_cons_of_mem d)

theorem length_consFirst (ne : pieces ≠ []) : (consFirst c pieces).length = pieces.length := by
  obtain ⟨x, pieces, rfl⟩ := List.exists_cons_of_ne_nil ne
  rfl

theorem splitArrow_ne_nil (text : List Char) : splitArrow text ≠ [] := by
  fun_induction splitArrow text with
  | case1 => exact List.cons_ne_nil _ _
  | case2 text ih => exact List.cons_ne_nil _ _
  | case3 c text other ih =>
    apply List.ne_nil_of_length_pos
    rw [length_consFirst ih]
    exact List.length_pos_iff.2 ih

theorem arrows_cons : arrows (c :: text) = arrows text + if ['-', '>'] <+: c :: text then 1 else 0 := by
  simp [arrows, List.countP_cons]

theorem length_splitArrow (text : List Char) : (splitArrow text).length = arrows text + 1 := by
  fun_induction splitArrow text with
  | case1 => rfl
  | case2 text ih =>
    have first : ['-', '>'] <+: '-' :: '>' :: text := List.prefix_append ['-', '>'] text
    have second : ¬ ['-', '>'] <+: '>' :: text := by simp
    rw [arrows_cons, arrows_cons, if_neg second, if_pos first, List.length_cons, ih]
  | case3 c text other ih =>
    have first : ¬ ['-', '>'] <+: c :: text := by
      rintro ⟨rest, eq⟩
      obtain ⟨rfl, rfl⟩ := List.cons.inj eq
      exact other rest rfl rfl
    rw [arrows_cons, if_neg first, length_consFirst (splitArrow_ne_nil _), ih]

theorem intercalate_consFirst {sep : List Char} (ne : pieces ≠ []) :
    List.intercalate sep (consFirst c pieces) = c :: List.intercalate sep pieces := by
  obtain ⟨x, pieces, rfl⟩ := List.exists_cons_of_ne_nil ne
  cases pieces <;> simp [consFirst]

theorem intercalate_splitArrow (text : List Char) : List.intercalate ['-', '>'] (splitArrow text) = text := by
  fun_induction splitArrow text with
  | case1 => rfl
  | case2 text ih =>
    obtain ⟨x, pieces, eq⟩ := List.exists_cons_of_ne_nil (splitArrow_ne_nil text)
    rw [eq, List.intercalate_cons_cons, ← eq, ih]
    rfl
  | case3 c text other ih => rw [intercalate_consFirst (splitArrow_ne_nil _), ih]

theorem splitArrow_of_length_eq_one (one : (splitArrow text).length = 1) : splitArrow text = [text] := by
  obtain ⟨x, eq⟩ := List.length_eq_one_iff.1 one
  have whole := intercalate_splitArrow text
  rw [eq, List.intercalate_singleton] at whole
  rw [eq, whole]

theorem hasArrow_iff : HasArrow text ↔ arrows text ≠ 0 := by
  rw [HasArrow, List.infix_iff_prefix_suffix, ← Nat.pos_iff_ne_zero, arrows, List.countP_pos_iff]
  simp only [List.mem_tails, decide_eq_true_eq, and_comm]

theorem splitArrow_eq_singleton (none : ¬ HasArrow text) : splitArrow text = [text] := by
  rw [hasArrow_iff, not_not] at none
  exact splitArrow_of_length_eq_one ((length_splitArrow text).trans (congrArg (· + 1) none))

theorem two_le_length_splitArrow (some : HasArrow text) : 2 ≤ (splitArrow text).length := by
  rw [length_splitArrow]
  exact Nat.succ_le_succ (Nat.pos_of_ne_zero (hasArrow_iff.1 some))

theorem mem_of_mem_splitArrow (mem : piece ∈ splitArrow text) (hc : c ∈ piece) : c ∈ text := by
  fun_induction splitArrow text generalizing piece with
  | case1 =>
    obtain rfl := List.mem_singleton.1 mem
    exact hc
  | case2 text ih =>
    rcases List.mem_cons.1 mem with rfl | mem
    · exact absurd hc List.not_mem_nil
    · exact List.mem_cons_of_mem '-' (List.mem_cons_of_mem '>' (ih mem hc))
  | case3 d text other ih =>
    rcases mem_of_mem_consFirst mem hc with rfl | ⟨x, mem, hc⟩
    · exact List.mem_cons_self
    · exact List.mem_cons_of_mem d (ih mem hc)

theorem cut_append (h : sep ∉ body) : cut sep (body ++ sep :: rest) = some (body, rest) := by
  induction body with
  | nil => simp [cut]
  | cons c body ih =>
    rw [List.mem_cons, not_or] at h
    rw [List.cons_append, cut, if_neg (Ne.symm h.1), ih h.2]
    rfl

/-- What stands before the first separator holds none. -/
theorem mem_of_cut (h : cut sep text = some (body, rest)) (hc : c ∈ body) : c ∈ text ∧ c ≠ sep := by
  induction text generalizing body with
  | nil => cases h
  | cons d text ih =>
    rw [cut] at h
    split at h
    · cases h
      exact absurd hc List.not_mem_nil
    · rename_i other
      obtain ⟨⟨before, after⟩, later, eq⟩ := Option.map_eq_some_iff.1 h
      cases eq
      rcases List.mem_cons.1 hc with rfl | hc
      · exact ⟨List.mem_cons_self, other⟩
      · exact (ih later hc).imp_left (List.mem_cons_of_mem d)

/-! ## Arrows between separators -/

/-- An arrow does not reach over another sign. -/
theorem hasArrow_append_cons (minus : sep ≠ '-') (greater : sep ≠ '>') :
    HasArrow (text ++ sep :: rest) ↔ HasArrow text ∨ HasArrow rest := by
  have start : HasArrow (sep :: rest) ↔ HasArrow rest := by
    rw [HasArrow, List.infix_cons_iff, List.cons_prefix_cons]
    exact ⟨fun h => h.resolve_left fun first => minus first.1.symm, .inr⟩
  constructor
  · intro h
    rcases List.infix_append_iff.1 h with h | h | ⟨x, y, eq, before, after⟩
    · exact .inl h
    · exact .inr (start.1 h)
    · cases y with
      | nil =>
        obtain rfl : _ = x := eq.trans (List.append_nil x)
        exact .inl before.isInfix
      | cons d y =>
        -- the separator would be one of the two signs
        obtain ⟨rfl, -⟩ := List.cons_prefix_cons.1 after
        have mem : d ∈ ['-', '>'] := by rw [eq]; simp
        simp [minus, greater] at mem
  · rintro (h | h)
    · exact h.trans (List.prefix_append text _).isInfix
    · exact (start.2 h).trans (List.suffix_append text _).isInfix

theorem hasArrow_intercalate (minus : sep ≠ '-') (greater : sep ≠ '>') :
    HasArrow (List.intercalate [sep] pieces) ↔ ∃ piece ∈ pieces, HasArrow piece := by
  induction pieces with
  | nil => simp [HasArrow]
  | cons x pieces ih =>
    cases pieces with
    | nil => simp
    | cons y pieces =>
      rw [List.intercalate_cons_cons, List.append_assoc, List.singleton_append, hasArrow_append_cons minus greater, ih,
        List.exists_mem_cons_iff (a := x)]

theorem mem_intercalate (mem : c ∈ List.intercalate [sep] pieces) : c = sep ∨ ∃ piece ∈ pieces, c ∈ piece := by
  induction pieces with
  | nil => simp at mem
  | cons x pieces ih =>
    cases pieces with
    | nil => exact .inr ⟨x, List.mem_cons_self, by simpa using mem⟩
    | cons y pieces =>
      rw [List.intercalate_cons_cons, List.append_assoc, List.mem_append, List.singleton_append, List.mem_cons] at mem
      rcases mem with mem | rfl | mem
      · exact .inr ⟨x, List.mem_cons_self, mem⟩
      · exact .inl rfl
      · exact (ih mem).imp_right fun ⟨piece, known, hc⟩ => ⟨piece, List.mem_cons_of_mem x known, hc⟩

/-! ## One rule -/

theorem splitArrow_rule (hl : Symbol.isNonTerminal left) :
    splitArrow (left :: '-' :: '>' :: text) = [left] :: splitArrow text := by
  simp [splitArrow, consFirst, (isPlain_of_isNonTerminal hl).2]

/-- A rule without arrows in its alternatives is read as it was written. -/
theorem readRule_ok (hl : Symbol.isNonTerminal left) (ne : pieces ≠ [])
    (each : ∀ x ∈ pieces, x ≠ [] ∧ '|' ∉ x ∧ ¬ HasArrow x) :
    readRule (left :: '-' :: '>' :: List.intercalate ['|'] pieces) = .ok (pieces.map (⟨left, ·⟩)) := by
  have whole : splitArrow (List.intercalate ['|'] pieces) = [List.intercalate ['|'] pieces] := by
    apply splitArrow_eq_singleton
    rw [hasArrow_intercalate (by decide) (by decide)]
    rintro ⟨x, hx, some⟩
    exact (each x hx).2.2 some
  have alternatives : split '|' (List.intercalate ['|'] pieces) = pieces := by
    rw [split_eq_splitOn]
    exact List.splitOn_intercalate '|' (fun x hx => (each x hx).2.1) ne
  have some : [] ∉ pieces := fun mem => (each [] mem).1 rfl
  simp [readRule, splitArrow_rule hl, whole, readLeft, hl, alternatives, some]

theorem readRule_of_arrow (hl : Symbol.isNonTerminal left) (some : ∃ x ∈ pieces, HasArrow x) :
    readRule (left :: '-' :: '>' :: List.intercalate ['|'] pieces) = .error .repeatedArrow := by
  have apart := two_le_length_splitArrow <|
    (hasArrow_intercalate (by decide : '|' ≠ '-') (by decide)).2 some
  rw [readRule, splitArrow_rule hl]
  generalize splitArrow (List.intercalate ['|'] pieces) = parts at apart
  match parts, apart with
  | _ :: _ :: _, _ => rfl

theorem mem_of_readRule {ps : List Production} (read : readRule text = .ok ps) (mem : p ∈ ps) (hc : c ∈ p.right) :
    c ∈ text ∧ c ≠ '|' := by
  unfold readRule at read
  split at read
  · rename_i left right apart
    split at read
    · cases read
    · simp only at read
      split at read
      · cases read
      · cases read
        obtain ⟨x, hx, rfl⟩ := List.mem_map.1 mem
        obtain ⟨hc, bar⟩ := mem_of_mem_split hx hc
        exact ⟨mem_of_mem_splitArrow (apart ▸ by simp) hc, bar⟩
  · cases read
  · cases read

theorem exists_rule_of_readEach {texts : List (List Char)} (read : readEach n texts = .ok rules) (mem : p ∈ rules) :
    ∃ text ∈ texts, ∃ ps, readRule text = .ok ps ∧ p ∈ ps := by
  induction texts generalizing n rules with
  | nil =>
    cases read
    exact absurd mem List.not_mem_nil
  | cons text texts ih =>
    rw [readEach] at read
    cases rule : readRule text with
    | error fault => simp [rule] at read
    | ok ps =>
      simp only [rule] at read
      cases others : readEach (n + 1) texts with
      | error e => simp [others, Except.map] at read
      | ok later =>
        simp only [others, Except.map, Except.ok.injEq] at read
        subst read
        rcases List.mem_append.1 mem with mem | mem
        · exact ⟨text, List.mem_cons_self, ps, rule, mem⟩
        · obtain ⟨x, hx, found⟩ := ih others mem
          exact ⟨x, List.mem_cons_of_mem text hx, found⟩

/-- Right sides that were read are plain. -/
theorem isPlain_of_readRules (read : readRules text = .ok rules) (mem : p ∈ rules) (hc : c ∈ p.right) : isPlain c := by
  simp only [readRules] at read
  split at read
  · cases read
    exact absurd mem List.not_mem_nil
  split at read
  · cases read
  rename_i body rest cut
  split at read
  · cases read
  split at read
  · cases read
    exact absurd mem List.not_mem_nil
  obtain ⟨rule, hrule, ps, known, mem⟩ := exists_rule_of_readEach read mem
  obtain ⟨inRule, bar⟩ := mem_of_readRule known mem hc
  obtain ⟨inBody, semicolon⟩ := mem_of_mem_split hrule inRule
  obtain ⟨inText, stop⟩ := mem_of_cut cut inBody
  exact isPlain_iff.2 ⟨by simpa using (List.mem_filter.1 inText).2, stop, semicolon, bar⟩

end Reading

/-! ## The text of a grammar -/

namespace Production

theorem rightText_ne_nil : rightText e p ≠ [] := by
  unfold rightText
  split
  · exact List.cons_ne_nil e []
  · rename_i right ne
    exact ne

theorem hasArrow_rightText : HasArrow (rightText e p) ↔ HasArrow p.right := by
  unfold rightText
  split
  · rename_i empty
    rw [empty]
    refine iff_of_false ?_ ?_ <;> exact fun some => absurd some.length_le (by simp)
  · exact Iff.rfl

theorem mem_rightText (mem : c ∈ rightText e p) : c = e ∨ c ∈ p.right := by
  unfold rightText at mem
  split at mem
  · exact .inl (List.mem_singleton.1 mem)
  · exact .inr mem

theorem without_rightText (unused : e ∉ p.right) : without e ⟨p.left, rightText e p⟩ = p := by
  obtain ⟨left, right⟩ := p
  cases right with
  | nil => simp [without, rightText]
  | cons s right =>
    have all : ∀ t ∈ s :: right, decide (t ≠ e) = true := fun t ht => by
      simp only [decide_eq_true_eq]
      rintro rfl
      exact unused ht
    exact congrArg (Production.mk left) (List.filter_eq_self.2 all)

end Production

namespace Grammar

open Reading

/-- The sentinel and the symbols of right sides can be written. -/
structure Plain (g : Grammar) : Prop where
  epsilon : isPlain g.epsilon
  right : ∀ p ∈ g.productions, ∀ s ∈ p.right, isPlain s

/-- No right side shows an arrow. -/
def Arrowless (g : Grammar) : Prop := ∀ p ∈ g.productions, ¬ HasArrow p.right

/-- the alternatives of a left side as they are written -/
def alternatives (g : Grammar) (left : Symbol) : List (List Char) :=
  (g.rightsOf left).map fun right => Production.rightText g.epsilon ⟨left, right⟩

/-- the rules as they are written, with the sentinel in place -/
def written (g : Grammar) (lefts : List Symbol) : List Production :=
  lefts.flatMap fun left => (g.alternatives left).map (⟨left, ·⟩)

/-- the same productions under the first left side, which is what a text tells -/
def reread (g : Grammar) : Grammar := { g with start := g.lefts.headD 'S' }

theorem mem_alternatives : piece ∈ g.alternatives left ↔
    ∃ right, ⟨left, right⟩ ∈ g.productions ∧ piece = Production.rightText g.epsilon ⟨left, right⟩ := by
  simp only [alternatives, List.mem_map, mem_rightsOf]
  simp only [eq_comm]

theorem Plain.alternatives (plain : g.Plain) (mem : piece ∈ g.alternatives left) (hc : c ∈ piece) : isPlain c := by
  obtain ⟨right, known, rfl⟩ := mem_alternatives.1 mem
  rcases Production.mem_rightText hc with rfl | used
  · exact plain.epsilon
  · exact plain.right _ known c used

theorem Plain.bar_not_mem (plain : g.Plain) (mem : piece ∈ g.alternatives left) : '|' ∉ piece :=
  fun bar => (isPlain_iff.1 (plain.alternatives mem bar)).2.2.2 rfl

theorem hasArrow_alternatives : (∃ x ∈ g.alternatives left, HasArrow x) ↔
    ∃ right, ⟨left, right⟩ ∈ g.productions ∧ HasArrow right := by
  simp only [mem_alternatives]
  constructor
  · rintro ⟨_, ⟨right, known, rfl⟩, some⟩
    exact ⟨right, known, Production.hasArrow_rightText.1 some⟩
  · rintro ⟨right, known, some⟩
    exact ⟨_, ⟨right, known, rfl⟩, Production.hasArrow_rightText.2 some⟩

theorem mem_written : p ∈ g.written lefts ↔ p.left ∈ lefts ∧ p.right ∈ g.alternatives p.left := by
  simp only [written, List.mem_flatMap, List.mem_map]
  constructor
  · rintro ⟨left, known, x, hx, rfl⟩
    exact ⟨known, hx⟩
  · rintro ⟨known, hx⟩
    exact ⟨p.left, known, p.right, hx, rfl⟩

theorem reread_eq (rule : g.hasStartRule) : g.reread = g := by
  have first : g.start ∈ (FiniteSet.ofList (g.rules.map (·.left))).toList := by
    obtain ⟨right, mem⟩ := hasStartRule_iff.1 rule
    rw [Std.ExtTreeSet.mem_toList, FiniteSet.mem_ofList]
    exact List.mem_map.2 ⟨_, mem_rules.2 mem, rfl⟩
  have head : g.lefts.headD 'S' = g.start := by
    rw [lefts, if_pos first]
    rfl
  rw [reread, head]

section Text

variable (wf : g.WellFormed) (plain : g.Plain)

include wf plain

/-- What stands in a rule is no blank, full stop or semicolon. -/
theorem mem_ruleText (known : left ∈ g.lefts) (hc : c ∈ g.ruleText left) : isBlank c = false ∧ c ≠ '.' ∧ c ≠ ';' := by
  obtain ⟨right, mem⟩ := mem_lefts.1 known
  have letter := isPlain_iff.1 (isPlain_of_isNonTerminal (wf.left_nonTerminal _ mem)).1
  have arrow : ∀ d ∈ ['-', '>', '|'], isBlank d = false ∧ d ≠ '.' ∧ d ≠ ';' := by simp [isBlank]
  rcases List.mem_cons.1 hc with rfl | hc
  · exact ⟨letter.1, letter.2.1, letter.2.2.1⟩
  rcases List.mem_cons.1 hc with rfl | hc
  · exact arrow '-' (by simp)
  rcases List.mem_cons.1 hc with rfl | hc
  · exact arrow '>' (by simp)
  rcases mem_intercalate hc with rfl | ⟨x, hx, hc⟩
  · exact arrow '|' (by simp)
  · have symbol := isPlain_iff.1 (plain.alternatives hx hc)
    exact ⟨symbol.1, symbol.2.1, symbol.2.2.1⟩

theorem mem_ruleTexts (hc : c ∈ List.intercalate [';'] (g.lefts.map g.ruleText)) : isBlank c = false ∧ c ≠ '.' := by
  rcases mem_intercalate hc with rfl | ⟨x, hx, hc⟩
  · decide
  · obtain ⟨left, known, rfl⟩ := List.mem_map.1 hx
    obtain ⟨blank, stop, -⟩ := mem_ruleText wf plain known hc
    exact ⟨blank, stop⟩

theorem filter_text : g.text.filter (fun c => !isBlank c) = g.text := by
  refine List.filter_eq_self.2 fun c hc => ?_
  rcases List.mem_append.1 hc with hc | hc
  · simp [(mem_ruleTexts wf plain hc).1]
  · obtain rfl := List.mem_singleton.1 hc
    rfl

theorem cut_text : cut '.' g.text = some (List.intercalate [';'] (g.lefts.map g.ruleText), []) :=
  cut_append fun stop => (mem_ruleTexts wf plain stop).2 rfl

theorem split_ruleTexts (ne : g.lefts ≠ []) :
    split ';' (List.intercalate [';'] (g.lefts.map g.ruleText)) = g.lefts.map g.ruleText := by
  rw [split_eq_splitOn]
  refine List.splitOn_intercalate ';' (fun x hx semicolon => ?_) (by simpa using ne)
  obtain ⟨left, known, rfl⟩ := List.mem_map.1 hx
  exact (mem_ruleText wf plain known semicolon).2.2 rfl

/-- **The reader finds the rules of a text again.** -/
theorem readRules_text : readRules g.text = readEach 1 (g.lefts.map g.ruleText) := by
  have written : g.text ≠ [] := List.append_ne_nil_of_right_ne_nil _ (List.cons_ne_nil _ _)
  simp only [readRules, filter_text wf plain, written, cut_text wf plain, if_false, ne_eq, not_true_eq_false]
  by_cases none : g.lefts = []
  · rw [none]
    rfl
  · have apart := split_ruleTexts wf plain none
    have some : List.intercalate [';'] (g.lefts.map g.ruleText) ≠ [] := by
      intro nil
      obtain ⟨left, others, lefts⟩ := List.exists_cons_of_ne_nil none
      rw [nil, lefts] at apart
      cases (List.cons.inj apart).1
    rw [if_neg some, apart]

theorem readRule_ruleText (known : left ∈ g.lefts)
    (none : ∀ right, ⟨left, right⟩ ∈ g.productions → ¬ HasArrow right) :
    readRule (g.ruleText left) = .ok ((g.alternatives left).map (⟨left, ·⟩)) := by
  obtain ⟨right, mem⟩ := mem_lefts.1 known
  have ne : g.alternatives left ≠ [] := List.ne_nil_of_mem (mem_alternatives.2 ⟨right, mem, rfl⟩)
  refine readRule_ok (wf.left_nonTerminal _ mem) ne fun x hx => ⟨?_, plain.bar_not_mem hx, fun some => ?_⟩
  · obtain ⟨right, -, rfl⟩ := mem_alternatives.1 hx
    exact Production.rightText_ne_nil
  · obtain ⟨right, mem, arrow⟩ := hasArrow_alternatives.1 ⟨x, hx, some⟩
    exact none right mem arrow

theorem readEach_ruleTexts (known : ∀ left ∈ lefts, left ∈ g.lefts)
    (none : ∀ left ∈ lefts, ∀ right, ⟨left, right⟩ ∈ g.productions → ¬ HasArrow right) :
    readEach n (lefts.map g.ruleText) = .ok (g.written lefts) := by
  induction lefts generalizing n with
  | nil => rfl
  | cons left lefts ih =>
    rw [List.forall_mem_cons] at known none
    rw [List.map_cons, readEach, readRule_ruleText wf plain known.1 none.1]
    simp only [ih known.2 none.2, Except.map, written, List.flatMap_cons]

/-- Of the rules the first with an arrow in a right side is refused. -/
theorem readEach_ruleTexts_of_arrow (known : ∀ left ∈ lefts, left ∈ g.lefts)
    (some : ∃ left ∈ lefts, ∃ right, ⟨left, right⟩ ∈ g.productions ∧ HasArrow right) :
    ∃ k, readEach n (lefts.map g.ruleText) = .error (.malformedRule k .repeatedArrow) := by
  induction lefts generalizing n with
  | nil =>
    obtain ⟨left, mem, -⟩ := some
    exact absurd mem List.not_mem_nil
  | cons left lefts ih =>
    rw [List.forall_mem_cons] at known
    by_cases own : ∃ right, ⟨left, right⟩ ∈ g.productions ∧ HasArrow right
    · obtain ⟨right, mem, arrow⟩ := own
      have refused : readRule (g.ruleText left) = .error .repeatedArrow :=
        readRule_of_arrow (wf.left_nonTerminal _ mem) (hasArrow_alternatives.2 ⟨right, mem, arrow⟩)
      exact ⟨n, by rw [List.map_cons, readEach, refused]⟩
    · have later : ∃ left ∈ lefts, ∃ right, ⟨left, right⟩ ∈ g.productions ∧ HasArrow right := by
        obtain ⟨l, hl, found⟩ := some
        rcases List.mem_cons.1 hl with rfl | hl
        · exact absurd found own
        · exact ⟨l, hl, found⟩
      obtain ⟨k, refused⟩ := ih (n := n + 1) known.2 later
      refine ⟨k, ?_⟩
      rw [List.map_cons, readEach,
        readRule_ruleText wf plain known.1 fun right mem arrow => own ⟨right, mem, arrow⟩]
      simp only [refused, Except.map]

omit plain in
theorem nonTerminal_of_mem_lefts (known : left ∈ g.lefts) : Symbol.isNonTerminal left := by
  obtain ⟨right, mem⟩ := mem_lefts.1 known
  exact wf.left_nonTerminal _ mem

omit plain in
/-- With the sentinel taken out again the rules are the productions. -/
theorem productions_written :
    FiniteSet.ofList ((g.written g.lefts).map (·.without g.epsilon)) = g.productions := by
  apply FiniteSet.ext
  intro p
  rw [FiniteSet.mem_ofList, List.mem_map]
  constructor
  · rintro ⟨q, mem, rfl⟩
    obtain ⟨right, mem, eq⟩ := mem_alternatives.1 (mem_written.1 mem).2
    rw [show q = ⟨q.left, q.right⟩ from rfl, eq]
    exact (Production.without_rightText (wf.epsilon_not_right _ mem)).symm ▸ mem
  · intro mem
    refine ⟨⟨p.left, Production.rightText g.epsilon p⟩, ?_, ?_⟩
    · exact mem_written.2 ⟨mem_lefts.2 ⟨p.right, mem⟩, mem_alternatives.2 ⟨p.right, mem, rfl⟩⟩
    · exact Production.without_rightText (wf.epsilon_not_right p mem)

omit wf plain in
theorem startSymbol_written : (Draft.mk none g.epsilon (g.written g.lefts)).startSymbol = g.lefts.headD 'S' := by
  simp only [Draft.startSymbol, Option.getD_none]
  cases eq : g.lefts with
  | nil => rfl
  | cons left others =>
    obtain ⟨right, mem⟩ := mem_lefts.1 (eq ▸ List.mem_cons_self : left ∈ g.lefts)
    have known := mem_alternatives.2 ⟨right, mem, rfl⟩
    obtain ⟨x, more, split⟩ := List.exists_cons_of_ne_nil (List.ne_nil_of_mem known)
    simp [written, split]

omit plain in
/-- The rules of a text make the same productions, under the first left side. -/
theorem build_written : Draft.build ⟨none, g.epsilon, g.written g.lefts⟩ = .ok g.reread := by
  have upper : Symbol.isNonTerminal (g.lefts.headD 'S') := by
    cases eq : g.lefts with
    | nil => decide
    | cons left others => exact nonTerminal_of_mem_lefts wf (show left ∈ g.lefts from eq ▸ List.mem_cons_self)
  have right : (Draft.mk none g.epsilon (g.written g.lefts)).wrongLeft? = none :=
    List.find?_eq_none.2 fun p mem => by simp [nonTerminal_of_mem_lefts wf (mem_written.1 mem).1]
  have sentinel : Symbol.isNonTerminal g.epsilon = false := by
    simpa [Symbol.isTerminal] using wf.epsilon_terminal
  simp only [Draft.build, sentinel, right, startSymbol_written, upper, productions_written wf]
  rfl

omit plain in
theorem reread_wellFormed : g.reread.WellFormed := Draft.wellFormed_of_build (build_written wf)

/-- **Without arrows the text gives back the productions and the sentinel**, under the first left side. -/
theorem readWith_text (arrowless : g.Arrowless) : readWith g.epsilon g.text = .ok g.reread := by
  have rules : readRules g.text = .ok (g.written g.lefts) := by
    rw [readRules_text wf plain]
    exact readEach_ruleTexts wf plain (fun _ => id) fun left _ right mem => arrowless _ mem
  rw [readWith, Draft.read, rules]
  exact build_written wf

/-- **With an arrow in a right side the text is refused.** -/
theorem readWith_text_of_arrow (arrow : ¬ g.Arrowless) :
    ∃ k, readWith g.epsilon g.text = .error (.malformedRule k .repeatedArrow) := by
  simp only [Arrowless, not_forall, not_not] at arrow
  obtain ⟨p, mem, arrow⟩ := arrow
  have known : p.left ∈ g.lefts := mem_lefts.2 ⟨p.right, mem⟩
  obtain ⟨k, refused⟩ := readEach_ruleTexts_of_arrow (n := 1) wf plain (fun _ => id) ⟨p.left, known, p.right, mem, arrow⟩
  refine ⟨k, ?_⟩
  rw [readWith, Draft.read, readRules_text wf plain, refused]
  rfl

end Text

/-! ## Grammars that were read -/

/-- **What was read** is plain but for the sentinel, and its start symbol has a rule unless there is none at all. -/
theorem of_readWith (read : readWith e text = .ok g) : g.WellFormed ∧ g.epsilon = e ∧
    (∀ p ∈ g.productions, ∀ s ∈ p.right, isPlain s) ∧ (g.hasStartRule ∨ g.productions = ∅) := by
  rw [readWith, Draft.read] at read
  cases rules : readRules text with
  | error fault => simp [rules, Except.map, Except.bind] at read
  | ok ps =>
    simp only [rules, Except.map, Except.bind] at read
    refine ⟨Draft.wellFormed_of_build read, ?_⟩
    unfold Draft.build at read
    split at read
    · cases read
    split at read
    · cases read
    split at read
    · cases read
    cases read
    refine ⟨rfl, ?_, ?_⟩
    · intro p mem s hs
      obtain ⟨q, hq, rfl⟩ := List.mem_map.1 (FiniteSet.mem_ofList.1 mem)
      exact isPlain_of_readRules rules hq (List.mem_filter.1 hs).1
    · cases ps with
      | nil => exact .inr rfl
      | cons first others =>
        refine .inl (hasStartRule_iff.2 ⟨(first.without e).right, FiniteSet.mem_ofList.2 ?_⟩)
        exact List.mem_map.2 ⟨first, List.mem_cons_self, rfl⟩

/-- **Printing and reading again.** A grammar that can be written and whose start symbol has a rule comes back as it was
exactly when no right side shows an arrow; otherwise its text is refused. Every non-empty grammar that was read with a
sentinel that can be written is such a grammar. -/
theorem readWith_text_iff :
    (∀ g : Grammar, g.WellFormed → g.hasStartRule → g.Plain →
      (readWith g.epsilon g.text = .ok g ↔ g.Arrowless) ∧
      (¬ g.Arrowless → ∃ k, readWith g.epsilon g.text = .error (.malformedRule k .repeatedArrow))) ∧
    ∀ (e : Symbol) (text : List Char) (g : Grammar), isPlain e → readWith e text = .ok g → g.productions ≠ ∅ →
      g.WellFormed ∧ g.epsilon = e ∧ g.hasStartRule ∧ g.Plain := by
  constructor
  · intro g wf rule plain
    refine ⟨⟨fun read => ?_, fun arrowless => ?_⟩, readWith_text_of_arrow wf plain⟩
    · by_contra arrow
      obtain ⟨k, refused⟩ := readWith_text_of_arrow wf plain arrow
      cases read.symm.trans refused
    · rw [readWith_text wf plain arrowless, reread_eq rule]
  · intro e text g sentinel read some
    obtain ⟨wf, rfl, plain, rule | none⟩ := of_readWith read
    · exact ⟨wf, rfl, rule, sentinel, plain⟩
    · exact absurd none some

set_option maxRecDepth 100000 in
/-- The grammar of brackets comes back. One whose only right side is an arrow is refused, although it can be read from a
text that parts the two signs by the sentinel. -/
theorem readWith_text_brackets : readWith 'ε' brackets.text = .ok brackets ∧
    ∃ g, readWith 'ε' "S->-ε>.".toList = .ok g ∧ g.Plain ∧
      ∃ k, readWith 'ε' g.text = .error (.malformedRule k .repeatedArrow) := by
  obtain ⟨comesBack, ofRead⟩ := readWith_text_iff
  constructor
  · have each : ∀ p ∈ brackets.rules, p.right.all isPlain ∧ ¬ ['-', '>'] <:+: p.right := by decide +kernel
    have plain : brackets.Plain := ⟨by decide, fun p mem => List.all_eq_true.1 (each p (mem_rules.2 mem)).1⟩
    obtain ⟨back, -⟩ := comesBack brackets brackets_wellFormed (by decide +kernel) plain
    exact back.2 fun p mem => (each p (mem_rules.2 mem)).2
  · set g : Grammar := ⟨'S', 'ε', .ofList [⟨'S', ['-', '>']⟩]⟩
    have read : readWith 'ε' "S->-ε>.".toList = .ok g := by decide +kernel
    have arrow : ⟨'S', ['-', '>']⟩ ∈ g.productions := by simp [g]
    have some : g.productions ≠ ∅ := fun none => Std.ExtTreeSet.not_mem_empty (none ▸ arrow)
    obtain ⟨wf, -, rule, plain⟩ := ofRead 'ε' _ g (by decide) read some
    obtain ⟨-, refused⟩ := comesBack g wf rule plain
    exact ⟨g, read, plain, refused fun arrowless => arrowless _ arrow (List.infix_refl _)⟩

end Grammar

end ContextFree
