import Mathlib.Data.List.Forall2
import ContextFree.Lr.Run

/-!
The parser once more, with the whole of its stack. The bottom has an entry of its own here, and nothing keeps it in
place: the stack may be empty when the state on top is wanted, when a right side was taken off, or when the loop is left.
Each time it is exhausted, and that is a verdict too. The input is read by position, and what is pushed need not have a
symbol.

The driver `Passes` from state to state, round by round. The automaton `Tracks` it when the states on the stack are its
own, no round fails, a rejection is for want of an action, and the trace shows the states on the way.
-/

namespace ContextFree.Lr

/-- how a parse stands -/
inductive Phase where
  | running
  | accepted
  | rejected (reason : RejectReason)
  deriving DecidableEq, Repr

/-- The verdict when the loop is left; it is left running only where nothing more is on the stack. -/
def Phase.verdict : Phase → Verdict
  | accepted => .accepted
  | rejected reason => .rejected reason
  | running => .rejected .stackExhausted

/-- the variables of the loop -/
structure Driver where
  /-- what was pushed and the state above it, from the bottom, where the end marker stands -/
  stack : List (Option Symbol × Nat) := [(some endMark, Dfa.initial)]
  /-- how many symbols of the input are read -/
  position : Nat := 0
  trace : List Record := []
  phase : Phase := .running
  deriving DecidableEq, Repr

/-- the symbol at a position; behind the input there are end markers -/
def symbolAt (input : List Symbol) (position : Nat) : Symbol := input[position]?.getD endMark

namespace Automaton

variable (m : Automaton) (input : List Symbol)

/-- the action for a state and a position, if there is one -/
def actionAt (top position : Nat) : Option Action :=
  let lookahead := symbolAt input position
  if Symbol.isNonTerminal lookahead then none
  else
    match m.action? top lookahead with
    | some (.goto _) => none
    | some .accept => if position + 1 = input.length then some .accept else none
    | action => action

/-- Takes the right side of a production off the stack and puts its left side there. -/
def replace (d : Driver) (production : Nat) : Except GrammarError Driver :=
  match m.production? production with
  | none => .error (.stackMismatch production)
  | some p =>
    if d.stack.length ≤ p.right.length then .error (.stackMismatch production)
    else
      let below := d.stack.take (d.stack.length - p.right.length)
      let popped := d.stack.drop (d.stack.length - p.right.length)
      if (popped.zip p.right).all fun (entry, expected) => entry.1.all (· = expected) then
        match below.getLast? with
        | none => .ok { d with stack := below, phase := .rejected .stackExhausted }
        | some (_, exposed) =>
          match m.goto? exposed p.left with
          | some target => .ok { d with stack := below ++ [(some p.left, target)] }
          | none => .ok { d with stack := below, phase := .rejected (.missingGoto exposed p.left) }
      else .error (.stackMismatch production)

/-- what an action leads to -/
def carryOut (d : Driver) (top : Nat) : Option Action → Except GrammarError Driver
  | some (.shift target) =>
    .ok { d with stack := d.stack ++ [(some (symbolAt input d.position), target)], position := d.position + 1 }
  | some (.reduce production) => m.replace d production
  | some .accept => .ok { d with phase := .accepted }
  | some (.goto _) | none => .ok { d with phase := .rejected (.noAction top (symbolAt input d.position)) }

/-- one round of the loop -/
def round (d : Driver) : Except GrammarError Driver :=
  match d.stack.getLast? with
  | none => .ok { d with phase := .rejected .stackExhausted }
  | some (_, top) =>
    let action := m.actionAt input top d.position
    m.carryOut input { d with trace := d.trace ++ [⟨d.stack, input.drop d.position, action⟩] } top action

/-- A round while the parse is running; then what became of it. -/
def roundOrEnd (d : Driver) : Driver ⊕ Except GrammarError Parse :=
  if d.phase = .running then
    match m.round input d with
    | .ok next => .inl next
    | .error e => .inr (.error e)
  else .inr (.ok ⟨d.phase.verdict, d.trace⟩)

/-- Parses a word round by round; a grammar with conflicts is not tried. -/
def drive (word : List Symbol) : Option (Except GrammarError Parse) :=
  if m.isLr1 then iterate (m.roundOrEnd (word ++ [endMark])) {} else some (.ok ⟨.rejected .notLr1, []⟩)

/-- The loop comes from its beginning to this state, and these are the states on the way. -/
inductive Passes : List Driver → Driver → Prop
  | start : Passes [] {}
  | round {path : List Driver} {d e : Driver} : Passes path d → d.phase = .running → m.round input d = .ok e →
    Passes (path ++ [d]) e

/-- The record shows the stack and the input of the driver, and the action for the state on top. -/
def Shows (d : Driver) (r : Record) : Prop :=
  ∃ symbol top, d.stack.getLast? = some (symbol, top) ∧
    r = ⟨d.stack, input.drop d.position, m.actionAt input top d.position⟩

/-- The stack, the next round, the verdict and the trace of a driver, in terms of the automaton. -/
structure Tracks (path : List Driver) (d : Driver) : Prop where
  /-- Every entry above the bottom holds the state that the automaton reaches by the symbols from there up to it. -/
  states : ∃ above, d.stack = (some endMark, Dfa.initial) :: above ∧
    ∀ below entry rest, above = below ++ entry :: rest →
      ∃ symbols : List Symbol, (below ++ [entry]).map Prod.fst = symbols.map some ∧ m.dfa.run symbols = some entry.2
  /-- A running parse goes on without an error. -/
  sound : d.phase = .running → ∃ e, m.round input d = .ok e
  /-- A rejected one has no action for the state on top and the next symbol. -/
  rejected : ∀ reason, d.phase = .rejected reason → ∃ symbol top, d.stack.getLast? = some (symbol, top) ∧
    m.actionAt input top d.position = none ∧ reason = .noAction top (symbolAt input d.position)
  /-- The trace has one record for each state on the way, in their order. -/
  trace : List.Forall₂ (m.Shows input) path d.trace

end Automaton

end ContextFree.Lr
