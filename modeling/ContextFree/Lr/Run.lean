import ContextFree.Iteration
import ContextFree.Lr.Table
import ContextFree.Verdict

/-!
The bottom-up parser. A configuration is a stack of symbols, each with the state that it leads to, above a bottom state,
and the part of the input that is not consumed; the input ends with the end marker. `step` does what the table says for
the state on top and the next symbol, and `run` repeats it and records what it saw. Nothing bounds the number of steps:
a run that goes on for ever has no result.

Only terminals are looked up, gotos are followed after a reduction only, and nothing but the whole word is accepted.
-/

namespace ContextFree.Lr

/-- a symbol on the stack and the state above it -/
structure Entry where
  symbol : Symbol
  state : Nat
  deriving DecidableEq, Repr

structure Configuration where
  /-- what was pushed, the latest first -/
  stack : List Entry
  /-- what is left of the word, with the end marker -/
  input : List Symbol
  deriving DecidableEq, Repr

/-- the action chosen in a configuration; the stack is listed from the bottom, where the end marker stands -/
structure Record where
  stack : List (Option Symbol × Nat)
  input : List Symbol
  action : Option Action
  deriving DecidableEq, Repr

/-- what became of a parse, and its records in order -/
structure Parse where
  verdict : Verdict
  trace : List Record

/-- what comes of one step -/
inductive Outcome where
  | running (c : Configuration)
  | finished (v : Verdict)
  | failed (e : GrammarError)
  deriving DecidableEq, Repr

namespace Configuration

def start (word : List Symbol) : Configuration := ⟨[], word ++ [endMark]⟩

/-- the state on top -/
def state (c : Configuration) : Nat := (c.stack.head?.map (·.state)).getD Dfa.initial

/-- the next symbol of the input -/
def lookahead (c : Configuration) : Symbol := c.input.headD endMark

/-- the whole stack from the bottom, with the entry of the bottom itself -/
def entries (c : Configuration) : List (Option Symbol × Nat) :=
  (some endMark, Dfa.initial) :: c.stack.reverse.map fun e => (some e.symbol, e.state)

def record (c : Configuration) (action : Option Action) : Record where
  stack := c.entries
  input := c.input
  action := action

end Configuration

namespace Automaton

variable (m : Automaton)

/-- the action to take, if there is one -/
def choose (c : Configuration) : Option Action :=
  if Symbol.isNonTerminal c.lookahead then none
  else
    match m.action? c.state c.lookahead with
    | some (.goto _) => none
    | some .accept => if c.input.length = 1 then some .accept else none
    | action => action

/-- Replaces the right side of a production on the stack by its left side. -/
def reduce (c : Configuration) (production : Nat) : Outcome :=
  match m.production? production with
  | none => .failed (.stackMismatch production)
  | some p =>
    let popped := c.stack.take p.right.length
    if (popped.map (·.symbol)).reverse ≠ p.right then .failed (.stackMismatch production)
    else
      let exposed : Configuration := ⟨c.stack.drop p.right.length, c.input⟩
      match m.goto? exposed.state p.left with
      | some target => .running ⟨⟨p.left, target⟩ :: exposed.stack, c.input⟩
      | none => .finished (.rejected (.missingGoto exposed.state p.left))

/-- what an action leads to -/
def perform (c : Configuration) : Option Action → Outcome
  | some (.shift target) => .running ⟨⟨c.lookahead, target⟩ :: c.stack, c.input.tail⟩
  | some (.reduce production) => m.reduce c production
  | some .accept => .finished .accepted
  | some (.goto _) | none => .finished (.rejected (.noAction c.state c.lookahead))

def step (c : Configuration) : Outcome := m.perform c (m.choose c)

/-- One step, with its record above those of the steps before it, or what became of the parse. -/
def advance : Configuration × List Record → Configuration × List Record ⊕ Except GrammarError Parse
  | (c, records) =>
    let records := c.record (m.choose c) :: records
    match m.step c with
    | .running next => .inl (next, records)
    | .finished verdict => .inr (.ok ⟨verdict, records.reverse⟩)
    | .failed e => .inr (.error e)

/-- Repeats steps until one of them is the last, with a record of each; there is no result when none is the last. -/
def run (c : Configuration) : Option (Except GrammarError Parse) := iterate m.advance (c, [])

/-- Parses a word; a grammar with conflicts is not tried. -/
def parse (word : List Symbol) : Option (Except GrammarError Parse) :=
  if m.isLr1 then m.run (.start word) else some (.ok ⟨.rejected .notLr1, []⟩)

end Automaton

end ContextFree.Lr
