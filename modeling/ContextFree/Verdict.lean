import ContextFree.Layout.Json

/-!
The verdict of a parser on a word.
-/

namespace ContextFree

inductive RejectReason where
  /-- The start symbol does not derive the word. -/
  | notDerived
  | noAction (state : Nat) (symbol : Char)
  | missingGoto (state : Nat) (symbol : Char)
  | notLr1
  | stackExhausted
  deriving DecidableEq, Repr

inductive Verdict where
  | accepted
  | rejected (reason : RejectReason)
  deriving DecidableEq, Repr

def RejectReason.text : RejectReason → String
  | notDerived => "the axiom does not derive the word"
  | noAction state symbol => "no action in state " ++ toString state ++ " on `" ++ symbol.toString ++ "`"
  | missingGoto state symbol => "no goto in state " ++ toString state ++ " on `" ++ symbol.toString ++ "`"
  | notLr1 => "the grammar is not LR(1)"
  | stackExhausted => "stack exhausted"

def RejectReason.json : RejectReason → Json
  | notDerived => .string "not_derived"
  | noAction state symbol => cell "no_action" state symbol
  | missingGoto state symbol => cell "missing_goto" state symbol
  | notLr1 => .string "not_lr1"
  | stackExhausted => .string "stack_exhausted"
where
  cell (name : String) (state : Nat) (symbol : Char) : Json :=
    .object [(name, .object [("state", .number state), ("symbol", .ofSymbol symbol)])]

namespace Verdict

def isAccepted : Verdict → Bool
  | accepted => true
  | rejected _ => false

def text : Verdict → String
  | accepted => "accepted"
  | rejected reason => "rejected: " ++ reason.text

def json : Verdict → Json
  | accepted => .object [("outcome", .string "accepted")]
  | rejected reason => .object [("outcome", .string "rejected"), ("reason", reason.json)]

end Verdict

end ContextFree
