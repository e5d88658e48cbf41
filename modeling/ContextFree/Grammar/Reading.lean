import ContextFree.Production
import ContextFree.Error
import ContextFree.Symbol.Blank

/-!
The written form of a grammar: rules separated by semicolons and closed by a full stop, each a non-terminal, an arrow
and alternatives separated by bars, as in `S->aSb|A;A->x.` Blanks mean nothing anywhere.

`readRules` lists the productions in the order of the text, with the sentinel for the empty word left in place. Of
several faults it reports the missing full stop before text after the full stop, and that before the first faulty rule;
within a rule the number of arrows, then the left side, then the alternatives.
-/

namespace ContextFree.Reading

/-- puts a character in front of the first piece -/
def consFirst (c : Char) : List (List Char) → List (List Char)
  | [] => [[c]]
  | piece :: pieces => (c :: piece) :: pieces

/-- the pieces between the separators; there is always one more piece than separators -/
def split (sep : Char) : List Char → List (List Char)
  | [] => [[]]
  | c :: cs => if c = sep then [] :: split sep cs else consFirst c (split sep cs)

/-- the pieces between the arrows -/
def splitArrow : List Char → List (List Char)
  | [] => [[]]
  | '-' :: '>' :: cs => [] :: splitArrow cs
  | c :: cs => consFirst c (splitArrow cs)

/-- what stands before the first separator and what stands after it -/
def cut (sep : Char) : List Char → Option (List Char × List Char)
  | [] => none
  | c :: cs => if c = sep then some ([], cs) else (cut sep cs).map fun (before, after) => (c :: before, after)

def readLeft : List Char → Except RuleFault Symbol
  | [] => .error .emptyLeft
  | [c] => if Symbol.isNonTerminal c then .ok c else .error (.invalidLeft (String.ofList [c]))
  | left => .error (.invalidLeft (String.ofList left))

/-- the productions of one rule -/
def readRule (rule : List Char) : Except RuleFault (List Production) :=
  match splitArrow rule with
  | [left, right] =>
    match readLeft left with
    | .error fault => .error fault
    | .ok left =>
      let alternatives := split '|' right
      if [] ∈ alternatives then .error .emptyAlternative else .ok (alternatives.map (⟨left, ·⟩))
  | _ :: _ :: _ => .error .repeatedArrow
  | _ => .error .missingArrow

/-- the productions of the rules, which are numbered from `n` on -/
def readEach (n : Nat) : List (List Char) → Except GrammarError (List Production)
  | [] => .ok []
  | rule :: rules =>
    match readRule rule with
    | .error fault => .error (.malformedRule n fault)
    | .ok productions => (readEach (n + 1) rules).map (productions ++ ·)

def readRules (text : List Char) : Except GrammarError (List Production) :=
  let text := text.filter fun c => !isBlank c
  if text = [] then .ok []
  else
    match cut '.' text with
    | none => .error (.malformedRule (split ';' text).length .missingTerminator)
    | some (body, rest) =>
      if rest ≠ [] then .error (.malformedRule (split ';' body).length (.trailingInput (String.ofList rest)))
      else if body = [] then .ok []
      else readEach 1 (split ';' body)

end ContextFree.Reading
