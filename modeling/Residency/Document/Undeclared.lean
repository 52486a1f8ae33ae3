import Residency.Document.Numeral
import Residency.Document.Quoted

/-!
Values of fields that nobody declared.

Such a value is stepped over, not read, as `serde_json` ignores a value: strings may hold unpaired
surrogates, numbers have no range, and lists and records nest without a limit. The walk keeps the
stack of open brackets in its state, so its depth costs no recursion.
-/

namespace Residency.Document

/-- An open bracket. -/
inductive Bracket where
  | list
  | record
deriving DecidableEq, Repr

/-- The character that closes a bracket. -/
def Bracket.close : Bracket → Char
  | list => ']'
  | record => '}'

/-- What the walk looks for next. -/
inductive Expectation where
  /-- A value. -/
  | value
  /-- The first element behind an opening bracket, or the closing one. -/
  | first
  /-- A comma behind an element, or the closing bracket. -/
  | more
deriving DecidableEq, Repr

/-- Steps over a number. Any defect in it counts as one of form, even if the text ends there. -/
def passNumber (cs : List Char) : Except Flaw (List Char) :=
  match numeral cs with
  | .ok (_, rest) => .ok rest
  | .error _ => .error .malformed

/-- Steps over a value that holds no other. -/
def passAtom : List Char → Except Flaw (List Char)
  | [] => .error .truncated
  | c :: rest =>
    if c = 'n' then literal "ull".toList rest
    else if c = 't' then literal "rue".toList rest
    else if c = 'f' then literal "alse".toList rest
    else if c = '"' then passQuoted rest
    else if c = '-' ∨ c.isDigit then passNumber (c :: rest)
    else .error .malformed

/-- Steps over what stands in front of an element's value: in a record its name and a colon. -/
def passName (bracket : Bracket) (cs : List Char) : Except Flaw (List Char) :=
  match bracket with
  | .list => .ok cs
  | .record =>
    match skipBlanks cs with
    | [] => .error .truncated
    | c :: rest => if c = '"' then passQuoted rest >>= colon else .error .malformed

/-- Walks to the end of a value. Of two steps at least one takes a character: an opening bracket
may be followed by a step that only sees that it is not closed at once. -/
def passSteps : Nat → Expectation → List Bracket → List Char → Except Flaw (List Char)
  | 0, _, _, _ => .error .truncated
  | steps + 1, .value, brackets, cs =>
    match skipBlanks cs with
    | [] => .error .truncated
    | '[' :: rest => passSteps steps .first (.list :: brackets) rest
    | '{' :: rest => passSteps steps .first (.record :: brackets) rest
    | cs => do passSteps steps .more brackets (← passAtom cs)
  | _ + 1, _, [], cs => .ok cs
  | steps + 1, expectation, bracket :: brackets, cs =>
    match skipBlanks cs with
    | [] => .error .truncated
    | c :: rest =>
      if c = bracket.close then
        passSteps steps .more brackets rest
      else if expectation = .first then do
        passSteps steps .value (bracket :: brackets) (← passName bracket (c :: rest))
      else if c = ',' then do
        passSteps steps .value (bracket :: brackets) (← passName bracket rest)
      else
        .error .malformed

/-- The text behind a value of any kind. -/
def passValue (cs : List Char) : Except Flaw (List Char) :=
  passSteps (2 * cs.length + 2) .value [] cs

end Residency.Document
