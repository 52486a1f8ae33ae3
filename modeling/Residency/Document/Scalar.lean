import Residency.Document.Numeral
import Residency.Document.Quoted

/-!
Values of declared fields that hold no other: truth values, natural numbers of a given width, and
choices among names.

A value of another kind is a mismatch, but only once it has been read far enough to tell: a
number or string to its end, a list or record not beyond its bracket. `null` is no value of any of
these fields.

`flag`, `size` and `width` stand for the `Deserialize` of truth values and of unsigned integers,
`choice` for the one that is derived for an enumeration without data.
-/

namespace Residency.Document

/-- The flaw of a value that is of the wrong kind unless it has a flaw of its own. -/
def settle {α : Type} : Except Flaw α → Flaw
  | .error flaw => flaw
  | .ok _ => .mismatched

/-- The flaw of a value of an unexpected kind. -/
def mismatch : List Char → Flaw
  | [] => .truncated
  | c :: rest =>
    if c = 'n' then settle (literal "ull".toList rest)
    else if c = 't' then settle (literal "rue".toList rest)
    else if c = 'f' then settle (literal "alse".toList rest)
    else if c = '"' then settle (quoted rest)
    else if c = '-' ∨ c.isDigit then settle (finiteNumeral (c :: rest))
    else if c = '[' ∨ c = '{' then .mismatched
    else .malformed

/-- Reads `true` or `false`. -/
def flag : Reader Bool := fun cs =>
  match skipBlanks cs with
  | 't' :: rest => (literal "rue".toList rest).map (true, ·)
  | 'f' :: rest => (literal "alse".toList rest).map (false, ·)
  | cs => .error (mismatch cs)

/-- Reads a natural number below `bound`, which is at most that of a 64-bit word. -/
def natural (bound : Nat) : Reader Nat := fun cs =>
  match skipBlanks cs with
  | [] => .error .truncated
  | c :: rest =>
    if c = '-' ∨ c.isDigit then do
      let (n, rest) ← finiteNumeral (c :: rest)
      match n.natural? with
      | some value => if value < bound then return (value, rest) else throw .mismatched
      | none => throw .mismatched
    else
      .error (mismatch (c :: rest))

/-- Reads a 64-bit size. -/
def size : Reader UInt64 := fun cs =>
  (natural UInt64.size cs).map fun (n, rest) => (.ofNat n, rest)

/-- Reads a 32-bit width, value or percentage. -/
def width : Reader UInt32 := fun cs =>
  (natural UInt32.size cs).map fun (n, rest) => (.ofNat n, rest)

/-- Reads `null`. -/
def null (cs : List Char) : Except Flaw (List Char) :=
  match skipBlanks cs with
  | 'n' :: rest => literal "ull".toList rest
  | cs => .error (mismatch cs)

/-- What a name stands for. -/
def named {α : Type} (names : List (String × α)) (name : List Char) : Except Flaw α :=
  match names.find? (·.1.toList = name) with
  | some (_, value) => .ok value
  | none => .error .mismatched

/-- Reads one of several names. It is written as a string, or as a record whose only field has
the name and holds `null`. -/
def choice {α : Type} (names : List (String × α)) : Reader α := fun cs =>
  match skipBlanks cs with
  | [] => .error .truncated
  | '"' :: rest => do
    let (name, rest) ← quoted rest
    return (← named names name, rest)
  | '{' :: rest =>
    match skipBlanks rest with
    | [] => .error .truncated
    | '"' :: rest => do
      let (name, rest) ← quoted rest
      let value ← named names name
      let rest ← null (← colon rest)
      match skipBlanks rest with
      | [] => throw .truncated
      | c :: rest => if c = '}' then return (value, rest) else throw .malformed
    | _ => .error .malformed
  | _ => .error .malformed

end Residency.Document
