import Residency.Document.Scalar
import Residency.Document.Undeclared

/-!
Records of declared fields.

A record is written with its field names, in any order, or as the list of its values in the order
of declaration. Fields left out keep the value they have in the record that reading starts from.

`record` stands for the `Deserialize` that is derived for a structure whose fields all have
defaults. A declared field may be given once; fields that nobody declared are ignored however often
they are given; a list may end early, but holds no more values than there are fields.
-/

namespace Residency.Document

/-- A declared field: its name, and how its value changes a record. -/
structure Member (R : Type) where
  name : String
  read : R → Reader R

/-- A field whose value is read on its own and then put into the record. -/
def Member.of {R α : Type} (name : String) (read : Reader α) (put : R → α → R) : Member R where
  name
  read record cs := (read cs).map fun (value, rest) => (put record value, rest)

/-- The declared field of a name. -/
def fieldNamed {R : Type} (fields : List (Member R)) (name : List Char) : Option (Member R) :=
  fields.find? (·.name.toList = name)

/-- Reads the name of the next member; nothing is read if the record ends here. -/
def nextName (isFirst : Bool) (cs : List Char) :
    Except Flaw (Option (List Char) × List Char) :=
  match skipBlanks cs with
  | [] => .error .truncated
  | '}' :: rest => .ok (none, rest)
  | c :: rest =>
    if isFirst then
      if c = '"' then (quoted rest).map fun (name, rest) => (some name, rest)
      else .error .malformed
    else if c = ',' then
      match skipBlanks rest with
      | [] => .error .truncated
      | c :: rest =>
        if c = '"' then (quoted rest).map fun (name, rest) => (some name, rest)
        else .error .malformed
    else
      .error .malformed

/-- Reads members up to the closing bracket; each takes at least one character. A declared field
may be given once. -/
def members {R : Type} (fields : List (Member R)) : Nat → Bool → List String → R → Reader R
  | 0, _, _, _, _ => .error .truncated
  | steps + 1, isFirst, given, record, cs => do
    match ← nextName isFirst cs with
    | (none, rest) => return (record, rest)
    | (some name, rest) =>
      match fieldNamed fields name with
      | none =>
        let rest ← passValue (← colon rest)
        members fields steps false given record rest
      | some field =>
        if field.name ∈ given then
          throw .mismatched
        else
          let (record, rest) ← field.read record (← colon rest)
          members fields steps false (field.name :: given) record rest

/-- Reads values in the order of declaration up to the closing bracket. -/
def elements {R : Type} : List (Member R) → Bool → R → Reader R
  | [], _, record, cs =>
    match skipBlanks cs with
    | [] => .error .truncated
    | c :: rest => if c = ']' then .ok (record, rest) else .error .malformed
  | field :: fields, isFirst, record, cs =>
    match skipBlanks cs with
    | [] => .error .truncated
    | ']' :: rest => .ok (record, rest)
    | c :: rest =>
      if isFirst then do
        let (record, rest) ← field.read record (c :: rest)
        elements fields false record rest
      else if c = ',' then
        match skipBlanks rest with
        | [] => .error .truncated
        | ']' :: _ => .error .malformed
        | cs => do
          let (record, rest) ← field.read record cs
          elements fields false record rest
      else
        .error .malformed

/-- Reads a record, starting from `start`. -/
def record {R : Type} (fields : List (Member R)) (start : R) : Reader R := fun cs =>
  match skipBlanks cs with
  | '{' :: rest => members fields (rest.length + 1) true [] start rest
  | '[' :: rest => elements fields true start rest
  | cs => .error (mismatch cs)

end Residency.Document
