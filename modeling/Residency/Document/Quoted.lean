import Residency.Document.Reader

/-!
Quoted text.

`quoted` decodes a string whose opening quote has been taken, and holds its code units to the
pairing rule of surrogates. `passQuoted` only steps over a string, and there any four hexadecimal
digits make an escape. These are the two ways in which `serde_json` goes through a string: names of
fields and choices are decoded, strings inside ignored values are not.
-/

namespace Residency.Document

/-- The value of a hexadecimal digit of either case. -/
def hexValue (c : Char) : Option Nat :=
  if '0' ≤ c ∧ c ≤ '9' then some (c.toNat - '0'.toNat)
  else if 'a' ≤ c ∧ c ≤ 'f' then some (c.toNat - 'a'.toNat + 10)
  else if 'A' ≤ c ∧ c ≤ 'F' then some (c.toNat - 'A'.toNat + 10)
  else none

/-- The code unit that four hexadecimal digits write. -/
def codeUnit (a b c d : Char) : Option Nat := do
  return ((← hexValue a) * 16 + (← hexValue b)) * 256 + (← hexValue c) * 16 + (← hexValue d)

/-- Whether a code unit is the first half of a surrogate pair. -/
def isHighSurrogate (unit : Nat) : Bool :=
  0xD800 ≤ unit && unit ≤ 0xDBFF

/-- Whether a code unit is the second half of a surrogate pair. -/
def isLowSurrogate (unit : Nat) : Bool :=
  0xDC00 ≤ unit && unit ≤ 0xDFFF

/-- The character that a surrogate pair writes. -/
def pairedChar (high low : Nat) : Char :=
  .ofNat (0x10000 + (high - 0xD800) * 0x400 + (low - 0xDC00))

/-- The character that a one-letter escape writes. -/
def escaped : Char → Option Char
  | '"' => some '"'
  | '\\' => some '\\'
  | '/' => some '/'
  | 'b' => some '\x08'
  | 'f' => some '\x0c'
  | 'n' => some '\n'
  | 'r' => some '\r'
  | 't' => some '\t'
  | _ => none

/-- Control characters may not stand in a string unescaped. -/
def isControl (c : Char) : Bool :=
  c.toNat < 0x20

/-- The flaw of a numeric escape with fewer than four characters behind it: the text ends inside
the escape if fewer than four bytes are left. -/
def shortEscape (cs : List Char) : Flaw :=
  if cs.foldl (fun bytes c => bytes + c.utf8Size) 0 < 4 then .truncated else .malformed

/-- Puts a decoded character in front of the rest of a string. -/
def withChar (c : Char) (result : Except Flaw (List Char × List Char)) :
    Except Flaw (List Char × List Char) :=
  result.map fun (cs, rest) => (c :: cs, rest)

/-- The characters of a string up to its closing quote. A pending first half of a surrogate pair
must be followed at once by the escape of a second half. -/
def quotedAfter : Option Nat → Reader (List Char)
  | _, [] => .error .truncated
  | pending, '\\' :: tail =>
    match tail with
    | [] => .error .truncated
    | 'u' :: a :: b :: c :: d :: rest =>
      match codeUnit a b c d, pending with
      | none, _ => .error .malformed
      | some unit, none =>
        if isHighSurrogate unit then quotedAfter (some unit) rest
        else if isLowSurrogate unit then .error .malformed
        else withChar (.ofNat unit) (quotedAfter none rest)
      | some unit, some high =>
        if isLowSurrogate unit then withChar (pairedChar high unit) (quotedAfter none rest)
        else .error .malformed
    | 'u' :: rest => .error (shortEscape rest)
    | letter :: rest =>
      match escaped letter, pending with
      | some c, none => withChar c (quotedAfter none rest)
      | _, _ => .error .malformed
  | some _, _ :: _ => .error .malformed
  | none, c :: rest =>
    if c = '"' then .ok ([], rest)
    else if isControl c then .error .malformed
    else withChar c (quotedAfter none rest)

/-- The characters of a string whose opening quote has been taken. -/
def quoted : Reader (List Char) :=
  quotedAfter none

/-- The text behind a string whose opening quote has been taken. -/
def passQuoted : List Char → Except Flaw (List Char)
  | [] => .error .truncated
  | '\\' :: tail =>
    match tail with
    | [] => .error .truncated
    | 'u' :: a :: b :: c :: d :: rest =>
      if (codeUnit a b c d).isSome then passQuoted rest else .error .malformed
    | 'u' :: rest => .error (shortEscape rest)
    | letter :: rest => if (escaped letter).isSome then passQuoted rest else .error .malformed
  | c :: rest =>
    if c = '"' then .ok rest
    else if isControl c then .error .malformed
    else passQuoted rest

end Residency.Document
