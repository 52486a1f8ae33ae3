import Residency.Rejection

/-!
Readers of a configuration document.

They stand for the parser `serde_json` together with the `Deserialize` that is derived for the
settings. Taken over are the texts that are accepted, what they are read as, and for any other text
the category of the parser's error: `malformed` is its syntax category, `truncated` its end of
file, `mismatched` its data category. The wording of the error, its line and its column are not.

A reader takes the text that is left and answers a value with what it leaves behind, or the flaw
that it met. Readers run strictly from left to right, so the first problem in the text decides
which flaw is reported.
-/

namespace Residency.Document

/-- Reads a value from the front of a text. -/
abbrev Reader (α : Type) := List Char → Except Flaw (α × List Char)

/-- The characters that may stand between two tokens: space, tab, line feed, carriage return. -/
def isBlank (c : Char) : Bool :=
  c == ' ' || c == '\t' || c == '\n' || c == '\r'

/-- The text behind its leading blanks. -/
def skipBlanks (cs : List Char) : List Char :=
  cs.dropWhile isBlank

theorem skipBlanks_append {blanks cs : List Char} (h : ∀ c ∈ blanks, isBlank c) :
    skipBlanks (blanks ++ cs) = skipBlanks cs := by
  induction blanks with
  | nil => rfl
  | cons c rest ih =>
    have hc : isBlank c = true := h c (by simp)
    have := ih fun d hd => h d (by simp [hd])
    simpa [skipBlanks, List.dropWhile, hc] using this

theorem skipBlanks_cons {c : Char} {cs : List Char} (h : isBlank c = false) :
    skipBlanks (c :: cs) = c :: cs := by
  simp [skipBlanks, List.dropWhile, h]

/-- Takes the given characters off the front of a text. -/
def literal : List Char → List Char → Except Flaw (List Char)
  | [], cs => .ok cs
  | _ :: _, [] => .error .truncated
  | w :: ws, c :: cs => if c = w then literal ws cs else .error .malformed

theorem literal_append (ws cs : List Char) : literal ws (ws ++ cs) = .ok cs := by
  induction ws with
  | nil => rfl
  | cons w ws ih => simp [literal, ih]

/-- Takes the colon between a name and its value. -/
def colon (cs : List Char) : Except Flaw (List Char) :=
  match skipBlanks cs with
  | [] => .error .truncated
  | c :: rest => if c = ':' then .ok rest else .error .malformed

/-- Reads a whole text: behind the value only blanks may follow. -/
def readAll {α : Type} (read : Reader α) (text : String) : Except Flaw α := do
  let (value, rest) ← read text.toList
  if skipBlanks rest = [] then
    return value
  else
    throw .malformed

end Residency.Document
