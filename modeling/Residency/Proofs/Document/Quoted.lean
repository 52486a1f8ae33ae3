import Residency.Document.Quoted
import Residency.Proofs.Document.Texts

/-!
# Strings

A character of a string has several spellings, and a string is spelled character by character.
Decoding a spelling gives the characters back. A string that is only stepped over needs to be well
formed, so an escape may there name any code unit.
-/

namespace Residency.Document

variable {c : Char} {n : Nat} {text name body : List Char} {P : List Char → Prop}

/-! ## Quotes -/

/-- A text of a kind between quotes. -/
def InQuotes (P : List Char → Prop) (text : List Char) : Prop :=
  ∃ body, P body ∧ text = '"' :: (body ++ ['"'])

theorem InQuotes.solid (h : InQuotes P text) : Solid text := by
  obtain ⟨body, -, rfl⟩ := h
  exact ⟨'"', _, rfl, by decide⟩

/-- What stands between the quotes is met behind the first of them. -/
theorem skipBlanks_inQuotes (h : Spaced (InQuotes P) text) :
    ∃ body after, P body ∧ IsBlanks after ∧
      ∀ rest, skipBlanks (text ++ rest) = '"' :: (body ++ '"' :: (after ++ rest)) := by
  obtain ⟨before, _, after, hbefore, ⟨body, hbody, rfl⟩, hafter, rfl⟩ := h
  refine ⟨body, after, hbody, hafter, ?_⟩
  intro rest
  simpa using hbefore.skipBlanks_cons rfl (body ++ '"' :: (after ++ rest))

/-! ## Code units -/

/-- A hexadecimal digit, of either case, with its value. -/
def IsHexDigit (d : Nat) (c : Char) : Prop :=
  d < 16 ∧ (c = d.digitChar ∨ c = d.digitChar.toUpper)

theorem IsHexDigit.hexValue_eq {d : Nat} (h : IsHexDigit d c) : hexValue c = some d := by
  have both : ∀ d < 16,
      hexValue d.digitChar = some d ∧ hexValue d.digitChar.toUpper = some d := by decide
  obtain ⟨hd, rfl | rfl⟩ := h
  · exact (both d hd).1
  · exact (both d hd).2

/-- The escape of a code unit. -/
inductive UnitEscape (unit : Nat) : List Char → Prop
  | intro {a b c d : Char} : IsHexDigit (unit / 4096) a → IsHexDigit (unit / 256 % 16) b →
      IsHexDigit (unit / 16 % 16) c → IsHexDigit (unit % 16) d →
      UnitEscape unit ['\\', 'u', a, b, c, d]

theorem codeUnit_eq {a b c d : Char} (ha : IsHexDigit (n / 4096) a)
    (hb : IsHexDigit (n / 256 % 16) b) (hc : IsHexDigit (n / 16 % 16) c)
    (hd : IsHexDigit (n % 16) d) : codeUnit a b c d = some n := by
  simp only [codeUnit, ha.hexValue_eq, hb.hexValue_eq, hc.hexValue_eq, hd.hexValue_eq,
    Option.bind_eq_bind, Option.bind_some, Option.pure_def, Option.some.injEq]
  omega

/-! ## Spellings that are decoded -/

/-- The letters of the short escapes, with what they stand for. -/
def shortEscapes : List (Char × Char) :=
  [('"', '"'), ('\\', '\\'), ('/', '/'), ('b', '\x08'), ('f', '\x0c'), ('n', '\n'),
    ('r', '\r'), ('t', '\t')]

/-- The spellings of a character in a string. A character beyond 16 bits is escaped by a pair of
code units. -/
inductive CharSpelling (c : Char) : List Char → Prop
  | plain : 0x20 ≤ c.toNat → c ≠ '"' → c ≠ '\\' → CharSpelling c [c]
  | short {letter : Char} : (letter, c) ∈ shortEscapes → CharSpelling c ['\\', letter]
  | unit {text : List Char} : UnitEscape c.toNat text → CharSpelling c text
  | pair {high low : List Char} : 0x10000 ≤ c.toNat →
      UnitEscape (0xD800 + (c.toNat - 0x10000) / 0x400) high →
      UnitEscape (0xDC00 + (c.toNat - 0x10000) % 0x400) low → CharSpelling c (high ++ low)

/-- The spellings of a string between its quotes. -/
inductive Spelling : List Char → List Char → Prop
  | nil : Spelling [] []
  | cons {c : Char} {text name body : List Char} : CharSpelling c text → Spelling name body →
      Spelling (c :: name) (text ++ body)

/-- Characters that need no escape spell themselves. -/
theorem inQuotes_self (h : ∀ c ∈ name, 0x20 ≤ c.toNat ∧ c ≠ '"' ∧ c ≠ '\\') :
    InQuotes (Spelling name) ('"' :: (name ++ ['"'])) := by
  refine ⟨name, ?_, rfl⟩
  induction name with
  | nil => exact .nil
  | cons c name ih =>
    obtain ⟨⟨hc, hquote, hslash⟩, hname⟩ := List.forall_mem_cons.1 h
    exact .cons (.plain hc hquote hslash) (ih hname)

/-- The code units of surrogates are no characters. -/
theorem isSurrogate_toNat (c : Char) :
    isHighSurrogate c.toNat = false ∧ isLowSurrogate c.toNat = false := by
  have := c.valid
  simp only [UInt32.isValidChar, Nat.isValidChar] at this
  simp only [isHighSurrogate, isLowSurrogate, Char.toNat, Bool.and_eq_false_iff,
    decide_eq_false_iff_not]
  omega

theorem quotedAfter_unit {unit : Nat} (h : UnitEscape unit text)
    (hhigh : isHighSurrogate unit = false) (hlow : isLowSurrogate unit = false)
    (rest : List Char) :
    quotedAfter none (text ++ rest) = withChar (.ofNat unit) (quotedAfter none rest) := by
  obtain ⟨ha, hb, hc, hd⟩ := h
  simp [quotedAfter, codeUnit_eq ha hb hc hd, hhigh, hlow]

theorem quotedAfter_high {unit : Nat} (h : UnitEscape unit text)
    (hhigh : isHighSurrogate unit = true) (rest : List Char) :
    quotedAfter none (text ++ rest) = quotedAfter (some unit) rest := by
  obtain ⟨ha, hb, hc, hd⟩ := h
  simp [quotedAfter, codeUnit_eq ha hb hc hd, hhigh]

theorem quotedAfter_low {high unit : Nat} (h : UnitEscape unit text)
    (hlow : isLowSurrogate unit = true) (rest : List Char) :
    quotedAfter (some high) (text ++ rest) =
      withChar (pairedChar high unit) (quotedAfter none rest) := by
  obtain ⟨ha, hb, hc, hd⟩ := h
  simp [quotedAfter, codeUnit_eq ha hb hc hd, hlow]

theorem CharSpelling.quotedAfter_eq (h : CharSpelling c text) (rest : List Char) :
    quotedAfter none (text ++ rest) = withChar c (quotedAfter none rest) := by
  cases h with
  | plain hc hquote hslash =>
    have : isControl c = false := by simpa [isControl] using hc
    simp [quotedAfter, hquote, this]
  | short h =>
    simp only [shortEscapes, List.mem_cons, Prod.mk.injEq, List.not_mem_nil, or_false] at h
    rcases h with ⟨rfl, rfl⟩ | ⟨rfl, rfl⟩ | ⟨rfl, rfl⟩ | ⟨rfl, rfl⟩ | ⟨rfl, rfl⟩ | ⟨rfl, rfl⟩ |
      ⟨rfl, rfl⟩ | ⟨rfl, rfl⟩ <;> rfl
  | unit h =>
    obtain ⟨hhigh, hlow⟩ := isSurrogate_toNat c
    rw [quotedAfter_unit h hhigh hlow, Char.ofNat_toNat]
  | pair hc hhigh hlow =>
    -- The first half is held back until the second has been read.
    have hbound : c.toNat < 0x110000 := by
      have := c.valid
      simp only [UInt32.isValidChar, Nat.isValidChar] at this
      simp only [Char.toNat]
      omega
    have hpaired : pairedChar (0xD800 + (c.toNat - 0x10000) / 0x400)
        (0xDC00 + (c.toNat - 0x10000) % 0x400) = c := by
      have hvalue : 0x10000 + (0xD800 + (c.toNat - 0x10000) / 0x400 - 0xD800) * 0x400 +
          (0xDC00 + (c.toNat - 0x10000) % 0x400 - 0xDC00) = c.toNat := by
        omega
      rw [pairedChar, hvalue, Char.ofNat_toNat]
    rw [List.append_assoc, quotedAfter_high hhigh, quotedAfter_low hlow, hpaired]
    · simp only [isLowSurrogate, Bool.and_eq_true, decide_eq_true_eq]
      omega
    · simp only [isHighSurrogate, Bool.and_eq_true, decide_eq_true_eq]
      omega

/-- A spelled string is decoded to what it spells. -/
theorem Spelling.quoted_eq (h : Spelling name body) (rest : List Char) :
    quoted (body ++ '"' :: rest) = .ok (name, rest) := by
  induction h with
  | nil => simp [quoted, quotedAfter]
  | cons hc _ ih =>
    rw [quoted] at ih ⊢
    rw [List.append_assoc, hc.quotedAfter_eq, ih]
    rfl

theorem quoted_before_colon (h : Spaced (InQuotes (Spelling name)) text) (rest : List Char) :
    ∃ tail behind, skipBlanks (text ++ ':' :: rest) = '"' :: tail ∧
      quoted tail = .ok (name, behind) ∧ colon behind = .ok rest := by
  obtain ⟨body, after, hbody, hafter, hskip⟩ := skipBlanks_inQuotes h
  exact ⟨_, _, hskip _, hbody.quoted_eq _, colon_append hafter rest⟩

/-! ## Strings that are stepped over -/

/-- A well-formed string between its quotes. -/
inductive StringBody : List Char → Prop
  | nil : StringBody []
  | plain {c : Char} {body : List Char} : 0x20 ≤ c.toNat → c ≠ '"' → c ≠ '\\' →
      StringBody body → StringBody (c :: body)
  | short {letter : Char} {body : List Char} : letter ∈ shortEscapes.map (·.1) →
      StringBody body → StringBody ('\\' :: letter :: body)
  | unit {unit : Nat} {text body : List Char} : UnitEscape unit text →
      StringBody body → StringBody (text ++ body)

theorem StringBody.passQuoted_eq (h : StringBody body) (rest : List Char) :
    passQuoted (body ++ '"' :: rest) = .ok rest := by
  induction h with
  | nil => simp [passQuoted]
  | @plain c _ hc hquote hslash _ ih =>
    have : isControl c = false := by simpa [isControl] using hc
    simp [passQuoted, hquote, this, ih]
  | short h _ ih =>
    simp only [shortEscapes, List.map_cons, List.map_nil, List.mem_cons, List.not_mem_nil,
      or_false] at h
    rcases h with rfl | rfl | rfl | rfl | rfl | rfl | rfl | rfl <;>
      simp [passQuoted, escaped, ih]
  | unit h _ ih =>
    obtain ⟨ha, hb, hc, hd⟩ := h
    simp [passQuoted, codeUnit_eq ha hb hc hd, ih]

theorem passQuoted_before_colon (h : Spaced (InQuotes StringBody) text) (rest : List Char) :
    ∃ tail behind, skipBlanks (text ++ ':' :: rest) = '"' :: tail ∧
      passQuoted tail = .ok behind ∧ colon behind = .ok rest := by
  obtain ⟨body, after, hbody, hafter, hskip⟩ := skipBlanks_inQuotes h
  exact ⟨_, _, hskip _, hbody.passQuoted_eq _, colon_append hafter rest⟩

end Residency.Document
