/-!
Reasons for refusing a configuration.

Every structure checks its parameters once, when it is built, and refuses a bad one with a
`Rejection`. `Rejection.message` holds all the wording.
-/

namespace Residency

/-- A configurable size, as it is called in messages. -/
inductive Parameter where
  | lineBytes
  | ways
  | sets
  | historyMultiplier
  | historyTableSize
  | tableEntries
  | tableAssoc
  | signatureBits
  | confidenceThreshold
  | entries
  | assoc
  | tableSets
deriving DecidableEq, Repr

/-- The name of a parameter in a message. -/
def Parameter.label : Parameter → String
  | lineBytes => "line_bytes"
  | ways => "ways"
  | sets => "sets"
  | historyMultiplier => "history_multiplier"
  | historyTableSize => "history_table_size"
  | tableEntries => "table_entries"
  | tableAssoc => "table_assoc"
  | signatureBits => "signature_bits"
  | confidenceThreshold => "confidence_threshold"
  | entries => "entries"
  | assoc => "assoc"
  | tableSets => "table sets"

/-- Where the reading of a document stopped. -/
inductive Flaw where
  /-- The text is not of the document grammar. -/
  | malformed
  /-- The text ends inside a value. -/
  | truncated
  /-- A value is well formed but of the wrong type, range or name, or a field is given twice. -/
  | mismatched
deriving DecidableEq, Repr

/-- Why a configuration is refused. -/
inductive Rejection where
  | zeroCounterWidth
  | counterTooWide (bits max : Nat)
  | initialOutOfRange (initial max : Nat)
  | zeroSize (what : Parameter)
  | unevenSets (entries assoc : Nat)
  | notPowerOfTwo (what : Parameter) (value : Nat)
  | percentOutOfRange (what : Parameter) (value : Nat)
  /-- The document could not be read. -/
  | unreadable (flaw : Flaw)
  /-- A product of accepted sizes does not fit in a 64-bit word. -/
  | tooLarge
deriving DecidableEq, Repr

/-- The text of a rejection. -/
def Rejection.message : Rejection → String
  | zeroCounterWidth => "counter width must be at least one bit"
  | counterTooWide bits max =>
    s!"counter width of {bits} bits exceeds the supported maximum of {max}"
  | initialOutOfRange initial max =>
    s!"initial counter value {initial} exceeds the maximum {max}"
  | zeroSize what => what.label ++ " must not be zero"
  | unevenSets entries assoc =>
    s!"{entries} entries cannot be split into sets of {assoc} ways"
  | notPowerOfTwo what value => what.label ++ s!" must be a power of two, got {value}"
  | percentOutOfRange what value =>
    what.label ++ s!" must be a percentage in 0..=100, got {value}"
  | unreadable _ => "invalid configuration document"
  | tooLarge => "the configured sizes do not fit in a 64-bit word"

/-- Refuses when the condition holds. -/
def refuseIf (condition : Prop) [Decidable condition] (rejection : Rejection) :
    Except Rejection Unit :=
  if condition then .error rejection else .ok ()

theorem refuseIf_eq_ok_iff {condition : Prop} [Decidable condition] {rejection : Rejection} :
    refuseIf condition rejection = .ok () ↔ ¬ condition := by
  by_cases h : condition <;> simp [refuseIf, h]

end Residency
