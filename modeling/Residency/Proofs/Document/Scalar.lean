import Residency.Document.Scalar
import Residency.Proofs.Document.Numeral
import Residency.Proofs.Document.Quoted

/-!
# Values that hold no other

Truth values, natural numbers and choices, each with the texts that write it and the reader that
takes these texts in.
-/

namespace Residency.Document

variable {before text rest : List Char}

/-! ## Truth values -/

/-- The word for a truth value. -/
def FlagForm (b : Bool) (text : List Char) : Prop :=
  text = (if b then "true" else "false").toList

theorem reads_flag : Reads flag FlagForm := by
  constructor
  · rintro (_ | _) _ rfl
    · exact ⟨'f', _, rfl, by decide⟩
    · exact ⟨'t', _, rfl, by decide⟩
  · rintro (_ | _) _ before rest rfl hbefore -
    · have hskip : skipBlanks (before ++ ('f' :: ("alse".toList ++ rest))) =
          'f' :: ("alse".toList ++ rest) :=
        hbefore.skipBlanks_cons rfl _
      change flag (before ++ ('f' :: ("alse".toList ++ rest))) = _
      simp only [flag, hskip, literal_append, Except.map]
    · have hskip : skipBlanks (before ++ ('t' :: ("rue".toList ++ rest))) =
          't' :: ("rue".toList ++ rest) :=
        hbefore.skipBlanks_cons rfl _
      change flag (before ++ ('t' :: ("rue".toList ++ rest))) = _
      simp only [flag, hskip, literal_append, Except.map]

/-! ## Natural numbers -/

/-- A natural number of 64 bits in plain decimal. -/
def SizeForm (n : UInt64) (text : List Char) : Prop :=
  text = Nat.toDigits 10 n.toNat

/-- A natural number of 32 bits in plain decimal. -/
def WidthForm (n : UInt32) (text : List Char) : Prop :=
  text = Nat.toDigits 10 n.toNat

theorem natural_toDigits {n bound : Nat} (hn : n < bound) (hbound : bound ≤ UInt64.size)
    (hbefore : IsBlanks before) (hrest : Delimited rest) :
    natural bound (before ++ (Nat.toDigits 10 n ++ rest)) = .ok (n, rest) := by
  have hread := finiteNumeral_toDigits (Nat.lt_of_lt_of_le hn hbound) hrest
  have hskip := ((numberForm_toDigits n).solid.append rest).skipBlanks_append hbefore
  obtain ⟨c, cs, htext, hc⟩ := (numberForm_toDigits n).head
  rw [natural, hskip]
  simp only [htext, List.cons_append] at hread ⊢
  simp [hc, hread, ← htext, natural?_toDigits (Nat.lt_of_lt_of_le hn hbound), hn, bind,
    Except.bind, pure, Except.pure]

theorem reads_size : Reads size SizeForm := by
  constructor
  · rintro n _ rfl
    exact (numberForm_toDigits n.toNat).solid
  · rintro n _ before rest rfl hbefore hrest
    simp [size, natural_toDigits n.toNat_lt_size (Nat.le_refl _) hbefore hrest, Except.map]

theorem reads_width : Reads width WidthForm := by
  constructor
  · rintro n _ rfl
    exact (numberForm_toDigits n.toNat).solid
  · rintro n _ before rest rfl hbefore hrest
    have hbound : UInt32.size ≤ UInt64.size := by decide
    simp [width, natural_toDigits n.toNat_lt_size hbound hbefore hrest, Except.map]

/-! ## Choices -/

/-- A spelling of a value's name, as a string, or as a record whose only field has the name and
holds `null`. -/
inductive ChoiceForm {α : Type} (spellings : α → List String) (value : α) : List Char → Prop
  | string {name : String} {text : List Char} : name ∈ spellings value →
      InQuotes (Spelling name.toList) text → ChoiceForm spellings value text
  | record {name : String} {key content : List Char} : name ∈ spellings value →
      Spaced (InQuotes (Spelling name.toList)) key → Spaced (· = "null".toList) content →
      ChoiceForm spellings value ('{' :: (key ++ ':' :: (content ++ ['}'])))

/-- A value can be written if it has a spelling without escapes. -/
theorem ChoiceForm.exists_text {α : Type} {spellings : α → List String} {value : α}
    {name : String} (h : name ∈ spellings value)
    (hplain : ∀ c ∈ name.toList, 0x20 ≤ c.toNat ∧ c ≠ '"' ∧ c ≠ '\\') :
    ∃ text, ChoiceForm spellings value text :=
  ⟨_, .string h (inQuotes_self hplain)⟩

theorem named_eq {α : Type} {names : List (String × α)} (hnames : (names.map (·.1)).Nodup)
    {name : String} {value : α} (h : (name, value) ∈ names) :
    named names name.toList = .ok value := by
  have hfind := find?_named hnames h
  simp only [named, hfind]

theorem null_append {content : List Char} (h : Spaced (· = "null".toList) content)
    (rest : List Char) :
    ∃ after, IsBlanks after ∧ null (content ++ rest) = .ok (after ++ rest) := by
  obtain ⟨before, _, after, hbefore, rfl, hafter, rfl⟩ := h
  refine ⟨after, hafter, ?_⟩
  have hskip : skipBlanks (before ++ ('n' :: ("ull".toList ++ (after ++ rest)))) =
      'n' :: ("ull".toList ++ (after ++ rest)) :=
    hbefore.skipBlanks_cons rfl _
  rw [List.append_assoc, List.append_assoc]
  change null (before ++ ('n' :: ("ull".toList ++ (after ++ rest)))) = _
  simp only [null, hskip, literal_append]

theorem reads_choice {α : Type} {names : List (String × α)} {spellings : α → List String}
    (hnames : (names.map (·.1)).Nodup)
    (hspellings : ∀ value, ∀ name ∈ spellings value, (name, value) ∈ names) :
    Reads (choice names) (ChoiceForm spellings) := by
  constructor
  · intro value text h
    cases h with
    | string _ h => exact h.solid
    | record => exact ⟨'{', _, rfl, by decide⟩
  · intro value text before rest h hbefore hrest
    cases h with
    | string hname h =>
      have hskip := (h.solid.append rest).skipBlanks_append hbefore
      obtain ⟨body, hbody, rfl⟩ := h
      simp only [List.cons_append, List.append_assoc, List.nil_append] at hskip ⊢
      have hnamed := named_eq hnames (hspellings value _ hname)
      simp [choice, hskip, hbody.quoted_eq, hnamed, bind, Except.bind, pure, Except.pure]
    | @record _ key content hname hkey hcontent =>
      obtain ⟨tail, behind, hquote, hquoted, hcolon⟩ :=
        quoted_before_colon hkey (content ++ '}' :: rest)
      obtain ⟨after, hafter, hnull⟩ := null_append hcontent ('}' :: rest)
      have hopen : skipBlanks (before ++ '{' :: (key ++ ':' :: (content ++ '}' :: rest))) =
          '{' :: (key ++ ':' :: (content ++ '}' :: rest)) :=
        hbefore.skipBlanks_cons rfl _
      have hclose : skipBlanks (after ++ '}' :: rest) = '}' :: rest :=
        hafter.skipBlanks_cons rfl _
      have hnamed := named_eq hnames (hspellings value _ hname)
      simp only [List.cons_append, List.append_assoc, List.nil_append]
      simp [choice, hopen, hquote, hquoted, hcolon, hnull, hclose, hnamed, bind, Except.bind, pure,
        Except.pure]

end Residency.Document
