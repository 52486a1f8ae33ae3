import Residency.Document.Reader

/-!
# The pieces of a document's text

The grammar is stated as what texts consist of, without a word about reading. A reader meets a text
with blanks in front of it and the rest of the document behind it, and has to leave that rest.
-/

namespace Residency.Document

variable {α : Type} {P : List Char → Prop} {blanks before text rest : List Char}

/-! ## Blanks -/

/-- Nothing but spaces, tabs, line feeds and carriage returns. -/
def IsBlanks (cs : List Char) : Prop :=
  ∀ c ∈ cs, c ∈ [' ', '\t', '\n', '\r']

theorem isBlanks_nil : IsBlanks [] := by
  simp [IsBlanks]

theorem IsBlanks.skipBlanks_append (h : IsBlanks blanks) (cs : List Char) :
    skipBlanks (blanks ++ cs) = skipBlanks cs := by
  apply Document.skipBlanks_append
  intro c hc
  simpa [isBlank, or_assoc] using h c hc

theorem IsBlanks.skipBlanks_cons (h : IsBlanks blanks) {c : Char} (hc : isBlank c = false)
    (cs : List Char) : skipBlanks (blanks ++ c :: cs) = c :: cs := by
  rw [h.skipBlanks_append, Document.skipBlanks_cons hc]

/-- A text of a kind, with blanks around it. -/
def Spaced (P : List Char → Prop) (text : List Char) : Prop :=
  ∃ before inner after, IsBlanks before ∧ P inner ∧ IsBlanks after ∧
    text = before ++ inner ++ after

/-! ## What stands around a value -/

/-- What may follow a value: the end of the document, a blank, a comma or a closing bracket. -/
def Delimited (rest : List Char) : Prop :=
  ∀ c ∈ rest.head?, c ∈ [' ', '\t', '\n', '\r', ',', ']', '}']

theorem delimited_nil : Delimited [] := by
  simp [Delimited]

theorem delimited_cons {c : Char} (hc : c ∈ [',', ']', '}']) (cs : List Char) :
    Delimited (c :: cs) := by
  simp only [List.mem_cons, List.not_mem_nil, or_false] at hc
  rcases hc with rfl | rfl | rfl <;> simp [Delimited]

theorem Delimited.blanks_append (hrest : Delimited rest) (h : IsBlanks blanks) :
    Delimited (blanks ++ rest) := by
  cases blanks with
  | nil => exact hrest
  | cons c cs =>
    have hc := h c (by simp)
    simp only [List.mem_cons, List.not_mem_nil, or_false] at hc
    rcases hc with rfl | rfl | rfl | rfl <;> simp [Delimited]

/-- A text that shows by its first character that no closing bracket stands here. -/
def Solid (text : List Char) : Prop :=
  ∃ c cs, text = c :: cs ∧ isBlank c = false ∧ c ∉ [']', '}']

theorem Solid.append (h : Solid text) (rest : List Char) : Solid (text ++ rest) := by
  obtain ⟨c, cs, rfl, hc⟩ := h
  exact ⟨c, cs ++ rest, rfl, hc⟩

theorem Solid.skipBlanks_eq (h : Solid text) : skipBlanks text = text := by
  obtain ⟨c, cs, rfl, hc, -⟩ := h
  exact skipBlanks_cons hc

theorem Solid.skipBlanks_append (h : Solid text) (hb : IsBlanks before) :
    skipBlanks (before ++ text) = text := by
  rw [hb.skipBlanks_append, h.skipBlanks_eq]

/-! ## Texts with commas between them -/

/-- Texts, each of them behind a comma. -/
def behindCommas (texts : List (List Char)) : List Char :=
  texts.flatMap (',' :: ·)

@[simp]
theorem behindCommas_nil : behindCommas [] = [] :=
  rfl

@[simp]
theorem behindCommas_cons (text : List Char) (texts : List (List Char)) :
    behindCommas (text :: texts) = ',' :: (text ++ behindCommas texts) :=
  rfl

/-- Texts with commas between them. If there are none, blanks may stand in their place. -/
def Listing : List (List Char) → List Char → Prop
  | [], inner => IsBlanks inner
  | text :: texts, inner => inner = text ++ behindCommas texts

theorem length_le_behindCommas (texts : List (List Char)) :
    texts.length ≤ (behindCommas texts).length := by
  induction texts with
  | nil => simp
  | cons text texts ih =>
    simp only [behindCommas_cons, List.length_cons, List.length_append]
    omega

theorem Listing.length_le {texts : List (List Char)} {inner : List Char}
    (h : Listing texts inner) : texts.length ≤ inner.length + 1 := by
  cases texts with
  | nil => simp
  | cons text texts =>
    obtain rfl : inner = text ++ behindCommas texts := h
    have := length_le_behindCommas texts
    simp only [List.length_cons, List.length_append]
    omega

/-- A listed text is followed by a comma or by the closing bracket. -/
theorem delimited_behindCommas (texts : List (List Char)) {close : Char}
    (hclose : close ∈ [']', '}']) (rest : List Char) :
    Delimited (behindCommas texts ++ close :: rest) := by
  cases texts with
  | nil => exact delimited_cons (List.mem_cons_of_mem _ hclose) rest
  | cons text texts => exact delimited_cons (by simp) _

theorem colon_append (h : IsBlanks blanks) (rest : List Char) :
    colon (blanks ++ ':' :: rest) = .ok rest := by
  have hskip : skipBlanks (blanks ++ ':' :: rest) = ':' :: rest :=
    h.skipBlanks_cons rfl _
  simp [colon, hskip]

theorem find?_named {β : Type} {nameOf : β → String} {things : List β}
    (h : (things.map nameOf).Nodup) {thing : β} (hmem : thing ∈ things) :
    things.find? (fun t => (nameOf t).toList = (nameOf thing).toList) = some thing := by
  induction things with
  | nil => simp at hmem
  | cons first others ih =>
    obtain ⟨hfirst, hothers⟩ := List.nodup_cons.1 h
    rcases List.mem_cons.1 hmem with rfl | hmem
    · simp
    · have hne : nameOf first ≠ nameOf thing := by
        intro heq
        exact hfirst (heq ▸ List.mem_map_of_mem hmem)
      simpa [List.find?_cons, String.toList_inj, hne] using ih hothers hmem

/-! ## Readers -/

/-- A reader takes in each text that writes a value, and leaves what follows. -/
structure Reads (read : Reader α) (Writes : α → List Char → Prop) : Prop where
  solid : ∀ {value text}, Writes value text → Solid text
  read_eq : ∀ {value text before rest}, Writes value text → IsBlanks before → Delimited rest →
    read (before ++ (text ++ rest)) = .ok (value, rest)

/-- A whole document may have blanks around its value. -/
theorem Reads.readAll {read : Reader α} {Writes : α → List Char → Prop} (h : Reads read Writes)
    {value : α} {document : String} (hw : Spaced (Writes value) document.toList) :
    readAll read document = .ok value := by
  obtain ⟨before, inner, after, hbefore, hinner, hafter, heq⟩ := hw
  have hread := h.read_eq hinner hbefore (delimited_nil.blanks_append hafter)
  have hskip : skipBlanks (after ++ []) = [] := hafter.skipBlanks_append []
  rw [List.append_nil] at hread hskip
  simp [Document.readAll, heq, hread, hskip, bind, Except.bind, pure, Except.pure]

end Residency.Document
