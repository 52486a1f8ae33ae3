import Mathlib.Data.List.Forall2
import Mathlib.Data.List.Nodup
import Residency.Document.Record
import Residency.Proofs.Document.Quoted
import Residency.Proofs.Document.Undeclared

/-!
# Records

A record of declared fields is written with the names of its fields, in any order and with other
members in between, or as the list of its values in the order of declaration. What is left out is
what the reader starts from. Reading brings the record it starts from to the record that is
written, one field at a time: of every field, either its value is still to come or it already
agrees with what is written.
-/

namespace Residency.Document

/-! ## How a record is written -/

/-- How a declared field is written. -/
structure FieldForm (R : Type) where
  name : String
  /-- Two records have the same value of the field. -/
  Same : R → R → Prop
  /-- The texts of a record's value of the field. -/
  Writes : R → List Char → Prop

/-- A field whose value is taken out of the record and written on its own. -/
def FieldForm.of {R α : Type} (name : String) (get : R → α) (Writes : α → List Char → Prop) :
    FieldForm R where
  name
  Same s r := get s = get r
  Writes r := Writes (get r)

/-- A member of a record: the name of the declared field that it gives, if it gives one, and what
is written. -/
structure Entry where
  given : Option String
  written : List Char

/-- The names of the declared fields that are given. -/
def givenNames (entries : List Entry) : List String :=
  entries.filterMap Entry.given

/-- The members that may stand in a record: its declared fields, and any others. -/
inductive MemberForm {R : Type} (forms : List (FieldForm R)) (r : R) : Entry → Prop
  | declared {form : FieldForm R} {key value : List Char} : form ∈ forms →
      Spaced (InQuotes (Spelling form.name.toList)) key → Spaced (form.Writes r) value →
      MemberForm forms r ⟨some form.name, key ++ ':' :: value⟩
  | undeclared {name key value : List Char} : (∀ form ∈ forms, form.name.toList ≠ name) →
      Spaced (InQuotes (Spelling name)) key → Spaced ValueForm value →
      MemberForm forms r ⟨none, key ++ ':' :: value⟩

/-- A record with the names of its fields, or as the list of its values. Only what agrees with
`start` may be left out, in a list only at the end. -/
inductive RecordForm {R : Type} (forms : List (FieldForm R)) (start r : R) : List Char → Prop
  | members {entries : List Entry} {inner : List Char} :
      (∀ entry ∈ entries, MemberForm forms r entry) → (givenNames entries).Nodup →
      (∀ form ∈ forms, form.name ∈ givenNames entries ∨ form.Same start r) →
      Listing (entries.map Entry.written) inner →
      RecordForm forms start r ('{' :: (inner ++ ['}']))
  | elements {given omitted : List (FieldForm R)} {values : List (List Char)}
      {inner : List Char} : forms = given ++ omitted →
      List.Forall₂ (fun form => Spaced (form.Writes r)) given values →
      (∀ form ∈ omitted, form.Same start r) → Listing values inner →
      RecordForm forms start r ('[' :: (inner ++ [']']))

variable {R α : Type} {fields : List (Member R)} {forms : List (FieldForm R)}
variable {field : Member R} {form : FieldForm R} {s r start : R}
variable {before text cs tail rest : List Char}

theorem RecordForm.exists_text (h : ∀ form ∈ forms, ∃ text, form.Writes r text) (start : R) :
    ∃ text, RecordForm forms start r text := by
  choose! f hf using h
  have hvalues : List.Forall₂ (fun form => Spaced (form.Writes r)) forms (forms.map f) := by
    rw [List.forall₂_map_right_iff, List.forall₂_same]
    intro form hform
    exact ⟨[], f form, [], isBlanks_nil, hf form hform, isBlanks_nil, by simp⟩
  obtain ⟨inner, hinner⟩ : ∃ inner, Listing (forms.map f) inner := by
    cases forms.map f with
    | nil => exact ⟨[], isBlanks_nil⟩
    | cons text texts => exact ⟨_, rfl⟩
  exact ⟨_, .elements (List.append_nil forms).symm hvalues (by simp) hinner⟩

/-! ## Declared fields and their forms -/

/-- A field's reader takes in what its form writes, and changes the record there only. -/
structure Fits (forms : List (FieldForm R)) (field : Member R) (form : FieldForm R) : Prop where
  name_eq : field.name = form.name
  solid : ∀ {r text}, form.Writes r text → Solid text
  read_eq : ∀ {r text before rest} (s : R), form.Writes r text → IsBlanks before →
    Delimited rest → ∃ s', field.read s (before ++ (text ++ rest)) = .ok (s', rest) ∧
      form.Same s' r ∧
      ∀ other ∈ forms, other.name ≠ form.name → other.Same s r → other.Same s' r

theorem fits_of {read : Reader α} {Writes : α → List Char → Prop} {name : String} {get : R → α}
    {put : R → α → R} (hread : Reads read Writes) (hget : ∀ s value, get (put s value) = value)
    (hother : ∀ form ∈ forms, form.name ≠ name →
      ∀ s value r, form.Same s r → form.Same (put s value) r) :
    Fits forms (.of name read put) (.of name get Writes) where
  name_eq := rfl
  solid := hread.solid
  read_eq {r text before rest} s hwrites hbefore hrest := by
    refine ⟨put s (get r), ?_, hget s _, fun form hform hne => hother form hform hne s _ r⟩
    simp [Member.of, hread.read_eq hwrites hbefore hrest, Except.map]

/-- The declared fields of a record have the given forms, in the same order. -/
structure Layout (fields : List (Member R)) (forms : List (FieldForm R)) : Prop where
  fits : List.Forall₂ (Fits forms) fields forms
  distinct : (forms.map FieldForm.name).Nodup
  ext : ∀ {s r : R}, (∀ form ∈ forms, form.Same s r) → s = r

namespace Layout

theorem names_eq (h : Layout fields forms) :
    fields.map Member.name = forms.map FieldForm.name := by
  rw [← List.forall₂_eq_eq_eq, List.forall₂_map_left_iff, List.forall₂_map_right_iff]
  exact h.fits.imp fun _ _ hfits => hfits.name_eq

theorem eq_of_name_eq (h : Layout fields forms) {other : FieldForm R} (hform : form ∈ forms)
    (hother : other ∈ forms) (hname : other.name = form.name) : other = form :=
  List.inj_on_of_nodup_map h.distinct hother hform hname

theorem fieldNamed_eq (h : Layout fields forms) (hform : form ∈ forms) :
    ∃ field, fieldNamed fields form.name.toList = some field ∧ Fits forms field form := by
  have hexists : ∃ field ∈ fields, Fits forms field form := by
    obtain ⟨i, hi, rfl⟩ := List.getElem_of_mem hform
    have hi' : i < fields.length := by rwa [h.fits.length_eq]
    exact ⟨fields[i], List.getElem_mem hi', h.fits.get hi' hi⟩
  obtain ⟨field, hfield, hfits⟩ := hexists
  have hdistinct : (fields.map Member.name).Nodup := h.names_eq ▸ h.distinct
  refine ⟨field, ?_, hfits⟩
  rw [fieldNamed, ← hfits.name_eq]
  exact find?_named hdistinct hfield

theorem fieldNamed_eq_none (h : Layout fields forms) {name : List Char}
    (hname : ∀ form ∈ forms, form.name.toList ≠ name) : fieldNamed fields name = none := by
  rw [fieldNamed, List.find?_eq_none]
  intro field hfield
  have hmem : field.name ∈ forms.map FieldForm.name := by
    rw [← h.names_eq]
    exact List.mem_map_of_mem hfield
  obtain ⟨form, hform, heq⟩ := List.mem_map.1 hmem
  simpa [← heq] using hname form hform

/-- Reading one value brings a record closer to the one that is written: the field agrees now, and
every field that agreed before still does. -/
theorem read_eq (h : Layout fields forms) (hform : form ∈ forms) (hfits : Fits forms field form)
    (hwrites : Spaced (form.Writes r) text) (hrest : Delimited rest) (s : R)
    {names : List String} (hnames : ∀ other ∈ forms,
      other.name ∈ form.name :: names ∨ other.Same s r) :
    ∃ s' after, IsBlanks after ∧ field.read s (text ++ rest) = .ok (s', after ++ rest) ∧
      ∀ other ∈ forms, other.name ∈ names ∨ other.Same s' r := by
  obtain ⟨before, inner, after, hbefore, hinner, hafter, rfl⟩ := hwrites
  obtain ⟨s', hread, hsame, hothers⟩ :=
    hfits.read_eq s hinner hbefore (hrest.blanks_append hafter)
  refine ⟨s', after, hafter, by simpa using hread, ?_⟩
  intro other hother
  by_cases hname : other.name = form.name
  · right
    rwa [h.eq_of_name_eq hform hother hname]
  · rcases hnames other hother with hmem | hagrees
    · exact .inl (List.mem_of_ne_of_mem hname hmem)
    · exact .inr (hothers other hother hname hagrees)

end Layout

/-! ## Members -/

theorem nextName_first (h : skipBlanks cs = '"' :: tail) :
    nextName true cs = nextName false (',' :: cs) := by
  have hcomma : skipBlanks (',' :: cs) = ',' :: cs := skipBlanks_cons rfl
  simp [nextName, h, hcomma]

theorem nextName_comma (hbefore : IsBlanks before) (h : skipBlanks cs = '"' :: tail)
    {name past : List Char} (hquoted : quoted tail = .ok (name, past)) :
    nextName false (before ++ ',' :: cs) = .ok (some name, past) := by
  have hcomma : skipBlanks (before ++ ',' :: cs) = ',' :: cs :=
    hbefore.skipBlanks_cons rfl _
  simp [nextName, hcomma, h, hquoted, Except.map]

theorem nextName_close (hbefore : IsBlanks before) (isFirst : Bool) :
    nextName isFirst (before ++ '}' :: rest) = .ok (none, rest) := by
  have hclose : skipBlanks (before ++ '}' :: rest) = '}' :: rest :=
    hbefore.skipBlanks_cons rfl _
  simp [nextName, hclose]

section Step

variable {steps : Nat} {isFirst : Bool} {given : List String} {name past body : List Char}

theorem members_declared (hnext : nextName isFirst cs = .ok (some name, past))
    (hfield : fieldNamed fields name = some field) (hnew : field.name ∉ given)
    (hcolon : colon past = .ok body) {s' : R} (hread : field.read s body = .ok (s', rest)) :
    members fields (steps + 1) isFirst given s cs =
      members fields steps false (field.name :: given) s' rest := by
  simp [members, hnext, hfield, hnew, hcolon, hread, bind, Except.bind]

theorem members_undeclared (hnext : nextName isFirst cs = .ok (some name, past))
    (hfield : fieldNamed fields name = none) (hcolon : colon past = .ok body)
    (hpass : passValue body = .ok rest) :
    members fields (steps + 1) isFirst given s cs = members fields steps false given s rest := by
  simp [members, hnext, hfield, hcolon, hpass, bind, Except.bind]

end Step

/-- Members behind commas are read into the record, up to the closing bracket. -/
theorem Layout.members_eq (h : Layout fields forms) {entries : List Entry}
    (hentries : ∀ entry ∈ entries, MemberForm forms r entry)
    (hnodup : (givenNames entries).Nodup) {given : List String}
    (hgiven : ∀ name ∈ givenNames entries, name ∉ given)
    (hsame : ∀ form ∈ forms, form.name ∈ givenNames entries ∨ form.Same s r) {steps : Nat}
    (hsteps : entries.length < steps) (hbefore : IsBlanks before) :
    members fields steps false given s
        (before ++ (behindCommas (entries.map Entry.written) ++ '}' :: rest)) =
      .ok (r, rest) := by
  -- `hsame` is the invariant: a field is still to come, or the record has its value already.
  induction entries generalizing given s steps before with
  | nil =>
    obtain ⟨steps, rfl⟩ := Nat.exists_eq_add_of_lt hsteps
    have hs : s = r := h.ext fun form hform => by simpa [givenNames] using hsame form hform
    simp [members, nextName_close hbefore, hs, bind, Except.bind, pure, Except.pure]
  | cons entry entries ih =>
    obtain ⟨extra, rfl⟩ := Nat.exists_eq_add_of_lt hsteps
    obtain ⟨hentry, hothers⟩ := List.forall_mem_cons.1 hentries
    have hlength : entries.length < entries.length + 1 + extra := by omega
    let behind := behindCommas (entries.map Entry.written) ++ '}' :: rest
    have hbehind : Delimited behind := delimited_behindCommas _ (by simp) rest
    cases hentry with
    | @declared form key value hform hkey hvalue =>
      obtain ⟨hfirst, hnodup⟩ : form.name ∉ givenNames entries ∧ (givenNames entries).Nodup :=
        List.nodup_cons.1 hnodup
      obtain ⟨hnew, hgiven⟩ : form.name ∉ given ∧ ∀ name ∈ givenNames entries, name ∉ given :=
        List.forall_mem_cons.1 hgiven
      obtain ⟨tail, past, hskip, hquoted, hcolon⟩ := quoted_before_colon hkey (value ++ behind)
      obtain ⟨field, hfield, hfits⟩ := h.fieldNamed_eq hform
      obtain ⟨s', after, hafter, hread, hsame⟩ := h.read_eq hform hfits hvalue hbehind s hsame
      have hlater : ∀ name ∈ givenNames entries, name ∉ field.name :: given := by
        intro name hname
        have hne : name ≠ form.name := by
          rintro rfl
          exact hfirst hname
        simp [hfits.name_eq, hne, hgiven name hname]
      have htext : behindCommas (List.map Entry.written (⟨form.name, key ++ ':' :: value⟩ ::
          entries)) ++ '}' :: rest = ',' :: (key ++ ':' :: (value ++ behind)) := by
        simp [behind]
      rw [htext, List.length_cons, members_declared (nextName_comma hbefore hskip hquoted) hfield
        (hfits.name_eq ▸ hnew) hcolon hread]
      exact ih hothers hnodup hlater hsame hlength hafter
    | @undeclared name key value hname hkey hvalue =>
      obtain ⟨tail, past, hskip, hquoted, hcolon⟩ := quoted_before_colon hkey (value ++ behind)
      obtain ⟨after, hafter, hpass⟩ := passValue_append hvalue hbehind
      have htext : behindCommas (List.map Entry.written (⟨none, key ++ ':' :: value⟩ ::
          entries)) ++ '}' :: rest = ',' :: (key ++ ':' :: (value ++ behind)) := by
        simp [behind]
      rw [htext, List.length_cons, members_undeclared (nextName_comma hbefore hskip hquoted)
        (h.fieldNamed_eq_none hname) hcolon hpass]
      exact ih hothers hnodup hgiven hsame hlength hafter

/-! ## Elements -/

theorem elements_close (fields : List (Member R)) (isFirst : Bool) (s : R)
    (hbefore : IsBlanks before) :
    elements fields isFirst s (before ++ ']' :: rest) = .ok (s, rest) := by
  have hclose : skipBlanks (before ++ ']' :: rest) = ']' :: rest :=
    hbefore.skipBlanks_cons rfl _
  cases fields <;> simp [elements, hclose]

theorem elements_first {c : Char} (h : skipBlanks cs = c :: tail) (hc : c ≠ ']') (s : R) :
    elements fields true s cs = elements fields false s (',' :: cs) := by
  have hcomma : skipBlanks (',' :: cs) = ',' :: cs := skipBlanks_cons rfl
  cases fields <;> simp [elements, h, hc, hcomma]

theorem elements_comma (h : Solid text) (hbefore : IsBlanks before) {front : List Char}
    (hfront : IsBlanks front) {s' : R} (hread : field.read s text = .ok (s', rest)) :
    elements (field :: fields) false s (before ++ ',' :: (front ++ text)) =
      elements fields false s' rest := by
  have hcomma : skipBlanks (before ++ ',' :: (front ++ text)) = ',' :: (front ++ text) :=
    hbefore.skipBlanks_cons rfl _
  have hskip := h.skipBlanks_append hfront
  obtain ⟨c, cs, rfl, -, hc⟩ := h
  simp only [List.mem_cons, not_or] at hc
  simp [elements, hcomma, hskip, hc.1, hread, bind, Except.bind]

/-- Values behind commas are read into the record, up to the closing bracket. -/
theorem Layout.elements_eq (h : Layout fields forms) {later : List (Member R)}
    {given omitted : List (FieldForm R)} {values : List (List Char)}
    (hvalues : List.Forall₂ (fun form => Spaced (form.Writes r)) given values)
    (hfits : List.Forall₂ (Fits forms) later (given ++ omitted))
    (hgiven : ∀ form ∈ given, form ∈ forms)
    (hsame : ∀ form ∈ forms, form.name ∈ given.map FieldForm.name ∨ form.Same s r)
    (hbefore : IsBlanks before) :
    elements later false s (before ++ (behindCommas values ++ ']' :: rest)) = .ok (r, rest) := by
  induction hvalues generalizing later s before with
  | nil =>
    have hs : s = r := h.ext fun form hform => by simpa using hsame form hform
    rw [behindCommas_nil, List.nil_append, elements_close later false s hbefore, hs]
  | @cons form text given values hwrites _ ih =>
    obtain ⟨field, later, hfield, hlater, rfl⟩ := List.forall₂_cons_right_iff.1 hfits
    obtain ⟨hform, hgiven⟩ := List.forall_mem_cons.1 hgiven
    -- The blanks in front of a value are skipped before its reader is called.
    obtain ⟨front, inner, after, hfront, hinner, hafter, rfl⟩ := hwrites
    let behind := behindCommas values ++ ']' :: rest
    have hbehind : Delimited behind := delimited_behindCommas _ (by simp) rest
    have hspaced : Spaced (form.Writes r) (inner ++ after) :=
      ⟨[], inner, after, isBlanks_nil, hinner, hafter, rfl⟩
    obtain ⟨s', left, hleft, hread, hsame⟩ :=
      h.read_eq hform hfield hspaced hbehind s hsame
    have hsolid : Solid (inner ++ after ++ behind) := by
      rw [List.append_assoc]
      exact (hfield.solid hinner).append _
    have htext : behindCommas ((front ++ inner ++ after) :: values) ++ ']' :: rest =
        ',' :: (front ++ (inner ++ after ++ behind)) := by
      simp [behind]
    rw [htext, elements_comma hsolid hbefore hfront hread]
    exact ih hlater hgiven hsame hleft

/-! ## Whole records -/

theorem members_first (h : skipBlanks cs = '"' :: tail) (steps : Nat) (given : List String)
    (s : R) :
    members fields steps true given s cs = members fields steps false given s (',' :: cs) := by
  cases steps <;> simp [members, nextName_first h]

theorem MemberForm.starts {entry : Entry} (h : MemberForm forms r entry) (rest : List Char) :
    ∃ tail, skipBlanks (entry.written ++ rest) = '"' :: tail := by
  cases h with
  | @declared form key value hform hkey hvalue =>
    obtain ⟨tail, _, hskip, -⟩ := quoted_before_colon hkey (value ++ rest)
    exact ⟨tail, by simpa using hskip⟩
  | @undeclared name key value hname hkey hvalue =>
    obtain ⟨tail, _, hskip, -⟩ := quoted_before_colon hkey (value ++ rest)
    exact ⟨tail, by simpa using hskip⟩

theorem Layout.members_listing (h : Layout fields forms) {entries : List Entry}
    (hentries : ∀ entry ∈ entries, MemberForm forms r entry)
    (hnodup : (givenNames entries).Nodup)
    (hsame : ∀ form ∈ forms, form.name ∈ givenNames entries ∨ form.Same s r)
    {inner : List Char} (hlisting : Listing (entries.map Entry.written) inner) {steps : Nat}
    (hsteps : entries.length < steps) :
    members fields steps true [] s (inner ++ '}' :: rest) = .ok (r, rest) := by
  cases entries with
  | nil =>
    obtain ⟨steps, rfl⟩ := Nat.exists_eq_add_of_lt hsteps
    have hs : s = r := h.ext fun form hform => by simpa [givenNames] using hsame form hform
    simp [members, nextName_close (show IsBlanks inner from hlisting), hs, bind, Except.bind,
      pure, Except.pure]
  | cons entry entries =>
    obtain rfl : inner = entry.written ++ behindCommas (entries.map Entry.written) := hlisting
    obtain ⟨tail, htail⟩ := (hentries entry (by simp)).starts
      (behindCommas (entries.map Entry.written) ++ '}' :: rest)
    have hnone : ∀ name ∈ givenNames (entry :: entries), name ∉ [] := by simp
    rw [List.append_assoc, members_first htail]
    simpa using h.members_eq hentries hnodup hnone hsame hsteps isBlanks_nil

theorem Layout.elements_listing (h : Layout fields forms) {given omitted : List (FieldForm R)}
    (hforms : forms = given ++ omitted) {values : List (List Char)}
    (hvalues : List.Forall₂ (fun form => Spaced (form.Writes r)) given values)
    (homitted : ∀ form ∈ omitted, form.Same s r)
    {inner : List Char} (hlisting : Listing values inner) :
    elements fields true s (inner ++ ']' :: rest) = .ok (r, rest) := by
  have hsame : ∀ form ∈ forms, form.name ∈ given.map FieldForm.name ∨ form.Same s r := by
    intro form hform
    rw [hforms] at hform
    rcases List.mem_append.1 hform with hmem | hmem
    · exact .inl (List.mem_map_of_mem hmem)
    · exact .inr (homitted form hmem)
  cases values with
  | nil =>
    obtain rfl := List.forall₂_nil_right_iff.1 hvalues
    have hs : s = r := h.ext fun form hform => by simpa using hsame form hform
    rw [elements_close fields true s (show IsBlanks inner from hlisting), hs]
  | cons text values =>
    obtain rfl : inner = text ++ behindCommas values := hlisting
    have hgiven : ∀ form ∈ given, form ∈ forms := by
      intro form hform
      rw [hforms]
      exact List.mem_append_left _ hform
    have hfits : List.Forall₂ (Fits forms) fields (given ++ omitted) := by
      rw [← hforms]
      exact h.fits
    obtain ⟨c, tail, hskip, hc⟩ : ∃ c tail,
        skipBlanks (text ++ (behindCommas values ++ ']' :: rest)) = c :: tail ∧ c ≠ ']' := by
      obtain ⟨form, given, ⟨front, value, after, hfront, hvalue, -, rfl⟩, -, rfl⟩ :=
        List.forall₂_cons_right_iff.1 hvalues
      obtain ⟨field, -, hfield⟩ := h.fieldNamed_eq (hgiven form (by simp))
      have hsolid := (hfield.solid hvalue).append (after ++ (behindCommas values ++ ']' :: rest))
      have hskip := hsolid.skipBlanks_append hfront
      obtain ⟨c, tail, htail, -, hc⟩ := hsolid
      simp only [List.mem_cons, not_or] at hc
      exact ⟨c, tail, by simpa [htail] using hskip, hc.1⟩
    rw [List.append_assoc, elements_first hskip hc]
    simpa using h.elements_eq hvalues hfits hgiven hsame isBlanks_nil

/-- Every way to write a record is read as the record, if reading starts from the values that may
be left out. -/
theorem Layout.reads_record (h : Layout fields forms) {implied : R} (hstart : start = implied) :
    Reads (record fields start) (RecordForm forms implied) := by
  subst hstart
  constructor
  · intro r text hform
    cases hform with
    | members => exact ⟨'{', _, rfl, by decide⟩
    | elements => exact ⟨'[', _, rfl, by decide⟩
  · intro r text before rest hform hbefore hrest
    cases hform with
    | @members entries inner hentries hnodup hsame hlisting =>
      have hopen : skipBlanks (before ++ '{' :: (inner ++ '}' :: rest)) =
          '{' :: (inner ++ '}' :: rest) :=
        hbefore.skipBlanks_cons rfl _
      have hsteps : entries.length < (inner ++ '}' :: rest).length + 1 := by
        have := hlisting.length_le
        simp only [List.length_map, List.length_append, List.length_cons] at this ⊢
        omega
      simpa [record, hopen] using h.members_listing hentries hnodup hsame hlisting hsteps
    | @elements given omitted values inner hforms hvalues homitted hlisting =>
      have hopen : skipBlanks (before ++ '[' :: (inner ++ ']' :: rest)) =
          '[' :: (inner ++ ']' :: rest) :=
        hbefore.skipBlanks_cons rfl _
      simpa [record, hopen] using h.elements_listing hforms hvalues homitted hlisting

end Residency.Document
