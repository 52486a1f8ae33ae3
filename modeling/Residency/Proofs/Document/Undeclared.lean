import Residency.Document.Undeclared
import Residency.Proofs.Document.Numeral
import Residency.Proofs.Document.Quoted

/-!
# Values of any kind

What may stand behind the name of a field that nobody declared: any value of the grammar, however
deeply nested. The walk passes over such a value to the character behind it. Its bound on steps
is never reached, because a value takes at most two steps for each of its characters.
-/

namespace Residency.Document

/-- A text between an opening bracket and the closing one. -/
def Bracket.around (inner : List Char) : Bracket → List Char
  | list => '[' :: (inner ++ [']'])
  | record => '{' :: (inner ++ ['}'])

/-- What stands in front of a value: blanks, and in a record first the name and a colon. -/
def LeadForm : Bracket → List Char → Prop
  | .list, text => IsBlanks text
  | .record, text => ∃ name before, Spaced (InQuotes StringBody) name ∧ IsBlanks before ∧
      text = name ++ ':' :: before

/-- A value inside a bracket, with what stands in front of it and the blanks behind it. -/
structure Inside where
  lead : List Char
  value : List Char
  trail : List Char

/-- What is written for a value inside a bracket. -/
def Inside.text (i : Inside) : List Char :=
  i.lead ++ (i.value ++ i.trail)

/-- A value of any kind. -/
inductive ValueForm : List Char → Prop
  | null : ValueForm "null".toList
  | true : ValueForm "true".toList
  | false : ValueForm "false".toList
  | string {text : List Char} : InQuotes StringBody text → ValueForm text
  | number {text : List Char} : NumberForm text → ValueForm text
  | bracketed {bracket : Bracket} {contents : List Inside} {inner : List Char} :
      (∀ i ∈ contents, LeadForm bracket i.lead) → (∀ i ∈ contents, ValueForm i.value) →
      (∀ i ∈ contents, IsBlanks i.trail) → Listing (contents.map Inside.text) inner →
      ValueForm (bracket.around inner)

variable {before text lead tail rest : List Char} {bracket : Bracket} {contents : List Inside}

theorem ValueForm.solid (h : ValueForm text) : Solid text := by
  cases h with
  | null => exact ⟨'n', _, rfl, by decide⟩
  | true => exact ⟨'t', _, rfl, by decide⟩
  | false => exact ⟨'f', _, rfl, by decide⟩
  | string h => exact h.solid
  | number h => exact h.solid
  | @bracketed bracket =>
    cases bracket
    · exact ⟨'[', _, rfl, by decide⟩
    · exact ⟨'{', _, rfl, by decide⟩

theorem Bracket.close_mem (bracket : Bracket) : bracket.close ∈ [']', '}'] := by
  cases bracket <;> decide

theorem Bracket.close_ne_comma (bracket : Bracket) : ',' ≠ bracket.close := by
  cases bracket <;> decide

theorem Bracket.length_around (bracket : Bracket) (inner : List Char) :
    (bracket.around inner).length = inner.length + 2 := by
  cases bracket <;> simp [around]

theorem Solid.two_le (h : Solid text) : 1 ≤ 2 * text.length := by
  obtain ⟨c, cs, rfl, -⟩ := h
  simp only [List.length_cons]
  omega

/-! ## Steps of the walk -/

/-- The walk passes over a value in so many steps. -/
def Passes (steps : Nat) (text : List Char) : Prop :=
  ∀ n brackets before rest, IsBlanks before → Delimited rest →
    passSteps (n + steps) .value brackets (before ++ (text ++ rest)) =
      passSteps n .more brackets rest

theorem passes_atom (hsolid : Solid text) (hopen : ∀ c ∈ text.head?, c ∉ ['[', '{'])
    (hatom : ∀ rest, Delimited rest → passAtom (text ++ rest) = .ok rest) : Passes 1 text := by
  intro n brackets before rest hbefore hrest
  have hskip := (hsolid.append rest).skipBlanks_append hbefore
  have hpass := hatom rest hrest
  obtain ⟨c, cs, rfl, -⟩ := hsolid
  have hc := hopen c rfl
  simp only [List.mem_cons, List.not_mem_nil, or_false, not_or] at hc
  simp only [List.cons_append] at hskip hpass ⊢
  simp [passSteps, hskip, hpass, hc, bind, Except.bind]

theorem passes_string (h : InQuotes StringBody text) : Passes 1 text := by
  have hsolid := h.solid
  obtain ⟨body, hbody, rfl⟩ := h
  refine passes_atom hsolid (by simp) ?_
  intro rest _
  simp [passAtom, hbody.passQuoted_eq]

theorem NumberForm.passNumber_append (h : NumberForm text) (hrest : Delimited rest) :
    passNumber (text ++ rest) = .ok rest := by
  obtain ⟨hsign, hwhole, hfraction, hexponent⟩ := h
  obtain ⟨e, he, -⟩ := numeral_append hsign hwhole hfraction hexponent hrest
  simp only [List.append_assoc, passNumber, he]

theorem NumberForm.passes (h : NumberForm text) : Passes 1 text := by
  obtain ⟨c, cs, rfl, hc⟩ := h.head
  have hother := not_mem_of_starts_number hc
  simp only [List.mem_cons, List.not_mem_nil, or_false, not_or] at hother
  refine passes_atom h.solid (by simp [hother]) ?_
  intro rest hrest
  have hpass := h.passNumber_append hrest
  rw [List.cons_append] at hpass ⊢
  simp [passAtom, hother, hc, hpass]

/-- What stands in front of a value inside a bracket is passed over, but for blanks. -/
theorem LeadForm.passName_append (h : LeadForm bracket lead) (tail : List Char) :
    ∃ before, IsBlanks before ∧ passName bracket (lead ++ tail) = .ok (before ++ tail) := by
  cases bracket with
  | list => exact ⟨lead, h, rfl⟩
  | record =>
    obtain ⟨name, before, hname, hbefore, rfl⟩ := h
    obtain ⟨body, behind, hskip, hpass, hcolon⟩ := passQuoted_before_colon hname (before ++ tail)
    refine ⟨before, hbefore, ?_⟩
    simp [passName, hskip, hpass, hcolon, bind, Except.bind]

theorem LeadForm.starts (h : LeadForm bracket lead) (htail : Solid tail) :
    ∃ c cs, skipBlanks (lead ++ tail) = c :: cs ∧ isBlank c = false ∧ c ≠ bracket.close := by
  cases bracket with
  | list =>
    have hskip := htail.skipBlanks_append (show IsBlanks lead from h)
    obtain ⟨c, cs, rfl, hblank, hc⟩ := htail
    simp only [List.mem_cons, not_or] at hc
    exact ⟨c, cs, hskip, hblank, hc.1⟩
  | record =>
    obtain ⟨name, before, hname, hbefore, rfl⟩ := h
    obtain ⟨body, behind, hskip, -⟩ := passQuoted_before_colon hname (before ++ tail)
    exact ⟨'"', body, by simpa using hskip, by decide, by decide⟩

/-- At an opening bracket the walk goes on as behind a comma, unless the bracket is closed. -/
theorem passSteps_first_eq {c : Char} {cs : List Char} (h : skipBlanks cs = c :: tail)
    (hblank : isBlank c = false) (hc : c ≠ bracket.close) (steps : Nat)
    (brackets : List Bracket) :
    passSteps steps .first (bracket :: brackets) cs =
      passSteps steps .more (bracket :: brackets) (',' :: cs) := by
  have hcomma : skipBlanks (',' :: cs) = ',' :: cs := skipBlanks_cons rfl
  have hskip : skipBlanks (c :: tail) = c :: tail := skipBlanks_cons hblank
  obtain _ | _ | steps := steps
  · rfl
  all_goals
    cases bracket with
    | list =>
      simp [passSteps, h, hc, hcomma, hskip, passName, Bracket.close_ne_comma, bind, Except.bind]
    | record =>
      simp [passSteps, h, hc, hcomma, hskip, passName, Bracket.close_ne_comma]

theorem skipBlanks_close (h : IsBlanks before) (bracket : Bracket) (rest : List Char) :
    skipBlanks (before ++ bracket.close :: rest) = bracket.close :: rest := by
  cases bracket <;> exact h.skipBlanks_cons rfl rest

/-- Values behind commas are passed over, and the closing bracket behind them. -/
theorem passSteps_more (hlead : ∀ i ∈ contents, LeadForm bracket i.lead)
    (hvalue : ∀ i ∈ contents, ∃ k ≤ 2 * i.value.length, Passes k i.value)
    (htrail : ∀ i ∈ contents, IsBlanks i.trail) :
    ∃ k ≤ 2 * (behindCommas (contents.map Inside.text)).length + 1,
      ∀ n brackets before rest, IsBlanks before →
        passSteps (n + k) .more (bracket :: brackets)
            (before ++ (behindCommas (contents.map Inside.text) ++ bracket.close :: rest)) =
          passSteps n .more brackets rest := by
  induction contents with
  | nil =>
    refine ⟨1, by simp, ?_⟩
    intro n brackets before rest hbefore
    simp [passSteps, skipBlanks_close hbefore]
  | cons i contents ih =>
    obtain ⟨⟨k, hk, hpasses⟩, hvalue⟩ := List.forall_mem_cons.1 hvalue
    obtain ⟨hi, hlead⟩ := List.forall_mem_cons.1 hlead
    obtain ⟨hafter, htrail⟩ := List.forall_mem_cons.1 htrail
    obtain ⟨m, hm, hmore⟩ := ih hlead hvalue htrail
    refine ⟨m + k + 1, ?_, ?_⟩
    · simp only [Inside.text, List.map_cons, behindCommas_cons, List.length_append,
        List.length_cons]
      omega
    · intro n brackets before rest hbefore
      -- One step takes the comma and what leads the value, `k` steps take the value. The blanks
      -- behind it are left to the step that looks for the next comma.
      let behind := behindCommas (contents.map Inside.text) ++ bracket.close :: rest
      have hbehind : Delimited (i.trail ++ behind) :=
        (delimited_behindCommas _ bracket.close_mem rest).blanks_append hafter
      have hcomma : skipBlanks (before ++ ',' :: (i.lead ++ (i.value ++ (i.trail ++ behind)))) =
          ',' :: (i.lead ++ (i.value ++ (i.trail ++ behind))) :=
        hbefore.skipBlanks_cons rfl _
      obtain ⟨between, hbetween, hname⟩ := hi.passName_append (i.value ++ (i.trail ++ behind))
      calc passSteps (n + (m + k + 1)) .more (bracket :: brackets)
            (before ++ (behindCommas ((i :: contents).map Inside.text) ++ bracket.close :: rest))
          = passSteps (n + m + k + 1) .more (bracket :: brackets)
              (before ++ ',' :: (i.lead ++ (i.value ++ (i.trail ++ behind)))) := by
            simp [behind, Inside.text, Nat.add_assoc]
        _ = passSteps (n + m + k) .value (bracket :: brackets)
              (between ++ (i.value ++ (i.trail ++ behind))) := by
            simp [passSteps, hcomma, bracket.close_ne_comma, hname, bind, Except.bind]
        _ = passSteps (n + m) .more (bracket :: brackets) (i.trail ++ behind) :=
            hpasses _ _ _ _ hbetween hbehind
        _ = passSteps n .more brackets rest := hmore n brackets i.trail rest hafter

theorem passSteps_around (h : IsBlanks before) (steps : Nat) (bracket : Bracket)
    (brackets : List Bracket) (inner rest : List Char) :
    passSteps (steps + 1) .value brackets (before ++ (bracket.around inner ++ rest)) =
      passSteps steps .first (bracket :: brackets) (inner ++ bracket.close :: rest) := by
  cases bracket with
  | list =>
    have hskip : skipBlanks (before ++ '[' :: (inner ++ ']' :: rest)) =
        '[' :: (inner ++ ']' :: rest) :=
      h.skipBlanks_cons rfl _
    simp [passSteps, Bracket.around, Bracket.close, hskip]
  | record =>
    have hskip : skipBlanks (before ++ '{' :: (inner ++ '}' :: rest)) =
        '{' :: (inner ++ '}' :: rest) :=
      h.skipBlanks_cons rfl _
    simp [passSteps, Bracket.around, Bracket.close, hskip]

/-- What stands inside a bracket is passed over, and the closing bracket behind it. -/
theorem passSteps_first (hlead : ∀ i ∈ contents, LeadForm bracket i.lead)
    (hsolid : ∀ i ∈ contents, Solid i.value)
    (hvalue : ∀ i ∈ contents, ∃ k ≤ 2 * i.value.length, Passes k i.value)
    (htrail : ∀ i ∈ contents, IsBlanks i.trail)
    {inner : List Char} (hlisting : Listing (contents.map Inside.text) inner) :
    ∃ k ≤ 2 * inner.length + 3, ∀ n brackets rest,
      passSteps (n + k) .first (bracket :: brackets) (inner ++ bracket.close :: rest) =
        passSteps n .more brackets rest := by
  cases contents with
  | nil =>
    refine ⟨1, by omega, ?_⟩
    intro n brackets rest
    simp [passSteps, skipBlanks_close (show IsBlanks inner from hlisting)]
  | cons i contents =>
    obtain ⟨k, hk, hmore⟩ := passSteps_more hlead hvalue htrail
    obtain rfl : inner = i.text ++ behindCommas (contents.map Inside.text) := hlisting
    refine ⟨k, by simpa [Nat.mul_add] using hk, ?_⟩
    intro n brackets rest
    have hsolid := (hsolid i (by simp)).append
      (i.trail ++ (behindCommas (contents.map Inside.text) ++ bracket.close :: rest))
    obtain ⟨c, cs, hskip, hblank, hc⟩ := (hlead i (by simp)).starts hsolid
    have hfirst := passSteps_first_eq hskip hblank hc (n + k) brackets
    have hrest := hmore n brackets [] rest isBlanks_nil
    simp only [Inside.text, List.map_cons, behindCommas_cons, List.append_assoc, List.cons_append,
      List.nil_append] at hfirst hrest ⊢
    exact hfirst.trans hrest

/-- A value takes at most two steps for each of its characters. -/
theorem ValueForm.passes (h : ValueForm text) : ∃ k ≤ 2 * text.length, Passes k text := by
  induction h with
  | null => exact ⟨1, by decide, passes_atom ValueForm.null.solid (by simp) fun rest _ => rfl⟩
  | true => exact ⟨1, by decide, passes_atom ValueForm.true.solid (by simp) fun rest _ => rfl⟩
  | false => exact ⟨1, by decide, passes_atom ValueForm.false.solid (by simp) fun rest _ => rfl⟩
  | string h => exact ⟨1, h.solid.two_le, passes_string h⟩
  | number h => exact ⟨1, h.solid.two_le, h.passes⟩
  | @bracketed bracket contents inner hlead hvalue htrail hlisting ih =>
    obtain ⟨k, hk, hfirst⟩ :=
      passSteps_first hlead (fun i hi => (hvalue i hi).solid) ih htrail hlisting
    refine ⟨k + 1, ?_, ?_⟩
    · rw [bracket.length_around]
      omega
    · intro n brackets before rest hbefore _
      rw [← Nat.add_assoc, passSteps_around hbefore]
      exact hfirst n brackets rest

theorem passValue_append (h : Spaced ValueForm text) (hrest : Delimited rest) :
    ∃ after, IsBlanks after ∧ passValue (text ++ rest) = .ok (after ++ rest) := by
  obtain ⟨before, value, after, hbefore, hvalue, hafter, rfl⟩ := h
  obtain ⟨k, hk, hpasses⟩ := hvalue.passes
  refine ⟨after, hafter, ?_⟩
  obtain ⟨n, hn⟩ : ∃ n, 2 * (before ++ (value ++ (after ++ rest))).length + 2 = n + 1 + k := by
    refine ⟨2 * (before ++ (value ++ (after ++ rest))).length + 1 - k, ?_⟩
    simp only [List.length_append]
    omega
  rw [List.append_assoc, List.append_assoc, passValue, hn,
    hpasses (n + 1) [] before _ hbefore (hrest.blanks_append hafter)]
  simp [passSteps]

end Residency.Document
