import Residency.Proofs.Document.Record
import Residency.Proofs.Document.Scalar
import Residency.Settings.Document

/-!
# Every document of a configuration decodes to it

A configuration can be written in many ways: with the members of every section in any order, with
defaults and whole sections left out, with members that nobody declared, with sections as lists,
with blanks between tokens, and with each name in any of its spellings. All of them are read as the
configuration that they write, if it meets the rules.
-/

namespace Residency

open Document

/-! ## The forms of the sections -/

/-- How the settings of the oracle-trained policy are written. -/
def HawkeyeSettings.forms : List (FieldForm HawkeyeSettings) :=
  [.of "rrpv_bits" rrpvBits WidthForm,
    .of "history_multiplier" historyMultiplier SizeForm]

/-- How the settings of the dead-block correlating prefetcher are written. -/
def DbcpSettings.forms : List (FieldForm DbcpSettings) :=
  [.of "history_table_size" historyTableSize SizeForm,
    .of "table_entries" tableEntries SizeForm,
    .of "table_assoc" tableAssoc SizeForm,
    .of "confidence_bits" confidenceBits WidthForm,
    .of "initial_confidence" initialConfidence WidthForm,
    .of "confidence_threshold" confidenceThreshold WidthForm,
    .of "signature_bits" signatureBits WidthForm]

/-- The spellings of a policy. -/
def PolicyKind.spellings : PolicyKind → List String
  | lru => ["Lru", "LRU"]
  | random => ["Random"]
  | hawkeye => ["Hawkeye", "HawkEye"]

/-- The spellings of a prefetcher. -/
def PrefetcherKind.spellings : PrefetcherKind → List String
  | none => ["None"]
  | nextLine => ["NextLine"]
  | dbcp => ["Dbcp", "DBCP"]

/-- How the settings of a cache are written. -/
def CacheSettings.forms : List (FieldForm CacheSettings) :=
  [.of "enabled" enabled FlagForm,
    .of "size_bytes" sizeBytes SizeForm,
    .of "line_bytes" lineBytes SizeForm,
    .of "ways" ways SizeForm,
    .of "policy" policy (ChoiceForm PolicyKind.spellings),
    .of "prefetcher" prefetcher (ChoiceForm PrefetcherKind.spellings),
    .of "prefetch_degree" prefetchDegree SizeForm,
    .of "hawkeye" hawkeye (RecordForm HawkeyeSettings.forms {}),
    .of "dbcp" dbcp (RecordForm DbcpSettings.forms {})]

/-- How the settings of a whole document are written. -/
def Settings.forms : List (FieldForm Settings) :=
  [.of "cache" cache (RecordForm CacheSettings.forms {})]

/-- A text writes the settings. -/
def Settings.WrittenAs (s : Settings) (text : String) : Prop :=
  Spaced (RecordForm forms {} s) text.toList

/-- There is a document for any settings. -/
theorem Settings.exists_writtenAs (s : Settings) : ∃ text, s.WrittenAs text := by
  have hflag (b : Bool) : ∃ text, FlagForm b text := ⟨_, rfl⟩
  have hwidth (n : UInt32) : ∃ text, WidthForm n text := ⟨_, rfl⟩
  have hsize (n : UInt64) : ∃ text, SizeForm n text := ⟨_, rfl⟩
  have hpolicy (k : PolicyKind) : ∃ text, ChoiceForm PolicyKind.spellings k text := by
    cases k <;> exact ChoiceForm.exists_text List.mem_cons_self (by simp)
  have hprefetcher (k : PrefetcherKind) : ∃ text, ChoiceForm PrefetcherKind.spellings k text := by
    cases k <;> exact ChoiceForm.exists_text List.mem_cons_self (by simp)
  have hhawkeye (h : HawkeyeSettings) :
      ∃ text, RecordForm HawkeyeSettings.forms {} h text := by
    apply RecordForm.exists_text
    simp [HawkeyeSettings.forms, FieldForm.of, hwidth, hsize]
  have hdbcp (d : DbcpSettings) : ∃ text, RecordForm DbcpSettings.forms {} d text := by
    apply RecordForm.exists_text
    simp [DbcpSettings.forms, FieldForm.of, hwidth, hsize]
  have hcache (c : CacheSettings) : ∃ text, RecordForm CacheSettings.forms {} c text := by
    apply RecordForm.exists_text
    simp [CacheSettings.forms, FieldForm.of, hflag, hsize, hpolicy, hprefetcher, hhawkeye, hdbcp]
  obtain ⟨text, htext⟩ : ∃ text, RecordForm forms {} s text := by
    apply RecordForm.exists_text
    simp [forms, FieldForm.of, hcache]
  exact ⟨.ofList text, [], text, [], isBlanks_nil, htext, isBlanks_nil, by simp⟩

/-! ## Fields that are left out -/

/-! The defaults of the fields, one by one, make up the default section. -/

theorem HawkeyeSettings.unwritten_eq : unwritten = {} := rfl

theorem DbcpSettings.unwritten_eq : unwritten = {} := rfl

theorem CacheSettings.unwritten_eq : unwritten = {} := rfl

theorem Settings.unwritten_eq : unwritten = {} := rfl

/-! ## The readers of the sections -/

theorem HawkeyeSettings.layout : Layout fields forms where
  fits := by
    refine .cons (fits_of reads_width (fun _ _ => rfl) ?_)
      (.cons (fits_of reads_size (fun _ _ => rfl) ?_) .nil)
    all_goals simp [forms, FieldForm.of]
  distinct := by decide
  ext {s r} h := by
    cases s
    cases r
    simpa [forms, FieldForm.of] using h

theorem DbcpSettings.layout : Layout fields forms where
  fits := by
    refine .cons (fits_of reads_size (fun _ _ => rfl) ?_)
      (.cons (fits_of reads_size (fun _ _ => rfl) ?_)
      (.cons (fits_of reads_size (fun _ _ => rfl) ?_)
      (.cons (fits_of reads_width (fun _ _ => rfl) ?_)
      (.cons (fits_of reads_width (fun _ _ => rfl) ?_)
      (.cons (fits_of reads_width (fun _ _ => rfl) ?_)
      (.cons (fits_of reads_width (fun _ _ => rfl) ?_) .nil))))))
    all_goals simp [forms, FieldForm.of]
  distinct := by decide
  ext {s r} h := by
    cases s
    cases r
    simpa [forms, FieldForm.of] using h

theorem PolicyKind.reads_choice : Reads (choice names) (ChoiceForm spellings) := by
  apply Document.reads_choice
  · decide
  · intro kind
    cases kind <;> simp [spellings, names]

theorem PrefetcherKind.reads_choice : Reads (choice names) (ChoiceForm spellings) := by
  apply Document.reads_choice
  · decide
  · intro kind
    cases kind <;> simp [spellings, names]

theorem CacheSettings.layout : Layout fields forms where
  fits := by
    have hhawkeye := HawkeyeSettings.layout.reads_record HawkeyeSettings.unwritten_eq
    have hdbcp := DbcpSettings.layout.reads_record DbcpSettings.unwritten_eq
    refine .cons (fits_of reads_flag (fun _ _ => rfl) ?_)
      (.cons (fits_of reads_size (fun _ _ => rfl) ?_)
      (.cons (fits_of reads_size (fun _ _ => rfl) ?_)
      (.cons (fits_of reads_size (fun _ _ => rfl) ?_)
      (.cons (fits_of PolicyKind.reads_choice (fun _ _ => rfl) ?_)
      (.cons (fits_of PrefetcherKind.reads_choice (fun _ _ => rfl) ?_)
      (.cons (fits_of reads_size (fun _ _ => rfl) ?_)
      (.cons (fits_of hhawkeye (fun _ _ => rfl) ?_)
      (.cons (fits_of hdbcp (fun _ _ => rfl) ?_) .nil))))))))
    all_goals simp [forms, FieldForm.of]
  distinct := by decide
  ext {s r} h := by
    cases s
    cases r
    simpa [forms, FieldForm.of] using h

theorem Settings.layout : Layout fields forms where
  fits := by
    have hcache := CacheSettings.layout.reads_record CacheSettings.unwritten_eq
    refine .cons (fits_of hcache (fun _ _ => rfl) ?_) .nil
    simp [forms, FieldForm.of]
  distinct := by decide
  ext {s r} h := by
    cases s
    cases r
    simpa [forms, FieldForm.of] using h

/-- Every document that writes settings which meet the rules is read as these settings. -/
theorem Settings.ofDocument_writtenAs {s : Settings} {text : String} (hcheck : s.check = .ok ())
    (h : s.WrittenAs text) : ofDocument text = .ok s := by
  have hread : readAll (record fields unwritten) text = .ok s :=
    (layout.reads_record unwritten_eq).readAll h
  simp [ofDocument, hread, hcheck, Except.mapError, bind, Except.bind, pure, Except.pure]

/-- A list of one cache, whose members stand around one that nobody declared. -/
theorem Settings.ofDocument_recency_cache :
    (Settings.mk { ways := 4, policy := .lru }).check = .ok () ∧
      (Settings.mk { ways := 4, policy := .lru }).WrittenAs
        "[\x7b\"ways\" : 4, \"note\": [ ], \"policy\": \"LRU\"\x7d]" ∧
      ofDocument "[\x7b\"ways\" : 4, \"note\": [ ], \"policy\": \"LRU\"\x7d]" =
        .ok { cache := { ways := 4, policy := .lru } } := by
  let c : CacheSettings := { ways := 4, policy := .lru }
  have hblank : IsBlanks [' '] := by simp [IsBlanks]
  have hquoted (name : String)
      (hplain : ∀ c ∈ name.toList, 0x20 ≤ c.toNat ∧ c ≠ '"' ∧ c ≠ '\\')
      {before after : List Char} (hbefore : IsBlanks before) (hafter : IsBlanks after) :
      Spaced (InQuotes (Spelling name.toList))
        (before ++ ('"' :: (name.toList ++ ['"'])) ++ after) :=
    ⟨_, _, _, hbefore, inQuotes_self hplain, hafter, rfl⟩
  have hways : MemberForm CacheSettings.forms c ⟨"ways", "\"ways\" : 4".toList⟩ := by
    have hform : .of "ways" CacheSettings.ways SizeForm ∈ CacheSettings.forms := by
      simp [CacheSettings.forms]
    have hfour : SizeForm 4 ['4'] := rfl
    exact .declared hform (hquoted "ways" (by simp) isBlanks_nil hblank)
      ⟨[' '], ['4'], [], hblank, hfour, isBlanks_nil, rfl⟩
  have hnote : MemberForm CacheSettings.forms c ⟨none, " \"note\": [ ]".toList⟩ := by
    have hempty : ValueForm "[ ]".toList := by
      have hnone (P : Inside → Prop) : ∀ i ∈ [], P i := by simp
      exact .bracketed (hnone fun i => LeadForm .list i.lead) (hnone _) (hnone _) hblank
    have hother : ∀ form ∈ CacheSettings.forms, form.name.toList ≠ "note".toList := by decide
    exact .undeclared hother (hquoted "note" (by simp) hblank isBlanks_nil)
      ⟨[' '], "[ ]".toList, [], hblank, hempty, isBlanks_nil, rfl⟩
  have hpolicy : MemberForm CacheSettings.forms c ⟨"policy", " \"policy\": \"LRU\"".toList⟩ := by
    have hform : .of "policy" CacheSettings.policy (ChoiceForm PolicyKind.spellings) ∈
        CacheSettings.forms := by
      simp [CacheSettings.forms]
    have hmember : "LRU" ∈ PolicyKind.lru.spellings := by decide
    have hname : ChoiceForm PolicyKind.spellings .lru "\"LRU\"".toList :=
      .string hmember (inQuotes_self (by simp))
    exact .declared hform (hquoted "policy" (by simp) hblank isBlanks_nil)
      ⟨[' '], "\"LRU\"".toList, [], hblank, hname, isBlanks_nil, rfl⟩
  have hcache : RecordForm CacheSettings.forms {} c
      "\x7b\"ways\" : 4, \"note\": [ ], \"policy\": \"LRU\"\x7d".toList := by
    have hentries := List.forall_mem_cons.2
      ⟨hways, List.forall_mem_cons.2 ⟨hnote, List.forall_mem_singleton.2 hpolicy⟩⟩
    refine .members hentries (by decide) ?_ rfl
    simp [CacheSettings.forms, FieldForm.of, givenNames, c]
  have hgiven : List.Forall₂ (fun form => Spaced (form.Writes { cache := c })) Settings.forms
      ["\x7b\"ways\" : 4, \"note\": [ ], \"policy\": \"LRU\"\x7d".toList] :=
    .cons ⟨[], _, [], isBlanks_nil, hcache, isBlanks_nil, rfl⟩ .nil
  have hwritten : (Settings.mk c).WrittenAs
      "[\x7b\"ways\" : 4, \"note\": [ ], \"policy\": \"LRU\"\x7d]" :=
    ⟨[], _, [], isBlanks_nil, .elements rfl hgiven (by simp) rfl, isBlanks_nil, rfl⟩
  exact ⟨rfl, hwritten, ofDocument_writtenAs rfl hwritten⟩

end Residency
