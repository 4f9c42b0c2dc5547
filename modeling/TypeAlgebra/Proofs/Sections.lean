import TypeAlgebra.Journal.Logger
import Mathlib.Data.List.Basic

namespace TypeAlgebra.Journal

/-- The text that a value gives for itself; how it is printed if it gives none or is a failure. -/
def Value.ownText : Value → String
  | object o => if o.isFailure then o.printed else o.own?.getD o.printed
  | value => value.printed

theorem Value.printed_defer (value : Value) : value.defer.printed = value.ownText := by
  cases value with
  | object o =>
    simp only [defer, ownText]
    split
    · rfl
    · cases o.own? with
      | none => rfl
      | some own => rfl
  | text s => rfl
  | number n => rfl
  | deferred printed given => rfl

theorem Value.defer_defer (value : Value) : value.defer.defer = value.defer := by
  cases value with
  | object o =>
    cases hf : o.isFailure with
    | true => simp [defer, hf]
    | false => cases ho : o.own? <;> simp [defer, lazy, hf, ho]
  | text s => rfl
  | number n => rfl
  | deferred printed given => rfl

theorem Entry.defer_defer (entry : Entry) : entry.defer.defer = entry.defer := by
  rw [defer, defer, Value.defer_defer]

theorem sectionEnabled_iff {name : String} :
    sectionEnabled name = true ↔ "texp".toList <+: name.toList ∨ "cli".toList <+: name.toList := by
  simp only [sectionEnabled, enabledSections, List.any_cons, List.any_nil, Bool.or_false, Bool.or_eq_true,
    List.isPrefixOf_iff_prefix]

section Filtering

namespace Filter

variable {η : Type} {filter : Filter η} {sections : List String} {entries : List Entry} {name : String}

/-- The flag that is overwritten at each entry ends as whether some entry has raised it, since that ends the search. -/
theorem scan_iff : scan false entries = true ↔
    ∃ entry ∈ entries, entry.key = "section" ∧ sectionEnabled entry.value.printed = true := by
  induction entries with
  | nil => simp [scan]
  | cons entry entries ih =>
    rw [scan]
    cases hw : (entry.key = "section" && sectionEnabled entry.value.printed : Bool) with
    | false =>
      have hnot : ¬(entry.key = "section" ∧ sectionEnabled entry.value.printed = true) := by simpa using hw
      simpa [hnot] using ih
    | true =>
      have hentry : entry.key = "section" ∧ sectionEnabled entry.value.printed = true := by simpa using hw
      simp [hentry]

theorem mem_collect : name ∈ collect sections entries ↔
    name ∈ sections ∨ ∃ entry ∈ entries, entry.key = "section" ∧ entry.value.printed = name := by
  induction entries generalizing sections with
  | nil => simp [collect]
  | cons entry entries ih =>
    rw [collect, List.exists_mem_cons_iff]
    split
    · next hkey => simp [ih, hkey, or_assoc, eq_comm]
    · next hkey => simp [ih, hkey]

theorem wants_iff : filter.wants entries = true ↔ (∃ name ∈ filter.sections, sectionEnabled name = true) ∨
    ∃ entry ∈ entries, entry.key = "section" ∧ sectionEnabled entry.value.printed = true := by
  rw [wants, ← scan_iff, ← List.any_eq_true]
  cases filter.sections.any sectionEnabled <;> simp

end Filter

end Filtering

section Derivation

variable {η : Type} [Handler η] {filter : Filter η} {name : String} {chain : List Derivation}

theorem derive_underlying (filter : Filter η) (derivation : Derivation) :
    (derive filter derivation).underlying = derive filter.underlying derivation := by
  cases derivation with
  | group name =>
    simp only [derive]
    split <;> rfl
  | entries given => cases given <;> rfl

theorem foldl_derive_underlying (filter : Filter η) (chain : List Derivation) :
    (chain.foldl derive filter).underlying = chain.foldl derive filter.underlying := by
  induction chain generalizing filter with
  | nil => rfl
  | cons derivation chain ih => rw [List.foldl_cons, List.foldl_cons, ih, derive_underlying]

theorem derive_minimum (sink : Sink) (derivation : Derivation) : (derive sink derivation).minimum = sink.minimum := by
  cases derivation with
  | group name =>
    simp only [derive]
    split <;> rfl
  | entries given => cases given <;> rfl

theorem foldl_derive_minimum (sink : Sink) (chain : List Derivation) :
    (chain.foldl derive sink).minimum = sink.minimum := by
  induction chain generalizing sink with
  | nil => rfl
  | cons derivation chain ih => rw [List.foldl_cons, ih, derive_minimum]

/-- A derivation adds the sections that its entries name, and a group adds none. -/
theorem mem_sections_derive {derivation : Derivation} : name ∈ (derive filter derivation).sections ↔
    name ∈ filter.sections ∨ ∃ given, derivation = .entries given ∧
      ∃ entry ∈ given, entry.key = "section" ∧ entry.value.printed = name := by
  cases derivation with
  | group group =>
    simp only [derive, reduceCtorEq, false_and, exists_false, or_false]
    split <;> rfl
  | entries given =>
    simp only [Derivation.entries.injEq, exists_eq_left']
    cases given with
    | nil => simp [derive]
    | cons entry given => exact Filter.mem_collect

/-- No derivation drops what has been collected before, whatever groups have been opened in between. -/
theorem mem_sections_foldl : name ∈ (chain.foldl derive filter).sections ↔
    name ∈ filter.sections ∨ ∃ given, .entries given ∈ chain ∧
      ∃ entry ∈ given, entry.key = "section" ∧ entry.value.printed = name := by
  induction chain generalizing filter with
  | nil => simp
  | cons derivation chain ih =>
    simp only [List.foldl_cons, ih, mem_sections_derive, List.mem_cons, or_assoc, or_and_right, exists_or,
      eq_comm (a := derivation)]

end Derivation

section Decision

variable {chain : List Derivation} {record : Record} {entry : Entry} {minimum : Int}

def Attached (chain : List Derivation) (record : Record) (entry : Entry) : Prop :=
  entry ∈ record.entries ∨ ∃ given, .entries given ∈ chain ∧ entry ∈ given

/-- The record is to be written if sections are named by this text of a value. -/
def Due (text : Value → String) (minimum : Int) (chain : List Derivation) (record : Record) : Prop :=
  minimum ≤ record.level ∧ (warnLevel ≤ record.level ∨ ∃ entry, Attached chain record entry ∧
    entry.key = "section" ∧ ("texp".toList <+: (text entry.value).toList ∨ "cli".toList <+: (text entry.value).toList))

theorem Due.congr {text text' : Value → String}
    (h : ∀ entry, Attached chain record entry → entry.key = "section" → text entry.value = text' entry.value) :
    Due text minimum chain record ↔ Due text' minimum chain record := by
  refine and_congr_right fun _ ↦ or_congr_right (exists_congr fun entry ↦ ?_)
  refine and_congr_right fun ha ↦ and_congr_right fun hkey ↦ ?_
  rw [h entry ha hkey]

@[simp]
theorem enabled_sink (sink : Sink) (level : Int) : Handler.enabled sink level = isEnabled sink.minimum level :=
  rfl

@[simp]
theorem enabled_filter {η : Type} [Handler η] (filter : Filter η) (level : Int) :
    Handler.enabled filter level = Handler.enabled filter.underlying level :=
  rfl

theorem handle_filter {η : Type} [Handler η] (filter : Filter η) (record : Record) :
    Handler.handle filter record =
      if isEnabled warnLevel record.level then Handler.handle filter.underlying record
      else if !filter.wants record.entries then "" else Handler.handle filter.underlying record :=
  rfl

theorem handle_sink_ne_empty (sink : Sink) (record : Record) : Handler.handle sink record ≠ "" := by
  simp [Handler.handle]

theorem handle_filter_iff {filter : Filter Sink} : Handler.handle filter record ≠ "" ↔
    warnLevel ≤ record.level ∨ filter.wants record.entries = true := by
  have hsink := handle_sink_ne_empty filter.underlying record
  rw [handle_filter]
  by_cases hwarn : warnLevel ≤ record.level
  · simp [isEnabled, hwarn, hsink]
  · cases hwants : filter.wants record.entries <;> simp [isEnabled, hwarn, hsink]

theorem log_filter_iff {filter : Filter Sink} : log filter record ≠ "" ↔
    filter.underlying.minimum ≤ record.level ∧ (warnLevel ≤ record.level ∨ filter.wants record.entries = true) := by
  rw [log, ← handle_filter_iff]
  by_cases hmin : filter.underlying.minimum ≤ record.level <;> simp [isEnabled, hmin]

def direct (minimum : Int) : Filter Sink :=
  (logger minimum).underlying

theorem log_direct_iff (minimum : Int) (chain : List Derivation) (record : Record) :
    log (chain.foldl derive (direct minimum)) record ≠ "" ↔ Due Value.printed minimum chain record := by
  rw [log_filter_iff, foldl_derive_underlying, foldl_derive_minimum, Filter.wants_iff]
  refine and_congr_right fun _ ↦ or_congr_right ?_
  have hnone : (direct minimum).sections = [] := rfl
  simp only [mem_sections_foldl, hnone, List.not_mem_nil, false_or, sectionEnabled_iff]
  constructor
  · rintro (⟨_, ⟨given, hgiven, entry, hentry, hkey, rfl⟩, henabled⟩ | ⟨entry, hentry, hkey, henabled⟩)
    · exact ⟨entry, .inr ⟨given, hgiven, hentry⟩, hkey, henabled⟩
    · exact ⟨entry, .inl hentry, hkey, henabled⟩
  · rintro ⟨entry, hentry | ⟨given, hgiven, hentry⟩, hkey, henabled⟩
    · exact .inr ⟨entry, hentry, hkey, henabled⟩
    · exact .inl ⟨_, ⟨given, hgiven, entry, hentry, hkey, rfl⟩, henabled⟩

end Decision

section Deferral

variable {chain : List Derivation} {record : Record} {entry : Entry} {η : Type} [Handler η]

def Derivation.defer : Derivation → Derivation
  | group name => group name
  | entries given => entries (given.map Entry.defer)

def Record.defer (record : Record) : Record :=
  { record with entries := record.entries.map Entry.defer }

theorem Derivation.defer_defer (derivation : Derivation) : derivation.defer.defer = derivation.defer := by
  cases derivation with
  | group name => rfl
  | entries given => simp [defer, Entry.defer_defer]

theorem Record.defer_defer (record : Record) : record.defer.defer = record.defer := by
  simp [defer, Entry.defer_defer]

theorem derive_deferring (handler : η) (derivation : Derivation) :
    derive (⟨handler⟩ : Deferring η) derivation = ⟨derive handler derivation.defer⟩ := by
  cases derivation with
  | group name =>
    simp only [derive, Derivation.defer]
    split <;> rfl
  | entries given => cases given <;> rfl

/-- What is derived from a handler that puts values off puts them off too, all along the chain. -/
theorem foldl_derive_deferring (handler : η) (chain : List Derivation) :
    chain.foldl derive (⟨handler⟩ : Deferring η) = ⟨(chain.map Derivation.defer).foldl derive handler⟩ := by
  induction chain generalizing handler with
  | nil => rfl
  | cons derivation chain ih => rw [List.foldl_cons, derive_deferring, ih, List.map_cons, List.foldl_cons]

theorem log_deferring (handler : η) (record : Record) :
    log (⟨handler⟩ : Deferring η) record = log handler record.defer :=
  rfl

/-- It makes no difference whether values have been put off before. -/
theorem log_deferring_defer (handler : η) (chain : List Derivation) (record : Record) :
    log ((chain.map Derivation.defer).foldl derive (⟨handler⟩ : Deferring η)) record.defer =
      log (chain.foldl derive (⟨handler⟩ : Deferring η)) record := by
  have hchain : (chain.map Derivation.defer).map Derivation.defer = chain.map Derivation.defer := by
    simp [Derivation.defer_defer]
  rw [foldl_derive_deferring, foldl_derive_deferring, log_deferring, log_deferring, hchain, Record.defer_defer]

theorem attached_defer : Attached (chain.map Derivation.defer) record.defer entry ↔
    ∃ original, Attached chain record original ∧ original.defer = entry := by
  constructor
  · rintro (hentry | ⟨given, hgiven, hentry⟩)
    · obtain ⟨original, horiginal, rfl⟩ := List.mem_map.1 hentry
      exact ⟨original, .inl horiginal, rfl⟩
    · obtain ⟨derivation, hderivation, hdefer⟩ := List.mem_map.1 hgiven
      cases derivation with
      | group name => cases hdefer
      | entries originals =>
        cases hdefer
        obtain ⟨original, horiginal, rfl⟩ := List.mem_map.1 hentry
        exact ⟨original, .inr ⟨originals, hderivation, horiginal⟩, rfl⟩
  · rintro ⟨original, hentry | ⟨given, hgiven, hentry⟩, rfl⟩
    · exact .inl (List.mem_map_of_mem hentry)
    · exact .inr ⟨_, List.mem_map_of_mem hgiven, List.mem_map_of_mem hentry⟩

/-- A value that has been put off is printed as the text that it gives for itself. -/
theorem due_defer (minimum : Int) (chain : List Derivation) (record : Record) :
    Due Value.printed minimum (chain.map Derivation.defer) record.defer ↔
      Due Value.ownText minimum chain record := by
  refine and_congr_right fun _ ↦ or_congr_right ?_
  simp only [attached_defer]
  constructor
  · rintro ⟨_, ⟨entry, ha, rfl⟩, hkey, htext⟩
    refine ⟨entry, ha, hkey, ?_⟩
    rwa [Entry.defer, Value.printed_defer] at htext
  · rintro ⟨entry, ha, hkey, htext⟩
    refine ⟨_, ⟨entry, ha, rfl⟩, hkey, ?_⟩
    rwa [Entry.defer, Value.printed_defer]

end Deferral

/-- Putting a value off decides whether the record is written if the value is printed otherwise than it gives itself. -/
theorem log_written_two_texts :
    log (logger 0) ⟨0, "done", [⟨"section", .object { printed := "other", own? := some "texp" }⟩]⟩ =
        "level=INFO msg=done section=texp\n" ∧
      log (direct 0) ⟨0, "done", [⟨"section", .object { printed := "other", own? := some "texp" }⟩]⟩ = "" := by
  decide +kernel

end TypeAlgebra.Journal
