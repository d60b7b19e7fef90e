-- Settings written to a file and loaded from it. Every text and every number that a file
-- can hold comes back, and then the names are checked; settings with a larger number are
-- not written at all.
import StampStore.Proofs.TextBytes
import StampStore.Proofs.WrittenLines
import StampStore.Config.File

namespace StampStore

namespace Config

open Toml (Entries IsBare Line Node Spells Wrote WroteAll)

/-! ## What is written -/

/-- The lines of a file that settings are written to, as they are read. -/
def fileLines (c : Config) : List Line :=
  [.pair ([], "isolation".toList, .text c.isolation.toList),
    .pair ([], "lock_backoff_ns".toList, .integer c.lockBackoffNs.toNat),
    .pair ([], "merge".toList, .text c.merge.toList),
    .header (.table [] "retry".toList),
    .pair ([], "max_retries".toList, .integer c.retry.maxRetries.toNat),
    .pair ([], "base_delay_ms".toList, .integer c.retry.baseDelayMs.toNat),
    .pair ([], "max_delay_ms".toList, .integer c.retry.maxDelayMs.toNat)]

theorem wroteAll_line {key : String} {value : List Char} {node : Node} {document : List Char}
    {lines : List Line} (hkey : IsBare key.toList) (hvalue : Spells value node)
    (h : WroteAll document lines) :
    WroteAll (writeLine key value ++ document) (.pair ([], key.toList, node) :: lines) := by
  have hline := WroteAll.line (.pair hkey hvalue) h
  simpa [writeLine] using hline

theorem wroteAll_header {key : String} {document : List Char} {lines : List Line}
    (hkey : IsBare key.toList) (h : WroteAll document lines) :
    WroteAll ("\n[".toList ++ key.toList ++ "]\n".toList ++ document)
      (.header (.table [] key.toList) :: lines) := by
  have hline := (WroteAll.line (.header hkey) h).blank
  simpa using hline

/-- No key needs quotes. -/
theorem isBare_key : ∀ key ∈ ["isolation", "lock_backoff_ns", "merge", "retry", "max_retries",
    "base_delay_ms", "max_delay_ms"], IsBare key.toList := by
  have hkeys : ∀ key ∈ ["isolation", "lock_backoff_ns", "merge", "retry", "max_retries",
      "base_delay_ms", "max_delay_ms"],
      key.toList ≠ [] ∧ key.toList.all Toml.isBareKeyChar = true := by decide
  exact fun key hkey => ⟨(hkeys key hkey).1, List.all_eq_true.mp (hkeys key hkey).2⟩

/-- The numbers of settings. -/
def numbers (c : Config) : List UInt64 :=
  [c.lockBackoffNs, c.retry.maxRetries, c.retry.baseDelayMs, c.retry.maxDelayMs]

theorem isWritable_iff {c : Config} : c.isWritable = true ↔ ∀ n ∈ c.numbers, n.toNat < 2 ^ 63 := by
  have hmax : ∀ n : Nat, n ≤ maxNumber ↔ n < 2 ^ 63 := by
    intro n
    rw [maxNumber, Nat.pow_eq]
    omega
  simp only [isWritable, List.all_eq_true, decide_eq_true_eq, hmax, numbers]

theorem toText_of_large {c : Config} (h : ∃ n ∈ c.numbers, 2 ^ 63 ≤ n.toNat) :
    c.toText = .error (.config .unserialized) := by
  obtain ⟨n, hn, hlarge⟩ := h
  have hrefused : ¬ c.isWritable = true := by
    rw [isWritable_iff]
    intro hfits
    have := hfits n hn
    omega
  rw [toText, if_neg hrefused]

theorem exists_toText {c : Config} (h : ∀ n ∈ c.numbers, n.toNat < 2 ^ 63) :
    ∃ text, c.toText = .ok text ∧ WroteAll text c.fileLines := by
  have hnumber : ∀ n ∈ c.numbers, Spells (writeNumber n) (.integer n.toNat) :=
    fun n hn => Toml.spells_number (h n hn)
  have hretry := wroteAll_line (isBare_key "max_retries" (by decide))
    (hnumber c.retry.maxRetries (by simp [numbers]))
    (wroteAll_line (isBare_key "base_delay_ms" (by decide))
      (hnumber c.retry.baseDelayMs (by simp [numbers]))
      (wroteAll_line (isBare_key "max_delay_ms" (by decide))
        (hnumber c.retry.maxDelayMs (by simp [numbers])) .nil))
  have hall := wroteAll_line (isBare_key "isolation" (by decide))
    (Toml.spells_text c.isolation.toList)
    (wroteAll_line (isBare_key "lock_backoff_ns" (by decide))
      (hnumber c.lockBackoffNs (by simp [numbers]))
      (wroteAll_line (isBare_key "merge" (by decide)) (Toml.spells_text c.merge.toList)
        (wroteAll_header (isBare_key "retry" (by decide)) hretry)))
  refine ⟨_, by rw [toText, if_pos (isWritable_iff.mpr h)], ?_⟩
  simpa [fileLines] using hall

/-! ## What is read -/

/-- The table of the retry policy. -/
def retryTable (r : RetryPolicy) : Entries :=
  [("max_retries".toList, .integer r.maxRetries.toNat),
    ("base_delay_ms".toList, .integer r.baseDelayMs.toNat),
    ("max_delay_ms".toList, .integer r.maxDelayMs.toNat)]

/-- The table that the lines make. -/
def fileTable (c : Config) : Entries :=
  [("isolation".toList, .text c.isolation.toList),
    ("lock_backoff_ns".toList, .integer c.lockBackoffNs.toNat),
    ("merge".toList, .text c.merge.toList), ("retry".toList, .table .header (retryTable c.retry))]

theorem assemble_fileLines (c : Config) : Toml.assemble c.fileLines = some c.fileTable := rfl

theorem entry?_text {entries : Entries} {key s : String}
    (h : entries.get? key.toList = some (.text s.toList)) (standard : String) :
    entry? entries key standard ofText? = some s := by
  unfold entry?
  simp [h, ofText?]

theorem entry?_number {entries : Entries} {key : String} {n : UInt64}
    (h : entries.get? key.toList = some (.integer n.toNat)) (standard : UInt64) :
    entry? entries key standard ofNumber? = some n := by
  unfold entry?
  simp [h, ofNumber?]

theorem retryOfEntries?_retryTable (r : RetryPolicy) :
    retryOfEntries? (retryTable r) = some r := by
  have hretries : entry? (retryTable r) "max_retries" RetryPolicy.standard.maxRetries ofNumber? =
      some r.maxRetries := entry?_number rfl _
  have hbase : entry? (retryTable r) "base_delay_ms" RetryPolicy.standard.baseDelayMs ofNumber? =
      some r.baseDelayMs := entry?_number rfl _
  have hmax : entry? (retryTable r) "max_delay_ms" RetryPolicy.standard.maxDelayMs ofNumber? =
      some r.maxDelayMs := entry?_number rfl _
  simp [retryOfEntries?, hretries, hbase, hmax]

theorem ofEntries?_fileTable (c : Config) : ofEntries? c.fileTable = some c := by
  have hisolation : entry? c.fileTable "isolation" standard.isolation ofText? = some c.isolation :=
    entry?_text rfl _
  have hbackoff : entry? c.fileTable "lock_backoff_ns" standard.lockBackoffNs ofNumber? =
      some c.lockBackoffNs := entry?_number rfl _
  have hmerge : entry? c.fileTable "merge" standard.merge ofText? = some c.merge :=
    entry?_text rfl _
  have hretry : entry? c.fileTable "retry" standard.retry ofRetry? = some c.retry := by
    have hget : c.fileTable.get? "retry".toList = some (.table .header (retryTable c.retry)) := rfl
    unfold entry?
    rw [hget]
    exact retryOfEntries?_retryTable c.retry
  simp [ofEntries?, hisolation, hbackoff, hmerge, hretry]

/-- A file of these lines says these settings, and their names are checked. -/
theorem ofText_of_wroteAll {c : Config} {text : List Char} (h : WroteAll text c.fileLines) :
    ofText text = c.validate.map fun _ => c := by
  rw [ofText, Toml.read?_of_wroteAll h, assemble_fileLines, Option.bind_some, ofEntries?_fileTable]

end Config

/-- Settings whose numbers a file can hold are written to any file that can be written, whatever it
held, and loading it gives these very settings if their names are good, and otherwise the error of the
check of the names. Settings with a larger number are refused, and every file is left as it is. -/
theorem settings_come_back_from_their_file (c : Config) :
    ((∀ n ∈ c.numbers, n.toNat ≤ 2 ^ 63 - 1) → ∀ file, file ≠ Config.File.noFolder →
      ∃ content, c.save file = (.ok (), .holds content) ∧
        (c.validate = .ok () → Config.load (.holds content) = .ok c) ∧
        ∀ e, c.validate = .error e → Config.load (.holds content) = .error e) ∧
      ((∃ n ∈ c.numbers, 2 ^ 63 - 1 < n.toNat) → ∀ file,
        c.save file = (.error (.config .unserialized), file)) := by
  refine ⟨fun hfits file hfile => ?_, fun ⟨n, hn, hlarge⟩ file => ?_⟩
  · obtain ⟨text, htext, hwrote⟩ := Config.exists_toText (c := c)
      fun n hn => Nat.lt_of_le_of_lt (hfits n hn) (by decide)
    have hload : Config.load (.holds (Utf8.encode text)) = c.validate.map fun _ => c := by
      simp only [Config.load, Config.File.content?, Option.bind_some, Utf8.decode?_encode]
      exact Config.ofText_of_wroteAll hwrote
    refine ⟨Utf8.encode text, ?_, ?_, ?_⟩
    · cases file with
      | noFolder => exact absurd rfl hfile
      | absent => simp only [Config.save, htext]
      | holds old => simp only [Config.save, htext]
    · intro hvalid
      rw [hload, hvalid]
      rfl
    · intro e he
      rw [hload, he]
      rfl
  · have hrefused := Config.toText_of_large ⟨n, hn, by omega⟩
    simp only [Config.save, hrefused]

/-- A level named by quotes of both kinds, a backslash, line ends and other control characters is
written over an old file, read back to the character and then refused; good names and the largest
number come back; a larger number leaves the old file alone. -/
theorem strange_name_is_read_back_and_refused :
    let name := "'\'\'\"\"\"\\\r\n\t\x00é\"\"\""
    let retry : RetryPolicy := ⟨0, 1, 9223372036854775807⟩
    let old : Config.File := .holds [255]
    (∃ content, (Config.mk name 250 "append" retry).save old = (.ok (), .holds content) ∧
        Config.load (.holds content) = .error (.config (.unknownIsolation name))) ∧
      (∃ content, (Config.mk "snapshot" 250 "append" retry).save old = (.ok (), .holds content) ∧
        Config.load (.holds content) = .ok ⟨"snapshot", 250, "append", retry⟩) ∧
      (Config.mk "snapshot" 9223372036854775808 "append" retry).save old =
        (.error (.config .unserialized), old) := by
  intro name retry old
  have hold : Config.File.holds [255] ≠ .noFolder := by decide
  have hfits : ∀ isolation, ∀ n ∈ (Config.mk isolation 250 "append" retry).numbers,
      n.toNat ≤ 2 ^ 63 - 1 := by
    simp [Config.numbers, retry]
  obtain ⟨content, hsave, -, hrefused⟩ :=
    (settings_come_back_from_their_file ⟨name, 250, "append", retry⟩).1 (hfits name) old hold
  obtain ⟨content', hsave', hgood, -⟩ :=
    (settings_come_back_from_their_file ⟨"snapshot", 250, "append", retry⟩).1
      (hfits "snapshot") old hold
  exact ⟨⟨content, hsave, hrefused _ rfl⟩, ⟨content', hsave', hgood rfl⟩,
    (settings_come_back_from_their_file ⟨"snapshot", 9223372036854775808, "append", retry⟩).2
      ⟨9223372036854775808, by decide, by decide⟩ old⟩

end StampStore
