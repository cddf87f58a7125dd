import AccessControl.Proofs.Csv.RoundTrip
import AccessControl.Store.File
/-!
# The lines of a store in a file

A file gives back the text that was written to it, so a store in a file gives back the lines that were
saved, each field without the blanks around it.  Three kinds of lines would be lost: one that starts like a
comment or a byte order mark, one without fields behind the name, and one of nothing but blanks.

    s.write lines = (.ok (), t) → t.lines = .ok (lines.map (·.map Text.trim))
                                                                       (`FileStore.lines_write`)
-/

namespace AccessControl

/-- A line that a policy file can hold. -/
structure Line.Storable (line : Line) : Prop where
  unmarked : Csv.Unmarked line
  long : 2 ≤ line.length
  stated : ∃ field ∈ line, Text.trim field ≠ ""

/-- A text survives being written as bytes. -/
theorem fromUTF8?_toUTF8 (text : String) : String.fromUTF8? text.toUTF8 = some text := by
  unfold String.fromUTF8?
  rw [String.toUTF8_eq_toByteArray, dif_pos text.isValidUTF8]
  rfl

theorem TextFile.read_write {f k : TextFile} {text : String} (h : f.write text = (.ok (), k)) :
    k.read = .ok text := by
  unfold TextFile.write at h
  split at h
  · next hdir =>
    rw [← (Prod.mk.inj h).2]
    unfold TextFile.read
    dsimp only
    rw [if_pos hdir, fromUTF8?_toUTF8]
  · simp at h

/-- No record is skipped or refused when each has a name, a field and some text. -/
theorem linesOfRecords_eq {records : List Csv.Record}
    (h : ∀ r ∈ records, 2 ≤ r.fields.length ∧ ∃ field ∈ r.fields, field ≠ "") :
    linesOfRecords records = .ok (records.map (·.fields)) := by
  induction records with
  | nil => rfl
  | cons r rest ih =>
    obtain ⟨⟨hlong, field, hfield, hne⟩, hrest⟩ := List.forall_mem_cons.1 h
    have hstated : ¬r.fields.all (·.isEmpty) = true := by
      rw [List.all_eq_true]
      intro hall
      exact hne (String.isEmpty_iff.1 (hall field hfield))
    rw [linesOfRecords, if_neg hstated, if_neg (by omega), ih hrest]
    rfl

namespace FileStore

/-- The lines that were written come back, without the blanks around their fields. -/
theorem lines_write {s t : FileStore} {lines : List Line} (hlines : ∀ line ∈ lines, line.Storable)
    (h : s.write lines = (.ok (), t)) : t.lines = .ok (lines.map (·.map Text.trim)) := by
  unfold FileStore.write at h
  split at h
  · next file hwrite =>
    rw [← (Prod.mk.inj h).2]
    have hfields := Csv.fields_records_write fun line hline => (hlines line hline).unmarked
    have hrecords : ∀ r ∈ Csv.records (Csv.write lines),
        2 ≤ r.fields.length ∧ ∃ field ∈ r.fields, field ≠ "" := by
      intro r hr
      have hmem : r.fields ∈ lines.map (·.map Text.trim) := hfields ▸ List.mem_map_of_mem hr
      obtain ⟨line, hline, heq⟩ := List.mem_map.1 hmem
      obtain ⟨-, hlong, field, hfield, hne⟩ := hlines line hline
      rw [← heq]
      exact ⟨by rwa [List.length_map], Text.trim field, List.mem_map_of_mem hfield, hne⟩
    unfold FileStore.lines
    dsimp only
    rw [TextFile.read_write hwrite]
    dsimp only
    rw [linesOfRecords_eq hrecords, hfields]
  · simp at h

/-- A store in a file writes whatever it is given, as long as its directory is there. -/
theorem write_ok_iff (s : FileStore) (lines : List Line) :
    (s.write lines).1 = .ok () ↔ s.file.directoryExists = true := by
  unfold FileStore.write TextFile.write
  cases hdir : s.file.directoryExists with
  | true => simp
  | false => simp

end FileStore

end AccessControl
