import Zenith.Lib.Lines
import Zenith.Storage.MemTable

/-!
# Zenith — the write-ahead log

`wal.cpp` frames its records as text: `PUT|key|value` and `DEL|key`, one a line. Keys and
values are arbitrary bytes, and nothing escapes the two bytes that frame them. `replay`
reads the log in chunks, cuts it at newlines and splits each line at `|`.

A line of two or three fields with the right operation is put into the table, and any other
is skipped without a word: an empty line, one with a field too many, one with another
operation. The source takes for granted that a line is a record; what follows if it is not
is for the model to say.

A record is `Clean` when it contains neither framing byte. The values of the database are
serialized registers, so they are never empty, but they may well hold a `|` or a newline: in
the user's value, and in the counts of a clock, of which ten is the first that does.

Main results:

* `replay_encodeRecords` — clean records are replayed one by one, in order;
* `clean_of_replay` — whatever the log contains, replay puts only clean records into the
  table, so a record that is not clean is never recovered.
-/

namespace Zenith

open Bytes

/-- `split` of `utils.h`: empty fields are kept for every delimiter but the null
character. -/
def split (s : Bytes) (delim : UInt8) : List Bytes :=
  (Lines.fields delim s).filter fun item => decide (item ≠ []) || decide (delim ≠ 0)

namespace Wal

/-- The character `|`. -/
def bar : UInt8 := 124

/-- `PUT` -/
def opPut : Bytes := [80, 85, 84]

/-- `DEL` -/
def opDel : Bytes := [68, 69, 76]

/-- The line that `append` writes for a record. -/
def encodeLine (record : Bytes) : Bytes := record ++ [Lines.newline]

/-- The line of a put: `PUT|key|value` and a newline. -/
def encodeRecord (r : Bytes × Bytes) : Bytes :=
  encodeLine (opPut ++ bar :: (r.1 ++ bar :: r.2))

/-- What `replay` does with one line. -/
def replayLine (mt : MemTable) (line : Bytes) : MemTable :=
  if line = [] then mt
  else
    match split line bar with
    | [op, key, value] => if op = opPut then mt.put key value else mt
    | [op, key] => if op = opDel then mt.remove key else mt
    | _ => mt

/-- Replays a log that is read in the given chunks. -/
def replay (mt : MemTable) (chunks : List Bytes) : MemTable :=
  Lines.readAll replayLine mt [] chunks

-- ---------------------------------------------------------------------------
-- Clean records
-- ---------------------------------------------------------------------------

/-- Free of the two framing bytes. -/
def CleanBytes (bs : Bytes) : Prop := Lines.newline ∉ bs ∧ bar ∉ bs

instance (bs : Bytes) : Decidable (CleanBytes bs) := by
  unfold CleanBytes
  infer_instance

/-- Both of its parts are. -/
def Clean (r : Bytes × Bytes) : Prop := CleanBytes r.1 ∧ CleanBytes r.2

instance (r : Bytes × Bytes) : Decidable (Clean r) := by
  unfold Clean
  infer_instance

/-- At `|` no field is dropped. -/
theorem split_bar (s : Bytes) : split s bar = Lines.fields bar s := by
  rw [split, List.filter_eq_self]
  intro item _
  rw [Bool.or_eq_true]
  exact Or.inr (by decide)

/-- The line of a clean record splits into its three parts. -/
theorem split_record {key value : Bytes} (hk : CleanBytes key) (hv : CleanBytes value)
    (hne : value ≠ []) :
    split (opPut ++ bar :: (key ++ bar :: value)) bar = [opPut, key, value] := by
  rw [split_bar, Lines.fields_append (by decide), Lines.fields_append hk.2,
    Lines.fields_of_not_mem hv.2 hne]

/-- One clean record is read back as it was written. -/
theorem replayLine_record {r : Bytes × Bytes} (h : Clean r) (hne : r.2 ≠ []) (mt : MemTable) :
    replayLine mt (opPut ++ bar :: (r.1 ++ bar :: r.2)) = mt.put r.1 r.2 := by
  have hline : opPut ++ bar :: (r.1 ++ bar :: r.2) ≠ [] := by simp [opPut]
  rw [replayLine, if_neg hline, split_record h.1 h.2 hne]
  exact if_pos rfl

/-- Its line has no newline but the last. -/
theorem newline_not_mem_record {r : Bytes × Bytes} (h : Clean r) :
    Lines.newline ∉ opPut ++ bar :: (r.1 ++ bar :: r.2) := by
  rw [List.mem_append, List.mem_cons, List.mem_append, List.mem_cons]
  rintro (hm | hm | hm | hm | hm)
  · exact absurd hm (by decide)
  · exact absurd hm (by decide)
  · exact h.1.1 hm
  · exact absurd hm (by decide)
  · exact h.2.1 hm

/-- The first line of a log that begins with a record. -/
theorem completeLines_record {r : Bytes × Bytes} (h : Clean r) (rest : Bytes) :
    Lines.completeLines (encodeRecord r ++ rest) =
      (opPut ++ bar :: (r.1 ++ bar :: r.2)) :: Lines.completeLines rest := by
  have := Lines.completeLines_line (newline_not_mem_record h) rest
  rw [encodeRecord, encodeLine, List.append_assoc]
  exact this

/-- **Clean logs.** Replaying the records of a clean log puts them into the table
one by one. -/
theorem replay_encodeRecords {rs : List (Bytes × Bytes)} (hclean : ∀ r ∈ rs, Clean r)
    (hne : ∀ r ∈ rs, r.2 ≠ []) {chunks : List Bytes} (hchunks : ∀ c ∈ chunks, c ≠ [])
    (hlog : chunks.flatten = rs.flatMap encodeRecord) (mt : MemTable) :
    replay mt chunks = rs.foldl (fun m r => m.put r.1 r.2) mt := by
  rw [replay, Lines.readAll_eq hchunks, hlog]
  clear hlog
  -- by induction on the records
  induction rs generalizing mt with
  | nil => rfl
  | cons r rs ih =>
    rw [List.flatMap_cons, completeLines_record (hclean r (List.mem_cons_self ..)),
      List.foldl_cons, replayLine_record (hclean r (List.mem_cons_self ..))
        (hne r (List.mem_cons_self ..)), List.foldl_cons]
    apply ih
    · intro r' hr'
      exact hclean r' (List.mem_cons_of_mem _ hr')
    · intro r' hr'
      exact hne r' (List.mem_cons_of_mem _ hr')

-- ---------------------------------------------------------------------------
-- What replay can recover
-- ---------------------------------------------------------------------------

/-- A field of a line is clean: it was cut at both bytes. -/
theorem clean_of_mem_split {line x : Bytes} (hline : Lines.newline ∉ line)
    (hx : x ∈ split line bar) : CleanBytes x := by
  rw [split_bar] at hx
  obtain ⟨hbar, hsub⟩ := Lines.of_mem_fieldsFrom List.not_mem_nil hx
  refine ⟨?_, hbar⟩
  intro hmem
  rcases hsub _ hmem with h | h
  · exact absurd h List.not_mem_nil
  · exact hline h

/-- One line adds at most one entry, and a clean one. -/
theorem clean_of_replayLine {mt : MemTable} {line : Bytes} (hline : Lines.newline ∉ line)
    (hmt : ∀ key value, mt.get key = some value → Clean (key, value)) :
    ∀ key value, (replayLine mt line).get key = some value → Clean (key, value) := by
  intro key value h
  have hput : ∀ k v, CleanBytes k → CleanBytes v → (mt.put k v).get key = some value →
      Clean (key, value) := by
    intro k v hk hv hget
    rw [MemTable.get_put] at hget
    split at hget
    · next heq =>
      rw [heq, ← Option.some.inj hget]
      exact ⟨hk, hv⟩
    · exact hmt key value hget
  -- the fields are parts of a line, so no bar and no newline is left in them
  have hparts : ∀ x ∈ split line bar, CleanBytes x := fun x hx => clean_of_mem_split hline hx
  -- two fields or three are put, if the operation is right; all others leave the table
  rw [replayLine] at h
  split at h
  · exact hmt key value h
  · split at h
    · next op k v heq =>
      rw [heq] at hparts
      split at h
      · exact hput k v (hparts k (by simp)) (hparts v (by simp)) h
      · exact hmt key value h
    · next op k heq =>
      rw [heq] at hparts
      split at h
      · exact hput k [] (hparts k (by simp)) ⟨List.not_mem_nil, List.not_mem_nil⟩ h
      · exact hmt key value h
    · exact hmt key value h

/-- **Only clean records are recovered**, whatever the log contains. -/
theorem clean_of_replay {chunks : List Bytes} (hchunks : ∀ c ∈ chunks, c ≠ [])
    {key value : Bytes} (h : (replay .new chunks).get key = some value) : Clean (key, value) := by
  -- for any table to begin with, by induction on the lines
  have hfold : ∀ (lines : List Bytes) (mt : MemTable), (∀ l ∈ lines, Lines.newline ∉ l) →
      (∀ k v, mt.get k = some v → Clean (k, v)) →
      ∀ k v, (lines.foldl replayLine mt).get k = some v → Clean (k, v) := by
    intro lines
    induction lines with
    | nil =>
      intro mt _ hmt
      exact hmt
    | cons line lines ih =>
      intro mt hlines hmt
      apply ih
      · intro l hl
        exact hlines l (List.mem_cons_of_mem _ hl)
      · exact clean_of_replayLine (hlines line (List.mem_cons_self ..)) hmt
  rw [replay, Lines.readAll_eq hchunks] at h
  refine hfold _ _ ?_ ?_ key value h
  · intro l hl
    exact Lines.newline_not_mem_of_mem_linesFrom List.not_mem_nil hl
  · intro k v hget
    rw [MemTable.get_new] at hget
    exact absurd hget (by simp)

end Wal

end Zenith
