import Zenith.DB.Step

/-!
# Zenith — what a compaction merges

`execute_compaction` reads every input table with a scan from `""` to `"\xFF\xFF\xFF\xFF"`
and folds the rows into a map: the first version of a key is kept as it is, every later one
is merged into what the map holds.

The upper bound of the scan is not above all keys. Rows whose key is above it are left out,
and the compaction drops them with its inputs.

Tombstones are versions like any other. They are merged and written to the output, and a key
whose last version is a tombstone stays in the tables.

The inputs of the result are files that `SSTable::create` has made of sorted entries
(`InputTable` carries the proof), in any number, with any keys and values. The lengths have
to fit their fields, those of intermediate merges included, because the map holds bytes and
a merge is written and read again for each further version. `Folded` is the invariant of the
loop over the rows: under every key the map holds the merge of the versions so far.

Main result: `compaction_merges_versions` — as long as lengths fit their fields, every key
up to the bound comes out with the merge of its versions in input order; and a key above the
bound never comes out.
-/

namespace Zenith

open Bytes

namespace ZenithDB

/-- An input table of a compaction together with the entries it was written for. -/
structure InputTable where
  sst : TableRef
  entries : List Entry
  file : Bytes
  sorted : entries.Pairwise fun a b => a.1 < b.1
  created : SSTable.create entries = .ok file
  opened : SSTable.openFile file = .ok sst.table

/-- The largest key that a compaction reads. -/
def scanBound : Bytes := [0xFF, 0xFF, 0xFF, 0xFF]

/-- The versions of a key among rows, in order. -/
def versions (rows : List Entry) (key : Bytes) : List Bytes :=
  (rows.filter fun row => decide (row.1 = key)).map (·.2)

/-- The rows of all inputs, in input order. -/
def inputRows (inputs : List InputTable) : List Entry := inputs.flatMap (·.entries)

/-- The merge of registers, from the first to the last. -/
def mergeAll : List LWWRegister → Option LWWRegister
  | [] => none
  | r :: rs => some (rs.foldl LWWRegister.merge r)

/-- The compaction of the inputs reads every version of every key: its rows are
strictly ascending, they have exactly the keys of the inputs, and the register of
a row is the merge of the versions of its key. -/
def MergesVersions (inputs : List InputTable) : Prop :=
  ∃ merged, (inputs.map (·.sst)).foldlM compactTable SortedMap.empty = .ok merged ∧
    (merged.toList.Pairwise fun a b => a.1 < b.1) ∧
    (∀ key, key ∈ merged.keys ↔ ∃ i ∈ inputs, key ∈ i.entries.map Prod.fst) ∧
    ∀ key raw, (key, raw) ∈ merged.toList → ∃ regs whole reg,
      (versions (inputRows inputs) key).mapM LWWRegister.deserialize = .ok regs ∧
        mergeAll regs = some whole ∧ LWWRegister.deserialize raw = .ok reg ∧ reg.Same whole

/-- Every version decodes, and the clock of every partial merge fits its length
field. -/
def PartialsFit (rows : List Entry) : Prop :=
  ∀ key, ∃ regs, (versions rows key).mapM LWWRegister.deserialize = .ok regs ∧
    ∀ pre, pre <+: regs → ∀ r, mergeAll pre = some r → r.clock.Encodable

/-- Every length fits the 32-bit field it is written to: the block sizes and the
number of blocks of every input, and the clocks of all partial merges. -/
def LengthsFit (inputs : List InputTable) : Prop :=
  (∀ i ∈ inputs, SSTable.BlocksFit i.entries ∧ (SSTable.blocksOf i.entries).length < 2 ^ 32) ∧
    PartialsFit (inputRows inputs)

-- ---------------------------------------------------------------------------
-- The fold over the rows
-- ---------------------------------------------------------------------------

/-- A row adds a version to its own key. -/
theorem versions_append (rows : List Entry) (row : Entry) (key : Bytes) :
    versions (rows ++ [row]) key =
      if key = row.1 then versions rows key ++ [row.2] else versions rows key := by
  unfold versions
  rw [List.filter_append, List.map_append]
  by_cases h : key = row.1
  · rw [if_pos h, List.filter_cons_of_pos (by simp [h])]
    rfl
  · rw [if_neg h, List.filter_cons_of_neg (by simpa using Ne.symm h)]
    exact List.append_nil _

/-- One more register is merged into those before it. -/
theorem mergeAll_append (regs : List LWWRegister) (r : LWWRegister) :
    mergeAll (regs ++ [r]) =
      some (match mergeAll regs with
        | none => r
        | some whole => whole.merge r) := by
  cases regs with
  | nil => rfl
  | cons first regs =>
    rw [List.cons_append, mergeAll, mergeAll, List.foldl_append]
    rfl

/-- What the map holds after some rows: under every key the merge of its versions. -/
def Folded (rows : List Entry) (merged : SortedMap Bytes Bytes) : Prop :=
  ∀ key, ∃ regs, (versions rows key).mapM LWWRegister.deserialize = .ok regs ∧
    (merged.get? key).map LWWRegister.deserialize = (mergeAll regs).map .ok

/-- Bytes that can all be read can be read without the last of them. -/
theorem mapM_append_singleton {raws : List Bytes} {raw : Bytes} {regs : List LWWRegister}
    (h : (raws ++ [raw]).mapM LWWRegister.deserialize = .ok regs) :
    ∃ front r, raws.mapM LWWRegister.deserialize = .ok front ∧
      LWWRegister.deserialize raw = .ok r ∧ regs = front ++ [r] := by
  rw [List.mapM_append] at h
  obtain ⟨front, hfront, h⟩ := Except.bind_eq_ok_iff.mp h
  obtain ⟨back, hback, h⟩ := Except.bind_eq_ok_iff.mp h
  rw [List.mapM_cons, List.mapM_nil] at hback
  obtain ⟨r, hr, hback⟩ := Except.bind_eq_ok_iff.mp hback
  obtain rfl := Except.ok.inj hback
  exact ⟨front, r, hfront, hr, (Except.ok.inj h).symm⟩

/-- Fewer rows have shorter partial merges. -/
theorem PartialsFit.init {rows : List Entry} {row : Entry} (h : PartialsFit (rows ++ [row])) :
    PartialsFit rows := by
  intro key
  obtain ⟨regs, hregs, hfit⟩ := h key
  rw [versions_append] at hregs
  by_cases hkey : key = row.1
  · rw [if_pos hkey] at hregs
    obtain ⟨front, r, hfront, -, rfl⟩ := mapM_append_singleton hregs
    exact ⟨front, hfront, fun pre hpre => hfit pre (hpre.trans (List.prefix_append _ _))⟩
  · rw [if_neg hkey] at hregs
    exact ⟨regs, hregs, hfit⟩

/-- **One row** joins the versions of its key and leaves the other keys alone. -/
theorem Folded.compactRow {rows : List Entry} {merged : SortedMap Bytes Bytes}
    (h : Folded rows merged) {row : Entry} (hfit : PartialsFit (rows ++ [row])) :
    ∃ next, compactRow merged row = .ok next ∧ Folded (rows ++ [row]) next := by
  obtain ⟨regs, hregs, hencodable⟩ := hfit row.1
  rw [versions_append, if_pos rfl] at hregs
  obtain ⟨front, r, hfront, hr, rfl⟩ := mapM_append_singleton hregs
  obtain ⟨front', hfront', hget⟩ := h row.1
  rw [hfront] at hfront'
  obtain rfl := Except.ok.inj hfront'
  -- whatever is stored under the key, it decodes to the merge of all versions
  have hstore : ∀ raw whole, mergeAll (front ++ [r]) = some whole →
      LWWRegister.deserialize raw = .ok whole → Folded (rows ++ [row]) (merged.insert row.1 raw) := by
    intro raw whole hwhole hraw key
    rw [versions_append, SortedMap.get?_insert]
    by_cases hkey : key = row.1
    · rw [if_pos hkey, if_pos hkey, hkey]
      exact ⟨front ++ [r], hregs, by rw [Option.map_some, hraw, hwhole]; rfl⟩
    · rw [if_neg hkey, if_neg hkey]
      exact h key
  rw [ZenithDB.compactRow, hr, Except.ok_bind]
  rw [mergeAll_append] at hstore
  -- the first version of a key is stored as it is, a later one merged into what is there
  cases hold : merged.get? row.1 with
  | none =>
    rw [hold] at hget
    have hnone : mergeAll front = none := by
      cases hm : mergeAll front with
      | none => rfl
      | some whole =>
        rw [hm] at hget
        exact absurd hget (by simp)
    rw [hnone] at hstore
    exact ⟨_, rfl, hstore row.2 r rfl hr⟩
  | some raw =>
    rw [hold] at hget
    cases hm : mergeAll front with
    | none =>
      rw [hm] at hget
      exact absurd hget (by simp)
    | some existing =>
      rw [hm] at hget
      -- what is there is the merge of the versions in front, so the new merge is one of theirs
      -- too
      have hexisting : LWWRegister.deserialize raw = .ok existing := Option.some.inj hget
      -- its clock is one of the partial merges, all of which can be encoded
      have hclock := hencodable (front ++ [r]) (List.prefix_refl _) (existing.merge r)
        (by rw [mergeAll_append, hm])
      simp only [hexisting, Except.ok_bind, Except.pure_eq_ok]
      rw [hm] at hstore
      exact ⟨_, rfl, hstore _ _ rfl (LWWRegister.deserialize_serialize hclock)⟩

/-- All rows, by induction on them. -/
theorem folded_rows {done rows : List Entry} {merged : SortedMap Bytes Bytes}
    (h : Folded done merged) (hfit : PartialsFit (done ++ rows)) :
    ∃ out, rows.foldlM compactRow merged = .ok out ∧ Folded (done ++ rows) out := by
  -- row after row; a partial merge of fewer rows is one of all rows
  induction rows generalizing done merged with
  | nil => exact ⟨merged, rfl, by rwa [List.append_nil]⟩
  | cons row rows ih =>
    rw [List.append_cons] at hfit ⊢
    have hfit' : PartialsFit (done ++ [row]) := by
      clear ih
      induction rows using List.reverseRecOn with
      | nil => rwa [List.append_nil] at hfit
      | append_singleton rows last ih =>
        rw [← List.append_assoc] at hfit
        exact ih hfit.init
    obtain ⟨next, hnext, hfolded⟩ := h.compactRow hfit'
    rw [List.foldlM_cons, hnext, Except.ok_bind]
    exact ih hfolded hfit

/-- An input whose keys are all read is read completely. -/
theorem InputTable.scan (i : InputTable) (hfit : SSTable.BlocksFit i.entries)
    (hcount : (SSTable.blocksOf i.entries).length < 2 ^ 32)
    (hkeys : ∀ e ∈ i.entries, e.1 ≤ scanBound) :
    i.sst.table.scan [] scanBound = .ok i.entries := by
  obtain ⟨t, hopen, ht⟩ := SSTable.openFile_create i.created i.sorted hfit
  rw [i.opened] at hopen
  obtain rfl := Except.ok.inj hopen
  rw [ht.scan_all hcount, List.filter_eq_self.mpr]
  intro e he
  rw [SSTable.inRange, Bool.and_eq_true, decide_eq_true_eq, decide_eq_true_eq]
  exact ⟨not_lt.mp (List.not_lt_nil e.1), hkeys e he⟩

/-- The fold over the tables is the fold over the rows that their scans return. -/
theorem foldlM_compactTable {inputs : List TableRef} (rows : TableRef → List Entry)
    (hscan : ∀ sst ∈ inputs, sst.table.scan [] scanBound = .ok (rows sst))
    (merged : SortedMap Bytes Bytes) :
    inputs.foldlM compactTable merged = (inputs.flatMap rows).foldlM compactRow merged := by
  induction inputs generalizing merged with
  | nil => rfl
  | cons sst inputs ih =>
    obtain ⟨hsst, hrest⟩ := List.forall_mem_cons.mp hscan
    have htable : compactTable merged sst = (rows sst).foldlM compactRow merged := by
      unfold compactTable
      rw [← scanBound, hsst]
      rfl
    rw [List.foldlM_cons, htable, List.flatMap_cons, List.foldlM_append]
    congr 1
    funext next
    exact ih hrest next

/-- The rows that the compaction's scan of a table returns. -/
def scannedRows (sst : TableRef) : List Entry := (sst.table.scan [] scanBound).toOption.getD []

theorem scannedRows_eq {sst : TableRef} {rows : List Entry}
    (h : sst.table.scan [] scanBound = .ok rows) : scannedRows sst = rows := by
  rw [scannedRows, h]
  rfl

/-- Inputs that are read completely. -/
theorem flatMap_scannedRows {inputs : List InputTable}
    (hscan : ∀ i ∈ inputs, i.sst.table.scan [] scanBound = .ok i.entries) :
    (inputs.map (·.sst)).flatMap scannedRows = inputRows inputs := by
  unfold inputRows
  rw [List.flatMap_map]
  exact List.flatMap_congr fun i hi => scannedRows_eq (hscan i hi)

-- ---------------------------------------------------------------------------
-- The result
-- ---------------------------------------------------------------------------

/-- A key without versions has no row. -/
theorem versions_eq_nil_iff {rows : List Entry} {key : Bytes} :
    versions rows key = [] ↔ key ∉ rows.map Prod.fst := by
  unfold versions
  rw [List.map_eq_nil_iff, List.filter_eq_nil_iff, List.mem_map, not_exists]
  constructor
  · rintro h row ⟨hrow, hkey⟩
    exact h row hrow (decide_eq_true hkey)
  · intro h row hrow hkey
    exact h row ⟨hrow, of_decide_eq_true hkey⟩

/-- A key that the compaction's scan of a table returns. -/
def Read (sst : TableRef) (key : Bytes) : Prop :=
  ∃ rows, sst.table.scan [] scanBound = .ok rows ∧ key ∈ rows.map Prod.fst

instance (sst : TableRef) (key : Bytes) : Decidable (Read sst key) :=
  inferInstanceAs (Decidable (∃ rows, sst.table.scan [] scanBound = .ok rows ∧
    key ∈ rows.map Prod.fst))

/-- A row adds its key to the map. -/
theorem keys_compactRow {merged next : SortedMap Bytes Bytes} {row : Entry}
    (h : compactRow merged row = .ok next) (key : Bytes) :
    key ∈ next.keys ↔ key = row.1 ∨ key ∈ merged.keys := by
  obtain ⟨incoming, -, h⟩ := Except.bind_eq_ok_iff.mp h
  cases hget : merged.get? row.1 with
  | none =>
    rw [hget] at h
    obtain rfl := Except.ok.inj h
    exact SortedMap.mem_keys_insert
  | some raw =>
    rw [hget] at h
    obtain ⟨existing, -, h⟩ := Except.bind_eq_ok_iff.mp h
    obtain rfl := Except.ok.inj h
    exact SortedMap.mem_keys_insert

theorem keys_compactRows {rows : List Entry} {merged next : SortedMap Bytes Bytes}
    (h : rows.foldlM compactRow merged = .ok next) (key : Bytes) :
    key ∈ next.keys ↔ key ∈ rows.map Prod.fst ∨ key ∈ merged.keys := by
  induction rows generalizing merged with
  | nil =>
    obtain rfl := Except.ok.inj h
    simp
  | cons row rows ih =>
    rw [List.foldlM_cons] at h
    obtain ⟨mid, hmid, h⟩ := Except.bind_eq_ok_iff.mp h
    rw [ih h, keys_compactRow hmid, List.map_cons, List.mem_cons, or_left_comm, or_assoc]

/-- **The keys of a compaction** are the keys that its scans return. -/
theorem keys_compacted {inputs : List TableRef} {merged next : SortedMap Bytes Bytes}
    (h : inputs.foldlM compactTable merged = .ok next) (key : Bytes) :
    key ∈ next.keys ↔ (∃ sst ∈ inputs, Read sst key) ∨ key ∈ merged.keys := by
  induction inputs generalizing merged with
  | nil =>
    obtain rfl := Except.ok.inj h
    simp
  | cons sst inputs ih =>
    rw [List.foldlM_cons] at h
    obtain ⟨mid, hmid, h⟩ := Except.bind_eq_ok_iff.mp h
    obtain ⟨rows, hscan, hrows⟩ := Except.bind_eq_ok_iff.mp hmid
    have hread : key ∈ rows.map Prod.fst ↔ Read sst key := by
      constructor
      · exact fun hkey => ⟨rows, hscan, hkey⟩
      · rintro ⟨rows', hscan', hkey⟩
        obtain rfl := Except.ok.inj (hscan'.symm.trans hscan)
        exact hkey
    rw [ih h, keys_compactRows hrows, hread, List.exists_mem_cons_iff, or_left_comm, or_assoc]

/-- Only keys up to the bound come out of a compaction. -/
theorem le_scanBound_of_compacted {inputs : List TableRef} {merged : SortedMap Bytes Bytes}
    (h : inputs.foldlM compactTable SortedMap.empty = .ok merged) {key : Bytes}
    (hkey : key ∈ merged.keys) : key ≤ scanBound := by
  rcases (keys_compacted h key).mp hkey with ⟨sst, -, rows, hscan, hmem⟩ | hempty
  · obtain ⟨row, hrow, rfl⟩ := List.mem_map.mp hmem
    have hin := SSTable.inRange_of_scan hscan row hrow
    rw [SSTable.inRange, Bool.and_eq_true, decide_eq_true_eq, decide_eq_true_eq] at hin
    exact hin.2
  · exact absurd hempty List.not_mem_nil

/-- **What a compaction keeps.** With lengths that fit, it merges all versions of all keys,
provided that no key is above the scan bound; without that proviso it never does. The two
directions do not share an assumption: that a key above the bound is lost needs no lengths. -/
theorem compaction_merges_versions (inputs : List InputTable) :
    (LengthsFit inputs → (∀ i ∈ inputs, ∀ e ∈ i.entries, e.1 ≤ scanBound) → MergesVersions inputs) ∧
      (MergesVersions inputs → ∀ i ∈ inputs, ∀ e ∈ i.entries, e.1 ≤ scanBound) := by
  constructor
  · rintro ⟨hblocks, hpartials⟩ hkeys
    have hempty : Folded [] SortedMap.empty := fun key => ⟨[], rfl, rfl⟩
    rw [← List.nil_append (inputRows inputs)] at hpartials
    obtain ⟨merged, hmerged, hfolded⟩ := folded_rows hempty hpartials
    rw [List.nil_append] at hfolded
    -- with no key above the bound a scan of an input returns all of its entries
    have hscan : ∀ i ∈ inputs, i.sst.table.scan [] scanBound = .ok i.entries := fun i hi =>
      i.scan (hblocks i hi).1 (hblocks i hi).2 (hkeys i hi)
    have hread : (inputs.map (·.sst)).foldlM compactTable SortedMap.empty = .ok merged := by
      rw [foldlM_compactTable scannedRows ?_, flatMap_scannedRows hscan, hmerged]
      intro sst hsst
      obtain ⟨i, hi, rfl⟩ := List.mem_map.mp hsst
      rw [scannedRows_eq (hscan i hi), hscan i hi]
    refine ⟨merged, hread, merged.sorted, ?_, ?_⟩
    · intro key
      -- a key has a row exactly when it has a version
      have hversions : (∃ i ∈ inputs, key ∈ i.entries.map Prod.fst) ↔
          versions (inputRows inputs) key ≠ [] := by
        rw [ne_eq, versions_eq_nil_iff, not_not, inputRows, List.map_flatMap, List.mem_flatMap]
      obtain ⟨regs, hregs, hget⟩ := hfolded key
      rw [hversions]
      constructor
      -- a key without versions is never inserted
      · intro hkey hnil
        rw [hnil, List.mapM_nil] at hregs
        obtain rfl := Except.ok.inj hregs
        obtain ⟨⟨k, raw⟩, he, rfl⟩ := List.mem_map.mp hkey
        rw [SortedMap.get?_eq_some_iff.mpr he] at hget
        exact absurd hget (by simp [mergeAll])
      -- a key with a version has a merge, and it is stored
      · intro hne
        obtain ⟨raw, raws, hcons⟩ := List.exists_cons_of_ne_nil hne
        rw [hcons, List.mapM_cons] at hregs
        obtain ⟨r, -, hregs⟩ := Except.bind_eq_ok_iff.mp hregs
        obtain ⟨rs, -, hregs⟩ := Except.bind_eq_ok_iff.mp hregs
        obtain rfl := Except.ok.inj hregs
        cases hlookup : merged.get? key with
        | none =>
          rw [hlookup] at hget
          exact absurd hget (by simp [mergeAll])
        | some stored =>
          exact List.mem_map_of_mem (f := Prod.fst) (SortedMap.get?_eq_some_iff.mp hlookup)
    · intro key raw hmem
      obtain ⟨regs, hregs, hget⟩ := hfolded key
      rw [SortedMap.get?_eq_some_iff.mpr hmem, Option.map_some] at hget
      obtain ⟨whole, hwhole, hraw⟩ := Option.map_eq_some_iff.mp hget.symm
      exact ⟨regs, whole, whole, hregs, hwhole, hraw.symm, rfl, fun _ => rfl⟩
  -- a key of the output was returned by a scan, so it is within the bound
  · rintro ⟨merged, hmerged, -, hkeys, -⟩ i hi e he
    have hkey : e.1 ∈ merged.keys := (hkeys e.1).mpr ⟨i, hi, List.mem_map_of_mem he⟩
    exact le_scanBound_of_compacted hmerged hkey

/-- Two tables with one version each of a key, written by two nodes. -/
theorem compaction_merges_versions_two_tables :
    ∃ inputs : List InputTable, inputs.length = 2 ∧ MergesVersions inputs := by
  let old : LWWRegister := ⟨[118], VectorClock.empty.increment [65]⟩
  let new : LWWRegister := ⟨[119], VectorClock.empty.increment [66]⟩
  obtain ⟨f, hf⟩ := Except.exists_eq_ok (x := SSTable.create [([107], old.serialize)])
    (by decide +kernel)
  obtain ⟨g, hg⟩ := Except.exists_eq_ok (x := SSTable.create [([107], new.serialize)])
    (by decide +kernel)
  have hfit : SSTable.BlocksFit [([107], old.serialize)] ∧
      (SSTable.blocksOf [([107], old.serialize)]).length < 2 ^ 32 := by decide +kernel
  have hfit' : SSTable.BlocksFit [([107], new.serialize)] ∧
      (SSTable.blocksOf [([107], new.serialize)]).length < 2 ^ 32 := by decide +kernel
  obtain ⟨t, ht, -⟩ := SSTable.openFile_create hf (by decide) hfit.1
  obtain ⟨u, hu, -⟩ := SSTable.openFile_create hg (by decide) hfit'.1
  let inputs : List InputTable :=
    [⟨⟨0, t⟩, [([107], old.serialize)], f, by decide, hf, ht⟩,
      ⟨⟨1, u⟩, [([107], new.serialize)], g, by decide, hg, hu⟩]
  refine ⟨inputs, rfl, (compaction_merges_versions inputs).1 ⟨?_, ?_⟩ ?_⟩
  · exact List.forall_mem_cons.mpr ⟨hfit, List.forall_mem_singleton.mpr hfit'⟩
  · have hrows : inputRows inputs = [([107], old.serialize), ([107], new.serialize)] := rfl
    -- every partial merge has a clock that the codec keeps
    have hpartial : ∀ pre ∈ [old, new].inits, ∀ r ∈ mergeAll pre, r.clock.Encodable := by
      decide +kernel
    intro key
    rw [hrows]
    by_cases hkey : [107] = key
    · refine ⟨[old, new], ?_, fun pre hpre r hr => hpartial pre ((List.mem_inits ..).mpr hpre) r hr⟩
      rw [← hkey]
      decide +kernel
    · refine ⟨[], by simp [versions, hkey], ?_⟩
      intro pre hpre r hr
      rw [List.prefix_nil.mp hpre] at hr
      exact absurd hr (by simp [mergeAll])
  · refine List.forall_mem_cons.mpr ⟨?_, List.forall_mem_singleton.mpr ?_⟩
    · exact List.forall_mem_singleton.mpr (by decide)
    · exact List.forall_mem_singleton.mpr (by decide)

/-- A key just above the bound disappears: the compaction of its table has no rows. -/
theorem compaction_drops_key :
    (SSTable.create [([0xFF, 0xFF, 0xFF, 0xFF, 0x00],
        LWWRegister.serialize ⟨[118], VectorClock.empty.increment [65]⟩)] >>=
      SSTable.openFile >>= fun t =>
        [(⟨0, t⟩ : TableRef)].foldlM compactTable SortedMap.empty) = .ok SortedMap.empty := by
  decide +kernel

end ZenithDB

end Zenith
