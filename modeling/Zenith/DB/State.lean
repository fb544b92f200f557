import Zenith.Crdt.Codec
import Zenith.SSTable.Scan
import Zenith.Storage.Wal
import Zenith.Storage.Manifest
import Zenith.Lib.Levels

/-!
# Zenith — the state of a database

The fields of `ZenithDB`, its directory on disk and its background worker, and the two reads
of `db.cpp` that see all of them: `get_crdt`, which stops at the first version it finds, and
`scan_crdt`, which merges all versions.

Shared tables are compared by identity in the code (`fe.sst == input_sst`), so a table
reference carries an address. A table holds the bytes of its file: no file is written again
while a table over it is open, since the names of one process differ in their counter.

Atomic pointers to the memtable, the list of frozen memtables and the layout are plain
fields. A read here sees one state; `Zenith.DB.Rotation` and `Zenith.DB.ConcurrentScan` take
the loads of a read apart.

Reads return `Except`: a register that cannot be deserialized throws, and so does a block
that is cut off. Of an exception of a table read nothing is caught on the way to the caller.

The loops of the source are recursive functions over the lists they go through, one for each
loop: the tables of a level, the levels, the rows that are merged, the rows that are
deserialized. Their names are those of the source where it has one.

`Platform` collects what the language and the operating system leave open: the order that
`std::sort` gives to equal elements, and how a file is cut into the chunks that a reader
gets. It is a parameter of everything that depends on it, and `Platform.stable` is one for
examples.
-/

namespace Zenith

open Bytes

/-- A `std::shared_ptr<SSTable>`. -/
structure TableRef where
  addr : Nat
  table : SSTable
  deriving DecidableEq

/-- A table in the layout, with the key range that the constructor of the table put into its
metadata. -/
structure FileEntry where
  sst : TableRef
  minKey : Bytes
  maxKey : Bytes
  deriving DecidableEq

/-- The tables of each level. -/
abbrev Layout := List (List FileEntry)

/-- A memtable that takes no more writes. It stays in the list after its flush. -/
structure ImmNode where
  mt : MemTable
  flushed : Bool

/-- What `plan_compaction` found: the names that the level lists and the tables that the
layout has there. The output is filled in by the execution. -/
structure CompactionTask where
  level : Nat
  inputFilenames : List Bytes
  inputSsts : List TableRef
  outputFilename : Bytes
  outputSst : Option TableRef

/-- Where the loop of `background_worker` is. -/
inductive Worker
  | flushing
  | planning
  | executing (task : CompactionTask)
  | applying (task : CompactionTask)

/-- The data directory: the two logs, and the table files by name. -/
structure Disk where
  wal : Bytes
  manifest : Bytes
  files : SortedMap Bytes Bytes

/-- A directory with nothing in it. -/
def Disk.empty : Disk := ⟨[], [], SortedMap.empty⟩

/-- The fields of the class, with the directory and the place of the worker's loop. -/
structure ZenithDB where
  nodeId : NodeID
  localClock : VectorClock
  activeMem : MemTable
  /-- newest first -/
  immut : List ImmNode
  layout : Layout
  levelsMeta : List (List Bytes)
  disk : Disk
  /-- the next address a table will get -/
  nextAddr : Nat
  /-- the file name counter of the process -/
  counter : Nat
  worker : Worker

/-- What the language and the operating system leave open. -/
structure Platform where
  /-- `std::sort` of rows by key -/
  sortRows : List Entry → List Entry
  sortRows_perm : ∀ rows, (sortRows rows).Perm rows
  sortRows_sorted : ∀ rows, (sortRows rows).Pairwise fun a b => a.1 ≤ b.1
  /-- `std::sort` of file entries by smallest key -/
  sortFiles : List FileEntry → List FileEntry
  sortFiles_perm : ∀ files, (sortFiles files).Perm files
  sortFiles_sorted : ∀ files, (sortFiles files).Pairwise fun a b => a.minKey ≤ b.minKey
  /-- the pieces that reads of at most `n` bytes return until the end of the file -/
  readChunks : Nat → Bytes → List Bytes
  readChunks_ne : ∀ n content, ∀ c ∈ readChunks n content, c ≠ []
  readChunks_flatten : ∀ n content, (readChunks n content).flatten = content

namespace Platform

/-- A file read in pieces of `n` bytes; the last piece may be shorter. -/
def chunks (n : Nat) (content : Bytes) : List Bytes :=
  if content = [] then []
  else if n = 0 then [content]
  else content.take n :: chunks n (content.drop n)
termination_by content.length
decreasing_by
  have := List.length_pos_iff.mpr ‹content ≠ []›
  rw [List.length_drop]
  omega

/-- No piece is empty, and together they are the file. -/
theorem chunks_spec (n : Nat) (content : Bytes) :
    (∀ c ∈ chunks n content, c ≠ []) ∧ (chunks n content).flatten = content := by
  induction content using chunks.induct n with
  | case1 => simp [chunks]
  | case2 content hne hn => simp [chunks, hne, hn]
  | case3 content hne hn ih =>
    rw [chunks, if_neg hne, if_neg hn, List.flatten_cons, ih.2, List.take_append_drop]
    refine ⟨List.forall_mem_cons.mpr ⟨?_, ih.1⟩, rfl⟩
    rw [ne_eq, List.take_eq_nil_iff, not_or]
    exact ⟨hn, hne⟩

/-- Sorting by a key, equal keys in their old order. -/
def sortBy {α : Type} (key : α → Bytes) (l : List α) : List α :=
  l.insertionSort fun a b => key a ≤ key b

theorem sortBy_sorted {α : Type} (key : α → Bytes) (l : List α) :
    (sortBy key l).Pairwise fun a b => key a ≤ key b := by
  have : Std.Total fun a b : α => key a ≤ key b := ⟨fun a b => le_total (key a) (key b)⟩
  have : IsTrans α fun a b => key a ≤ key b := ⟨fun _ _ _ hab hbc => hab.trans hbc⟩
  exact List.pairwise_insertionSort _ l

/-- A platform that sorts stably and reads full buffers. -/
def stable : Platform where
  sortRows := sortBy Prod.fst
  sortRows_perm rows := List.perm_insertionSort _ rows
  sortRows_sorted rows := sortBy_sorted Prod.fst rows
  sortFiles := sortBy FileEntry.minKey
  sortFiles_perm files := List.perm_insertionSort _ files
  sortFiles_sorted files := sortBy_sorted FileEntry.minKey files
  readChunks := chunks
  readChunks_ne n content := (chunks_spec n content).1
  readChunks_flatten n content := (chunks_spec n content).2

end Platform

namespace ZenithDB

-- ---------------------------------------------------------------------------
-- Point reads
-- ---------------------------------------------------------------------------

/-- All memtables, newest first. -/
def memtables (db : ZenithDB) : List MemTable := db.activeMem :: db.immut.map (·.mt)

/-- The memtables of `get_crdt`. The first non-empty value found is the answer. -/
def lookupMem (db : ZenithDB) (key : Bytes) : Option Bytes :=
  db.memtables.findSome? fun mt => mt.probe key

/-- The tables of one level, from the one that `std::lower_bound` ended at. -/
def lookupFiles (key : Bytes) : List FileEntry → Except Fault (Option Bytes)
  | [] => .ok none
  | fe :: rest =>
    if fe.minKey ≠ [] ∧ key < fe.minKey then .ok none
    else do
      match ← fe.sst.table.get key with
      | some v => if v = [] then lookupFiles key rest else return some v
      | none => lookupFiles key rest

/-- The comparison of the `std::lower_bound` over a level. -/
def endsBelow (key : Bytes) (fe : FileEntry) : Bool :=
  decide (fe.maxKey ≠ []) && decide (fe.maxKey < key)

/-- `std::lower_bound` over one level. It halves the level, which is sorted by
smallest key, with a test on the largest key. Tables that were opened with an index
have no largest key, and over such tables the search ends at the front. -/
def lowerBound (key : Bytes) (level : List FileEntry) : Except Fault Nat :=
  BinarySearch.bsearch (fun i => .ok ((level[i]?).any (endsBelow key))) 0 level.length

/-- The tables of `get_crdt`, level by level. -/
def lookupLevels (key : Bytes) : Layout → Except Fault (Option Bytes)
  | [] => .ok none
  | level :: rest => do
    let it ← lowerBound key level
    match ← lookupFiles key (level.drop it) with
    | some v => return some v
    | none => lookupLevels key rest

/-- What `get_crdt` does with the bytes it found: a register with an empty value
is a tombstone and reads as absent. -/
def readRegister : Option Bytes → Except Fault (Option LWWRegister)
  | none => .ok none
  | some raw => do
    let reg ← LWWRegister.deserialize raw
    return if reg.value = [] then none else some reg

/-- The stored bytes of a key: memtables first, then tables. -/
def lookup (db : ZenithDB) (key : Bytes) : Except Fault (Option Bytes) :=
  match db.lookupMem key with
  | some raw => .ok (some raw)
  | none => lookupLevels key db.layout

/-- `get_crdt` with all loads in one state. -/
def getCrdt (db : ZenithDB) (key : Bytes) : Except Fault (Option LWWRegister) := do
  readRegister (← db.lookup key)

/-- `get` shows the value of a live register. -/
def get (db : ZenithDB) (key : Bytes) : Except Fault (Option Bytes) := do
  let crdt ← db.getCrdt key
  return crdt.map (·.value)

-- ---------------------------------------------------------------------------
-- Range reads
-- ---------------------------------------------------------------------------

/-- The rows of one table in `scan_crdt`. -/
def scanFile (start stop : Bytes) (fe : FileEntry) : Except Fault (List Entry) :=
  let meta_ := fe.sst.table.metaData
  if meta_.maxKey ≠ [] ∧ start > meta_.maxKey then .ok []
  else if meta_.minKey ≠ [] ∧ stop < meta_.minKey then .ok []
  else fe.sst.table.scan start stop

/-- The tables of all levels, one after the other. -/
def scanFiles (start stop : Bytes) : List FileEntry → Except Fault (List Entry)
  | [] => .ok []
  | fe :: rest => do
    let part ← scanFile start stop fe
    let more ← scanFiles start stop rest
    return part ++ more

/-- One row of the merge loop; `finalRaw` holds the rows so far, last one first. -/
def mergeRow (finalRaw : List Entry) (kv : Entry) : Except Fault (List Entry) :=
  match finalRaw with
  | [] => .ok [kv]
  | back :: before =>
    if back.1 ≠ kv.1 then .ok (kv :: back :: before)
    else do
      let existing ← LWWRegister.deserialize back.2
      let incoming ← LWWRegister.deserialize kv.2
      return (back.1, (existing.merge incoming).serialize) :: before

/-- Deserializes the merged rows and drops the tombstones. -/
def liveRegisters : List Entry → Except Fault (List (Bytes × LWWRegister))
  | [] => .ok []
  | kv :: rest => do
    let reg ← LWWRegister.deserialize kv.2
    let out ← liveRegisters rest
    return if reg.value = [] then out else (kv.1, reg) :: out

/-- All rows of a range, from every memtable and every table. -/
def collectRows (db : ZenithDB) (start stop : Bytes) : Except Fault (List Entry) := do
  let memRows := db.memtables.flatMap fun mt => mt.scan start stop
  let tableRows ← scanFiles start stop db.layout.flatten
  return memRows ++ tableRows

/-- `scan_crdt`: the rows are collected, sorted and merged, and tombstones are dropped. -/
def scanCrdt (p : Platform) (db : ZenithDB) (start stop : Bytes) :
    Except Fault (List (Bytes × LWWRegister)) :=
  if start > stop then .ok []
  else do
    let rawResults ← db.collectRows start stop
    let finalRaw ← (p.sortRows rawResults).foldlM mergeRow []
    liveRegisters finalRaw.reverse

/-- `scan` shows the values. -/
def scan (p : Platform) (db : ZenithDB) (start stop : Bytes) : Except Fault (List Entry) := do
  let out ← db.scanCrdt p start stop
  return out.map fun kv => (kv.1, kv.2.value)

end ZenithDB

end Zenith
