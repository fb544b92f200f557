import Zenith.DB.State
import Zenith.Lib.Run

/-!
# Zenith — what a database does

The operations of `db.cpp` and `compaction.cpp` that change a database: the two `put`
overloads, the constructor, and the steps of the background worker, which flushes frozen
memtables to level 0 and merges all files of a full level into one file of the next.

Every operation that holds the writer lock is one step. `execute_compaction` runs without
the lock, but reads only tables, which never change, and writes a file no one else has
opened, so it is one step as well. Between two steps of a compaction other steps come in any
order; the worker's place is a field of the state for that reason.

What the program does not determine is an argument of the action. A put carries the memory
usage that its memtable reports after the insertion, because towers of a skip list have
random heights; a step of the worker carries the clock that names its files; a restart
carries the first value of the counter. Results hold for all of them.

A step can throw. A write of a table that goes beyond the largest file throws, a register
that cannot be read back throws; a table that cannot be opened is left out of the layout
without a word, although it is listed.

`flushNode_cases`, `executeCompaction_cases` and `work_cases` say once what these operations
can do. Later proofs split on them and do not unfold the operations. `run` performs a
sequence of steps; `trace` lists the records that a run stores.
-/

namespace Zenith

open Bytes

namespace ZenithDB

/-- `MEMTABLE_LIMIT`. A memtable is frozen above twice this size. -/
def memtableLimit : Nat := 50 * 1024

-- ---------------------------------------------------------------------------
-- Writing
-- ---------------------------------------------------------------------------

/-- The common end of both `put` overloads. The memtable is frozen when its size
after the insertion, `usage`, is above the limit. -/
def storeRecord (db : ZenithDB) (usage : Nat) (key serialized : Bytes) : ZenithDB :=
  let mem := db.activeMem.put key serialized
  let disk := { db.disk with wal := db.disk.wal ++ Wal.encodeRecord (key, serialized) }
  if usage > 2 * memtableLimit then
    { db with activeMem := .new, immut := ⟨mem, false⟩ :: db.immut, disk := disk }
  else { db with activeMem := mem, disk := disk }

/-- The register that a local write creates. -/
def localRegister (db : ZenithDB) (value : Bytes) : LWWRegister :=
  ⟨value, db.localClock.increment db.nodeId⟩

/-- A local write. -/
def put (db : ZenithDB) (usage : Nat) (key value : Bytes) : ZenithDB :=
  let reg := db.localRegister value
  { db with localClock := reg.clock }.storeRecord usage key reg.serialize

/-- A tombstone is a write of the empty value. -/
def remove (db : ZenithDB) (usage : Nat) (key : Bytes) : ZenithDB := db.put usage key []

/-- The register that an incoming one leaves behind: merged into the live
register that is read, or stored as it is. -/
def resolve (incoming : LWWRegister) (existing : Option LWWRegister) : LWWRegister :=
  match existing with
  | some reg => incoming.merge reg
  | none => incoming

/-- A write that comes from a peer. -/
def putCrdt (db : ZenithDB) (usage : Nat) (key : Bytes) (incoming : LWWRegister) :
    Except Fault ZenithDB := do
  let existing ← db.getCrdt key
  let finalCrdt := resolve incoming existing
  return { db with localClock := db.localClock.merge incoming.clock }.storeRecord usage key
    finalCrdt.serialize

-- ---------------------------------------------------------------------------
-- Tables and files
-- ---------------------------------------------------------------------------

/-- `L<level>_<time>_<id>.sst`. The number is that of a 64-bit counter of the process,
which is a natural number here: it is taken not to wrap around (`counter_run`). -/
def newFilename (level time id : Nat) : Bytes :=
  76 :: (Text.decimal level ++ 95 :: (Text.decimal time ++ 95 :: (Text.decimal id ++
    [46, 115, 115, 116])))

/-- `sort_all_levels_by_min_key`. -/
def sortAllLevels (p : Platform) (layout : Layout) : Layout := layout.map p.sortFiles

/-- Every level is sorted afterwards, whatever the sort does with equal keys. -/
theorem sorted_sort (p : Platform) (layout : Layout) :
    ∀ level ∈ sortAllLevels p layout, level.Pairwise fun a b => a.minKey ≤ b.minKey := by
  intro level hlevel
  obtain ⟨files, -, rfl⟩ := List.mem_map.mp hlevel
  exact p.sortFiles_sorted files

/-- `std::vector::resize` upwards. -/
def grow {α : Type} (n : Nat) (levels : List (List α)) : List (List α) :=
  levels ++ List.replicate (n - levels.length) []

/-- Opens the table over a file just written. An exception is swallowed. -/
def openWritten (file : Bytes) : Except Fault (Option SSTable) :=
  match SSTable.openFile file with
  | .ok t => .ok (some t)
  | .error (.thrown _) => .ok none
  | .error f => .error f

/-- A table that is opened after its file was written is the one over that file. -/
theorem openFile_of_openWritten {file : Bytes} {t : SSTable}
    (h : openWritten file = .ok (some t)) : SSTable.openFile file = .ok t := by
  unfold openWritten at h
  cases hopen : SSTable.openFile file with
  | ok t' =>
    rw [hopen] at h
    rw [Option.some.inj (Except.ok.inj h)]
  | error f =>
    rw [hopen] at h
    cases f with
    | thrown what => exact absurd (Except.ok.inj h) (by simp)
    | _ => exact absurd h (by simp)

/-- The layout entry of a table, with the key range of its metadata. -/
def entryOf (sst : TableRef) : FileEntry := ⟨sst, sst.table.metaData.minKey, sst.table.metaData.maxKey⟩

-- ---------------------------------------------------------------------------
-- Flushing
-- ---------------------------------------------------------------------------

/-- The file is written, listed in `levels_meta_` and logged in the manifest. -/
def recordFlush (db : ZenithDB) (filename file : Bytes) : ZenithDB :=
  { db with
    counter := db.counter + 1
    levelsMeta := db.levelsMeta.modify 0 (· ++ [filename])
    disk := { db.disk with
      manifest := db.disk.manifest ++ Manifest.addSstable 0 filename
      files := db.disk.files.insert filename file } }

/-- The table over the new file joins the layout. -/
def attachFlush (db : ZenithDB) (t : SSTable) : ZenithDB :=
  { db with
    layout := (grow db.levelsMeta.length db.layout).modify 0 (· ++ [entryOf ⟨db.nextAddr, t⟩])
    nextAddr := db.nextAddr + 1 }

/-- Writes one frozen memtable to level 0. -/
def flushNode (time : Nat → Nat) (db : ZenithDB) (node : ImmNode) : Except Fault ZenithDB :=
  if node.flushed = true ∨ node.mt.sortedEntries = [] then .ok db
  else do
    let file ← SSTable.create node.mt.sortedEntries
    let db := db.recordFlush (newFilename 0 (time db.counter) db.counter) file
    match ← openWritten file with
    | none => return db
    | some t => return db.attachFlush t

/-- What one frozen memtable leads to. Its file is written whether or not it opens. -/
theorem flushNode_cases {time : Nat → Nat} {db db' : ZenithDB} {node : ImmNode}
    (h : flushNode time db node = .ok db') :
    ((node.flushed = true ∨ node.mt.sortedEntries = []) ∧ db' = db) ∨
      ¬ (node.flushed = true ∨ node.mt.sortedEntries = []) ∧ ∃ file opened,
        SSTable.create node.mt.sortedEntries = .ok file ∧ openWritten file = .ok opened ∧
        db' = opened.elim (db.recordFlush (newFilename 0 (time db.counter) db.counter) file)
          (db.recordFlush (newFilename 0 (time db.counter) db.counter) file).attachFlush := by
  unfold flushNode at h
  split at h
  · next hskip => exact .inl ⟨hskip, (Except.ok.inj h).symm⟩
  · next hskip =>
    obtain ⟨file, hfile, h⟩ := Except.bind_eq_ok_iff.mp h
    obtain ⟨opened, hopened, h⟩ := Except.bind_eq_ok_iff.mp h
    refine .inr ⟨hskip, file, opened, hfile, hopened, ?_⟩
    cases opened with
    | none => exact (Except.ok.inj h).symm
    | some t => exact (Except.ok.inj h).symm

/-- Flushes every frozen memtable, newest first. -/
def flush (p : Platform) (time : Nat → Nat) (db : ZenithDB) : Except Fault ZenithDB :=
  if db.immut.all (·.flushed) then .ok db
  else do
    let db' ← db.immut.foldlM (flushNode time) db
    return { db' with
      layout := sortAllLevels p db'.layout
      immut := db.immut.map fun node => { node with flushed := true } }

-- ---------------------------------------------------------------------------
-- Compaction
-- ---------------------------------------------------------------------------

/-- How many files a level may have before it is compacted. -/
def threshold (lvl : Nat) : Nat := if lvl = 0 then 3 else 4

/-- The first level with too many files; the last level is never compacted. -/
def fullLevel (levelsMeta : List (List Bytes)) : Option Nat :=
  (List.range (levelsMeta.length - 1)).find? fun lvl =>
    decide (threshold lvl ≤ (levelsMeta.getD lvl []).length)

/-- `plan_compaction`: the names that the first full level lists and the tables that the
layout has there. The counter moves on when a task is planned. -/
def planCompaction (time : Nat → Nat) (db : ZenithDB) : Option CompactionTask :=
  (fullLevel db.levelsMeta).map fun lvl =>
    { level := lvl
      inputFilenames := db.levelsMeta.getD lvl []
      inputSsts := (db.layout.getD lvl []).map (·.sst)
      outputFilename := newFilename (lvl + 1) (time db.counter) db.counter
      outputSst := none }

/-- One row of an input table: merged into the version already seen. -/
def compactRow (merged : SortedMap Bytes Bytes) (row : Entry) :
    Except Fault (SortedMap Bytes Bytes) := do
  let incoming ← LWWRegister.deserialize row.2
  match merged.get? row.1 with
  | none => return merged.insert row.1 row.2
  | some raw =>
    let existing ← LWWRegister.deserialize raw
    return merged.insert row.1 (existing.merge incoming).serialize

/-- The rows of one input table. -/
def compactTable (merged : SortedMap Bytes Bytes) (sst : TableRef) :
    Except Fault (SortedMap Bytes Bytes) := do
  let rows ← sst.table.scan [] [0xFF, 0xFF, 0xFF, 0xFF]
  rows.foldlM compactRow merged

/-- The output file is written. -/
def recordOutput (db : ZenithDB) (filename file : Bytes) : ZenithDB :=
  { db with disk := { db.disk with files := db.disk.files.insert filename file } }

/-- Merges the input tables into a new file. The database changes only in the
file it writes. -/
def executeCompaction (db : ZenithDB) (task : CompactionTask) :
    Except Fault (ZenithDB × CompactionTask) := do
  let merged ← task.inputSsts.foldlM compactTable SortedMap.empty
  if merged.toList = [] then return (db, task)
  let file ← SSTable.create merged.toList
  let db := db.recordOutput task.outputFilename file
  match ← openWritten file with
  | none => return (db, task)
  | some t =>
    return ({ db with nextAddr := db.nextAddr + 1 },
      { task with outputSst := some ⟨db.nextAddr, t⟩ })

/-- What a compaction leads to. Its file is written whether or not it opens. -/
theorem executeCompaction_cases {db db' : ZenithDB} {task task' : CompactionTask}
    (h : db.executeCompaction task = .ok (db', task')) :
    ∃ merged, task.inputSsts.foldlM compactTable SortedMap.empty = .ok merged ∧
      ((db' = db ∧ task' = task) ∨ ∃ file opened,
        SSTable.create merged.toList = .ok file ∧ openWritten file = .ok opened ∧
        db' = opened.elim (db.recordOutput task.outputFilename file) (fun _ =>
          { db.recordOutput task.outputFilename file with nextAddr := db.nextAddr + 1 }) ∧
        task' = opened.elim task fun t => { task with outputSst := some ⟨db.nextAddr, t⟩ }) := by
  unfold executeCompaction at h
  obtain ⟨merged, hmerged, h⟩ := Except.bind_eq_ok_iff.mp h
  refine ⟨merged, hmerged, ?_⟩
  split at h
  · obtain ⟨rfl, rfl⟩ := Prod.mk.inj (Except.ok.inj h)
    exact .inl ⟨rfl, rfl⟩
  · obtain ⟨file, hfile, h⟩ := Except.bind_eq_ok_iff.mp h
    obtain ⟨opened, hopened, h⟩ := Except.bind_eq_ok_iff.mp h
    refine .inr ⟨file, opened, hfile, hopened, ?_⟩
    cases opened with
    | none =>
      obtain ⟨rfl, rfl⟩ := Prod.mk.inj (Except.ok.inj h)
      exact ⟨rfl, rfl⟩
    | some t =>
      obtain ⟨rfl, rfl⟩ := Prod.mk.inj (Except.ok.inj h)
      exact ⟨rfl, rfl⟩

/-- What `apply_compaction` appends to the manifest. -/
def compactionRecords (task : CompactionTask) : Bytes :=
  (if task.outputSst.isSome then Manifest.addSstable (task.level + 1) task.outputFilename else []) ++
    Manifest.replace task.level task.inputFilenames []

/-- Replaces the input files of a compaction by its output. -/
def applyCompaction (db : ZenithDB) (task : CompactionTask) : ZenithDB :=
  let remaining := db.levelsMeta.modify task.level fun files =>
    files.filter fun f => !task.inputFilenames.contains f
  let kept := db.layout.modify task.level fun files =>
    files.filter fun fe => !(task.inputSsts.map (·.addr)).contains fe.sst.addr
  let disk := { db.disk with manifest := db.disk.manifest ++ compactionRecords task }
  match task.outputSst with
  | none => { db with levelsMeta := remaining, layout := kept, disk := disk }
  | some sst =>
    { db with
      levelsMeta := remaining.modify (task.level + 1) (· ++ [task.outputFilename])
      layout := (grow (task.level + 2) kept).modify (task.level + 1) (· ++ [entryOf sst])
      disk := disk }

/-- One step of the background worker. -/
def work (p : Platform) (time : Nat → Nat) (db : ZenithDB) : Except Fault ZenithDB :=
  match db.worker with
  | .flushing => do
    let db' ← db.flush p time
    return { db' with worker := .planning }
  | .planning =>
    match db.planCompaction time with
    | none => .ok { db with worker := .flushing }
    | some task => .ok { db with worker := .executing task, counter := db.counter + 1 }
  | .executing task => do
    let (db', task') ← db.executeCompaction task
    return { db' with worker := .applying task' }
  | .applying task =>
    let db' := db.applyCompaction task
    .ok { db' with worker := .flushing, layout := sortAllLevels p db'.layout }

/-- What a step of the background worker can do: every way in which it can succeed,
with what it leaves behind. -/
inductive Worked (p : Platform) (time : Nat → Nat) (db : ZenithDB) : ZenithDB → Prop
  /-- no memtable waits for its flush -/
  | rested (hworker : db.worker = .flushing) (hall : db.immut.all (·.flushed) = true) :
    Worked p time db { db with worker := .planning }
  | flushed {last : ZenithDB} (hworker : db.worker = .flushing)
      (hall : ¬ db.immut.all (·.flushed) = true)
      (hlast : db.immut.foldlM (flushNode time) db = .ok last) :
    Worked p time db { last with
      layout := sortAllLevels p last.layout
      immut := db.immut.map fun node => { node with flushed := true }
      worker := .planning }
  /-- no level is full -/
  | idle (hworker : db.worker = .planning) (hplan : db.planCompaction time = none) :
    Worked p time db { db with worker := .flushing }
  | planned {task : CompactionTask} (hworker : db.worker = .planning)
      (hplan : db.planCompaction time = some task) :
    Worked p time db { db with worker := .executing task, counter := db.counter + 1 }
  | executed {task task' : CompactionTask} {mid : ZenithDB} (hworker : db.worker = .executing task)
      (hexec : db.executeCompaction task = .ok (mid, task')) :
    Worked p time db { mid with worker := .applying task' }
  | applied {task : CompactionTask} (hworker : db.worker = .applying task) :
    Worked p time db { db.applyCompaction task with
      worker := .flushing
      layout := sortAllLevels p (db.applyCompaction task).layout }

/-- **Inversion of a worker step.** -/
theorem work_cases {p : Platform} {time : Nat → Nat} {db db' : ZenithDB}
    (h : db.work p time = .ok db') : Worked p time db db' := by
  unfold work at h
  -- by the worker's state; a flush finds work or none, and so does the planning
  cases hw : db.worker with
  | flushing =>
    rw [hw] at h
    obtain ⟨mid, hmid, h⟩ := Except.bind_eq_ok_iff.mp h
    obtain rfl := Except.ok.inj h
    unfold flush at hmid
    split at hmid
    · next hall =>
      obtain rfl := Except.ok.inj hmid
      exact .rested hw hall
    · next hall =>
      obtain ⟨last, hlast, hmid⟩ := Except.bind_eq_ok_iff.mp hmid
      obtain rfl := Except.ok.inj hmid
      exact .flushed hw hall hlast
  | planning =>
    rw [hw] at h
    cases hplan : db.planCompaction time with
    | none =>
      simp only [hplan] at h
      obtain rfl := Except.ok.inj h
      exact .idle hw hplan
    | some task =>
      simp only [hplan] at h
      obtain rfl := Except.ok.inj h
      exact .planned hw hplan
  | executing task =>
    rw [hw] at h
    obtain ⟨⟨mid, task'⟩, hexec, h⟩ := Except.bind_eq_ok_iff.mp h
    obtain rfl := Except.ok.inj h
    exact .executed hw hexec
  | applying task =>
    rw [hw] at h
    obtain rfl := Except.ok.inj h
    exact .applied hw

-- ---------------------------------------------------------------------------
-- Opening
-- ---------------------------------------------------------------------------

/-- Opens the tables of one level; a file that is missing or rejected is skipped. -/
def openFiles (files : SortedMap Bytes Bytes) (nextAddr : Nat) :
    List Bytes → Except Fault (List FileEntry × Nat)
  | [] => .ok ([], nextAddr)
  | fname :: rest =>
    match files.get? fname with
    | none => openFiles files nextAddr rest
    | some file => do
      match ← openWritten file with
      | none => openFiles files nextAddr rest
      | some t =>
        let (entries, next) ← openFiles files (nextAddr + 1) rest
        return (entryOf ⟨nextAddr, t⟩ :: entries, next)

def openLevels (files : SortedMap Bytes Bytes) (nextAddr : Nat) :
    List (List Bytes) → Except Fault (Layout × Nat)
  | [] => .ok ([], nextAddr)
  | names :: rest => do
    let (level, next) ← openFiles files nextAddr names
    let (levels, last) ← openLevels files next rest
    return (level :: levels, last)

/-- The memtable that `wal_->replay` fills. -/
def replayLog (p : Platform) (disk : Disk) : MemTable :=
  Wal.replay .new (p.readChunks 8192 disk.wal)

/-- The file names that the constructor takes from the manifest, for at least
seven levels. -/
def loadedLevels (p : Platform) (disk : Disk) : List (List Bytes) :=
  let loaded := Manifest.load (p.readChunks 4096 disk.manifest)
  grow (max 7 loaded.length) loaded

/-- The constructor. The local clock starts empty. -/
def openDB (p : Platform) (nodeId : NodeID) (disk : Disk) (counter : Nat) :
    Except Fault ZenithDB := do
  let mem := replayLog p disk
  let levelsMeta := loadedLevels p disk
  let (layout, nextAddr) ← openLevels disk.files 0 levelsMeta
  return {
    nodeId := nodeId
    localClock := .empty
    activeMem := mem
    immut := []
    layout := sortAllLevels p layout
    levelsMeta := levelsMeta
    disk := disk
    nextAddr := nextAddr
    counter := counter
    worker := .flushing }

/-- The database that opening an empty directory gives. -/
def fresh (nodeId : NodeID) (counter : Nat) : ZenithDB where
  nodeId := nodeId
  localClock := .empty
  activeMem := .new
  immut := []
  layout := List.replicate 7 []
  levelsMeta := List.replicate 7 []
  disk := .empty
  nextAddr := 0
  counter := counter
  worker := .flushing

theorem openLevels_replicate (files : SortedMap Bytes Bytes) (n : Nat) :
    openLevels files 0 (List.replicate n []) = .ok (List.replicate n [], 0) := by
  induction n with
  | zero => rfl
  | succ n ih =>
    rw [List.replicate_succ, openLevels, openFiles, Except.ok_bind]
    simp only [ih, Except.ok_bind, Except.pure_eq_ok]
    rfl

/-- Opening an empty directory gives the fresh database. -/
theorem openDB_empty (p : Platform) (nodeId : NodeID) (counter : Nat) :
    openDB p nodeId .empty counter = .ok (fresh nodeId counter) := by
  -- an empty file is read in no chunks
  have hchunks : ∀ n, p.readChunks n [] = [] := by
    intro n
    rw [List.eq_nil_iff_forall_not_mem]
    intro c hc
    exact p.readChunks_ne n [] c hc
      (List.flatten_eq_nil_iff.mp (p.readChunks_flatten n []) c hc)
  have hmem : replayLog p .empty = .new := by
    unfold replayLog
    rw [show Disk.empty.wal = [] from rfl, hchunks]
    rfl
  have hload : loadedLevels p .empty = List.replicate 7 [] := by
    unfold loadedLevels
    rw [show Disk.empty.manifest = [] from rfl, hchunks]
    rfl
  have hsort : p.sortFiles [] = [] := List.perm_nil.mp (p.sortFiles_perm [])
  unfold openDB
  rw [hmem, hload]
  -- seven empty levels, which sorting leaves as they are
  show (openLevels _ 0 (List.replicate 7 []) >>= _) = _
  rw [openLevels_replicate, Except.ok_bind]
  simp only [sortAllLevels, List.map_replicate, hsort, Except.pure_eq_ok]
  rfl

-- ---------------------------------------------------------------------------
-- Runs
-- ---------------------------------------------------------------------------

/-- A step of one database. -/
inductive Action
  /-- `put(key, value)` -/
  | put (usage : Nat) (key value : Bytes)
  /-- `put(key, LWWRegister)` -/
  | putCrdt (usage : Nat) (key : Bytes) (incoming : LWWRegister)
  /-- one step of the background worker -/
  | work (time : Nat → Nat)
  /-- other databases of the process take file names -/
  | otherNames (n : Nat)

/-- What each action does. `put` cannot fail; the log and the memtable are written as one
step. -/
def step (p : Platform) (db : ZenithDB) : Action → Except Fault ZenithDB
  | .put usage key value => .ok (db.put usage key value)
  | .putCrdt usage key incoming => db.putCrdt usage key incoming
  | .work time => db.work p time
  | .otherNames n => .ok { db with counter := db.counter + n }

/-- The record that a step appends to the log. -/
def stored (db : ZenithDB) : Action → List Entry
  | .put _ key value => [(key, (db.localRegister value).serialize)]
  | .putCrdt _ key incoming =>
    match db.getCrdt key with
    | .ok existing => [(key, (resolve incoming existing).serialize)]
    | .error _ => []
  | .work _ => []
  | .otherNames _ => []

/-- Databases as a step system; the trace of a run lists the records it stores. -/
def system (p : Platform) : System ZenithDB Action Entry Fault := ⟨step p, stored⟩

end ZenithDB

end Zenith
