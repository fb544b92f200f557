import Zenith.DB.FileNames
import Zenith.DB.Recovery
import Zenith.DB.RegisterMap

/-!
# Zenith — crashes

A process can be killed between any two bytes that it writes. `diskOps` lists what a step
does to its directory, in the order of the code: a put appends one line to the log; a flush
writes a table and then adds it to the manifest, table after table; a compaction writes its
output in one step and changes the manifest in a later one. `Crashed` relates the directory
before a step to what a crash in the middle of it leaves: some of its changes, and of the
next one the first bytes. `disk_step` ties the list to the model: all changes of a step
together lead to the directory that the step leaves, so the list leaves nothing out and adds
nothing.

What makes a crash harmless is the order. A table is listed only when it is whole, a line
that has no newline yet is not read, and the log is never cut, so it has every record that
was ever acknowledged. A directory can be closed and opened any number of times before the
crash; the clock starts again, the reads stay as they are.

Two invariants carry the proofs. `Listing` is about the disk alone: the manifest is a list
of whole lines, and each file they add holds a sorted table whose rows satisfy a predicate
`Q`. It is kept by each single change of a step, so that it can be followed to the change at
which the process dies. `Journaled` is about the running database: its log is the records of
all writes, and what is in memory is the last record of each key. Opening the directory
builds the memtable from the log, and the keys of all tables are on the log, so a table has
no answer for a key on which the memtable has none.

The assumption about each step is `Recoverable`, and each part of it is a limit of the code.
Records must fit their length fields. No record may contain `|` or a newline, since the log
is split at these bytes without escapes; the counters in a clock are such bytes too, which
is why a node that only writes locally gets as far as nine writes. Names of files must be
new, since a name is made of a counter that starts again with the process and of a time. A
restart finds the log that was left.

Main results:

* `reopened_reads` — after any lives with orderly restarts the reads are those of the map of
  registers;
* `crash_recovery` — a crash in the middle of any step loses nothing but that step.
-/

namespace Zenith

open Bytes VectorClock

-- ---------------------------------------------------------------------------
-- What a step writes
-- ---------------------------------------------------------------------------

/-- One change of a directory. A crash can leave the first bytes of it. -/
inductive DiskOp
  | appendWal (bytes : Bytes)
  | writeFile (name content : Bytes)
  | appendManifest (bytes : Bytes)

namespace DiskOp

/-- The directory after the whole change. Writing a file replaces one of the same name, as a
stream that is opened with `std::ios::trunc` does. -/
def apply (disk : Disk) : DiskOp → Disk
  | .appendWal bytes => { disk with wal := disk.wal ++ bytes }
  | .writeFile name content => { disk with files := disk.files.insert name content }
  | .appendManifest bytes => { disk with manifest := disk.manifest ++ bytes }

/-- The change cut off behind its first `n` bytes. -/
def take (n : Nat) : DiskOp → DiskOp
  | .appendWal bytes => .appendWal (bytes.take n)
  | .writeFile name content => .writeFile name (content.take n)
  | .appendManifest bytes => .appendManifest (bytes.take n)

end DiskOp

/-- What a crash in the middle of these changes can leave. -/
inductive Crashed : List DiskOp → Disk → Disk → Prop
  | before (ops : List DiskOp) (disk : Disk) : Crashed ops disk disk
  | within {op : DiskOp} {ops : List DiskOp} {disk : Disk} (n : Nat) :
    Crashed (op :: ops) disk ((op.take n).apply disk)
  | after {op : DiskOp} {ops : List DiskOp} {disk disk' : Disk}
    (h : Crashed ops (op.apply disk) disk') : Crashed (op :: ops) disk disk'

namespace ZenithDB

/-- The changes of a flush, the first table with the number `counter`. -/
def flushOps (time : Nat → Nat) : Nat → List ImmNode → List DiskOp
  | _, [] => []
  | counter, node :: rest =>
    if node.flushed = true ∨ node.mt.sortedEntries = [] then flushOps time counter rest
    else
      match SSTable.create node.mt.sortedEntries with
      | .error _ => []
      | .ok file =>
        let name := newFilename 0 (time counter) counter
        .writeFile name file :: .appendManifest (Manifest.addSstable 0 name) ::
          flushOps time (counter + 1) rest

/-- The changes of `execute_compaction`: one file, if there is anything to write. It is not
listed yet, so a crash here leaves a file that nobody reads. -/
def outputOps (task : CompactionTask) : List DiskOp :=
  match task.inputSsts.foldlM compactTable SortedMap.empty with
  | .error _ => []
  | .ok merged =>
    if merged.toList = [] then []
    else
      match SSTable.create merged.toList with
      | .error _ => []
      | .ok file => [.writeFile task.outputFilename file]

/-- The changes of `apply_compaction`, a line each. The output is added before the inputs
are taken away, so that between two lines a row may be listed twice and never not at all. -/
def replaceOps (task : CompactionTask) : List DiskOp :=
  (if task.outputSst.isSome then
    [.appendManifest (Manifest.addSstable (task.level + 1) task.outputFilename)] else []) ++
      task.inputFilenames.map fun f => .appendManifest (Manifest.encodeRecord Manifest.opDel task.level f)

/-- What a step does to the directory, in order. -/
def diskOps (db : ZenithDB) : Action → List DiskOp
  | .work time =>
    match db.worker with
    | .flushing => if db.immut.all (·.flushed) then [] else flushOps time db.counter db.immut
    | .planning => []
    | .executing task => outputOps task
    | .applying task => replaceOps task
  | a => (stored db a).map fun r => .appendWal (Wal.encodeRecord r)

variable {p : Platform} {db db' : ZenithDB}

theorem disk_storeRecord (db : ZenithDB) (usage : Nat) (key serialized : Bytes) :
    (db.storeRecord usage key serialized).disk =
      (DiskOp.appendWal (Wal.encodeRecord (key, serialized))).apply db.disk := by
  unfold storeRecord
  split <;> rfl

theorem disk_flushNodes {time : Nat → Nat} {nodes : List ImmNode}
    (h : nodes.foldlM (flushNode time) db = .ok db') :
    (flushOps time db.counter nodes).foldl DiskOp.apply db.disk = db'.disk := by
  induction nodes generalizing db with
  | nil =>
    obtain rfl := Except.ok.inj h
    rfl
  | cons node nodes ih =>
    rw [List.foldlM_cons] at h
    obtain ⟨mid, hnode, hrest⟩ := Except.bind_eq_ok_iff.mp h
    rw [flushOps, ← ih hrest]
    obtain ⟨hskip, rfl⟩ | ⟨hskip, file, opened, hcreate, -, rfl⟩ := flushNode_cases hnode
    · rw [if_pos hskip]
    · rw [if_neg hskip, hcreate]
      cases opened <;> rfl

/-- **The changes of a step** lead to the directory that the step leaves. By cases on the
step as the code makes it, a worker's step by its phase. -/
theorem disk_step {a : Action} (h : step p db a = .ok db') :
    (diskOps db a).foldl DiskOp.apply db.disk = db'.disk := by
  cases a with
  | put usage key value =>
    obtain rfl := Except.ok.inj h
    exact (disk_storeRecord { db with localClock := (db.localRegister value).clock } usage key
      (db.localRegister value).serialize).symm
  | putCrdt usage key incoming =>
    -- the record that is stored depends on what `get_crdt` found
    obtain ⟨existing, hget, h⟩ := Except.bind_eq_ok_iff.mp h
    obtain rfl := Except.ok.inj h
    rw [diskOps, stored, hget, disk_storeRecord]
    · rfl
    · exact fun _ => Action.noConfusion
  | otherNames n =>
    obtain rfl := Except.ok.inj h
    rfl
  | work time =>
    rw [diskOps]
    -- the worker changes the directory in a flush, when it writes an output and when it ends a
    -- compaction
    cases work_cases h with
    | rested hworker hall =>
      rw [hworker]
      dsimp only
      rw [if_pos hall]
      rfl
    | flushed hworker hall hlast =>
      rw [hworker]
      dsimp only
      rw [if_neg hall]
      exact disk_flushNodes hlast
    | idle hworker hplan =>
      rw [hworker]
      rfl
    | planned hworker hplan =>
      rw [hworker]
      rfl
    | @executed task task' mid hworker hexec =>
      rw [hworker]
      dsimp only
      unfold executeCompaction at hexec
      -- without rows there is no output, so nothing is written
      obtain ⟨merged, hmerged, hexec⟩ := Except.bind_eq_ok_iff.mp hexec
      rw [outputOps, hmerged]
      dsimp only
      split at hexec
      · next hnil =>
        obtain ⟨rfl, -⟩ := Prod.mk.inj (Except.ok.inj hexec)
        rw [if_pos hnil]
        rfl
      · next hnil =>
        obtain ⟨file, hfile, hexec⟩ := Except.bind_eq_ok_iff.mp hexec
        obtain ⟨opened, -, hexec⟩ := Except.bind_eq_ok_iff.mp hexec
        rw [if_neg hnil, hfile]
        -- the file is there whether or not it can be opened
        cases opened with
        | none =>
          obtain ⟨rfl, -⟩ := Prod.mk.inj (Except.ok.inj hexec)
          rfl
        | some t =>
          obtain ⟨rfl, -⟩ := Prod.mk.inj (Except.ok.inj hexec)
          rfl
    | @applied task hworker =>
      rw [hworker]
      dsimp only
      -- the lines that take the inputs away, by induction on their names
      have hdels : ∀ (names : List Bytes) (disk : Disk),
          (names.map fun f => DiskOp.appendManifest
            (Manifest.encodeRecord Manifest.opDel task.level f)).foldl DiskOp.apply disk =
          { disk with manifest := disk.manifest ++ Manifest.replace task.level names [] } := by
        intro names
        induction names with
        | nil =>
          intro disk
          simp [Manifest.replace]
        | cons f names ih =>
          intro disk
          rw [List.map_cons, List.foldl_cons, ih]
          simp [DiskOp.apply, Manifest.replace]
      have hdisk : (db.applyCompaction task).disk =
          { db.disk with manifest := db.disk.manifest ++ compactionRecords task } := by
        unfold applyCompaction
        cases task.outputSst <;> rfl
      show _ = (db.applyCompaction task).disk
      rw [hdisk, replaceOps, List.foldl_append, hdels, compactionRecords]
      split
      · rw [← List.append_assoc]
        rfl
      · rfl

-- ---------------------------------------------------------------------------
-- What is listed after a crash
-- ---------------------------------------------------------------------------

variable {Q : Bytes → Bytes → Prop} {calls : List Manifest.Call} {disk disk' : Disk}

/-- The manifest lists these calls, and the files that they add are whole. A file may be
missing altogether: the constructor leaves out a table that is not there. -/
structure Listing (Q : Bytes → Bytes → Prop) (calls : List Manifest.Call) (disk : Disk) : Prop where
  manifest : disk.manifest = calls.flatMap Manifest.Call.append
  wellFormed : ∀ c ∈ calls, c.WellFormed
  files : ∀ l, ∀ f ∈ addedTo l calls, ∀ file, disk.files.get? f = some file → FileHolds Q file

/-- A line of the manifest that is cut off is not read. -/
theorem Listing.opens_torn (h : Listing Q calls disk) (p : Platform) {tail : Bytes}
    (htail : Lines.newline ∉ tail) :
    Opens p Q { disk with manifest := disk.manifest ++ tail } := by
  have hload : loadedLevels p { disk with manifest := disk.manifest ++ tail } =
      (List.range 7).map fun l => addedTo l calls := by
    have htorn := Lines.readAll_append_tail (f := Manifest.loadLine)
      (p.readChunks_ne 4096 (disk.manifest ++ tail)) (p.readChunks_ne 4096 disk.manifest) htail
      (by rw [p.readChunks_flatten, p.readChunks_flatten]) (List.replicate Manifest.levelCount [])
    unfold loadedLevels
    rw [show Manifest.load (p.readChunks 4096 (disk.manifest ++ tail)) =
        Manifest.load (p.readChunks 4096 disk.manifest) from htorn,
      Manifest.load_calls h.wellFormed (p.readChunks_ne _ _)
        (by rw [p.readChunks_flatten, h.manifest])]
    rfl
  intro f hf file hfile
  rw [hload] at hf
  obtain ⟨names, hnames, hf⟩ := List.mem_flatten.mp hf
  obtain ⟨l, -, rfl⟩ := List.mem_map.mp hnames
  exact h.files l f hf file hfile

theorem Listing.opens (h : Listing Q calls disk) (p : Platform) : Opens p Q disk := by
  have htorn := h.opens_torn p (List.not_mem_nil (a := Lines.newline))
  rwa [List.append_nil] at htorn

/-- A file is written under a name that is not listed, whole or in part. -/
theorem Listing.write (h : Listing Q calls disk) {name : Bytes} (hnew : ∀ l, name ∉ addedTo l calls)
    (content : Bytes) :
    Listing Q calls { disk with files := disk.files.insert name content } where
  manifest := h.manifest
  wellFormed := h.wellFormed
  files l f hf file hfile := by
    rw [SortedMap.get?_insert] at hfile
    split at hfile
    · next heq =>
      rw [heq] at hf
      exact absurd hf (hnew l)
    · exact h.files l f hf file hfile

/-- A line is added to the manifest, for a file that is whole. -/
theorem Listing.call (h : Listing Q calls disk) {call : Manifest.Call} (hcall : call.WellFormed)
    (hwhole : ∀ l, ∀ f ∈ addedTo l [call], ∀ file, disk.files.get? f = some file →
      FileHolds Q file) :
    Listing Q (calls ++ [call]) { disk with manifest := disk.manifest ++ call.append } where
  manifest := by
    show disk.manifest ++ call.append = _
    rw [h.manifest, List.flatMap_append, List.flatMap_singleton]
  wellFormed := List.forall_mem_append.mpr ⟨h.wellFormed, List.forall_mem_singleton.mpr hcall⟩
  files l f hf := by
    rw [addedTo_append] at hf
    rcases List.mem_append.mp hf with hf | hf
    · exact h.files l f hf
    · exact hwhole l f hf

/-- A crash in the middle of writing a file that is not listed. -/
theorem Listing.crashed_write (h : Listing Q calls disk) {name content : Bytes}
    (hnew : ∀ l, name ∉ addedTo l calls) {ops : List DiskOp}
    (hrest : Crashed ops { disk with files := disk.files.insert name content } disk' → Opens p Q disk')
    (hcrash : Crashed (.writeFile name content :: ops) disk disk') : Opens p Q disk' := by
  cases hcrash with
  | before => exact h.opens p
  | within n => exact (h.write hnew (content.take n)).opens p
  | after hcrash => exact hrest hcrash

/-- A crash in the middle of adding a line to the manifest. -/
theorem Listing.crashed_call (h : Listing Q calls disk) {call : Manifest.Call}
    (hcall : call.WellFormed) {line : Bytes} (hline : call.append = line ++ [Lines.newline])
    (hnewline : Lines.newline ∉ line)
    (hwhole : ∀ l, ∀ f ∈ addedTo l [call], ∀ file, disk.files.get? f = some file → FileHolds Q file)
    {ops : List DiskOp}
    (hrest : Listing Q (calls ++ [call]) { disk with manifest := disk.manifest ++ call.append } →
      Crashed ops { disk with manifest := disk.manifest ++ call.append } disk' → Opens p Q disk')
    (hcrash : Crashed (.appendManifest call.append :: ops) disk disk') : Opens p Q disk' := by
  have hnext := h.call hcall hwhole
  cases hcrash with
  | before => exact h.opens p
  | within n =>
    -- the line is there with its newline, or it is not read
    show Opens p Q { disk with manifest := disk.manifest ++ call.append.take n }
    rcases Lines.take_line hnewline n with htake | htake
    · rw [hline, htake, ← hline]
      exact hnext.opens p
    · rw [hline]
      exact h.opens_torn p htake
  | after hcrash => exact hrest hnext hcrash

theorem append_addSstable (level : Nat) (filename : Bytes) :
    (Manifest.Call.addSstable level filename).append =
      (Manifest.opAdd ++ (32 :: (Text.decimal level ++ 32 :: filename))) ++ [Lines.newline] := rfl

theorem append_replace_single (level : Nat) (filename : Bytes) :
    (Manifest.Call.replace level [filename] []).append =
      (Manifest.opDel ++ (32 :: (Text.decimal level ++ 32 :: filename))) ++ [Lines.newline] := by
  rw [Manifest.Call.append, Manifest.replace, List.flatMap_singleton, List.flatMap_nil,
    List.append_nil]
  rfl

/-- **A crash in the middle of a flush**, by induction on the frozen memtables. -/
theorem Listing.crashed_flush {time : Nat → Nat} {nodes : List ImmNode} {counter : Nat}
    (h : Listing Q calls disk) (hrows : ∀ node ∈ nodes, Rows Q node.mt.sortedEntries)
    (hnew : ∀ n ∈ flushNamings time counter nodes, ∀ l, n.name ∉ addedTo l calls)
    (hcrash : Crashed (flushOps time counter nodes) disk disk') : Opens p Q disk' := by
  induction nodes generalizing disk calls counter with
  | nil =>
    cases hcrash
    exact h.opens p
  | cons node nodes ih =>
    obtain ⟨hnode, hnodes⟩ := List.forall_mem_cons.mp hrows
    rw [flushOps] at hcrash
    rw [flushNamings] at hnew
    split at hcrash
    · next hskip =>
      rw [if_pos hskip] at hnew
      exact ih h hnodes hnew hcrash
    · next hskip =>
      rw [if_neg hskip] at hnew
      obtain ⟨hfirst, hrest⟩ := List.forall_mem_cons.mp hnew
      cases hcreate : SSTable.create node.mt.sortedEntries with
      | error f =>
        rw [hcreate] at hcrash
        cases hcrash
        exact h.opens p
      | ok file =>
        rw [hcreate] at hcrash
        -- the two changes of this memtable, one after the other; behind both of them the
        -- induction goes on
        have hspace := noSpace_newFilename 0 (time counter) counter
        have hfirst : ∀ l, newFilename 0 (time counter) counter ∉ addedTo l calls := hfirst
        have hzero : 0 < Manifest.levelCount := by decide
        refine h.crashed_write hfirst (fun hcrash => ?_) hcrash
        have hwritten := h.write hfirst file
        have hcall : (Manifest.Call.addSstable 0 (newFilename 0 (time counter) counter)).WellFormed :=
          ⟨hzero, hspace⟩
        refine hwritten.crashed_call hcall (append_addSstable 0 _) (Manifest.newline_not_mem_record 0 Manifest.noSpace_opAdd hspace)
          ?_ (fun hnext hcrash => ih hnext hnodes ?_ hcrash) hcrash
        · -- the table that is listed has just been written
          intro l f hf content hcontent
          rw [addedTo, List.flatMap_singleton, Manifest.Call.added] at hf
          split at hf
          · rw [List.mem_singleton.mp hf, SortedMap.get?_insert_self] at hcontent
            rw [← Option.some.inj hcontent]
            exact ⟨_, hcreate, node.mt.table.sorted, hnode⟩
          · exact absurd hf List.not_mem_nil
        · -- later names have later numbers
          intro n hn l hadded
          rw [addedTo_append] at hadded
          rcases List.mem_append.mp hadded with hadded | hadded
          · exact hrest n hn l hadded
          · rw [addedTo, List.flatMap_singleton, Manifest.Call.added] at hadded
            split at hadded
            · have heq : n = ⟨0, time counter, counter⟩ :=
                Naming.name_inj (List.mem_singleton.mp hadded)
              have hid := ((flushNamings_ids time (counter + 1) nodes).1 n hn).1
              rw [heq] at hid
              exact absurd hid (Nat.not_succ_le_self counter)
            · exact absurd hadded List.not_mem_nil

/-- A crash while the inputs of a compaction are taken from the manifest. -/
theorem Listing.crashed_dels {level : Nat} {names : List Bytes} (h : Listing Q calls disk)
    (hlevel : level < Manifest.levelCount) (hspace : ∀ f ∈ names, Manifest.NoSpace f)
    (hcrash : Crashed (names.map fun f => .appendManifest
      (Manifest.encodeRecord Manifest.opDel level f)) disk disk') : Opens p Q disk' := by
  induction names generalizing disk calls with
  | nil =>
    cases hcrash
    exact h.opens p
  | cons f names ih =>
    obtain ⟨hf, hnames⟩ := List.forall_mem_cons.mp hspace
    have hline := append_replace_single level f
    have hwell : (Manifest.Call.replace level [f] []).WellFormed :=
      ⟨hlevel, List.forall_mem_singleton.mpr hf⟩
    refine h.crashed_call hwell hline
      (Manifest.newline_not_mem_record level Manifest.noSpace_opDel hf) ?_
      (fun hnext hcrash => ih hnext hnames hcrash) ?_
    · intro l g hg
      rw [addedTo, List.flatMap_singleton, Manifest.Call.added, List.filter_nil] at hg
      split at hg <;> exact absurd hg List.not_mem_nil
    · rw [hline]
      exact hcrash

/-- **A crash in the middle of a step** leaves a directory whose listed files are whole. -/
theorem opens_crashed {events : List NameEvent} {a : Action} (h : NamesTaken calls events db)
    (hfiles : ∀ e ∈ db.disk.files.toList, FileHolds Q e.2)
    (hfrozen : ∀ node ∈ db.immut, Rows Q node.mt.sortedEntries)
    (hapart : Apart events db (.act a)) (hcrash : Crashed (diskOps db a) db.disk disk') :
    Opens p Q disk' := by
  have hlisting : Listing Q calls db.disk := ⟨h.logged.manifest, h.logged.wellFormed,
    fun l f _ file hfile => hfiles (f, file) (SortedMap.get?_eq_some_iff.mp hfile)⟩
  have hlog : ∀ rs : List Entry,
      Crashed (rs.map fun r => .appendWal (Wal.encodeRecord r)) db.disk disk' → Opens p Q disk' := by
    intro rs hcrash
    -- neither the manifest nor a table changes
    have hsame : disk'.manifest = db.disk.manifest ∧ disk'.files = db.disk.files := by
      generalize db.disk = disk at hcrash
      induction rs generalizing disk with
      | nil =>
        cases hcrash
        exact ⟨rfl, rfl⟩
      | cons r rs ih =>
        cases hcrash with
        | before => exact ⟨rfl, rfl⟩
        | within n => exact ⟨rfl, rfl⟩
        | after hcrash =>
          have hrest := ih _ hcrash
          exact hrest
    have hnext : Listing Q calls disk' := ⟨hsame.1.trans hlisting.manifest, hlisting.wellFormed, by
      rw [hsame.2]
      exact hlisting.files⟩
    exact hnext.opens p
  have hnone : Crashed [] db.disk disk' → Opens p Q disk' := hlog []
  -- only the worker's steps touch what is listed
  cases a with
  | put usage key value => exact hlog _ hcrash
  | putCrdt usage key incoming => exact hlog _ hcrash
  | otherNames n => exact hlog _ hcrash
  | work time =>
    rw [diskOps] at hcrash
    -- what a flush writes is under names that no line of the manifest has added
    have hunlisted : ∀ n ∈ namings db (.act (.work time)), ∀ l, n.name ∉ addedTo l calls :=
      fun n hn => h.unlisted ((namings_ids db _).1 n hn) (hapart n hn)
    unfold namings at hunlisted
    cases hworker : db.worker with
    | flushing =>
      rw [hworker] at hcrash hunlisted
      dsimp only at hcrash hunlisted
      split at hcrash
      · exact hnone hcrash
      · next hall =>
        rw [if_neg hall] at hunlisted
        exact hlisting.crashed_flush hfrozen hunlisted hcrash
    | planning =>
      rw [hworker] at hcrash
      exact hnone hcrash
    | executing task =>
      rw [hworker] at hcrash
      dsimp only at hcrash
      unfold outputOps at hcrash
      split at hcrash
      · exact hnone hcrash
      · split at hcrash
        · exact hnone hcrash
        · split at hcrash
          · exact hnone hcrash
          · -- the output is not listed before the compaction is applied
            refine hlisting.crashed_write (h.pending task (.inl hworker)).2 (fun hcrash => ?_) hcrash
            cases hcrash
            exact (hlisting.write (h.pending task (.inl hworker)).2 _).opens p
    | applying task =>
      rw [hworker] at hcrash
      dsimp only at hcrash
      -- the lines of a compaction: the output is added first, and a cut leaves inputs listed
      have htask := h.logged.applying task hworker
      have hlevel := htask.level_lt
      have hspace : ∀ f ∈ task.inputFilenames, Manifest.NoSpace f := fun f hf =>
        noSpace_of_mem_addedTo h.logged.wellFormed (htask.inputs f hf)
      unfold replaceOps at hcrash
      split at hcrash
      · have hcall : (Manifest.Call.addSstable (task.level + 1) task.outputFilename).WellFormed :=
          ⟨hlevel, htask.output.1⟩
        refine hlisting.crashed_call hcall (append_addSstable _ _)
          (Manifest.newline_not_mem_record _ Manifest.noSpace_opAdd htask.output.1)
          (fun l f _ file hfile => hfiles (f, file) (SortedMap.get?_eq_some_iff.mp hfile))
          (fun hnext hcrash => hnext.crashed_dels (by omega) hspace hcrash) hcrash
      · exact hlisting.crashed_dels (by omega) hspace hcrash

-- ---------------------------------------------------------------------------
-- What the log brings back
-- ---------------------------------------------------------------------------

/-- One of the records has the key. -/
def OnRecord (records : List Entry) (key : Bytes) : Prop := ∃ raw, (key, raw) ∈ records

/-- How a database stands to the records in its log and to the map it refines. -/
structure Journaled (ids : List NodeID) (records : List Entry) (db : ZenithDB) (m : RegisterMap) :
    Prop where
  refines : Refines ids db m
  wal : db.disk.wal = records.flatMap Wal.encodeRecord
  clean : ∀ r ∈ records, Wal.Clean r
  held : ∀ r ∈ records, Held ids r.1 r.2
  lookupMem : ∀ key, db.lookupMem key = History.last key records

variable {ids : List NodeID} {records : List Entry} {m : RegisterMap}

theorem journaled_fresh {nodeId : NodeID} (hnode : nodeId ∈ ids) (counter : Nat) :
    Journaled ids [] (fresh nodeId counter) (.empty nodeId) :=
  ⟨refines_fresh hnode counter, rfl, fun _ h => absurd h List.not_mem_nil,
    fun _ h => absurd h List.not_mem_nil, fun _ => rfl⟩

theorem Journaled.ne_nil (h : Journaled ids records db m) : ∀ r ∈ records, r.2 ≠ [] := by
  intro r hr
  obtain ⟨reg, hreg, -⟩ := h.held r hr
  rw [hreg]
  exact reg.serialize_ne_nil

/-- Every key that some layer holds is one of a record. -/
theorem Journaled.stores (h : Journaled ids records db m) : Stores (Keyed ids (OnRecord records)) db := by
  refine h.refines.stores.mono fun key raw hkeyed => ⟨hkeyed.1, ?_⟩
  obtain ⟨mt, hmt, newer, hentry⟩ := hkeyed.2
  cases hlast : History.last key records with
  | some found => exact ⟨found, History.last_mem hlast⟩
  | none =>
    -- the memtable that has the key would have answered
    rw [← h.lookupMem key] at hlast
    have hprobe := List.findSome?_eq_none_iff.mp hlast mt hmt
    obtain ⟨r, -, rfl, -⟩ := (h.refines.stores.memtables mt hmt _ hentry).1.read
    rw [MemTable.probe_of_get (SortedMap.get?_eq_some_iff.mpr hentry) r.serialize_ne_nil] at hprobe
    exact absurd hprobe (by simp)

/-- **One step** appends its record to the log. -/
theorem Journaled.step (h : Journaled ids records db m) {a : Action} (ha : Enters ids a)
    (hclean : ∀ r ∈ stored db a, Wal.Clean r) (hstep : ZenithDB.step p db a = .ok db') :
    Journaled ids (records ++ stored db a) db' (m.perform a) := by
  have hrefines := (h.refines.step p ha).result hstep
  have heffect : Effect db db' (stored db a) := step_effect hstep
  generalize stored db a = new at hclean heffect
  -- either memtables and log stay, or one record is added to both
  cases heffect with
  | quiet hmem hwal =>
    rw [List.append_nil]
    refine ⟨hrefines, hwal.trans h.wal, h.clean, h.held, fun key => ?_⟩
    unfold ZenithDB.lookupMem
    rw [hmem]
    exact h.lookupMem key
  | store clock usage key reg heq =>
    -- the record is found first, in the active memtable
    have hlookup : ∀ k, db'.lookupMem k = History.last k (records ++ [(key, reg.serialize)]) := by
      intro k
      rw [heq, lookupMem_storeRecord _ _ reg.serialize_ne_nil, History.last_append_singleton,
        ← h.lookupMem k]
      rfl
    have hwal : db'.disk.wal = db.disk.wal ++ Wal.encodeRecord (key, reg.serialize) := by
      rw [heq, wal_storeRecord]
    refine ⟨hrefines, ?_, List.forall_mem_append.mpr ⟨h.clean, hclean⟩,
      List.forall_mem_append.mpr ⟨h.held, List.forall_mem_singleton.mpr ?_⟩, hlookup⟩
    · rw [hwal, h.wal, List.flatMap_append, List.flatMap_singleton]
    · have hlast := hlookup key
      rw [History.last_append_singleton, if_pos rfl] at hlast
      obtain ⟨-, mt, hmt, hentry⟩ := lookupMem_mem hlast
      exact (hrefines.stores.memtables mt hmt _ hentry).1

/-- What a database that is opened on the log finds in its memtable. -/
theorem Journaled.opened (h : Journaled ids records db m) {Q : Bytes → Bytes → Prop} {nodeId : NodeID}
    (hlog : replayLog p disk = replayLog p db.disk) (hopened : Opened Q p nodeId disk db') :
    (∀ key, db'.lookupMem key = History.last key records) ∧
      Rows (Keyed ids (OnRecord records)) (replayLog p disk).sortedEntries ∧
      ∀ key, OnRecord records key → Present db'.memtables key := by
  -- the log has each record as one line, so replay gives the last of each key
  have hget : ∀ key, (replayLog p disk).get key = History.last key records := by
    intro key
    rw [hlog]
    exact replayLog_of_clean h.wal h.clean h.ne_nil key
  have hlookup : ∀ key, db'.lookupMem key = History.last key records := by
    intro key
    unfold ZenithDB.lookupMem
    rw [hopened.memtables, List.findSome?_cons, List.findSome?_nil, MemTable.probe_eq, hget key]
    cases hlast : History.last key records with
    | none => rfl
    | some raw =>
      have hne := h.ne_nil _ (History.last_mem hlast)
      simp only [Option.filter, decide_eq_true hne, if_true]
  refine ⟨hlookup, fun e he => ?_, ?_⟩
  · have hentry : (replayLog p disk).get e.1 = some e.2 := SortedMap.get?_eq_some_iff.mpr he
    rw [hget] at hentry
    have hmem := History.last_mem hentry
    exact ⟨h.held _ hmem, e.2, hmem⟩
  -- the key has a record in the log, so the recovered memtable has it
  · rintro key ⟨raw, hraw⟩
    obtain ⟨found, hfound⟩ := History.last_isSome hraw
    obtain ⟨-, mt, hmt, hentry⟩ := lookupMem_mem ((hlookup key).trans hfound)
    exact ⟨mt, hmt, found, hentry⟩

/-- Reads do not look at the directory. -/
def detached (db : ZenithDB) : ZenithDB := { db with disk := .empty }

/-- **Reads after opening** a directory with the same log and whole files are those from
before. The memtable made from the log answers for every key that was ever written; a key
that the log has not is in no table either, so the search behind the memtable finds nothing,
as it did before. -/
theorem Journaled.opens (h : Journaled ids records db m) (hlog : replayLog p disk = replayLog p db.disk)
    (hopens : Opens p (Keyed ids (OnRecord records)) disk) (nodeId : NodeID) (counter : Nat) :
    ∃ db', openDB p nodeId disk counter = .ok db' ∧ ∀ key, db'.getCrdt key = .ok (m.read key) := by
  obtain ⟨db', hopen, hopened⟩ := hopens.openDB (mergeable_keyed _) nodeId counter
  obtain ⟨hlookup, hrows, hpresent⟩ := h.opened hlog hopened
  have hstores : Stores (Keyed ids (Present db'.memtables)) db'.detached := by
    have hmono : Stores (Keyed ids (OnRecord records)) db'.detached := by
      refine ⟨?_, hopened.layout, ?_, fun _ he => absurd he List.not_mem_nil⟩
      · show ∀ mt ∈ db'.memtables, _
        rw [hopened.memtables]
        exact List.forall_mem_singleton.mpr hrows
      · intro sst hsst
        rw [show db'.detached.worker = .flushing from hopened.worker] at hsst
        exact absurd hsst List.not_mem_nil
    exact hmono.mono fun key raw hkeyed => ⟨hkeyed.1, hpresent key hkeyed.2⟩
  refine ⟨db', hopen, fun key => ?_⟩
  rw [← h.refines.reads key]
  have hread : db'.detached.getCrdt key = db.getCrdt key :=
    getCrdt_eq_of_lookupMem h.refines.stores hstores ((hlookup key).trans (h.lookupMem key).symm)
  exact hread

/-- The files that are listed before any crash. -/
theorem Journaled.opens_now {events : List NameEvent} (h : Journaled ids records db m)
    (hnames : NamesTaken calls events db) : Opens p (Keyed ids (OnRecord records)) db.disk := by
  have hlisting : Listing (Keyed ids (OnRecord records)) calls db.disk :=
    ⟨hnames.logged.manifest, hnames.logged.wellFormed, fun l f _ file hfile =>
      h.stores.files (f, file) (SortedMap.get?_eq_some_iff.mp hfile)⟩
  exact hlisting.opens p

/-- **An orderly restart** starts the clock again and leaves the reads as they are. -/
theorem Journaled.reopen {events : List NameEvent} (h : Journaled ids records db m)
    (hnames : NamesTaken calls events db) {counter : Nat}
    (hopen : openDB p db.nodeId db.disk counter = .ok db') :
    Journaled ids records db' { m with localClock := .empty } := by
  obtain ⟨db₁, hopen₁, hopened⟩ :=
    (h.opens_now (p := p) hnames).openDB (mergeable_keyed _) db.nodeId counter
  obtain rfl := Except.ok.inj (hopen₁.symm.trans hopen)
  obtain ⟨hlookup, hrows, hpresent⟩ := h.opened rfl hopened
  -- the opening leaves the files as they are, so what they hold is on record as before
  have hfiles : ∀ e ∈ db₁.disk.files.toList, FileHolds (Keyed ids (OnRecord records)) e.2 := by
    rw [hopened.directory]
    exact h.stores.files
  have hstores : Stores (Keyed ids (Present db₁.memtables)) db₁ :=
    (hopened.stores hrows hfiles).mono fun key raw hkeyed => ⟨hkeyed.1, hpresent key hkeyed.2⟩
  refine ⟨⟨?_, ?_, ?_, hopened.localClock, hstores, fun key => ?_⟩, ?_, h.clean, h.held, hlookup⟩
  · rw [hopened.node]
    exact h.refines.node
  · rw [hopened.localClock]
    exact within_empty
  · rw [hopened.node]
    exact h.refines.nodeId
  · rw [getCrdt_eq_of_lookupMem h.refines.stores hstores
      ((hlookup key).trans (h.lookupMem key).symm)]
    exact h.refines.reads key
  · rw [hopened.directory]
    exact h.wal

/-- A line of the log that is cut off is not read. -/
theorem replayLog_torn {tail : Bytes} (htail : Lines.newline ∉ tail)
    (hwal : disk'.wal = disk.wal ++ tail) : replayLog p disk' = replayLog p disk := by
  refine Lines.readAll_append_tail (p.readChunks_ne _ _) (p.readChunks_ne _ _) htail ?_ _
  rw [p.readChunks_flatten, p.readChunks_flatten, hwal]

theorem replayLog_congr (hwal : disk'.wal = disk.wal) : replayLog p disk' = replayLog p disk := by
  unfold replayLog
  rw [hwal]

/-- Changes that are not made to the log leave it. -/
theorem crashed_wal_eq {ops : List DiskOp} (hops : ∀ op ∈ ops, ∀ bytes, op ≠ .appendWal bytes)
    (h : Crashed ops disk disk') : disk'.wal = disk.wal := by
  have hop : ∀ op ∈ ops, ∀ d : Disk, (op.apply d).wal = d.wal := by
    intro op hmem d
    cases op with
    | appendWal bytes => exact absurd rfl (hops _ hmem bytes)
    | writeFile name content => rfl
    | appendManifest bytes => rfl
  induction h with
  | before ops disk => rfl
  | @within op ops disk n =>
    cases op with
    | appendWal bytes => exact absurd rfl (hops _ (List.mem_cons_self ..) bytes)
    | writeFile name content => rfl
    | appendManifest bytes => rfl
  | @after op ops disk disk' h ih =>
    rw [ih (fun op hmem => hops op (List.mem_cons_of_mem _ hmem))
      (fun op hmem => hop op (List.mem_cons_of_mem _ hmem)), hop op (List.mem_cons_self ..)]

/-- The worker does not write to the log. -/
theorem diskOps_work (db : ZenithDB) (time : Nat → Nat) :
    ∀ op ∈ diskOps db (.work time), ∀ bytes, op ≠ .appendWal bytes := by
  -- each table of a flush takes a file and a line of the manifest
  have hflush : ∀ (nodes : List ImmNode) (counter : Nat), ∀ op ∈ flushOps time counter nodes,
      ∀ bytes, op ≠ .appendWal bytes := by
    intro nodes
    induction nodes with
    | nil => exact fun _ op hop => absurd hop List.not_mem_nil
    | cons node nodes ih =>
      intro counter op hop bytes
      rw [flushOps] at hop
      -- by what the worker does next
      split at hop
      · exact ih counter op hop bytes
      · split at hop
        · exact absurd hop List.not_mem_nil
        · rcases List.mem_cons.mp hop with rfl | hop
          · exact DiskOp.noConfusion
          · rcases List.mem_cons.mp hop with rfl | hop
            · exact DiskOp.noConfusion
            · exact ih _ op hop bytes
  intro op hop bytes
  rw [diskOps] at hop
  split at hop
  · split at hop
    · exact absurd hop List.not_mem_nil
    · exact hflush _ _ op hop bytes
  · exact absurd hop List.not_mem_nil
  · next task _ =>
    unfold outputOps at hop
    split at hop
    · exact absurd hop List.not_mem_nil
    · split at hop
      · exact absurd hop List.not_mem_nil
      · split at hop
        · exact absurd hop List.not_mem_nil
        · rw [List.mem_singleton.mp hop]
          exact DiskOp.noConfusion
  · next task _ =>
    unfold replaceOps at hop
    rcases List.mem_append.mp hop with hop | hop
    · split at hop
      · rw [List.mem_singleton.mp hop]
        exact DiskOp.noConfusion
      · exact absurd hop List.not_mem_nil
    · obtain ⟨f, -, rfl⟩ := List.mem_map.mp hop
      exact DiskOp.noConfusion

-- ---------------------------------------------------------------------------
-- Crashes
-- ---------------------------------------------------------------------------

/-- What a crash in the middle of appending a record leaves: the log as it was, as far as
readers see, or the log with the record. A clean record has its only newline at its end. -/
theorem crashed_append_wal {r : Entry} (hclean : Wal.Clean r)
    (h : Crashed [.appendWal (Wal.encodeRecord r)] disk disk') :
    replayLog p disk' = replayLog p disk ∨ disk'.wal = disk.wal ++ Wal.encodeRecord r := by
  cases h with
  | before => exact .inl rfl
  | within n =>
    have hline : Wal.encodeRecord r =
        (Wal.opPut ++ Wal.bar :: (r.1 ++ Wal.bar :: r.2)) ++ [Lines.newline] := rfl
    rcases Lines.take_line (Wal.newline_not_mem_record hclean) n with htake | htake
    · right
      show disk.wal ++ (Wal.encodeRecord r).take n = _
      rw [hline]
      exact congrArg (disk.wal ++ ·) htake
    · exact .inl (replayLog_torn htake rfl)
  | after h =>
    cases h
    exact .inr rfl

/-- **A crash in the middle of a step.** The directory can be opened, and the reads are
those from before the step or those from after it. Which of the two depends on the log
alone: the step counts from the moment at which the newline of its record is written. -/
theorem Journaled.crash {events : List NameEvent} {a : Action} (h : Journaled ids records db m)
    (hnames : NamesTaken calls events db) (ha : Enters ids a)
    (hclean : ∀ r ∈ stored db a, Wal.Clean r) (hapart : Apart events db (.act a))
    (hcrash : Crashed (diskOps db a) db.disk disk') (nodeId : NodeID) (counter : Nat) :
    ∃ db' m', openDB p nodeId disk' counter = .ok db' ∧ (m' = m ∨ m' = m.perform a) ∧
      ∀ key, db'.getCrdt key = .ok (m'.read key) := by
  -- whatever is listed after the crash was whole and on the log before it
  have hopens : Opens p (Keyed ids (OnRecord records)) disk' :=
    opens_crashed hnames h.stores.files h.stores.settled.frozen hapart hcrash
  have hbefore : replayLog p disk' = replayLog p db.disk →
      ∃ db' m', openDB p nodeId disk' counter = .ok db' ∧ (m' = m ∨ m' = m.perform a) ∧
        ∀ key, db'.getCrdt key = .ok (m'.read key) := by
    intro hlog
    obtain ⟨db', hopen, hreads⟩ := h.opens hlog hopens nodeId counter
    exact ⟨db', m, hopen, .inl rfl, hreads⟩
  -- a write that appends one record
  have hwrite : ∀ (r : Entry) (next : ZenithDB), stored db a = [r] → ZenithDB.step p db a = .ok next →
      Crashed [.appendWal (Wal.encodeRecord r)] db.disk disk' →
      ∃ db' m', openDB p nodeId disk' counter = .ok db' ∧ (m' = m ∨ m' = m.perform a) ∧
        ∀ key, db'.getCrdt key = .ok (m'.read key) := by
    intro r next hstored hstep hcrash
    have hnext := h.step ha hclean hstep
    rw [hstored] at hnext hclean
    rcases crashed_append_wal (p := p) (hclean r (List.mem_singleton_self _)) hcrash with hlog | hwal
    · exact hbefore hlog
    · have hlog : replayLog p disk' = replayLog p next.disk := by
        apply replayLog_congr
        rw [hwal, hnext.wal, List.flatMap_append, List.flatMap_singleton, h.wal]
      have hmono : Opens p (Keyed ids (OnRecord (records ++ [r]))) disk' := by
        refine hopens.mono fun key raw hkeyed => ⟨hkeyed.1, ?_⟩
        obtain ⟨newer, hnewer⟩ := hkeyed.2
        exact ⟨newer, List.mem_append_left _ hnewer⟩
      obtain ⟨db', hopen, hreads⟩ := hnext.opens hlog hmono nodeId counter
      exact ⟨db', _, hopen, .inr rfl, hreads⟩
  cases a with
  | put usage key value => exact hwrite _ _ rfl rfl hcrash
  | putCrdt usage key incoming =>
    obtain ⟨next, hput⟩ := putCrdt_ok (h.refines.reads key) usage incoming
    have hstored : stored db (.putCrdt usage key incoming) =
        [(key, (resolve incoming (m.read key)).serialize)] := by
      rw [stored, h.refines.reads key]
    rw [diskOps, hstored] at hcrash
    · exact hwrite _ next hstored hput hcrash
    · exact fun _ => Action.noConfusion
  | work time => exact hbefore (replayLog_congr (crashed_wal_eq (diskOps_work db time) hcrash))
  | otherNames n =>
    exact hbefore (replayLog_congr (crashed_wal_eq (fun op hop => absurd hop List.not_mem_nil) hcrash))

-- ---------------------------------------------------------------------------
-- Lives
-- ---------------------------------------------------------------------------

/-- What the results about crashes ask of each step, on the state before it. The records of
a write fit their length fields and have no framing byte; the names that the worker takes
differ from those of all earlier processes; a restart finds the log as it was left. -/
def Recoverable (ids : List NodeID) (events : List NameEvent) (db : ZenithDB) : LifeAction → Prop
  | .act a => Enters ids a ∧ (∀ r ∈ stored db a, Wal.Clean r) ∧ Apart events db (.act a)
  | .reopen _ wal => wal = db.disk.wal

instance (ids : List NodeID) (events : List NameEvent) (db : ZenithDB) :
    ∀ a, Decidable (Recoverable ids events db a)
  | .act a => inferInstanceAs (Decidable (Enters ids a ∧ (∀ r ∈ stored db a, Wal.Clean r) ∧
      ∀ n ∈ namings db (.act a), n ∉ (nameLedger events).past))
  | .reopen _ wal => inferInstanceAs (Decidable (wal = db.disk.wal))

end ZenithDB

namespace RegisterMap

/-- A step of the map in the lives of a directory. A restart forgets the clock, because the
constructor never reads one back. -/
def performLife (m : RegisterMap) : ZenithDB.LifeAction → RegisterMap
  | .act a => m.perform a
  | .reopen _ _ => { m with localClock := .empty }

def performLives (m : RegisterMap) (as : List ZenithDB.LifeAction) : RegisterMap :=
  as.foldl performLife m

end RegisterMap

namespace ZenithDB

variable {ids : List NodeID} {p : Platform} {db : ZenithDB}

/-- The invariant of the lives of a directory, by induction on what was done. A restart is a
step like any other, which is why the number of them is not bounded. -/
theorem journaled_run {nodeId : NodeID} (hnode : nodeId ∈ ids) {counter : Nat}
    {as : List LifeAction}
    (hrec : (nameSystem p).Along (Recoverable ids) [] (fresh nodeId counter) as)
    (hrun : (nameSystem p).run (fresh nodeId counter) as = .ok db) :
    ∃ records calls, Journaled ids records db ((RegisterMap.empty nodeId).performLives as) ∧
      NamesTaken calls ((nameSystem p).trace (fresh nodeId counter) as) db := by
  refine System.run_prefix_invariant (S := nameSystem p) (l := [])
    (P := fun done t => ∃ records calls,
      Journaled ids records t ((RegisterMap.empty nodeId).performLives done) ∧
        NamesTaken calls ((nameSystem p).trace (fresh nodeId counter) done) t) ?_ ?_ hrec hrun
  · exact ⟨[], [], journaled_fresh hnode counter, namesTaken_fresh nodeId counter⟩
  · rintro done t a t' hdone ⟨records, calls, h, hnames⟩ ha hstep
    rw [List.nil_append] at ha
    -- what the next step adds to the names and to the map
    have htrace : (nameSystem p).trace (fresh nodeId counter) (done ++ [a]) =
        (nameSystem p).trace (fresh nodeId counter) done ++ nameEvents t a := by
      rw [System.trace_append hdone, System.trace_cons_ok hstep, System.trace_nil, List.append_nil]
      rfl
    have hperform : (RegisterMap.empty nodeId).performLives (done ++ [a]) =
        ((RegisterMap.empty nodeId).performLives done).performLife a := by
      unfold RegisterMap.performLives
      rw [List.foldl_append]
      rfl
    rw [htrace, hperform]
    cases a with
    | act a =>
      obtain ⟨henters, hclean, hapart⟩ := ha
      exact ⟨_, _, h.step henters hclean hstep, (hnames.step hapart hstep).1⟩
    | reopen counter' wal =>
      obtain rfl : wal = t.disk.wal := ha
      have hapart : Apart ((nameSystem p).trace (fresh nodeId counter) done) t
          (.reopen counter' t.disk.wal) := fun n hn => absurd hn List.not_mem_nil
      exact ⟨_, _, h.reopen hnames hstep, (hnames.step hapart hstep).1⟩

/-- **Orderly restarts.** However often a directory is closed and opened again between
steps, point reads are those of the map that performs the same writes and whose clock starts
again at each restart. The directory is empty at first, and the run is any that does not
stop (`hrun`).

The assumption `hrec` is used at every step: the log that is replayed has each write as one
line, which takes records without framing bytes, and a table that is read was not
overwritten by a later one, which takes new names. What is written fits its length fields,
too, with clocks over the ids `ids`, of which the node's own is one (`hnode`). -/
theorem reopened_reads {nodeId : NodeID} (hnode : nodeId ∈ ids) {counter : Nat}
    {as : List LifeAction}
    (hrec : (nameSystem p).Along (Recoverable ids) [] (fresh nodeId counter) as)
    (hrun : (nameSystem p).run (fresh nodeId counter) as = .ok db) (key : Bytes) :
    db.getCrdt key = .ok (((RegisterMap.empty nodeId).performLives as).read key) ∧
      db.localClock = ((RegisterMap.empty nodeId).performLives as).localClock := by
  obtain ⟨records, calls, h, -⟩ := journaled_run hnode hrec hrun
  exact ⟨h.refines.reads key, h.refines.localClock⟩

/-- **Crash recovery.** A process is killed in the middle of any step, after any number of
its changes to the directory and any number of bytes of the next one. The directory can be
opened again, and point reads are those of the map after all steps before, with or without
the step that was interrupted.

Hypotheses:
* `hnode` — the node's own id is one of `ids`, over which all clocks are;
* `hrec` — all steps, the interrupted one as well, store records that fit and have no
  framing byte, and give new files names that no earlier process gave; a restart finds the
  log as it was left;
* `hrun` — the run before that step, from an empty directory;
* `hcrash` — `disk'` is what the step leaves when it is cut off.

Nothing is assumed about when, or how often, the processes before were restarted. -/
theorem crash_recovery {nodeId : NodeID} (hnode : nodeId ∈ ids) {counter : Nat}
    {as : List LifeAction} {a : Action}
    (hrec : (nameSystem p).Along (Recoverable ids) [] (fresh nodeId counter) (as ++ [.act a]))
    (hrun : (nameSystem p).run (fresh nodeId counter) as = .ok db) {disk' : Disk}
    (hcrash : Crashed (diskOps db a) db.disk disk') (nodeId' : NodeID) (counter' : Nat) :
    ∃ db' m, openDB p nodeId' disk' counter' = .ok db' ∧
      (m = (RegisterMap.empty nodeId).performLives as ∨
        m = (RegisterMap.empty nodeId).performLives (as ++ [.act a])) ∧
      ∀ key, db'.getCrdt key = .ok (m.read key) := by
  obtain ⟨records, calls, h, hnames⟩ := journaled_run hnode hrec.append_left hrun
  obtain ⟨henters, hclean, hapart⟩ := hrec.at_step hrun
  rw [List.nil_append] at hapart
  obtain ⟨db', m, hopen, hm, hreads⟩ :=
    h.crash hnames henters hclean hapart hcrash nodeId' counter'
  refine ⟨db', m, hopen, hm.imp_right fun heq => ?_, hreads⟩
  unfold RegisterMap.performLives
  rw [List.foldl_append]
  exact heq

/-- Two writes of a key, one before a restart and one after it. -/
theorem reopened_reads_restart :
    ∃ db, (nameSystem .stable).run (fresh [65] 0) [.act (.put 0 [107] [118]),
        .reopen 0 (Wal.encodeRecord ([107],
          LWWRegister.serialize ⟨[118], VectorClock.empty.increment [65]⟩)),
        .act (.put 0 [107] [119])] = .ok db ∧
      db.getCrdt [107] = .ok (((RegisterMap.empty [65]).performLives [.act (.put 0 [107] [118]),
        .reopen 0 (Wal.encodeRecord ([107],
          LWWRegister.serialize ⟨[118], VectorClock.empty.increment [65]⟩)),
        .act (.put 0 [107] [119])]).read [107]) ∧
      db.localClock = ((RegisterMap.empty [65]).performLives [.act (.put 0 [107] [118]),
        .reopen 0 (Wal.encodeRecord ([107],
          LWWRegister.serialize ⟨[118], VectorClock.empty.increment [65]⟩)),
        .act (.put 0 [107] [119])]).localClock := by
  obtain ⟨db, hrun⟩ := Except.exists_eq_ok (x := (nameSystem .stable).run (fresh [65] 0)
    [.act (.put 0 [107] [118]), .reopen 0 (Wal.encodeRecord ([107],
      LWWRegister.serialize ⟨[118], VectorClock.empty.increment [65]⟩)),
      .act (.put 0 [107] [119])]) (by decide +kernel)
  have hnode : ([65] : NodeID) ∈ [[65]] := by decide
  exact ⟨db, hrun, reopened_reads hnode (by decide +kernel) hrun [107]⟩

/-- A flush is killed when its table is written and seven bytes of the line are that would
add it to the manifest. -/
theorem crash_recovery_torn_flush :
    ∃ db op₁ op₂, (nameSystem .stable).run (fresh [65] 0) [.act (.put 200000 [107] [118])] = .ok db ∧
      diskOps db (.work fun _ => 5) = [op₁, op₂] ∧
      ∃ db' m, openDB .stable [65] ((op₂.take 7).apply (op₁.apply db.disk)) 0 = .ok db' ∧
        (m = (RegisterMap.empty [65]).performLives [.act (.put 200000 [107] [118])] ∨
          m = (RegisterMap.empty [65]).performLives [.act (.put 200000 [107] [118]),
            .act (.work fun _ => 5)]) ∧
        ∀ key, db'.getCrdt key = .ok (m.read key) := by
  obtain ⟨db, hrun, hlength⟩ : ∃ db, (nameSystem .stable).run (fresh [65] 0)
      [.act (.put 200000 [107] [118])] = .ok db ∧ (diskOps db (.work fun _ => 5)).length = 2 := by
    decide +kernel
  obtain ⟨op₁, op₂, hops⟩ := List.length_eq_two.mp hlength
  have hcrash : Crashed (diskOps db (.work fun _ => 5)) db.disk
      ((op₂.take 7).apply (op₁.apply db.disk)) := by
    rw [hops]
    exact .after (.within 7)
  have hnode : ([65] : NodeID) ∈ [[65]] := by decide
  exact ⟨db, op₁, op₂, hrun, hops, crash_recovery hnode (by decide +kernel) hrun hcrash [65] 0⟩

end ZenithDB

end Zenith
