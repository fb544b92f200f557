import Zenith.DB.Cascade
import Zenith.DB.Directory
import Zenith.DB.Marked

/-!
# Zenith — a database over a directory that outlived crashes

A directory that a crash has left holds more than the tables that are listed: half a table
under a name that no line of the manifest has, fragments of lines, tables that compactions
have replaced. What is in it beside the listed tables says nothing. So the invariant of the
layers, `Stores`, which speaks of all files, is kept for the database without its directory
(`detached`), and `Directory` for the directory. They meet in `Robust`, with what ties the
two together: names that can be logged, and outputs of compactions that are on disk when
they are listed.

A step keeps both. What it does beside the directory does not depend on it (`alike_step`),
because a running database only writes to its directory; so `Stores` is kept by the result
for databases without one. What it does to the directory is such as the code may do
(`Robust.permitted`), and a directory stays a `Directory` under any part of such changes,
which is what a crash leaves.

`Lawful` is what is asked of a step: its write fits and has the property, its record has no
framing byte, and the names of its tables are not in use. The last can fail when two
processes make a file of the same level in the same second with the same counter.

Main results: `Robust.step` for a step that ends and `Robust.crashed` for one that does not.
-/

namespace Zenith

open Bytes VectorClock

-- ---------------------------------------------------------------------------
-- Databases
-- ---------------------------------------------------------------------------

namespace ZenithDB

variable {ids : List NodeID} {R : Bytes → LWWRegister → Prop} {p : Platform} {db db' : ZenithDB}

/-- What a compaction that is under way will write and log. -/
structure Loggable (task : CompactionTask) : Prop where
  level : task.level + 1 < Manifest.levelCount
  inputs : ∀ f ∈ task.inputFilenames, Manifest.NoSpace f
  output : ∃ n : Naming, task.outputFilename = n.name

/-- A database over a directory that outlived crashes. -/
structure Robust (ids : List NodeID) (R : Bytes → LWWRegister → Prop) (db : ZenithDB) : Prop where
  node : db.nodeId ∈ ids
  clock : db.localClock.Within ids
  memory : Stores (Marked ids R) db.detached
  directory : Directory (Marked ids R) db.disk
  levels : db.levelsMeta.length = Manifest.levelCount
  names : ∀ f ∈ db.levelsMeta.flatten, Manifest.NoSpace f
  executing : ∀ task, db.worker = .executing task →
    Loggable task ∧ task.outputSst = none ∧ db.disk.files.get? task.outputFilename = none
  applying : ∀ task, db.worker = .applying task → Loggable task ∧ (task.outputSst.isSome = true →
    ∃ file, db.disk.files.get? task.outputFilename = some file ∧ FileHolds (Marked ids R) file)

/-- A step makes its tables under names that no file of the directory has. -/
def Unused (db : ZenithDB) (a : Action) : Prop :=
  ∀ n ∈ namings db (.act a), db.disk.files.get? n.name = none

instance (db : ZenithDB) (a : Action) : Decidable (Unused db a) :=
  inferInstanceAs (Decidable (∀ n ∈ namings db (.act a), db.disk.files.get? n.name = none))

theorem robust_fresh {nodeId : NodeID} (hnode : nodeId ∈ ids) (counter : Nat) :
    Robust ids R (fresh nodeId counter) where
  node := hnode
  clock := within_empty
  memory := stores_fresh nodeId counter
  directory := directory_empty
  levels := List.length_replicate
  names f hf := by
    obtain ⟨names, hnames, hf⟩ := List.mem_flatten.mp hf
    rw [List.eq_of_mem_replicate hnames] at hf
    exact absurd hf List.not_mem_nil
  executing task htask := absurd htask Worker.noConfusion
  applying task htask := absurd htask Worker.noConfusion

/-- A stronger property of registers implies a weaker one. -/
theorem Robust.mono {R' : Bytes → LWWRegister → Prop} (h : Robust ids R db)
    (hle : ∀ k r, R k r → R' k r) : Robust ids R' db := by
  have hmarked : ∀ k raw, Marked ids R k raw → Marked ids R' k raw := fun _ _ hraw => hraw.mono hle
  refine ⟨h.node, h.clock, h.memory.mono hmarked, h.directory.mono hmarked, h.levels, h.names,
    h.executing, fun task htask => ⟨(h.applying task htask).1, fun hsome => ?_⟩⟩
  obtain ⟨file, hfile, es, hcreate, hsorted, hrows⟩ := (h.applying task htask).2 hsome
  exact ⟨file, hfile, es, hcreate, hsorted, hrows.mono hmarked⟩

-- ---------------------------------------------------------------------------
-- The changes of a step
-- ---------------------------------------------------------------------------

section

variable {Q : Bytes → Bytes → Prop} {disk : Disk}

/-- **The changes of a flush**: each table is new, and there when it is listed. -/
theorem permitted_flush {time : Nat → Nat} {nodes : List ImmNode} {counter : Nat}
    (hrows : ∀ node ∈ nodes, Rows Q node.mt.sortedEntries)
    (hunused : ∀ n ∈ flushNamings time counter nodes, disk.files.get? n.name = none) :
    Permitted Q (flushOps time counter nodes) disk := by
  -- each memtable with rows takes two changes, its file and then the line that lists it
  induction nodes generalizing disk counter with
  | nil => exact .nil disk
  | cons node nodes ih =>
    obtain ⟨hnode, hnodes⟩ := List.forall_mem_cons.mp hrows
    rw [flushNamings] at hunused
    rw [flushOps]
    split
    · next hskip =>
      rw [if_pos hskip] at hunused
      exact ih hnodes hunused
    next hskip =>
    rw [if_neg hskip] at hunused
    obtain ⟨hfirst, hlater⟩ := List.forall_mem_cons.mp hunused
    cases hcreate : SSTable.create node.mt.sortedEntries with
    | error f => exact .nil disk
    | ok file =>
      set n : Naming := ⟨0, time counter, counter⟩ with hn
      have hholds : FileHolds Q file := ⟨_, hcreate, node.mt.table.sorted, hnode⟩
      have hthere : (disk.files.insert n.name file).get? n.name = some file :=
        SortedMap.get?_insert_self ..
      refine .cons (.writeFile n file hfirst) (.cons (.appendManifest true (by decide)
        (noSpace_newFilename _ _ _) fun _ => ⟨file, hthere, hholds⟩) (ih hnodes fun m hm => ?_))
      -- the next names have higher numbers
      show (disk.files.insert n.name file).get? m.name = none
      rw [SortedMap.get?_insert, if_neg, hlater m hm]
      intro heq
      have hid := ((flushNamings_ids time (counter + 1) nodes).1 m hm).1
      rw [Naming.name_inj heq, hn] at hid
      exact absurd hid (Nat.not_succ_le_self counter)

/-- The change of `execute_compaction`. -/
theorem permitted_output {task : CompactionTask} (htask : Loggable task)
    (hunused : disk.files.get? task.outputFilename = none) :
    Permitted Q (outputOps task) disk := by
  obtain ⟨n, hn⟩ := htask.output
  unfold outputOps
  split
  · exact .nil disk
  split
  · exact .nil disk
  split
  · exact .nil disk
  · rw [hn] at hunused ⊢
    exact .cons (.writeFile n _ hunused) (.nil _)

/-- The changes of `apply_compaction`. -/
theorem permitted_replace {task : CompactionTask} (htask : Loggable task)
    (hwhole : task.outputSst.isSome = true →
      ∃ file, disk.files.get? task.outputFilename = some file ∧ FileHolds Q file) :
    Permitted Q (replaceOps task) disk := by
  have hdels : ∀ (names : List Bytes), (∀ f ∈ names, Manifest.NoSpace f) → ∀ disk : Disk,
      Permitted Q (names.map fun f => .appendManifest
        (Manifest.encodeRecord Manifest.opDel task.level f)) disk := by
    intro names hnames
    induction names with
    | nil => exact fun disk => .nil disk
    | cons f names ih =>
      obtain ⟨hf, hnames⟩ := List.forall_mem_cons.mp hnames
      exact fun disk => .cons (.appendManifest false (Nat.lt_of_succ_lt htask.level) hf
        fun h => absurd h Bool.false_ne_true) (ih hnames _)
  obtain ⟨n, hn⟩ := htask.output
  have hspace : Manifest.NoSpace task.outputFilename := by
    rw [hn]
    exact noSpace_newFilename _ _ _
  -- the output is listed first, when there is one
  unfold replaceOps
  split
  · next hsome =>
    exact .cons (.appendManifest true htask.level hspace fun _ => hwhole hsome)
      (hdels _ htask.inputs _)
  · exact hdels _ htask.inputs disk

end

/-- **The changes of a step** are such as the code may make. -/
theorem Robust.permitted (h : Robust ids R db) {a : Action}
    (hstored : ∀ r ∈ stored db a, Wal.Clean r ∧ Marked ids R r.1 r.2) (hunused : Unused db a) :
    Permitted (Marked ids R) (diskOps db a) db.disk := by
  -- a write appends records to the log only
  have hlog : ∀ rs : List Entry, (∀ r ∈ rs, Wal.Clean r ∧ Marked ids R r.1 r.2) → ∀ disk : Disk,
      Permitted (Marked ids R) (rs.map fun r => .appendWal (Wal.encodeRecord r)) disk := by
    intro rs hrs
    induction rs with
    | nil => exact fun disk => .nil disk
    | cons r rs ih =>
      obtain ⟨⟨hclean, hmarked⟩, hrest⟩ := List.forall_mem_cons.mp hrs
      obtain ⟨key, raw⟩ := r
      obtain ⟨reg, rfl, hreg⟩ := hmarked
      exact fun disk => .cons (.appendWal hclean ⟨reg, rfl, hreg⟩) (ih hrest _)
  -- and the worker's changes are those of its three kinds of tasks
  cases a with
  | put usage key value => exact hlog _ hstored _
  | putCrdt usage key incoming => exact hlog _ hstored _
  | otherNames n => exact .nil _
  | work time =>
    unfold Unused namings at hunused
    rw [diskOps]
    cases hworker : db.worker with
    | flushing =>
      rw [hworker] at hunused
      dsimp only at hunused ⊢
      split
      · exact .nil _
      · next hall =>
        rw [if_neg hall] at hunused
        exact permitted_flush h.memory.settled.frozen hunused
    | planning => exact .nil _
    | executing task =>
      obtain ⟨htask, -, hnew⟩ := h.executing task hworker
      exact permitted_output htask hnew
    | applying task =>
      obtain ⟨htask, hwhole⟩ := h.applying task hworker
      exact permitted_replace htask hwhole

-- ---------------------------------------------------------------------------
-- What is beside the directory
-- ---------------------------------------------------------------------------

/-- Computations that agree but for the directory. -/
def Alike (x y : Except Fault ZenithDB) : Prop := x.map detached = y.map detached

/-- Two databases that differ in the directory only. -/
theorem alike_ok (h : db.detached = db'.detached) : Alike (.ok db) (.ok db') :=
  congrArg Except.ok h

/-- Going on alike after computations that are. -/
theorem Alike.bind {x y : Except Fault ZenithDB} {f g : ZenithDB → Except Fault ZenithDB}
    (h : Alike x y) (hfg : ∀ a b : ZenithDB, a.detached = b.detached → Alike (f a) (g b)) :
    Alike (x >>= f) (y >>= g) := by
  unfold Alike at h
  cases x with
  | error e =>
    cases y with
    | error e' => exact congrArg Except.error (Except.error.inj h)
    | ok b => exact absurd h (by simp [Except.map])
  | ok a =>
    cases y with
    | error e' => exact absurd h (by simp [Except.map])
    | ok b => exact hfg a b (Except.ok.inj h)

/-- A flush writes its table and opens what it wrote. -/
theorem alike_flushNode {time : Nat → Nat} {node : ImmNode} (hsame : db.detached = db'.detached) :
    Alike (flushNode time db node) (flushNode time db' node) := by
  have hdetached : ∀ d : ZenithDB,
      Alike (flushNode time d node) (flushNode time d.detached node) := by
    intro d
    unfold Alike flushNode
    split
    · rfl
    · cases SSTable.create node.mt.sortedEntries with
      | error f => rfl
      | ok file =>
        simp only [Except.ok_bind]
        cases openWritten file with
        | error f => rfl
        | ok opened => cases opened <;> rfl
  unfold Alike at hdetached ⊢
  rw [hdetached, hsame, ← hdetached]

/-- All frozen memtables, by induction on them. -/
theorem alike_flushNodes {time : Nat → Nat} {nodes : List ImmNode}
    (hsame : db.detached = db'.detached) :
    Alike (nodes.foldlM (flushNode time) db) (nodes.foldlM (flushNode time) db') := by
  induction nodes generalizing db db' with
  | nil => exact congrArg Except.ok hsame
  | cons node nodes ih =>
    rw [List.foldlM_cons, List.foldlM_cons]
    exact (alike_flushNode hsame).bind fun a b hab => ih hab

/-- A write appends to the log and does not look at it. -/
theorem detached_storeRecord (db : ZenithDB) (usage : Nat) (key serialized : Bytes) :
    (db.storeRecord usage key serialized).detached =
      (db.detached.storeRecord usage key serialized).detached := by
  unfold storeRecord
  split <;> rfl

theorem alike_flush (p : Platform) (time : Nat → Nat) (db : ZenithDB) :
    Alike (db.flush p time) (db.detached.flush p time) := by
  unfold flush
  rw [show db.detached.immut = db.immut from rfl]
  split
  · rfl
  · have hnodes : Alike (db.immut.foldlM (flushNode time) db)
        (db.immut.foldlM (flushNode time) db.detached) := alike_flushNodes rfl
    exact hnodes.bind fun a b hab => alike_ok
      (congrArg (fun d : ZenithDB => ({ d with
        layout := sortAllLevels p d.layout
        immut := db.immut.map fun node => { node with flushed := true } } : ZenithDB)) hab)

/-- The worker, by the place where its loop is. -/
theorem alike_work (p : Platform) (time : Nat → Nat) (db : ZenithDB) :
    Alike (db.work p time) (db.detached.work p time) := by
  unfold work
  rw [show db.detached.worker = db.worker from rfl]
  -- neither the task nor what is read depends on the files of the directory
  cases db.worker with
  | flushing =>
    exact (alike_flush p time db).bind fun a b hab =>
      alike_ok (congrArg (fun d : ZenithDB => ({ d with worker := .planning } : ZenithDB)) hab)
  | planning =>
    dsimp only
    rw [show db.detached.planCompaction time = db.planCompaction time from rfl]
    cases db.planCompaction time <;> rfl
  | executing task =>
    dsimp only
    unfold executeCompaction
    cases task.inputSsts.foldlM compactTable SortedMap.empty with
    | error f => rfl
    | ok merged =>
      simp only [Except.ok_bind]
      split
      · rfl
      · cases SSTable.create merged.toList with
        | error f => rfl
        | ok file =>
          simp only [Except.ok_bind]
          cases openWritten file with
          | error f => rfl
          | ok opened => cases opened <;> rfl
  | applying task =>
    dsimp only
    unfold applyCompaction
    cases task.outputSst <;> rfl

/-- **The directory is only written to**: what a step does beside it does not depend on it. -/
theorem alike_step (p : Platform) (db : ZenithDB) (a : Action) :
    Alike (step p db a) (step p db.detached a) := by
  cases a with
  | put usage key value => exact congrArg Except.ok (detached_storeRecord _ usage key _)
  | putCrdt usage key incoming =>
    show Alike (db.getCrdt key >>= _) (db.getCrdt key >>= _)
    cases db.getCrdt key with
    | error f => rfl
    | ok existing => exact congrArg Except.ok (detached_storeRecord _ usage key _)
  | otherNames n => rfl
  | work time => exact alike_work p time db

-- ---------------------------------------------------------------------------
-- Steps
-- ---------------------------------------------------------------------------

/-- What a write brings fits and has the property. -/
def Brings (ids : List NodeID) (R : Bytes → LWWRegister → Prop) (db : ZenithDB) : Action → Prop
  | .put _ key value => Proper ids R key (db.localRegister value)
  | .putCrdt _ key incoming => Proper ids R key incoming
  | .work _ => True
  | .otherNames _ => True

/-- So does the write of this step, what it stores has no framing byte, and its tables get
names that are not in use. -/
structure Lawful (ids : List NodeID) (R : Bytes → LWWRegister → Prop) (db : ZenithDB) (a : Action) :
    Prop where
  brings : Brings ids R db a
  clean : ∀ r ∈ stored db a, Wal.Clean r
  unused : Unused db a

section

variable [∀ key r, Decidable (R key r)]

instance (key : Bytes) (r : LWWRegister) : Decidable (Proper ids R key r) :=
  decidable_of_iff (r.clock.Within ids ∧ Fits ids key r.value ∧ R key r)
    ⟨fun h => ⟨h.1, h.2.1, h.2.2⟩, fun h => ⟨h.clock, h.fits, h.has⟩⟩

instance (db : ZenithDB) : ∀ a, Decidable (Brings ids R db a)
  | .put _ key value => inferInstanceAs (Decidable (Proper ids R key (db.localRegister value)))
  | .putCrdt _ key incoming => inferInstanceAs (Decidable (Proper ids R key incoming))
  | .work _ => isTrue trivial
  | .otherNames _ => isTrue trivial

instance (db : ZenithDB) (a : Action) : Decidable (Lawful ids R db a) :=
  decidable_of_iff (Brings ids R db a ∧ (∀ r ∈ stored db a, Wal.Clean r) ∧ Unused db a)
    ⟨fun h => ⟨h.1, h.2.1, h.2.2⟩, fun h => ⟨h.brings, h.clean, h.unused⟩⟩

end

/-- Without files there is less to hold. -/
theorem Stores.detach {Q : Bytes → Bytes → Prop} (h : Stores Q db) : Stores Q db.detached :=
  ⟨h.memtables, h.layout, h.worker, fun _ he => absurd he List.not_mem_nil⟩

/-- What is beside the directory of a database. -/
theorem Robust.memory_step (hR : KeptByMerge R) (h : Robust ids R db) (p : Platform) {a : Action}
    (hstored : Rows (Marked ids R) (stored db a)) :
    (step p db a).Post (fun db' => Stores (Marked ids R) db'.detached) WriteFailed := by
  have hsame : stored db.detached a = stored db a := by cases a <;> rfl
  have hstep := h.memory.step (mergeable_marked hR) p (hsame ▸ hstored)
  have halike := alike_step p db a
  unfold Alike at halike
  -- both computations fail, or both end in the same state but for the directory
  cases hdb : step p db a with
  | error f =>
    cases hdetached : step p db.detached a with
    | error f' =>
      rw [hdb, hdetached] at halike
      rw [hdetached] at hstep
      obtain rfl := Except.error.inj halike
      exact hstep
    | ok d =>
      rw [hdb, hdetached] at halike
      exact absurd halike (by simp [Except.map])
  | ok db' =>
    cases hdetached : step p db.detached a with
    | error f' =>
      rw [hdb, hdetached] at halike
      exact absurd halike (by simp [Except.map])
    | ok d =>
      rw [hdb, hdetached] at halike
      rw [hdetached] at hstep
      have hd : db'.detached = d.detached := Except.ok.inj halike
      rw [Except.post_ok, hd]
      exact Stores.detach hstep

/-- The record of a step. -/
theorem Robust.marked (hR : KeptByMerge R) (h : Robust ids R db) {a : Action}
    (ha : Lawful ids R db a) : Rows (Marked ids R) (stored db a) := by
  cases a with
  | put usage key value =>
    exact List.forall_mem_singleton.mpr ⟨_, rfl, ha.brings⟩
  | putCrdt usage key incoming =>
    obtain ⟨found, hget, hfound⟩ := h.memory.readProper hR key
    have hget : db.getCrdt key = .ok found := hget
    rw [stored, hget]
    have hincoming : Proper ids R key incoming := ha.brings
    exact List.forall_mem_singleton.mpr ⟨_, rfl, hincoming.resolve hR hfound⟩
  | work time => exact fun r hr => absurd hr List.not_mem_nil
  | otherNames n => exact fun r hr => absurd hr List.not_mem_nil

/-- A write changes the memtables, the clock and the log. -/
theorem Robust.write (h : Robust ids R db) {clock : VectorClock} {usage : Nat} {key raw : Bytes}
    (hclock : clock.Within ids)
    (heq : db' = { db with localClock := clock }.storeRecord usage key raw)
    (hmemory : Stores (Marked ids R) db'.detached)
    (hdirectory : Directory (Marked ids R) db'.disk) :
    Robust ids R db' := by
  have hframe : db'.nodeId = db.nodeId ∧ db'.localClock = clock ∧ db'.levelsMeta = db.levelsMeta ∧
      db'.worker = db.worker ∧ db'.disk.files = db.disk.files := by
    rw [heq]
    unfold ZenithDB.storeRecord
    split <;> exact ⟨rfl, rfl, rfl, rfl, rfl⟩
  obtain ⟨hnode, hlocal, hlevels, hworker, hfiles⟩ := hframe
  refine ⟨hnode ▸ h.node, hlocal ▸ hclock, hmemory, hdirectory, hlevels ▸ h.levels,
    hlevels ▸ h.names, fun task htask => ?_, fun task htask => ?_⟩
  · rw [hfiles]
    exact h.executing task (hworker ▸ htask)
  · rw [hfiles]
    exact h.applying task (hworker ▸ htask)

/-- The names that flushes make have no white space. -/
theorem noSpace_flushNodes {time : Nat → Nat} {nodes : List ImmNode}
    (h : nodes.foldlM (flushNode time) db = .ok db')
    (hnames : ∀ f ∈ db.levelsMeta.flatten, Manifest.NoSpace f) :
    ∀ f ∈ db'.levelsMeta.flatten, Manifest.NoSpace f := by
  induction nodes generalizing db with
  | nil => rwa [← Except.ok.inj h]
  | cons node nodes ih =>
    rw [List.foldlM_cons] at h
    obtain ⟨mid, hnode, hrest⟩ := Except.bind_eq_ok_iff.mp h
    refine ih hrest ?_
    obtain ⟨-, rfl⟩ | ⟨-, file, opened, -, -, rfl⟩ := flushNode_cases hnode
    · exact hnames
    · have hadd : ∀ f ∈ (db.levelsMeta.modify 0
          (· ++ [newFilename 0 (time db.counter) db.counter])).flatten, Manifest.NoSpace f :=
        Levels.forall_flatten_modify hnames (fun level hlevel => List.forall_mem_append.mpr
          ⟨hlevel, List.forall_mem_singleton.mpr (noSpace_newFilename _ _ _)⟩) 0
      cases opened <;> exact hadd

/-- Neither has the name of an output. -/
theorem noSpace_applyCompaction {task : CompactionTask} (htask : Loggable task)
    (hnames : ∀ f ∈ db.levelsMeta.flatten, Manifest.NoSpace f) :
    ∀ f ∈ (db.applyCompaction task).levelsMeta.flatten, Manifest.NoSpace f := by
  obtain ⟨n, hn⟩ := htask.output
  have hspace : Manifest.NoSpace task.outputFilename := by
    rw [hn]
    exact noSpace_newFilename _ _ _
  have hkept : ∀ f ∈ (db.levelsMeta.modify task.level fun files =>
      files.filter fun f => !task.inputFilenames.contains f).flatten, Manifest.NoSpace f := by
    refine Levels.forall_flatten_modify hnames (fun level hlevel f hf => ?_) task.level
    exact hlevel f (List.mem_of_mem_filter hf)
  unfold ZenithDB.applyCompaction
  cases task.outputSst with
  | none => exact hkept
  | some sst =>
    exact Levels.forall_flatten_modify hkept (fun level hlevel => List.forall_mem_append.mpr
      ⟨hlevel, List.forall_mem_singleton.mpr hspace⟩) (task.level + 1)

/-- The task that is planned. -/
theorem Robust.planned (h : Robust ids R db) {time : Nat → Nat} {task : CompactionTask}
    (hplan : db.planCompaction time = some task) (hworker : db.worker = .planning)
    (hunused : Unused db (.work time)) :
    Loggable task ∧ task.outputSst = none ∧ db.disk.files.get? task.outputFilename = none := by
  unfold Unused namings planNamings at hunused
  rw [hworker] at hunused
  dsimp only at hunused
  rw [hplan] at hunused
  have hname := hunused _ (List.mem_singleton_self _)
  unfold ZenithDB.planCompaction at hplan
  obtain ⟨lvl, hlvl, rfl⟩ := Option.map_eq_some_iff.mp hplan
  have hlt : lvl < db.levelsMeta.length - 1 := by
    unfold fullLevel at hlvl
    exact List.mem_range.mp (List.mem_of_find?_eq_some hlvl)
  rw [h.levels] at hlt
  refine ⟨⟨?_, fun f hf => h.names f (Levels.mem_flatten hf),
    ⟨⟨lvl + 1, time db.counter, db.counter⟩, rfl⟩⟩, rfl, hname⟩
  show lvl + 1 < Manifest.levelCount
  omega

/-- The output of a compaction is there, and whole, when it can be opened. -/
theorem Robust.executed (hR : KeptByMerge R) (h : Robust ids R db) {task task' : CompactionTask}
    (hworker : db.worker = .executing task)
    (hexec : db.executeCompaction task = .ok (db', task')) :
    Loggable task' ∧ (task'.outputSst.isSome = true →
      ∃ file, db'.disk.files.get? task'.outputFilename = some file ∧
        FileHolds (Marked ids R) file) := by
  obtain ⟨htask, hnone, -⟩ := h.executing task hworker
  have hinputs : ∀ sst ∈ task.inputSsts, sst.table.Holds (Marked ids R) := by
    intro sst hsst
    have hworker' : db.detached.worker = .executing task := hworker
    exact h.memory.worker sst (by rw [hworker']; exact List.mem_append_left _ hsst)
  obtain ⟨merged, hmerged, hrows⟩ := compactTables_spec (mergeable_marked hR) hinputs
  obtain ⟨merged', hmerged', ⟨rfl, rfl⟩ | ⟨file, opened, hcreate, -, rfl, rfl⟩⟩ :=
    executeCompaction_cases hexec
  · exact ⟨htask, fun hsome => absurd hsome (by simp [hnone])⟩
  obtain rfl := Except.ok.inj (hmerged.symm.trans hmerged')
  have hholds : FileHolds (Marked ids R) file := ⟨_, hcreate, merged.sorted, hrows⟩
  cases opened with
  | none => exact ⟨htask, fun hsome => absurd hsome (by simp [hnone])⟩
  | some t =>
    exact ⟨⟨htask.level, htask.inputs, htask.output⟩, fun _ =>
      ⟨file, SortedMap.get?_insert_self .., hholds⟩⟩

/-- The worker, once the directory and what is beside it are known to be kept. -/
theorem Robust.work (hR : KeptByMerge R) (h : Robust ids R db) {time : Nat → Nat}
    (hunused : Unused db (.work time)) (hstep : db.work p time = .ok db')
    (hmemory : Stores (Marked ids R) db'.detached)
    (hdirectory : Directory (Marked ids R) db'.disk) :
    Robust ids R db' := by
  have hsame := work_sameMem hstep
  have hnode : db'.nodeId ∈ ids := hsame.nodeId ▸ h.node
  have hclock : db'.localClock.Within ids := hsame.localClock ▸ h.clock
  have hlevels : db'.levelsMeta.length = Manifest.levelCount :=
    (length_levelsMeta_work hstep).trans h.levels
  -- the worker ends where it has no task, but for the two cases in the middle
  have hrest : (∀ f ∈ db'.levelsMeta.flatten, Manifest.NoSpace f) →
      (∀ task, db'.worker ≠ .executing task) → (∀ task, db'.worker ≠ .applying task) →
      Robust ids R db' := fun hnames hexecuting happlying =>
    ⟨hnode, hclock, hmemory, hdirectory, hlevels, hnames,
      fun task htask => absurd htask (hexecuting task),
      fun task htask => absurd htask (happlying task)⟩
  cases work_cases hstep with
  | rested hworker hall =>
    exact hrest h.names (fun _ => Worker.noConfusion) fun _ => Worker.noConfusion
  | flushed hworker hall hlast =>
    have hnames := noSpace_flushNodes hlast h.names
    exact hrest hnames (fun _ => Worker.noConfusion) fun _ => Worker.noConfusion
  | idle hworker hplan =>
    exact hrest h.names (fun _ => Worker.noConfusion) fun _ => Worker.noConfusion
  -- the output has a name that is not in use yet,
  | @planned task hworker hplan =>
    have hplanned := h.planned hplan hworker hunused
    exact ⟨hnode, hclock, hmemory, hdirectory, hlevels, h.names,
      fun task' htask => Worker.executing.inj htask ▸ hplanned,
      fun task' htask => absurd htask Worker.noConfusion⟩
  -- and a file behind it when it is listed
  | @executed task task' mid hworker hexec =>
    have hnames := (executeCompaction_manifest hexec).2.1 ▸ h.names
    have hexecuted := h.executed hR hworker hexec
    exact ⟨hnode, hclock, hmemory, hdirectory, hlevels, hnames,
      fun task'' htask => absurd htask Worker.noConfusion,
      fun task'' htask => Worker.applying.inj htask ▸ hexecuted⟩
  | @applied task hworker =>
    have hnames := noSpace_applyCompaction (h.applying task hworker).1 h.names
    exact hrest hnames (fun _ => Worker.noConfusion) fun _ => Worker.noConfusion

/-- **One step** of a database over such a directory. It can stop at a failed write only. -/
theorem Robust.step (hR : KeptByMerge R) (h : Robust ids R db) (p : Platform) {a : Action}
    (ha : Lawful ids R db a) : (step p db a).Post (Robust ids R) WriteFailed := by
  have hmarked := h.marked hR ha
  have hmemory := h.memory_step hR p hmarked
  cases hstep : ZenithDB.step p db a with
  | error f => rwa [hstep] at hmemory
  | ok db' =>
  rw [hstep] at hmemory
  have hmemory : Stores (Marked ids R) db'.detached := hmemory
  -- the changes that the step makes to the directory are all permitted
  have hdirectory : Directory (Marked ids R) db'.disk := by
    rw [← disk_step hstep]
    exact h.directory.changes (h.permitted (fun r hr => ⟨ha.clean r hr, hmarked r hr⟩) ha.unused)
  show Robust ids R db'
  cases a with
  | put usage key value =>
    have hlocal : Proper ids R key (db.localRegister value) := ha.brings
    exact h.write hlocal.clock (Except.ok.inj hstep).symm hmemory hdirectory
  | putCrdt usage key incoming =>
    obtain ⟨existing, -, hstep⟩ := Except.bind_eq_ok_iff.mp hstep
    have hincoming : Proper ids R key incoming := ha.brings
    exact h.write (h.clock.merge hincoming.clock) (Except.ok.inj hstep).symm hmemory hdirectory
  | otherNames n =>
    obtain rfl := Except.ok.inj hstep
    exact ⟨h.node, h.clock, hmemory, hdirectory, h.levels, h.names, h.executing, h.applying⟩
  | work time => exact h.work hR ha.unused hstep hmemory hdirectory

-- ---------------------------------------------------------------------------
-- Crashes
-- ---------------------------------------------------------------------------

/-- The levels that the constructor finds, whatever is in the manifest. -/
theorem openDB_levelsMeta {nodeId : NodeID} {disk : Disk} {counter : Nat}
    (h : openDB p nodeId disk counter = .ok db) :
    db.levelsMeta.length = Manifest.levelCount ∧
      ∀ f ∈ db.levelsMeta.flatten, Manifest.NoSpace f := by
  obtain ⟨⟨layout, next⟩, -, h⟩ := Except.bind_eq_ok_iff.mp h
  rw [← Except.ok.inj h]
  show (loadedLevels p disk).length = _ ∧ ∀ f ∈ (loadedLevels p disk).flatten, _
  obtain ⟨hlen, hnames⟩ := Manifest.load_names (p.readChunks_ne 4096 disk.manifest)
  have hgrow : loadedLevels p disk = Manifest.load (p.readChunks 4096 disk.manifest) := by
    unfold loadedLevels grow
    dsimp only
    rw [hlen]
    exact List.append_nil _
  rw [hgrow]
  exact ⟨hlen, hnames⟩

/-- **A crash** in the middle of a step leaves what can be opened again. -/
theorem Robust.crashed (hR : KeptByMerge R) (h : Robust ids R db) (p : Platform) {a : Action}
    (ha : Lawful ids R db a) {disk : Disk} (hcrash : Crashed (diskOps db a) db.disk disk)
    {nodeId : NodeID} (hnode : nodeId ∈ ids) (counter : Nat) :
    ∃ db', openDB p nodeId disk counter = .ok db' ∧ Opened (Marked ids R) p nodeId disk db' ∧
      Robust ids R db' := by
  have hmarked := h.marked hR ha
  have hdirectory : Directory (Marked ids R) disk := h.directory.crashed
    (h.permitted (fun r hr => ⟨ha.clean r hr, hmarked r hr⟩) ha.unused) hcrash
  obtain ⟨db', hopen, hopened⟩ :=
    (hdirectory.opens p).openDB (mergeable_marked hR) nodeId counter
  obtain ⟨hlevels, hnames⟩ := openDB_levelsMeta hopen
  have hworker : db'.worker = .flushing := hopened.worker
  -- what is in memory is what was replayed and what was opened
  have hmemory : Stores (Marked ids R) db'.detached := by
    refine ⟨?_, hopened.layout, fun sst hsst => ?_, fun _ he => absurd he List.not_mem_nil⟩
    · show ∀ mt ∈ db'.memtables, _
      rw [hopened.memtables]
      exact List.forall_mem_singleton.mpr (hdirectory.rows p)
    · rw [show db'.detached.worker = .flushing from hworker] at hsst
      exact absurd hsst List.not_mem_nil
  refine ⟨db', hopen, hopened, ⟨hopened.node ▸ hnode, ?_, hmemory, ?_, hlevels, hnames, ?_, ?_⟩⟩
  · rw [hopened.localClock]
    exact within_empty
  · rw [hopened.directory]
    exact hdirectory
  · rw [hworker]
    exact fun task htask => absurd htask Worker.noConfusion
  · rw [hworker]
    exact fun task htask => absurd htask Worker.noConfusion

end ZenithDB

end Zenith
