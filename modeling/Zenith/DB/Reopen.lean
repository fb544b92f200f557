import Zenith.DB.Preserve

/-!
# Zenith — the lives of a data directory

A directory outlives the processes that open it. A life action is a step of the process that
has it open, or the end of that process and the start of the next one, which sees the same
files. The log can be another one then: it may have been lost or cut. That is why a restart
carries the log that the next process finds, and results that need the old one say so.

The constructor replays the log into a memtable, loads the manifest, opens every listed file
that exists, and sorts the levels. Its local clock starts empty, whatever the stored clocks
are, and its worker has nothing to do.

A file that throws when it is opened is left out, with a message. Here a mergeable predicate
`Q` on rows says what the files hold, and a file that holds rows was written by `create` and
opens.

Only listed files are opened, so only those are asked about (`Opens`). Files that a
compaction has replaced lie in the directory as well and are still listed, because deletions
are not replayed.

Main results: `Opens.openDB` — opening a directory succeeds when the files that it lists
hold what they should — and `Stores.openDB`, by which its layers then hold what the files
and the log held.
-/

namespace Zenith

open Bytes

namespace ZenithDB

/-- A step of the process that has a directory open, or a restart. -/
inductive LifeAction
  | act (a : Action)
  /-- the directory is closed and opened again, with the given log -/
  | reopen (counter : Nat) (wal : Bytes)

/-- The next process is the same node in the same directory. -/
def lifeStep (p : Platform) (db : ZenithDB) : LifeAction → Except Fault ZenithDB
  | .act a => step p db a
  | .reopen counter wal => openDB p db.nodeId { db.disk with wal := wal } counter

variable {Q : Bytes → Bytes → Prop}

/-- The files of one level. Only those that are listed are opened. -/
theorem openFiles_spec (hQ : Mergeable Q) {files : SortedMap Bytes Bytes} {names : List Bytes}
    (hfiles : ∀ f ∈ names, ∀ file, files.get? f = some file → FileHolds Q file) (nextAddr : Nat) :
    ∃ level next, openFiles files nextAddr names = .ok (level, next) ∧
      ∀ fe ∈ level, fe.Holds Q := by
  induction names generalizing nextAddr with
  | nil => exact ⟨[], nextAddr, rfl, fun fe hfe => absurd hfe List.not_mem_nil⟩
  | cons name names ih =>
    obtain ⟨hname, hnames⟩ := List.forall_mem_cons.mp hfiles
    rw [openFiles]
    cases hget : files.get? name with
    | none => exact ih hnames nextAddr
    | some file =>
      obtain ⟨t, hopen, ht⟩ := (hname file hget).openWritten hQ
      obtain ⟨level, next, hrest, hlevel⟩ := ih hnames (nextAddr + 1)
      simp only [hopen, hrest, Except.ok_bind, Except.pure_eq_ok]
      exact ⟨_, _, rfl, List.forall_mem_cons.mpr ⟨FileEntry.holds_entryOf ht, hlevel⟩⟩

/-- The files of all levels, by induction on them. -/
theorem openLevels_spec (hQ : Mergeable Q) {files : SortedMap Bytes Bytes}
    {levels : List (List Bytes)}
    (hfiles : ∀ f ∈ levels.flatten, ∀ file, files.get? f = some file → FileHolds Q file)
    (nextAddr : Nat) :
    ∃ layout next, openLevels files nextAddr levels = .ok (layout, next) ∧
      AllFiles (FileEntry.Holds Q) layout := by
  induction levels generalizing nextAddr with
  | nil => exact ⟨[], nextAddr, rfl, fun level hlevel => absurd hlevel List.not_mem_nil⟩
  | cons names levels ih =>
    obtain ⟨hnames, hlevels⟩ := List.forall_mem_append.mp hfiles
    obtain ⟨level, mid, hlevel, hholds⟩ := openFiles_spec hQ hnames nextAddr
    obtain ⟨layout, next, hrest, hall⟩ := ih hlevels mid
    rw [openLevels]
    simp only [hlevel, hrest, Except.ok_bind, Except.pure_eq_ok]
    exact ⟨_, _, rfl, List.forall_mem_cons.mpr ⟨hholds, hall⟩⟩

/-- Every file that the constructor opens holds what it should. -/
def Opens (p : Platform) (Q : Bytes → Bytes → Prop) (disk : Disk) : Prop :=
  ∀ f ∈ (loadedLevels p disk).flatten, ∀ file, disk.files.get? f = some file → FileHolds Q file

/-- What holds a stronger property holds a weaker one. -/
theorem Opens.mono {Q' : Bytes → Bytes → Prop} {p : Platform} {disk : Disk} (h : Opens p Q disk)
    (hle : ∀ k raw, Q k raw → Q' k raw) : Opens p Q' disk := by
  intro f hf file hfile
  obtain ⟨es, hcreate, hsorted, hrows⟩ := h f hf file hfile
  exact ⟨es, hcreate, hsorted, hrows.mono hle⟩

/-- What opening a directory gives. -/
structure Opened (Q : Bytes → Bytes → Prop) (p : Platform) (nodeId : NodeID) (disk : Disk)
    (db : ZenithDB) : Prop where
  node : db.nodeId = nodeId
  localClock : db.localClock = .empty
  directory : db.disk = disk
  memtables : db.memtables = [replayLog p disk]
  layout : AllFiles (FileEntry.Holds Q) db.layout
  worker : db.worker = .flushing

/-- **Opening a directory** whose listed files hold what they should. -/
theorem Opens.openDB (hQ : Mergeable Q) {disk : Disk} {p : Platform} (h : Opens p Q disk)
    (nodeId : NodeID) (counter : Nat) :
    ∃ db, ZenithDB.openDB p nodeId disk counter = .ok db ∧ Opened Q p nodeId disk db := by
  obtain ⟨layout, next, hopen, hall⟩ := openLevels_spec hQ h 0
  unfold ZenithDB.openDB
  simp only [hopen, Except.ok_bind, Except.pure_eq_ok]
  exact ⟨_, rfl, rfl, rfl, rfl, rfl, hall.sort p, rfl⟩

/-- With a log that holds what it should, the layers do. -/
theorem Opened.stores {nodeId : NodeID} {p : Platform} {disk : Disk} {db : ZenithDB}
    (h : Opened Q p nodeId disk db) (hlog : Rows Q (replayLog p disk).sortedEntries)
    (hfiles : ∀ e ∈ db.disk.files.toList, FileHolds Q e.2) : Stores Q db where
  memtables := by
    rw [h.memtables]
    exact List.forall_mem_singleton.mpr hlog
  layout := h.layout
  worker sst hsst := by
    rw [h.worker] at hsst
    exact absurd hsst List.not_mem_nil
  files := hfiles

/-- A directory all of whose files and whose log hold what they should. -/
theorem Stores.openDB (hQ : Mergeable Q) {disk : Disk} {p : Platform}
    (hfiles : ∀ e ∈ disk.files.toList, FileHolds Q e.2)
    (hlog : Rows Q (replayLog p disk).sortedEntries) (nodeId : NodeID) (counter : Nat) :
    ∃ db, openDB p nodeId disk counter = .ok db ∧ Stores Q db ∧ db.nodeId = nodeId ∧
      db.localClock = .empty ∧ db.disk = disk := by
  have hopens : Opens p Q disk := fun f _ file hfile =>
    hfiles (f, file) (SortedMap.get?_eq_some_iff.mp hfile)
  obtain ⟨db, hopen, h⟩ := hopens.openDB hQ nodeId counter
  exact ⟨db, hopen, h.stores hlog (by rwa [h.directory]), h.node, h.localClock, h.directory⟩

end ZenithDB

end Zenith
