import Zenith.DB.Crash
import Zenith.DB.SingleNode

/-!
# Zenith — a single node after a crash

The crash of `crash_recovery`, for a node that only writes locally. Then all that the
database shows is a function of its writes (`visible`), and after the crash it shows one of
two histories: all writes, or all but the one that was interrupted. This is so of scans as
of point reads, although a scan after opening merges the log with whatever versions the
tables that were listed hold.

For point reads the log would be enough. A scan looks into the tables as well, and there it
may find any version of a key that was ever flushed. None of these is later than the one on
the log, and each of them is one of the records of the writes (`Recorded`), so the merge
gives the value of the last write; this is `Solo`, the invariant of a single node, which the
opened directory has again.

`SoloJournal` adds to it what the disk has to say: the log is the records of all writes, and
no process before this one has taken a name, so that file names cannot collide and nothing
has to be assumed about them. The log is split at `|` and newlines, so records must be clean
of both. A record carries its clock, and the counter of the tenth write is the byte of a
newline: the assumption therefore admits at most nine writes, and with ten or more of them
the log is no longer read as it was written.

Main result: `crash_keeps_writes`.
-/

namespace Zenith

open Bytes VectorClock

namespace ZenithDB

variable {nodeId : NodeID} {w : List Entry} {db db' : ZenithDB} {p : Platform} {disk' : Disk}

/-- A database that has performed the writes since its directory was empty: what it shows,
its log, and the names of its files, of which none is from an earlier process. -/
structure SoloJournal (nodeId : NodeID) (w : List Entry) (db : ZenithDB) : Prop where
  solo : Solo nodeId w db
  wal : db.disk.wal = (recordsOf nodeId w).flatMap Wal.encodeRecord
  names : ∃ calls events, NamesTaken calls events db ∧ (nameLedger events).past = []

theorem soloJournal_fresh (nodeId : NodeID) (counter : Nat) :
    SoloJournal nodeId [] (fresh nodeId counter) :=
  ⟨solo_fresh nodeId counter, rfl, [], [], namesTaken_fresh nodeId counter, rfl⟩

/-- The record that a local step stores is that of its write. -/
theorem Solo.stored (h : Solo nodeId w db) {a : Action} (hlocal : a.Local) :
    recordsOf nodeId (w ++ a.written) = recordsOf nodeId w ++ ZenithDB.stored db a := by
  cases a with
  | put usage key value =>
    rw [Action.written, recordsOf_append, ZenithDB.stored, h.localRegister]
    rfl
  | putCrdt usage key incoming => exact absurd hlocal id
  | work time => rw [Action.written, ZenithDB.stored, List.append_nil, List.append_nil]
  | otherNames n => rw [Action.written, ZenithDB.stored, List.append_nil, List.append_nil]

/-- **One step** of a local action. A put appends the record of its write to the log, every
other step leaves the log, and the names that a flush or a compaction takes are new in a
directory with one process. -/
theorem SoloJournal.step (h : SoloJournal nodeId w db) {a : Action} (hlocal : a.Local)
    (hw : Sized nodeId (w ++ a.written)) (hstep : ZenithDB.step p db a = .ok db') :
    SoloJournal nodeId (w ++ a.written) db' where
  solo := (h.solo.step p hlocal hw).result hstep
  wal := by
    rw [h.solo.stored hlocal, List.flatMap_append, ← h.wal]
    have heffect : Effect db db' (ZenithDB.stored db a) := step_effect hstep
    generalize ZenithDB.stored db a = records at heffect
    cases heffect with
    | quiet _ hwal => rw [hwal, List.flatMap_nil, List.append_nil]
    | store clock usage key reg heq => rw [heq, wal_storeRecord, List.flatMap_singleton]
  names := by
    obtain ⟨calls, events, hnames, hpast⟩ := h.names
    have hapart : Apart events db (.act a) := by
      intro n _
      rw [hpast]
      exact List.not_mem_nil
    refine ⟨_, _, (hnames.step (p := p) hapart hstep).1, ?_⟩
    rw [show nameEvents db (.act a) = (namings db (.act a)).map .named from rfl, nameLedger_named]
    exact hpast

/-- A run of local actions, by induction on it. -/
theorem soloJournal_run {counter : Nat} {as : List Action} (hlocal : ∀ a ∈ as, a.Local)
    (hw : Sized nodeId (writes as)) (hrun : (system p).run (fresh nodeId counter) as = .ok db) :
    SoloJournal nodeId (writes as) db := by
  induction as using List.reverseRecOn generalizing db with
  | nil =>
    obtain rfl := Except.ok.inj hrun
    exact soloJournal_fresh nodeId counter
  | append_singleton as a ih =>
    obtain ⟨t, hbefore, hlast⟩ := System.run_append_eq_ok hrun
    obtain ⟨t', hstep, hnil⟩ := System.run_cons_eq_ok hlast
    obtain rfl := Except.ok.inj hnil
    have hsplit : writes (as ++ [a]) = writes as ++ a.written := by
      rw [writes, List.flatMap_append, List.flatMap_singleton]
      rfl
    rw [hsplit] at hw ⊢
    -- fewer writes are no larger
    have hfirst : Sized nodeId (writes as) := by
      refine ⟨?_, fun kv hkv => hw.2 kv (List.mem_append_left _ hkv)⟩
      have hlength := hw.1
      rw [List.length_append] at hlength
      omega
    exact (ih (fun b hb => hlocal b (List.mem_append_left _ hb)) hfirst hbefore).step
      (hlocal a (by simp)) hw hstep

/-- Point reads and scans show the last values of the writes. -/
def ShowsWrites (p : Platform) (db : ZenithDB) (w : List Entry) : Prop :=
  (∀ key, db.get key = .ok (visible w key)) ∧
    ∀ start stop, ∃ out, db.scan p start stop = .ok out ∧ (out.map Prod.fst).Pairwise (· < ·) ∧
      ∀ key value, (key, value) ∈ out ↔
        start ≤ key ∧ key ≤ stop ∧ visible w key = some value

theorem recordsOf_ne_nil : ∀ r ∈ recordsOf nodeId w, r.2 ≠ [] := by
  rintro ⟨key, raw⟩ hr
  obtain ⟨i, v, -, rfl⟩ := recorded_iff.mp hr
  exact LWWRegister.serialize_ne_nil _

/-- Opening a directory whose log replays to the records and whose listed tables hold none
but them. -/
theorem opens_showsWrites {disk : Disk} (hw : Sized nodeId w)
    (hlog : ∀ key, (replayLog p disk).get key = History.last key (recordsOf nodeId w))
    (hopens : Opens p (Recorded nodeId w) disk) (nodeId' : NodeID) (counter : Nat) :
    ∃ db, openDB p nodeId' disk counter = .ok db ∧ ShowsWrites p db w := by
  obtain ⟨db, hopen, hopened⟩ := hopens.openDB (mergeable_recorded hw) nodeId' counter
  -- reads look neither at the clock nor at the directory
  -- the memtable is the last record of each key, as the log has it
  have hsolo : Solo nodeId w
      { db with nodeId := nodeId, localClock := soloClock nodeId w.length, disk := .empty } := by
    refine ⟨rfl, rfl, fun key => ?_, ?_, hopened.layout, ?_, fun _ he => absurd he List.not_mem_nil⟩
    · show db.lookupMem key = _
      unfold ZenithDB.lookupMem
      rw [hopened.memtables, List.findSome?_cons, List.findSome?_nil, MemTable.probe_eq, hlog key]
      cases hlast : History.last key (recordsOf nodeId w) with
      | none => rfl
      | some raw =>
        have hne := recordsOf_ne_nil _ (History.last_mem hlast)
        simp only [Option.filter, decide_eq_true hne, if_true]
    · show ∀ mt ∈ db.memtables, _
      rw [hopened.memtables]
      refine List.forall_mem_singleton.mpr fun e he => ?_
      have hentry : (replayLog p disk).get e.1 = some e.2 := SortedMap.get?_eq_some_iff.mpr he
      rw [hlog] at hentry
      exact History.last_mem hentry
    · intro sst hsst
      have hworker : sst ∈ db.worker.tables := hsst
      rw [hopened.worker] at hworker
      exact absurd hworker List.not_mem_nil
  exact ⟨db, hopen, hsolo.get hw, hsolo.scan hw p⟩

/-- **A crash of a single node.** A process that only writes locally is killed in the middle
of any step of any run from an empty directory. The directory can be opened again, and both
point reads and scans show the last values of all writes, or of all but the one that was
interrupted.

Hypotheses, on the writes of the run with those of the interrupted step `a`:
* `hlocal` — nothing comes from a peer;
* `hw` — each write fits a block together with its clock, and there are fewer than `2 ^ 64`;
* `hclean` — none of their records contains `|` or a newline. This holds of at most nine
  writes, since a record contains its counter;
* `hrun` — the run before that step, which does not stop;
* `hcrash` — `disk'` is what the step leaves when it is cut off. -/
theorem crash_keeps_writes {counter : Nat} {as : List Action} {a : Action}
    (hlocal : ∀ b ∈ as ++ [a], b.Local) (hw : Sized nodeId (writes (as ++ [a])))
    (hclean : ∀ r ∈ recordsOf nodeId (writes (as ++ [a])), Wal.Clean r)
    (hrun : (system p).run (fresh nodeId counter) as = .ok db)
    (hcrash : Crashed (diskOps db a) db.disk disk') (nodeId' : NodeID) (counter' : Nat) :
    ∃ db' w, openDB p nodeId' disk' counter' = .ok db' ∧
      (w = writes as ∨ w = writes (as ++ [a])) ∧ ShowsWrites p db' w := by
  have hsplit : writes (as ++ [a]) = writes as ++ a.written := by
    rw [writes, List.flatMap_append, List.flatMap_singleton]
    rfl
  obtain ⟨hlocals, hlast⟩ := List.forall_mem_append.mp hlocal
  have hlocala : a.Local := hlast a (List.mem_singleton_self a)
  rw [hsplit] at hw hclean ⊢
  have hw' : Sized nodeId (writes as) := by
    refine ⟨?_, fun kv hkv => hw.2 kv (List.mem_append_left _ hkv)⟩
    have hlength := hw.1
    rw [List.length_append] at hlength
    omega
  have h := soloJournal_run hlocals hw' hrun
  have hrecords := h.solo.stored hlocala
  rw [hrecords] at hclean
  obtain ⟨hclean', hcleana⟩ := List.forall_mem_append.mp hclean
  -- the tables that are listed are whole
  obtain ⟨calls, events, hnames, hpast⟩ := h.names
  have hapart : Apart events db (.act a) := by
    intro n _
    rw [hpast]
    exact List.not_mem_nil
  have hopens : Opens p (Recorded nodeId (writes as)) disk' :=
    opens_crashed hnames h.solo.stores.files h.solo.stores.settled.frozen hapart hcrash
  have hbefore : replayLog p disk' = replayLog p db.disk →
      ∃ db' w, openDB p nodeId' disk' counter' = .ok db' ∧
        (w = writes as ∨ w = writes as ++ a.written) ∧ ShowsWrites p db' w := by
    intro hlog
    obtain ⟨db', hopen, hshows⟩ := opens_showsWrites hw'
      (fun key => by rw [hlog]; exact replayLog_of_clean h.wal hclean' recordsOf_ne_nil key)
      hopens nodeId' counter'
    exact ⟨db', _, hopen, .inl rfl, hshows⟩
  -- only a put touches the log; after any other step the records are those from before
  cases a with
  | put usage key value =>
    rcases crashed_append_wal (p := p) (hcleana _ (List.mem_singleton_self _)) hcrash with
      hlog | hwal
    · exact hbefore hlog
    · -- the line of the put is whole
      have hlog : disk'.wal = (recordsOf nodeId (writes as ++
          Action.written (.put usage key value))).flatMap Wal.encodeRecord := by
        rw [hwal, hrecords, List.flatMap_append, h.wal, ZenithDB.stored, List.flatMap_singleton]
      obtain ⟨db', hopen, hshows⟩ := opens_showsWrites hw
        (fun k => replayLog_of_clean hlog (hrecords ▸ hclean) recordsOf_ne_nil k)
        (hopens.mono fun k raw hraw => hraw.append _) nodeId' counter'
      exact ⟨db', _, hopen, .inr rfl, hshows⟩
  | putCrdt usage key incoming => exact absurd hlocala id
  | work time => exact hbefore (replayLog_congr (crashed_wal_eq (diskOps_work db time) hcrash))
  | otherNames n =>
    exact hbefore (replayLog_congr
      (crashed_wal_eq (fun op hop => absurd hop List.not_mem_nil) hcrash))

/-- An overwrite is killed when half of its line is written; the first value is in a table. -/
theorem crash_keeps_writes_torn_put :
    ∃ db op, (system .stable).run (fresh [65] 0) [.put 200000 [107] [118], .work fun _ => 5] =
        .ok db ∧ diskOps db (.put 0 [107] [119]) = [op] ∧
      ∃ db' w, openDB .stable [65] ((op.take 20).apply db.disk) 0 = .ok db' ∧
        (w = writes [.put 200000 [107] [118], .work fun _ => 5] ∨
          w = writes ([.put 200000 [107] [118], .work fun _ => 5] ++ [.put 0 [107] [119]])) ∧
        ShowsWrites .stable db' w := by
  obtain ⟨db, hrun⟩ := Except.exists_eq_ok (x := (system .stable).run (fresh [65] 0)
    [.put 200000 [107] [118], .work fun _ => 5]) (by decide +kernel)
  obtain ⟨op, hops⟩ : ∃ op, diskOps db (.put 0 [107] [119]) = [op] := ⟨_, rfl⟩
  have hcrash : Crashed (diskOps db (.put 0 [107] [119])) db.disk ((op.take 20).apply db.disk) := by
    rw [hops]
    exact .within 20
  have hsized : Sized [65] (writes ([.put 200000 [107] [118], .work fun _ => 5] ++
      [.put 0 [107] [119]])) := by
    unfold Sized
    decide
  exact ⟨db, op, hrun, hops, crash_keeps_writes (by simp [Action.Local]) hsized (by decide +kernel)
    hrun hcrash [65] 0⟩

end ZenithDB

end Zenith
