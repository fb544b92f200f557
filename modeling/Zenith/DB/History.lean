import Zenith.DB.Step

/-!
# Zenith — what a run leaves in memory and in the log

The list of frozen memtables is never shortened: a flushed memtable stays in it and is read
before any table. So while a process lives, its memtables hold the last record of every key
it has written, and its log holds every record.

The background worker is left out of this by one frame lemma. It writes tables and manifest
lines, marks memtables as flushed and changes the layout, and neither memtables nor log nor
clock; with `work_sameMem` an induction on a run has a case for writes and a case in which
nothing happens (`Effect`).

The records of a run are its trace, in the order in which they were stored. Nothing is
assumed here about what they contain.

Main results:

* `work_sameMem` — the background worker changes neither memtables nor log;
* `lookupMem_run` — a memtable lookup returns the last record a run stored;
* `wal_run` — the log is the old log and the encoding of the records stored.
-/

namespace Zenith

open Bytes

namespace ZenithDB

/-- Everything the background worker leaves as it is. -/
structure SameMem (db db' : ZenithDB) : Prop where
  nodeId : db'.nodeId = db.nodeId
  localClock : db'.localClock = db.localClock
  memtables : db'.memtables = db.memtables
  wal : db'.disk.wal = db.disk.wal

theorem SameMem.refl (db : ZenithDB) : SameMem db db := ⟨rfl, rfl, rfl, rfl⟩

theorem SameMem.trans {a b c : ZenithDB} (hab : SameMem a b) (hbc : SameMem b c) : SameMem a c :=
  ⟨hbc.nodeId.trans hab.nodeId, hbc.localClock.trans hab.localClock,
    hbc.memtables.trans hab.memtables, hbc.wal.trans hab.wal⟩

theorem SameMem.lookupMem {db db' : ZenithDB} (h : SameMem db db') (key : Bytes) :
    db'.lookupMem key = db.lookupMem key := by
  unfold ZenithDB.lookupMem
  rw [h.memtables]

-- ---------------------------------------------------------------------------
-- The worker does not touch the memtables
-- ---------------------------------------------------------------------------

/-- A flush marks the memtable and leaves its rows. -/
theorem flushNode_sameMem {time : Nat → Nat} {db db' : ZenithDB} {node : ImmNode}
    (h : flushNode time db node = .ok db') : SameMem db db' := by
  obtain ⟨-, rfl⟩ | ⟨-, file, opened, -, -, rfl⟩ := flushNode_cases h
  · exact .refl _
  · cases opened with
    | none => exact ⟨rfl, rfl, rfl, rfl⟩
    | some t => exact ⟨rfl, rfl, rfl, rfl⟩

theorem foldlM_flushNode_sameMem {time : Nat → Nat} {nodes : List ImmNode} {db db' : ZenithDB}
    (h : nodes.foldlM (flushNode time) db = .ok db') : SameMem db db' := by
  induction nodes generalizing db with
  | nil =>
    obtain rfl := Except.ok.inj h
    exact .refl db
  | cons node nodes ih =>
    rw [List.foldlM_cons] at h
    obtain ⟨mid, hnode, hrest⟩ := Except.bind_eq_ok_iff.mp h
    exact (flushNode_sameMem hnode).trans (ih hrest)

/-- A merge writes a file. -/
theorem executeCompaction_sameMem {db db' : ZenithDB} {task task' : CompactionTask}
    (h : db.executeCompaction task = .ok (db', task')) : SameMem db db' := by
  obtain ⟨merged, -, ⟨rfl, -⟩ | ⟨file, opened, -, -, rfl, -⟩⟩ := executeCompaction_cases h
  · exact .refl _
  · cases opened with
    | none => exact ⟨rfl, rfl, rfl, rfl⟩
    | some t => exact ⟨rfl, rfl, rfl, rfl⟩

/-- A compaction is applied to layout and manifest. -/
theorem applyCompaction_sameMem (db : ZenithDB) (task : CompactionTask) :
    SameMem db (db.applyCompaction task) := by
  unfold applyCompaction
  cases task.outputSst with
  | none => exact ⟨rfl, rfl, rfl, rfl⟩
  | some sst => exact ⟨rfl, rfl, rfl, rfl⟩

/-- **Frame of the background worker.** -/
theorem work_sameMem {p : Platform} {time : Nat → Nat} {db db' : ZenithDB}
    (h : db.work p time = .ok db') : SameMem db db' := by
  cases work_cases h with
  | rested hworker hall => exact ⟨rfl, rfl, rfl, rfl⟩
  | flushed hworker hall hlast =>
    have hsame := foldlM_flushNode_sameMem hlast
    -- the nodes are only marked as flushed
    have hmark : (db.immut.map fun node => { node with flushed := true }).map (·.mt) =
        db.immut.map (·.mt) := by
      rw [List.map_map]
      rfl
    refine ⟨hsame.nodeId, hsame.localClock, ?_, hsame.wal⟩
    unfold memtables
    rw [hmark, (List.cons.inj hsame.memtables).1]
  | idle hworker hplan => exact ⟨rfl, rfl, rfl, rfl⟩
  | planned hworker hplan => exact ⟨rfl, rfl, rfl, rfl⟩
  | executed hworker hexec =>
    have hsame := executeCompaction_sameMem hexec
    exact ⟨hsame.nodeId, hsame.localClock, hsame.memtables, hsame.wal⟩
  | @applied task hworker =>
    have hsame := applyCompaction_sameMem db task
    exact ⟨hsame.nodeId, hsame.localClock, hsame.memtables, hsame.wal⟩

-- ---------------------------------------------------------------------------
-- Writes
-- ---------------------------------------------------------------------------

/-- A step stores one record or leaves memtables and log alone. -/
inductive Effect (db db' : ZenithDB) : List Entry → Prop
  | quiet (hmem : db'.memtables = db.memtables) (hwal : db'.disk.wal = db.disk.wal) :
    Effect db db' []
  | store (clock : VectorClock) (usage : Nat) (key : Bytes) (reg : LWWRegister)
      (heq : db' = { db with localClock := clock }.storeRecord usage key reg.serialize) :
    Effect db db' [(key, reg.serialize)]

/-- What a successful step does to memtables and log. -/
theorem step_effect {p : Platform} {db db' : ZenithDB} {a : Action}
    (h : (system p).step db a = .ok db') : Effect db db' ((system p).emit db a) := by
  -- of the four steps only the two writes store anything
  cases a with
  | put usage key value =>
    obtain rfl := Except.ok.inj h
    exact .store (db.localRegister value).clock usage key (db.localRegister value) rfl
  | putCrdt usage key incoming =>
    obtain ⟨existing, hget, h⟩ := Except.bind_eq_ok_iff.mp h
    obtain rfl := Except.ok.inj h
    show Effect _ _ (stored db (.putCrdt usage key incoming))
    rw [stored, hget]
    exact .store (db.localClock.merge incoming.clock) usage key (resolve incoming existing) rfl
  | work time =>
    have hsame := work_sameMem h
    exact .quiet hsame.memtables hsame.wal
  | otherNames n =>
    obtain rfl := Except.ok.inj h
    exact .quiet rfl rfl

/-- A record that is stored is found by its own key and hides nothing else. -/
theorem lookupMem_storeRecord (db : ZenithDB) (usage : Nat) {key serialized : Bytes}
    (hne : serialized ≠ []) (k : Bytes) :
    (db.storeRecord usage key serialized).lookupMem k =
      if k = key then some serialized else db.lookupMem k := by
  have hput : ∀ rest : List MemTable,
      (db.activeMem.put key serialized :: rest).findSome? (fun mt => mt.probe k) =
        if k = key then some serialized
        else (db.activeMem :: rest).findSome? fun mt => mt.probe k := by
    intro rest
    rw [List.findSome?_cons, List.findSome?_cons]
    by_cases hk : k = key
    · subst hk
      rw [MemTable.probe_of_get (MemTable.get_put_self _ _ _) hne, if_pos rfl]
    · rw [MemTable.probe_eq, MemTable.probe_eq, MemTable.get_put, if_neg hk, if_neg hk]
  unfold storeRecord lookupMem memtables
  split
  · -- the memtable was frozen; the fresh one in front of it is empty
    rw [List.findSome?_cons, MemTable.probe_eq_none_of_get (MemTable.get_new k)]
    exact hput _
  · exact hput _

/-- A record is one line at the end of the log, whether or not the write rotates. -/
theorem wal_storeRecord (db : ZenithDB) (usage : Nat) (key serialized : Bytes) :
    (db.storeRecord usage key serialized).disk.wal =
      db.disk.wal ++ Wal.encodeRecord (key, serialized) := by
  unfold storeRecord
  split <;> rfl

/-- **Memtable lookups.** After a run the memtables hold the last record that it
stored for a key; what was there before shows only where it stored none. -/
theorem lookupMem_run {p : Platform} {db db' : ZenithDB} {as : List Action}
    (hrun : (system p).run db as = .ok db') (key : Bytes) :
    db'.lookupMem key = (History.last key ((system p).trace db as)).or (db.lookupMem key) := by
  refine System.run_invariant (S := system p) (l := [])
    (P := fun tr d => d.lookupMem key = (History.last key tr).or (db.lookupMem key))
    ?_ rfl System.along_true hrun
  intro tr d a d' hP _ hstep
  generalize hem : (system p).emit d a = records
  have heffect := step_effect hstep
  rw [hem] at heffect
  cases heffect with
  | quiet hmem hwal =>
    rw [List.append_nil, lookupMem, hmem]
    exact hP
  | store clock usage k reg heq =>
    rw [heq, lookupMem_storeRecord _ _ reg.serialize_ne_nil, History.last_append_singleton]
    by_cases hk : key = k
    · rw [if_pos hk, if_pos hk]
      rfl
    · rw [if_neg hk, if_neg hk]
      exact hP

/-- **The log.** A run appends the records it stores, in order. -/
theorem wal_run {p : Platform} {db db' : ZenithDB} {as : List Action}
    (hrun : (system p).run db as = .ok db') :
    db'.disk.wal = db.disk.wal ++ ((system p).trace db as).flatMap Wal.encodeRecord := by
  refine System.run_invariant (S := system p) (l := [])
    (P := fun tr d => d.disk.wal = db.disk.wal ++ tr.flatMap Wal.encodeRecord)
    ?_ (by simp) System.along_true hrun
  intro tr d a d' hP _ hstep
  generalize hem : (system p).emit d a = records
  have heffect := step_effect hstep
  rw [hem] at heffect
  cases heffect with
  | quiet hmem hwal =>
    rw [List.append_nil, hwal, hP]
  | store clock usage k reg heq =>
    rw [heq, wal_storeRecord]
    show d.disk.wal ++ _ = _
    rw [hP, List.flatMap_append, List.flatMap_cons, List.flatMap_nil, List.append_nil,
      List.append_assoc]

/-- Every record that a run stores is the encoding of a register. -/
theorem stored_serialize {p : Platform} {db db' : ZenithDB} {as : List Action}
    (hrun : (system p).run db as = .ok db') {r : Entry} (hr : r ∈ (system p).trace db as) :
    ∃ reg : LWWRegister, r.2 = reg.serialize := by
  obtain ⟨before, a, after, t, t', -, -, hstep, hmem⟩ := System.mem_trace hrun hr
  have heffect := step_effect hstep
  generalize (system p).emit t a = records at hmem heffect
  cases heffect with
  | quiet hmem' hwal => exact absurd hmem List.not_mem_nil
  | store clock usage k reg heq =>
    rw [List.mem_singleton.mp hmem]
    exact ⟨reg, rfl⟩

end ZenithDB

end Zenith
