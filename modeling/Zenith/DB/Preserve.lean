import Zenith.DB.Stores

/-!
# Zenith — every step keeps what the layers hold

Flushes copy memtable rows into tables and compactions merge table rows, so a mergeable
predicate that holds of everything stored keeps holding of it, and no step can stop on bytes
it wrote itself. The only fault left is a write that goes beyond the largest file.

The predicate `Q` on a key and its bytes is a parameter throughout. That a register fits its
length fields, that its clock is below the local one, that it was merged from local writes,
that it is no removal of a given key: all of these are mergeable predicates, and each later
invariant gets its treatment of the worker from here.

`Settled` is the part of the invariant that the worker moves: frozen memtables, tables of
the layout, tables that the worker holds, and files. The active memtable is left out of it,
because the worker never looks at that; `Stores` adds it.

Main results: `Stores.work`, and `Stores.step` for every action.
-/

namespace Zenith

open Bytes

namespace ZenithDB

variable {Q : Bytes → Bytes → Prop} {db : ZenithDB}

-- ---------------------------------------------------------------------------
-- Flushes
-- ---------------------------------------------------------------------------

/-- A new file on disk and in the manifest. -/
theorem Settled.recordFlush (h : Settled Q db) (filename : Bytes) {file : Bytes}
    (hfile : FileHolds Q file) : Settled Q (db.recordFlush filename file) where
  frozen := h.frozen
  layout := h.layout
  worker := h.worker
  files e he := by
    rcases SortedMap.mem_insertEntry he with rfl | hold
    · exact hfile
    · exact h.files e hold

/-- A new table on level 0. -/
theorem Settled.attachFlush (h : Settled Q db) {t : SSTable} (ht : t.Holds Q) :
    Settled Q (db.attachFlush t) where
  frozen := h.frozen
  layout := (h.layout.grow _).append (FileEntry.holds_entryOf ht) 0
  worker := h.worker
  files := h.files

/-- One frozen memtable. Its rows are those of the file that is written, and of the table
that is opened over it. -/
theorem Settled.flushNode (hQ : Mergeable Q) (h : Settled Q db) {node : ImmNode}
    (hnode : Rows Q node.mt.sortedEntries) (time : Nat → Nat) :
    (flushNode time db node).Post (Settled Q) WriteFailed := by
  unfold ZenithDB.flushNode
  split
  · exact h
  · apply Except.Post.bind (create_outcome node.mt.table.sorted hnode)
    intro file hfile
    obtain ⟨t, hopen, ht⟩ := hfile.openWritten hQ
    dsimp only
    rw [hopen, Except.ok_bind]
    exact (h.recordFlush _ hfile).attachFlush ht

/-- All frozen memtables, by induction on them, and the levels sorted. -/
theorem Settled.flush (hQ : Mergeable Q) (h : Settled Q db) (p : Platform) (time : Nat → Nat) :
    (db.flush p time).Post (Settled Q) WriteFailed := by
  unfold ZenithDB.flush
  split
  · exact h
  · have hloop : (db.immut.foldlM (ZenithDB.flushNode time) db).Post (Settled Q) WriteFailed := by
      apply Except.Post.foldlM _ h
      intro acc node hnode hacc
      exact hacc.flushNode hQ (h.frozen node hnode) time
    apply Except.Post.bind hloop
    intro mid hmid
    refine ⟨?_, hmid.layout.sort p, hmid.worker, hmid.files⟩
    -- the flushed nodes stay in the list, only their mark changes
    intro node hnode
    obtain ⟨old, hold, rfl⟩ := List.mem_map.mp hnode
    exact h.frozen old hold

-- ---------------------------------------------------------------------------
-- Compactions
-- ---------------------------------------------------------------------------

/-- One row is merged into the map: both versions can be read, and their merge satisfies the
predicate. -/
theorem compactRow_spec (hQ : Mergeable Q) {merged : SortedMap Bytes Bytes}
    (hmerged : Rows Q merged.toList) {row : Entry} (hrow : Q row.1 row.2) :
    ∃ merged', compactRow merged row = .ok merged' ∧ Rows Q merged'.toList := by
  have hinsert : ∀ raw, Q row.1 raw → Rows Q (merged.insert row.1 raw).toList := by
    intro raw hraw e he
    rcases SortedMap.mem_insertEntry he with rfl | hold
    · exact hraw
    · exact hmerged e hold
  unfold compactRow
  obtain ⟨incoming, hincoming⟩ := hQ.decode hrow
  rw [hincoming, Except.ok_bind]
  cases hget : merged.get? row.1 with
  | none => exact ⟨_, rfl, hinsert row.2 hrow⟩
  | some raw =>
    have hraw : Q row.1 raw := hmerged (row.1, raw) (SortedMap.get?_eq_some_iff.mp hget)
    obtain ⟨r, o, hr, ho, hmerge⟩ := hQ.merge row.1 raw row.2 hraw hrow
    rw [hincoming] at ho
    obtain rfl := Except.ok.inj ho
    simp only [hr, Except.ok_bind, Except.pure_eq_ok]
    exact ⟨_, rfl, hinsert _ hmerge⟩

/-- The merge of the input tables succeeds. -/
theorem compactTables_spec (hQ : Mergeable Q) {inputs : List TableRef}
    (hinputs : ∀ sst ∈ inputs, sst.table.Holds Q) :
    ∃ merged, inputs.foldlM compactTable SortedMap.empty = .ok merged ∧ Rows Q merged.toList := by
  rw [← Except.post_false_iff]
  apply Except.Post.foldlM (P := fun m : SortedMap Bytes Bytes => Rows Q m.toList)
  · intro merged sst hsst hmerged
    obtain ⟨rows, hscan, hrows, -⟩ := (hinputs sst hsst).scan [] [0xFF, 0xFF, 0xFF, 0xFF]
    unfold compactTable
    rw [hscan, Except.ok_bind]
    apply Except.Post.foldlM (P := fun m : SortedMap Bytes Bytes => Rows Q m.toList) _ hmerged
    intro acc row hrow hacc
    rw [Except.post_false_iff]
    exact compactRow_spec hQ hacc (hrows row hrow)
  · intro e he
    exact absurd he List.not_mem_nil

/-- The output holds what the inputs held. When there are no rows, or the file does not
open, the task gets no output. -/
theorem Settled.executeCompaction (hQ : Mergeable Q) (h : Settled Q db) {task : CompactionTask}
    (htask : ∀ sst ∈ task.inputSsts ++ task.outputSst.toList, sst.table.Holds Q) :
    (db.executeCompaction task).Post
      (fun r => Settled Q r.1 ∧ ∀ sst ∈ r.2.inputSsts ++ r.2.outputSst.toList, sst.table.Holds Q)
      WriteFailed := by
  obtain ⟨merged, hmerged, hrows⟩ :=
    compactTables_spec hQ fun sst hsst => htask sst (List.mem_append_left _ hsst)
  unfold ZenithDB.executeCompaction
  rw [hmerged, Except.ok_bind]
  -- without rows there is no output; else its file holds what the inputs held, and it opens
  split
  · exact ⟨h, htask⟩
  · apply Except.Post.bind (create_outcome merged.sorted hrows)
    intro file hfile
    obtain ⟨t, hopen, ht⟩ := hfile.openWritten hQ
    dsimp only
    rw [hopen, Except.ok_bind]
    refine ⟨⟨h.frozen, h.layout, h.worker, ?_⟩, ?_⟩
    · intro e he
      rcases SortedMap.mem_insertEntry he with rfl | hold
      · exact hfile
      · exact h.files e hold
    · intro sst hsst
      rcases List.mem_append.mp hsst with hin | hout
      · exact htask sst (List.mem_append_left _ hin)
      · rw [List.mem_singleton.mp hout]
        exact ht

/-- Tables are taken away, and the output is added. -/
theorem Settled.applyCompaction (h : Settled Q db) {task : CompactionTask}
    (htask : ∀ sst ∈ task.inputSsts ++ task.outputSst.toList, sst.table.Holds Q) :
    Settled Q (db.applyCompaction task) := by
  have hkept := h.layout.filter
    (fun fe => !(task.inputSsts.map (·.addr)).contains fe.sst.addr) task.level
  unfold ZenithDB.applyCompaction
  cases hout : task.outputSst with
  | none => exact ⟨h.frozen, hkept, h.worker, h.files⟩
  | some sst =>
    have hsst : sst.table.Holds Q := htask sst (by simp [hout])
    exact ⟨h.frozen, (hkept.grow _).append (FileEntry.holds_entryOf hsst) _, h.worker, h.files⟩

/-- The inputs of a new task are tables of the layout. -/
theorem Settled.planCompaction (h : Settled Q db) {time : Nat → Nat} {task : CompactionTask}
    (hplan : db.planCompaction time = some task) :
    ∀ sst ∈ task.inputSsts ++ task.outputSst.toList, sst.table.Holds Q := by
  unfold ZenithDB.planCompaction at hplan
  obtain ⟨lvl, -, rfl⟩ := Option.map_eq_some_iff.mp hplan
  intro sst hsst
  rcases List.mem_append.mp hsst with hin | hout
  · obtain ⟨fe, hfe, rfl⟩ := List.mem_map.mp hin
    rw [List.getD_eq_getElem?_getD] at hfe
    cases hl : db.layout[lvl]? with
    | none =>
      rw [hl] at hfe
      exact absurd hfe List.not_mem_nil
    | some level =>
      rw [hl] at hfe
      exact (h.layout level (List.mem_of_getElem? hl) fe hfe).2
  · exact absurd hout List.not_mem_nil

-- ---------------------------------------------------------------------------
-- Steps
-- ---------------------------------------------------------------------------

/-- **The worker** keeps what is settled. -/
theorem Settled.work (hQ : Mergeable Q) (h : Settled Q db) (p : Platform) (time : Nat → Nat) :
    (db.work p time).Post (Settled Q) WriteFailed := by
  unfold ZenithDB.work
  cases hw : db.worker with
  | flushing =>
    apply Except.Post.bind (h.flush hQ p time)
    intro mid hmid
    exact ⟨hmid.frozen, hmid.layout, fun _ hsst => absurd hsst List.not_mem_nil, hmid.files⟩
  -- nothing is written yet
  | planning =>
    cases hplan : db.planCompaction time with
    | none =>
      exact ⟨h.frozen, h.layout, fun _ hsst => absurd hsst List.not_mem_nil, h.files⟩
    | some task =>
      exact ⟨h.frozen, h.layout, h.planCompaction hplan, h.files⟩
  -- the output joins the task, whose tables the worker keeps
  | executing task =>
    have htask : ∀ sst ∈ task.inputSsts ++ task.outputSst.toList, sst.table.Holds Q := by
      intro sst hsst
      exact h.worker sst (by rw [hw]; exact hsst)
    apply Except.Post.bind (h.executeCompaction hQ htask)
    rintro ⟨mid, task'⟩ ⟨hmid, htask'⟩
    exact ⟨hmid.frozen, hmid.layout, htask', hmid.files⟩
  -- the layout gets what the task had
  | applying task =>
    have htask : ∀ sst ∈ task.inputSsts ++ task.outputSst.toList, sst.table.Holds Q := by
      intro sst hsst
      exact h.worker sst (by rw [hw]; exact hsst)
    have happly := h.applyCompaction htask
    exact ⟨happly.frozen, happly.layout.sort p, fun _ hsst => absurd hsst List.not_mem_nil,
      happly.files⟩

/-- **The worker** keeps the invariant. -/
theorem Stores.work (hQ : Mergeable Q) (h : Stores Q db) (p : Platform) (time : Nat → Nat) :
    (db.work p time).Post (Stores Q) WriteFailed := by
  apply (h.settled.work hQ p time).imp
  intro db' hwork hsettled
  apply hsettled.stores
  have hactive : db'.activeMem = db.activeMem := (List.cons.inj (work_sameMem hwork).memtables).1
  rw [hactive]
  exact h.memtables _ (List.mem_cons_self ..)

/-- A record is put into the active memtable, which may be frozen with it. -/
theorem Stores.storeRecord (h : Stores Q db) (usage : Nat) {key serialized : Bytes}
    (hrecord : Q key serialized) : Stores Q (db.storeRecord usage key serialized) := by
  have hput : Rows Q (db.activeMem.put key serialized).sortedEntries := by
    intro e he
    rcases SortedMap.mem_insertEntry he with rfl | hold
    · exact hrecord
    · exact h.memtables db.activeMem (List.mem_cons_self ..) e hold
  have hold : ∀ mt ∈ db.immut.map (·.mt), Rows Q mt.sortedEntries :=
    fun mt hmt => h.memtables mt (List.mem_cons_of_mem _ hmt)
  have hnew : Rows Q MemTable.new.sortedEntries := fun e he => absurd he List.not_mem_nil
  unfold ZenithDB.storeRecord
  split
  · refine ⟨?_, h.layout, h.worker, h.files⟩
    exact List.forall_mem_cons.mpr ⟨hnew, List.forall_mem_cons.mpr ⟨hput, hold⟩⟩
  · refine ⟨?_, h.layout, h.worker, h.files⟩
    exact List.forall_mem_cons.mpr ⟨hput, hold⟩

/-- **One step.** If the records that a step stores satisfy the predicate, it
keeps the invariant or stops at a failed write. -/
theorem Stores.step (hQ : Mergeable Q) (h : Stores Q db) (p : Platform) {a : Action}
    (hrecords : Rows Q (stored db a)) : (step p db a).Post (Stores Q) WriteFailed := by
  cases a with
  | put usage key value =>
    have hlocal : Stores Q { db with localClock := (db.localRegister value).clock } :=
      ⟨h.memtables, h.layout, h.worker, h.files⟩
    exact hlocal.storeRecord usage (hrecords _ (List.mem_singleton_self _))
  | putCrdt usage key incoming =>
    obtain ⟨existing, hget, -⟩ := h.getCrdt hQ key
    have hmerged : Stores Q { db with localClock := db.localClock.merge incoming.clock } :=
      ⟨h.memtables, h.layout, h.worker, h.files⟩
    rw [stored, hget] at hrecords
    show (db.putCrdt usage key incoming).Post _ _
    unfold putCrdt
    rw [hget, Except.ok_bind]
    exact hmerged.storeRecord usage (hrecords _ (List.mem_singleton_self _))
  | work time => exact h.work hQ p time
  | otherNames n => exact ⟨h.memtables, h.layout, h.worker, h.files⟩

end ZenithDB

end Zenith
