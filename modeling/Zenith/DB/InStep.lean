import Zenith.DB.ManifestLog

/-!
# Zenith — metadata, layout and manifest in step

Three representations say which tables a level has: `levels_meta_` by name, the layout by
pointer, the manifest by its records. Flushes and compactions change each with code of its
own, and a compaction leaves the lock between its planning and its end.

The invariant `Paired` lays a list of pairs under both: per level, the names with the tables
that were opened under them. A compaction takes all files of a level, so what it removes by
name and what it removes by pointer is the same, as long as the level stays as it was
planned; only the worker changes levels (`Planned`).

The pairs are distinct in their names, because numbers are not taken twice, and in their
addresses, because tables that are held are not freed. Two lemmas change them: `Paired.add`
for a table that joins a level and `Paired.clear` for a level that is emptied. Flushes and
compactions are made of these two.

A file that was written may not open again; the source then lists its name and has no table
for it, and the representations differ. `OpensSucceed` is the condition on a step that
excludes this, stated on the rows that the step is about to write.

Main result: `levels_in_step`.
-/

namespace Zenith

open Bytes

namespace ZenithDB

-- ---------------------------------------------------------------------------
-- The property
-- ---------------------------------------------------------------------------

/-- A level's names and a level's tables belong together one to one: each table was
opened over the file of its name. -/
def Corresponds (files : SortedMap Bytes Bytes) (names : List Bytes) (level : List FileEntry) : Prop :=
  ∃ pairs : List (Bytes × FileEntry), pairs.map Prod.fst = names ∧
    level.Perm (pairs.map Prod.snd) ∧
    ∀ pr ∈ pairs, ∃ file, files.get? pr.1 = some file ∧
      SSTable.openFile file = .ok pr.2.sst.table

/-- Metadata, layout and manifest say the same. -/
structure InStep (db : ZenithDB) : Prop where
  /-- level by level, and for the same number of levels -/
  corresponds : List.Forall₂ (Corresponds db.disk.files) db.levelsMeta db.layout
  /-- no name is listed twice, in one level or in two -/
  namesDistinct : db.levelsMeta.flatten.Nodup
  /-- no table is held twice, in one level or in two -/
  tablesDistinct : (db.layout.flatten.map (·.sst.addr)).Nodup
  sorted : ∀ level ∈ db.layout, level.Pairwise fun a b => a.minKey ≤ b.minKey
  /-- the manifest, with its additions and its removals -/
  replayed : Manifest.applyRecords db.disk.manifest = db.levelsMeta

/-- A file that is written for these entries can be opened. -/
def Reopens (entries : List Entry) : Prop :=
  ∀ file, SSTable.create entries = .ok file → ∃ opened, openWritten file = .ok opened ∧ opened.isSome

/-- The files that the worker writes next can be opened. -/
def WorkerOpens (db : ZenithDB) : Worker → Prop
  | .flushing => ∀ node ∈ db.immut, node.flushed = false → Reopens node.mt.sortedEntries
  | .planning => True
  | .executing task =>
    ∀ merged, task.inputSsts.foldlM compactTable SortedMap.empty = .ok merged → Reopens merged.toList
  | .applying _ => True

/-- The files that a step writes can be opened. -/
def OpensSucceed (db : ZenithDB) : Action → Prop
  | .work _ => WorkerOpens db db.worker
  | .put _ _ _ => True
  | .putCrdt _ _ _ => True
  | .otherNames _ => True

instance (entries : List Entry) : Decidable (Reopens entries) :=
  inferInstanceAs (Decidable (∀ file, SSTable.create entries = .ok file →
    ∃ opened, openWritten file = .ok opened ∧ opened.isSome))

instance (db : ZenithDB) : ∀ w, Decidable (WorkerOpens db w)
  | .flushing =>
    inferInstanceAs (Decidable (∀ node ∈ db.immut, node.flushed = false → Reopens node.mt.sortedEntries))
  | .planning => isTrue trivial
  | .executing task =>
    inferInstanceAs (Decidable (∀ merged, task.inputSsts.foldlM compactTable SortedMap.empty = .ok merged →
      Reopens merged.toList))
  | .applying _ => isTrue trivial

instance (db : ZenithDB) : ∀ a, Decidable (OpensSucceed db a)
  | .work _ => inferInstanceAs (Decidable (WorkerOpens db db.worker))
  | .put _ _ _ => isTrue trivial
  | .putCrdt _ _ _ => isTrue trivial
  | .otherNames _ => isTrue trivial

-- ---------------------------------------------------------------------------
-- The invariant
-- ---------------------------------------------------------------------------

/-- A name with the table opened under it, as far as the database has come. -/
structure Backed (db : ZenithDB) (pr : Bytes × FileEntry) : Prop where
  numbered : ∃ level time id, pr.1 = newFilename level time id ∧ id < db.counter
  addressed : pr.2.sst.addr < db.nextAddr
  opened : ∃ file, db.disk.files.get? pr.1 = some file ∧ SSTable.openFile file = .ok pr.2.sst.table

/-- Pairs of a name and a table, level by level, from which both `levels_meta_` and
the layout come. -/
structure Paired (pairs : List (List (Bytes × FileEntry))) (db : ZenithDB) : Prop where
  names : db.levelsMeta = pairs.map (·.map Prod.fst)
  tables : List.Forall₂ (fun level prs => level.Perm (prs.map Prod.snd)) db.layout pairs
  count : pairs.length = Manifest.levelCount
  namesDistinct : (pairs.flatten.map Prod.fst).Nodup
  tablesDistinct : (pairs.flatten.map (·.2.sst.addr)).Nodup
  backed : ∀ pr ∈ pairs.flatten, Backed db pr

/-- A compaction of all files that its level has, with an output that no level has. -/
structure Planned (pairs : List (List (Bytes × FileEntry))) (db : ZenithDB)
    (task : CompactionTask) : Prop where
  level_lt : task.level + 1 < Manifest.levelCount
  inputFilenames : task.inputFilenames = (pairs.getD task.level []).map Prod.fst
  inputSsts : task.inputSsts.Perm ((pairs.getD task.level []).map (·.2.sst))
  numbered : ∃ level time id, task.outputFilename = newFilename level time id ∧ id < db.counter
  unlisted : task.outputFilename ∉ pairs.flatten.map Prod.fst
  output : ∀ sst, task.outputSst = some sst →
    Backed db (task.outputFilename, entryOf sst) ∧ sst.addr ∉ pairs.flatten.map (·.2.sst.addr)

variable {pairs : List (List (Bytes × FileEntry))} {db db' : ZenithDB} {task : CompactionTask}

/-- All representations have the levels of the manifest. -/
theorem Paired.levelCount (h : Paired pairs db) : db.levelsMeta.length = Manifest.levelCount := by
  rw [h.names, List.length_map, h.count]

theorem Paired.layoutCount (h : Paired pairs db) : db.layout.length = Manifest.levelCount := by
  rw [h.tables.length_eq, h.count]

/-- The names of one level. -/
theorem Paired.getD_names (h : Paired pairs db) (l : Nat) :
    db.levelsMeta.getD l [] = (pairs.getD l []).map Prod.fst := by
  rw [h.names, List.getD_eq_getElem?_getD, List.getD_eq_getElem?_getD, List.getElem?_map]
  cases pairs[l]? <;> rfl

/-- The tables of one level, in some order. -/
theorem Paired.getD_tables (h : Paired pairs db) (l : Nat) :
    (db.layout.getD l []).Perm ((pairs.getD l []).map Prod.snd) := by
  have htables := h.tables
  generalize db.layout = layout at htables
  clear h
  induction htables generalizing l with
  | nil => exact .nil
  | cons hlevel _ ih =>
    cases l with
    | zero => exact hlevel
    | succ l => exact ih l

theorem Paired.flatten_names (h : Paired pairs db) :
    db.levelsMeta.flatten = pairs.flatten.map Prod.fst := by
  rw [h.names, List.map_flatten]

/-- A pair stays backed when its file stays and the counters only go up. -/
theorem Backed.mono {pr : Bytes × FileEntry} (h : Backed db pr) (hcounter : db.counter ≤ db'.counter)
    (haddr : db.nextAddr ≤ db'.nextAddr) (hfiles : db'.disk.files.get? pr.1 = db.disk.files.get? pr.1) :
    Backed db' pr := by
  obtain ⟨level, time, id, hname, hid⟩ := h.numbered
  exact ⟨⟨level, time, id, hname, by omega⟩, by have := h.addressed; omega, by rw [hfiles]; exact h.opened⟩

/-- A step that leaves levels and files alone, or sorts the levels. -/
theorem Paired.frame (h : Paired pairs db) (hnames : db'.levelsMeta = db.levelsMeta)
    (htables : List.Forall₂ (fun level prs => level.Perm (prs.map Prod.snd)) db'.layout pairs)
    (hbacked : ∀ pr ∈ pairs.flatten, Backed db pr → Backed db' pr) : Paired pairs db' :=
  ⟨hnames.trans h.names, htables, h.count, h.namesDistinct, h.tablesDistinct,
    fun pr hpr => hbacked pr hpr (h.backed pr hpr)⟩

/-- **A table joins a level**, under a name and at an address that no level has. -/
theorem Paired.add (h : Paired pairs db) (pr : Bytes × FileEntry) {level : Nat}
    (hlevel : level < Manifest.levelCount) (hname : pr.1 ∉ pairs.flatten.map Prod.fst)
    (haddr : pr.2.sst.addr ∉ pairs.flatten.map (·.2.sst.addr)) (hpr : Backed db' pr)
    (hbacked : ∀ pr ∈ pairs.flatten, Backed db pr → Backed db' pr)
    (hnames : db'.levelsMeta = db.levelsMeta.modify level (· ++ [pr.1]))
    (htables : db'.layout = db.layout.modify level (· ++ [pr.2])) :
    Paired (pairs.modify level (· ++ [pr])) db' := by
  have hflat := Levels.flatten_modify_append (h.count ▸ hlevel) pr
  refine ⟨?_, ?_, ?_, ?_, ?_, ?_⟩
  · rw [hnames, h.names]
    exact (Levels.map_modify (fun prs => List.map_append) pairs level).symm
  · rw [htables]
    refine Levels.forall₂_modify h.tables (fun a b hab => ?_) level
    rw [List.map_append]
    exact hab.append_right [pr.2]
  · rw [List.length_modify, h.count]
  · rw [(hflat.map _).nodup_iff]
    exact List.nodup_cons.mpr ⟨hname, h.namesDistinct⟩
  · rw [(hflat.map _).nodup_iff]
    exact List.nodup_cons.mpr ⟨haddr, h.tablesDistinct⟩
  · intro q hq
    rcases List.mem_cons.mp (hflat.mem_iff.mp hq) with rfl | hq
    · exact hpr
    · exact hbacked q hq (h.backed q hq)

/-- **A level is emptied.** -/
theorem Paired.clear (h : Paired pairs db) (level : Nat)
    (hbacked : ∀ pr ∈ pairs.flatten, Backed db pr → Backed db' pr)
    (hnames : db'.levelsMeta = db.levelsMeta.modify level fun _ => [])
    (htables : db'.layout = db.layout.modify level fun _ => []) :
    Paired (pairs.modify level fun _ => []) db' := by
  have hflat := Levels.flatten_modify_nil pairs level
  refine ⟨?_, ?_, ?_, ?_, ?_, ?_⟩
  · rw [hnames, h.names]
    refine (Levels.map_modify ?_ pairs level).symm
    exact fun _ => rfl
  · rw [htables]
    exact Levels.forall₂_modify h.tables (fun a b _ => .nil) level
  · rw [List.length_modify, h.count]
  · exact h.namesDistinct.sublist (hflat.map _)
  · exact h.tablesDistinct.sublist (hflat.map _)
  · intro q hq
    exact hbacked q (hflat.subset hq) (h.backed q (hflat.subset hq))

-- ---------------------------------------------------------------------------
-- Flushes
-- ---------------------------------------------------------------------------

/-- Names that have been taken are not taken again. -/
theorem Paired.fresh_name (h : Paired pairs db) (level time : Nat) :
    newFilename level time db.counter ∉ pairs.flatten.map Prod.fst := by
  intro hmem
  obtain ⟨pr, hpr, heq⟩ := List.mem_map.mp hmem
  obtain ⟨level', time', id, hname, hid⟩ := (h.backed pr hpr).numbered
  obtain ⟨-, -, rfl⟩ := newFilename_inj (hname.symm.trans heq)
  exact absurd hid (lt_irrefl _)

/-- Addresses that have been given out are not given out again while their tables are held. -/
theorem Paired.fresh_addr (h : Paired pairs db) :
    db.nextAddr ∉ pairs.flatten.map (·.2.sst.addr) := by
  intro hmem
  obtain ⟨pr, hpr, heq⟩ := List.mem_map.mp hmem
  exact absurd (h.backed pr hpr).addressed (by rw [heq]; exact lt_irrefl _)

theorem opened_isSome {entries : List Entry} (h : Reopens entries) {file : Bytes}
    (hfile : SSTable.create entries = .ok file) {opened : Option SSTable}
    (hopened : openWritten file = .ok opened) : ∃ t, opened = some t := by
  obtain ⟨opened', hopened', hsome⟩ := h file hfile
  obtain rfl := Except.ok.inj (hopened'.symm.trans hopened)
  exact Option.isSome_iff_exists.mp hsome

/-- One frozen memtable: its file joins level 0 in all three representations. -/
theorem Paired.flushNode {time : Nat → Nat} {node : ImmNode} (h : Paired pairs db)
    (hopens : node.flushed = false → Reopens node.mt.sortedEntries)
    (hflush : ZenithDB.flushNode time db node = .ok db') (rest : List ImmNode) :
    ∃ pairs' new, Paired pairs' db' ∧
      flushCalls time db.counter (node :: rest) = new ++ flushCalls time db'.counter rest ∧
      new.foldl Manifest.Call.applyTo db.levelsMeta = db'.levelsMeta ∧
      ∀ c ∈ new, ∀ f ∈ c.names, f ≠ [] := by
  rw [flushCalls]
  obtain ⟨hskip, rfl⟩ | ⟨hskip, file, opened, hfile, hopened, rfl⟩ := flushNode_cases hflush
  · -- nothing is written
    rw [if_pos hskip]
    exact ⟨pairs, [], h, rfl, rfl, fun c hc => absurd hc List.not_mem_nil⟩
  · rw [if_neg hskip]
    rw [not_or, Bool.not_eq_true] at hskip
    obtain ⟨t, rfl⟩ := opened_isSome (hopens hskip.1) hfile hopened
    have hname := h.fresh_name 0 (time db.counter)
    set name := newFilename 0 (time db.counter) db.counter with hdef
    refine ⟨pairs.modify 0 (· ++ [(name, entryOf ⟨db.nextAddr, t⟩)]), [.addSstable 0 name],
      h.add _ (by decide) hname h.fresh_addr ?_ ?_ rfl ?_, rfl, rfl, ?_⟩
    · -- the new pair is backed by the file just written
      refine ⟨⟨0, time db.counter, db.counter, hdef, Nat.lt_succ_self _⟩, Nat.lt_succ_self _, file, ?_,
        openFile_of_openWritten hopened⟩
      show (db.disk.files.insert name file).get? name = _
      rw [SortedMap.get?_insert, if_pos rfl]
    · -- the pairs before are about other files
      intro pr hpr hb
      refine hb.mono (Nat.le_succ _) (Nat.le_succ _) ?_
      show (db.disk.files.insert name file).get? pr.1 = _
      rw [SortedMap.get?_insert, if_neg]
      rintro heq
      exact hname (heq ▸ List.mem_map_of_mem hpr)
    · -- the layout already has a level for every level of the metadata
      show (grow _ _).modify _ _ = _
      rw [grow, show (db.recordFlush name file).levelsMeta.length = Manifest.levelCount from
        (List.length_modify ..).trans h.levelCount,
        show (db.recordFlush name file).layout.length = Manifest.levelCount from h.layoutCount,
        Nat.sub_self, List.replicate_zero, List.append_nil]
      rfl
    · intro c hc f hf
      rw [List.mem_singleton.mp hc] at hf
      rw [List.mem_singleton.mp hf]
      exact newFilename_ne_nil _ _ _

/-- All frozen memtables, by induction on them. -/
theorem Paired.flushNodes {time : Nat → Nat} {nodes : List ImmNode} (h : Paired pairs db)
    (hopens : ∀ node ∈ nodes, node.flushed = false → Reopens node.mt.sortedEntries)
    (hflush : nodes.foldlM (ZenithDB.flushNode time) db = .ok db') :
    ∃ pairs', Paired pairs' db' ∧
      (flushCalls time db.counter nodes).foldl Manifest.Call.applyTo db.levelsMeta = db'.levelsMeta ∧
      ∀ c ∈ flushCalls time db.counter nodes, ∀ f ∈ c.names, f ≠ [] := by
  induction nodes generalizing pairs db with
  | nil =>
    obtain rfl := Except.ok.inj hflush
    exact ⟨pairs, h, rfl, fun c hc => absurd hc List.not_mem_nil⟩
  | cons node nodes ih =>
    rw [List.foldlM_cons] at hflush
    obtain ⟨mid, hnode, hrest⟩ := Except.bind_eq_ok_iff.mp hflush
    obtain ⟨hopen, hopens⟩ := List.forall_mem_cons.mp hopens
    obtain ⟨pairs', new, hmid, hcalls, hnew, hnames⟩ := h.flushNode hopen hnode nodes
    obtain ⟨pairs'', hlast, hreplay, hrestNames⟩ := ih hmid hopens hrest
    rw [hcalls]
    refine ⟨pairs'', hlast, ?_, List.forall_mem_append.mpr ⟨hnames, hrestNames⟩⟩
    rw [List.foldl_append, hnew, hreplay]

/-- Sorting the levels keeps their tables. -/
theorem forall₂_sort {layout : Layout} (p : Platform)
    (h : List.Forall₂ (fun level prs => level.Perm (prs.map Prod.snd)) layout pairs) :
    List.Forall₂ (fun level prs => level.Perm (prs.map Prod.snd)) (sortAllLevels p layout) pairs := by
  unfold sortAllLevels
  rw [List.forall₂_map_left_iff]
  exact h.imp fun level prs hlevel => (p.sortFiles_perm level).trans hlevel

-- ---------------------------------------------------------------------------
-- Compactions
-- ---------------------------------------------------------------------------

/-- The task takes all names and all tables of its level. -/
theorem Paired.planCompaction (h : Paired pairs db) {time : Nat → Nat}
    (hplan : db.planCompaction time = some task) :
    Planned pairs { db with counter := db.counter + 1 } task := by
  unfold ZenithDB.planCompaction at hplan
  obtain ⟨lvl, hlvl, rfl⟩ := Option.map_eq_some_iff.mp hplan
  have hlt : lvl < db.levelsMeta.length - 1 := by
    unfold fullLevel at hlvl
    exact List.mem_range.mp (List.mem_of_find?_eq_some hlvl)
  rw [h.levelCount] at hlt
  refine ⟨?_, h.getD_names lvl, ?_, ⟨_, _, db.counter, rfl, Nat.lt_succ_self _⟩,
    h.fresh_name _ _, fun sst hsst => absurd hsst (by simp)⟩
  · show lvl + 1 < _
    omega
  · have hperm := (h.getD_tables lvl).map (·.sst)
    rwa [List.map_map] at hperm

/-- Executing a task leaves the pairs as they are and gives the task its output. -/
theorem Paired.executeCompaction {task' : CompactionTask} (h : Paired pairs db)
    (hplanned : Planned pairs db task)
    (hopens : ∀ merged, task.inputSsts.foldlM compactTable SortedMap.empty = .ok merged →
      Reopens merged.toList)
    (hexec : db.executeCompaction task = .ok (db', task')) :
    Paired pairs db' ∧ Planned pairs db' task' ∧ db'.layout = db.layout := by
  -- the output is a pair that is not in a level yet
  obtain ⟨merged, hmerged, ⟨rfl, rfl⟩ | ⟨file, opened, hfile, hopened, rfl, rfl⟩⟩ :=
    executeCompaction_cases hexec
  · exact ⟨h, hplanned, rfl⟩
  · obtain ⟨t, rfl⟩ := opened_isSome (hopens merged hmerged) hfile hopened
    obtain ⟨level, time, id, hname, hid⟩ := hplanned.numbered
    have hbacked : ∀ pr ∈ pairs.flatten, Backed db pr →
        Backed { db.recordOutput task.outputFilename file with nextAddr := db.nextAddr + 1 } pr := by
      intro pr hpr hb
      refine hb.mono (le_refl _) (Nat.le_succ _) ?_
      -- the output file is written under a name of its own
      show (db.disk.files.insert task.outputFilename file).get? pr.1 = _
      rw [SortedMap.get?_insert, if_neg]
      rintro heq
      exact hplanned.unlisted (heq ▸ List.mem_map_of_mem hpr)
    refine ⟨h.frame rfl h.tables hbacked, ⟨hplanned.level_lt, hplanned.inputFilenames,
      hplanned.inputSsts, ⟨level, time, id, hname, hid⟩, hplanned.unlisted, ?_⟩, rfl⟩
    intro sst hsst
    obtain rfl := Option.some.inj hsst
    refine ⟨⟨⟨level, time, id, hname, hid⟩, Nat.lt_succ_self _, file, ?_, openFile_of_openWritten hopened⟩,
      h.fresh_addr⟩
    show (db.disk.files.insert task.outputFilename file).get? task.outputFilename = _
    rw [SortedMap.get?_insert, if_pos rfl]

/-- What is removed by name is the whole level. -/
theorem Paired.remaining (h : Paired pairs db) (hplanned : Planned pairs db task) :
    (db.levelsMeta.modify task.level fun files =>
      files.filter fun f => !task.inputFilenames.contains f) =
      db.levelsMeta.modify task.level fun _ => [] := by
  apply Levels.modify_congr
  rw [hplanned.inputFilenames, ← h.getD_names, List.filter_eq_nil_iff]
  intro f hf
  rw [List.contains_iff_mem.mpr hf]
  exact Bool.false_ne_true

/-- What is removed by pointer is the whole level. -/
theorem Paired.kept (h : Paired pairs db) (hplanned : Planned pairs db task) :
    (db.layout.modify task.level fun files =>
      files.filter fun fe => !(task.inputSsts.map (·.addr)).contains fe.sst.addr) =
      db.layout.modify task.level fun _ => [] := by
  apply Levels.modify_congr
  rw [List.filter_eq_nil_iff]
  intro fe hfe
  have hpairs := (h.getD_tables task.level).mem_iff.mp hfe
  obtain ⟨pr, hpr, rfl⟩ := List.mem_map.mp hpairs
  have hinput : pr.2.sst ∈ task.inputSsts :=
    hplanned.inputSsts.mem_iff.mpr (List.mem_map_of_mem (f := (·.2.sst)) hpr)
  have haddr := List.mem_map_of_mem (f := TableRef.addr) hinput
  simp [haddr]

/-- **A compaction is applied**: its level is emptied in all three representations, and the
output joins the next level in all three. Nothing has changed the level since it was
planned, which is what `hplanned` says. -/
theorem Paired.applyCompaction (h : Paired pairs db) (hplanned : Planned pairs db task) :
    ∃ pairs', Paired pairs' (db.applyCompaction task) ∧
      (compactionCalls task).foldl Manifest.Call.applyTo db.levelsMeta =
        (db.applyCompaction task).levelsMeta ∧
      ∀ c ∈ compactionCalls task, ∀ f ∈ c.names, f ≠ [] := by
  have hremaining := h.remaining hplanned
  have hkept := h.kept hplanned
  have hreplace : ∀ levels : List (List Bytes),
      Manifest.Call.applyTo levels (.replace task.level task.inputFilenames []) =
        levels.modify task.level fun files =>
          files.filter fun f => !task.inputFilenames.contains f := by
    intro levels
    rw [Manifest.Call.applyTo]
    simp only [List.append_nil]
  obtain ⟨level, time, id, hname, -⟩ := hplanned.numbered
  -- the inputs are listed files, and these are numbered
  have hinputs : ∀ f ∈ task.inputFilenames ++ [], f ≠ [] := by
    intro f hf
    rw [List.append_nil, hplanned.inputFilenames] at hf
    obtain ⟨pr, hpr, rfl⟩ := List.mem_map.mp hf
    obtain ⟨level', time', id', hname', -⟩ := (h.backed pr (Levels.mem_flatten hpr)).numbered
    rw [hname']
    exact newFilename_ne_nil _ _ _
  -- what remains are old pairs
  have hflat := Levels.flatten_modify_nil pairs task.level
  unfold ZenithDB.applyCompaction compactionCalls
  rw [hremaining, hkept]
  cases hout : task.outputSst with
  | none =>
    refine ⟨_, h.clear task.level (fun pr _ hb => hb.mono (le_refl _) (le_refl _) rfl) rfl rfl, ?_, ?_⟩
    · rw [if_neg (by simp), List.nil_append, List.foldl_cons, List.foldl_nil, hreplace,
        hremaining]
    · exact List.forall_mem_singleton.mpr hinputs
  | some sst =>
    obtain ⟨hbacked, haddr⟩ := hplanned.output sst hout
    have hclear : Paired (pairs.modify task.level fun _ => []) { db with
        levelsMeta := db.levelsMeta.modify task.level fun _ => []
        layout := db.layout.modify task.level fun _ => [] } :=
      h.clear task.level (fun pr _ hb => hb.mono (le_refl _) (le_refl _) rfl) rfl rfl
    refine ⟨_, hclear.add (task.outputFilename, entryOf sst) hplanned.level_lt ?_ ?_ ?_ ?_ rfl ?_,
      ?_, ?_⟩
    · exact fun hmem => hplanned.unlisted ((hflat.map _).subset hmem)
    · exact fun hmem => haddr ((hflat.map _).subset hmem)
    · exact hbacked.mono (le_refl _) (le_refl _) rfl
    · exact fun pr _ hb => hb.mono (le_refl _) (le_refl _) rfl
    · -- the next level exists already
      have hlevel := hplanned.level_lt
      dsimp only
      rw [grow, List.length_modify, h.layoutCount,
        show task.level + 2 - Manifest.levelCount = 0 by omega, List.replicate_zero, List.append_nil]
    · rw [if_pos (by simp), List.singleton_append, List.foldl_cons, List.foldl_cons, List.foldl_nil, hreplace,
        Manifest.Call.applyTo, List.modify_modify_ne _ _ _ (by omega), hremaining]
    · refine List.forall_mem_cons.mpr ⟨?_, List.forall_mem_singleton.mpr hinputs⟩
      refine List.forall_mem_singleton.mpr ?_
      rw [hname]
      exact newFilename_ne_nil _ _ _

-- ---------------------------------------------------------------------------
-- Runs
-- ---------------------------------------------------------------------------

/-- How a database stands to the calls it made to its manifest. -/
structure Registered (calls : List Manifest.Call) (db : ZenithDB) : Prop where
  logged : Logged calls db
  names : ∀ c ∈ calls, ∀ f ∈ c.names, f ≠ []
  replayed : calls.foldl Manifest.Call.applyTo (List.replicate Manifest.levelCount []) = db.levelsMeta
  sorted : ∀ level ∈ db.layout, level.Pairwise fun a b => a.minKey ≤ b.minKey
  paired : ∃ pairs, Paired pairs db ∧ ∀ task, Pending db.worker task → Planned pairs db task

variable {calls : List Manifest.Call} {p : Platform}

theorem Planned.mono (h : Planned pairs db task) (hcounter : db.counter ≤ db'.counter)
    (haddr : db.nextAddr ≤ db'.nextAddr) (hfiles : db'.disk.files = db.disk.files) :
    Planned pairs db' task := by
  obtain ⟨level, time, id, hname, hid⟩ := h.numbered
  refine ⟨h.level_lt, h.inputFilenames, h.inputSsts, ⟨level, time, id, hname, by omega⟩, h.unlisted, ?_⟩
  intro sst hsst
  obtain ⟨hbacked, hunheld⟩ := h.output sst hsst
  exact ⟨hbacked.mono hcounter haddr (by rw [hfiles]), hunheld⟩

theorem registered_fresh (nodeId : NodeID) (counter : Nat) :
    Registered [] (fresh nodeId counter) where
  logged := logged_fresh nodeId counter
  names := fun c hc => absurd hc List.not_mem_nil
  replayed := rfl
  sorted := by
    intro level hlevel
    rw [List.eq_of_mem_replicate hlevel]
    exact .nil
  paired := by
    refine ⟨List.replicate 7 [], ⟨rfl, ?_, rfl, by decide, by decide, by simp⟩, ?_⟩
    · exact Levels.forall₂_replicate .nil 7
    · rintro task (htask | htask) <;> exact absurd htask (by simp [fresh])

/-- A step that leaves levels, layout and files alone. -/
theorem Registered.frame (h : Registered calls db) (hlogged : Logged calls db')
    (hnames : db'.levelsMeta = db.levelsMeta) (hlayout : db'.layout = db.layout)
    (hfiles : db'.disk.files = db.disk.files) (hcounter : db.counter ≤ db'.counter)
    (haddr : db.nextAddr ≤ db'.nextAddr)
    (hpending : ∀ pairs, Paired pairs db → ∀ task, Pending db'.worker task →
      Pending db.worker task ∨ Planned pairs db' task) : Registered calls db' := by
  obtain ⟨pairs, hpaired, hplanned⟩ := h.paired
  refine ⟨hlogged, h.names, by rw [hnames, h.replayed], by rw [hlayout]; exact h.sorted, pairs, ?_, ?_⟩
  · exact hpaired.frame hnames (by rw [hlayout]; exact hpaired.tables)
      fun pr _ hb => hb.mono hcounter haddr (by rw [hfiles])
  · intro task htask
    rcases hpending pairs hpaired task htask with hold | hnew
    · exact (hplanned task hold).mono hcounter haddr hfiles
    · exact hnew

/-- Calls whose effect is the change of the metadata. -/
theorem Registered.replay (h : Registered calls db) {new : List Manifest.Call}
    (hnew : new.foldl Manifest.Call.applyTo db.levelsMeta = db'.levelsMeta)
    (hnames : ∀ c ∈ new, ∀ f ∈ c.names, f ≠ []) :
    (calls ++ new).foldl Manifest.Call.applyTo (List.replicate Manifest.levelCount []) = db'.levelsMeta ∧
      ∀ c ∈ calls ++ new, ∀ f ∈ c.names, f ≠ [] := by
  rw [List.foldl_append, h.replayed]
  exact ⟨hnew, List.forall_mem_append.mpr ⟨h.names, hnames⟩⟩

/-- **One step** of the worker. -/
theorem Registered.work (h : Registered calls db) {time : Nat → Nat}
    (hlogged : Logged (calls ++ manifestCalls db (.work time)) db')
    (hopens : OpensSucceed db (.work time)) (hwork : db.work p time = .ok db') :
    Registered (calls ++ manifestCalls db (.work time)) db' := by
  obtain ⟨pairs, hpaired, hplanned⟩ := h.paired
  rw [manifestCalls] at hlogged ⊢
  unfold OpensSucceed WorkerOpens at hopens
  cases work_cases hwork with
  | rested hworker hall =>
    simp only [hworker] at hlogged ⊢
    rw [if_pos hall, List.append_nil] at hlogged ⊢
    exact h.frame hlogged rfl rfl rfl (le_refl _) (le_refl _)
      fun _ _ task htask => absurd htask (not_pending_planning task)
  | flushed hworker hall hlast =>
    simp only [hworker] at hlogged hopens ⊢
    rw [if_neg hall] at hlogged ⊢
    -- each memtable becomes a table with its name, in both lists at once
    obtain ⟨pairs', hpaired', hreplay, hnames⟩ := hpaired.flushNodes hopens hlast
    obtain ⟨hreplayed, hall⟩ := h.replay hreplay hnames
    refine ⟨hlogged, hall, hreplayed, sorted_sort p _, pairs', ?_, ?_⟩
    · exact hpaired'.frame rfl (forall₂_sort p hpaired'.tables)
        fun pr _ hb => hb.mono (le_refl _) (le_refl _) rfl
    · exact fun task htask => absurd htask (not_pending_planning task)
  | idle hworker hplan =>
    simp only [hworker] at hlogged ⊢
    rw [List.append_nil] at hlogged ⊢
    exact h.frame hlogged rfl rfl rfl (le_refl _) (le_refl _)
      fun _ _ task htask => absurd htask (not_pending_flushing task)
  | planned hworker hplan =>
    simp only [hworker] at hlogged ⊢
    rw [List.append_nil] at hlogged ⊢
    refine h.frame hlogged rfl rfl rfl (Nat.le_succ _) (le_refl _) ?_
    -- the task that is under way is the new one
    rintro pairs hpaired task' (htask | htask)
    · obtain rfl := Worker.executing.inj htask
      exact .inr ((hpaired.planCompaction hplan).mono (le_refl _) (le_refl _) rfl)
    · cases htask
  | @executed task task' mid hworker hexec =>
    simp only [hworker] at hlogged hopens ⊢
    rw [List.append_nil] at hlogged ⊢
    -- the output is opened, but neither listed nor in the layout yet
    obtain ⟨hmid, hplanned', hlayout⟩ :=
      hpaired.executeCompaction (hplanned task (.inl hworker)) hopens hexec
    obtain ⟨-, hlevels, -⟩ := executeCompaction_manifest hexec
    refine ⟨hlogged, h.names, ?_, ?_, pairs, ?_, ?_⟩
    · rw [h.replayed]
      exact hlevels.symm
    · show ∀ level ∈ mid.layout, _
      rw [hlayout]
      exact h.sorted
    · exact hmid.frame rfl hmid.tables fun pr _ hb => hb.mono (le_refl _) (le_refl _) rfl
    · rintro task'' (htask | htask)
      · cases htask
      · obtain rfl := Worker.applying.inj htask
        exact hplanned'.mono (le_refl _) (le_refl _) rfl
  | @applied task hworker =>
    simp only [hworker] at hlogged ⊢
    -- the level of the inputs is emptied by name and by pointer, and the output joins the next
    obtain ⟨pairs', hpaired', hreplay, hnames⟩ :=
      hpaired.applyCompaction (hplanned task (.inr hworker))
    obtain ⟨hreplayed, hall⟩ := h.replay hreplay hnames
    refine ⟨hlogged, hall, hreplayed, sorted_sort p _, pairs', ?_, ?_⟩
    · exact hpaired'.frame rfl (forall₂_sort p hpaired'.tables)
        fun pr _ hb => hb.mono (le_refl _) (le_refl _) rfl
    · exact fun task htask => absurd htask (not_pending_flushing task)

theorem Registered.step {a : Action} (h : Registered calls db) (hopens : OpensSucceed db a)
    (hstep : ZenithDB.step p db a = .ok db') : Registered (calls ++ manifestCalls db a) db' := by
  have hlogged := h.logged.step hstep
  -- a write touches neither levels nor files nor the worker
  have hwrite : ∀ (clock : VectorClock) (usage : Nat) (key serialized : Bytes),
      Logged calls ({ db with localClock := clock }.storeRecord usage key serialized) →
        Registered calls ({ db with localClock := clock }.storeRecord usage key serialized) := by
    intro clock usage key serialized hlogged
    unfold storeRecord at hlogged ⊢
    by_cases hfull : usage > 2 * memtableLimit
    · rw [if_pos hfull] at hlogged ⊢
      exact h.frame hlogged rfl rfl rfl (le_refl _) (le_refl _) fun _ _ _ htask => .inl htask
    · rw [if_neg hfull] at hlogged ⊢
      exact h.frame hlogged rfl rfl rfl (le_refl _) (le_refl _) fun _ _ _ htask => .inl htask
  cases a with
  | put usage key value =>
    obtain rfl := Except.ok.inj hstep
    rw [manifestCalls, List.append_nil] at hlogged ⊢
    exact hwrite _ _ _ _ hlogged
  | putCrdt usage key incoming =>
    obtain ⟨existing, -, hstep⟩ := Except.bind_eq_ok_iff.mp hstep
    obtain rfl := Except.ok.inj hstep
    rw [manifestCalls, List.append_nil] at hlogged ⊢
    exact hwrite _ _ _ _ hlogged
  | otherNames n =>
    obtain rfl := Except.ok.inj hstep
    rw [manifestCalls, List.append_nil] at hlogged ⊢
    exact h.frame hlogged rfl rfl rfl (Nat.le_add_right _ _) (le_refl _)
      fun _ _ _ htask => .inl htask
  | work time => exact h.work hlogged hopens hstep

/-- Whatever is registered is in step. -/
theorem Registered.inStep (h : Registered calls db) : InStep db := by
  obtain ⟨pairs, hpaired, -⟩ := h.paired
  refine ⟨?_, ?_, ?_, h.sorted, ?_⟩
  · rw [hpaired.names, List.forall₂_map_left_iff]
    have hbacked := hpaired.backed
    have htables := hpaired.tables
    generalize db.layout = layout at htables
    clear hpaired
    induction htables with
    | nil => exact .nil
    | cons hlevel _ ih =>
      rw [List.flatten_cons, List.forall_mem_append] at hbacked
      exact .cons ⟨_, rfl, hlevel, fun pr hpr => (hbacked.1 pr hpr).opened⟩ (ih hbacked.2)
  · rw [hpaired.flatten_names]
    exact hpaired.namesDistinct
  · have hperm := (Levels.perm_flatten hpaired.tables).map (·.sst.addr)
    rw [List.map_map] at hperm
    exact hperm.nodup_iff.mpr hpaired.tablesDistinct
  · rw [h.logged.manifest, Manifest.applyRecords_calls h.logged.wellFormed h.names, h.replayed]

/-- **Metadata, layout and manifest stay in step**: level by level the names that are listed
are those of the tables in the layout, in some order, no name and no table is there twice,
the layout is sorted by smallest keys, and the records of the manifest give the same names.
The names of the run are distinct because its counter is.

The run starts in an empty directory and is any that does not stop (`hrun`), and the files
that it writes can be opened after they are written (`hopens`). -/
theorem levels_in_step {nodeId : NodeID} {counter : Nat} {as : List Action}
    (hrun : (manifestSystem p).run (fresh nodeId counter) as = .ok db)
    (hopens : (manifestSystem p).Along (fun _ => OpensSucceed) [] (fresh nodeId counter) as) :
    InStep db := by
  have hregistered := System.run_invariant (P := Registered)
    (fun tr d a d' h hcond hstep => h.step hcond hstep) (registered_fresh nodeId counter) hopens hrun
  exact hregistered.inStep

/-- Three flushes and a compaction. -/
theorem levels_in_step_three_flushes :
    ∃ db, (manifestSystem .stable).run (fresh [65] 0) threeFlushes = .ok db ∧ InStep db := by
  obtain ⟨db, hrun⟩ := Except.exists_eq_ok
    (x := (manifestSystem .stable).run (fresh [65] 0) threeFlushes) (by decide +kernel)
  exact ⟨db, hrun, levels_in_step hrun (by decide +kernel)⟩

end ZenithDB

end Zenith
