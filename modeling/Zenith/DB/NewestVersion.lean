import Zenith.DB.TableAges

/-!
# Zenith — the newest version on disk

A key that is in no memtable is read from tables: level by level, and within a level in the
order of the smallest keys. Two orders are at work then. Between levels it is age, an
invariant of every run whose flushes bring newer versions, through compactions and restarts.
Within a level it is the smallest keys of the tables, which say nothing about age: of two
overlapping tables the one that starts first is asked first.

So the first of the two orders is proved, and the second one is a condition. `Successive` is
asked of every step of the run: what it flushes is newer than what was flushed before, its
names are its own, and its sizes fit. `NewestInFront` is asked of the state in which the key
is read, about the topmost level that has the key and about no other one. Neither mentions
what the read returns.

`Aged` is the invariant. It says of the levels on disk, and of the levels in memory with
them, that a lower one has nothing newer than an upper one (`Shelved`), and that whatever
lies in them is covered by a memtable that was flushed. A compaction moves the versions of a
level down by one, merged, where they are still newer than those below; a restart reads the
manifest with the names of files that were compacted, and the files are still there, with
versions that are older than their merge.

Main result: `newest_version_found` — the read returns the newest of all versions in tables
when, in the topmost level that has the key, the newest version is in front.
-/

namespace Zenith

open Bytes Layers

namespace ZenithDB

-- ---------------------------------------------------------------------------
-- What a run flushes
-- ---------------------------------------------------------------------------

/-- The lives of a directory as a step system whose trace lists the steps, each with the
state before it. -/
def stepSystem (p : Platform) : System ZenithDB LifeAction (ZenithDB × LifeAction) Fault :=
  ⟨lifeStep p, fun db a => [(db, a)]⟩

/-- The names that these steps took. -/
def eventsIn (steps : List (ZenithDB × LifeAction)) : List NameEvent :=
  steps.flatMap fun s => nameEvents s.1 s.2

/-- The calls that they made to the manifest. -/
def callsIn (steps : List (ZenithDB × LifeAction)) : List Manifest.Call :=
  steps.flatMap fun s => lifeCalls s.1 s.2

/-- The memtables that a step writes to level 0. -/
def flushedBy (db : ZenithDB) : LifeAction → List MemTable
  | .act (.work _) =>
    match db.worker with
    | .flushing => unflushed db.immut
    | .planning => []
    | .executing _ => []
    | .applying _ => []
  | .act (.put _ _ _) => []
  | .act (.putCrdt _ _ _) => []
  | .act (.otherNames _) => []
  | .reopen _ _ => []

/-- The memtables that they wrote. -/
def flushedIn (steps : List (ZenithDB × LifeAction)) : List MemTable :=
  steps.flatMap fun s => flushedBy s.1 s.2

/-- What is flushed has newer versions of the key than what was flushed before, and of
two versions that are flushed at once one is newer. -/
structure Succeeds (key : Bytes) (earlier new : List MemTable) : Prop where
  newer : ∀ mt ∈ new, ∀ v, Version mt key v → ∀ old ∈ earlier, ∀ u, Version old key u → u ≤ v
  comparable : ∀ a ∈ new, ∀ u, Version a key u → ∀ b ∈ new, ∀ v, Version b key v → u ≤ v ∨ v ≤ u

/-- The files that the worker writes next can be counted. -/
def WorkerCounts (db : ZenithDB) : Worker → Prop
  | .flushing => ∀ mt ∈ unflushed db.immut, CountFits mt.sortedEntries
  | .planning => True
  | .executing task =>
    ∀ merged, task.inputSsts.foldlM compactTable SortedMap.empty = .ok merged → CountFits merged.toList
  | .applying _ => True

/-- What a step stores or replays are registers that fit, and the files that it writes
can be counted. -/
def SizesFit (ids : List NodeID) (p : Platform) (db : ZenithDB) : LifeAction → Prop
  | .act (.work _) => WorkerCounts db db.worker
  | .act a => Rows (Held ids) (stored db a)
  | .reopen _ wal => Rows (Held ids) (replayLog p { db.disk with wal := wal }).sortedEntries

/-- A step that flushes newer versions only, under names of its own and with sizes that
fit. -/
structure Successive (ids : List NodeID) (p : Platform) (key : Bytes)
    (steps : List (ZenithDB × LifeAction)) (db : ZenithDB) (a : LifeAction) : Prop where
  succeeds : Succeeds key (flushedIn steps) (flushedBy db a)
  apart : Apart (eventsIn steps) db a
  sizes : SizesFit ids p db a

/-- In the topmost level that has the key, the newest version is in front. -/
def NewestInFront (key : Bytes) (layout : Layout) : Prop :=
  ∃ above level below, layout = above ++ level :: below ∧
    (∀ l ∈ above, ∀ fe ∈ l, ∀ u, ¬ fe.sst.table.Version key u) ∧ InFront key level

variable {ids : List NodeID} {key : Bytes} {p : Platform} {steps : List (ZenithDB × LifeAction)}
  {db db' : ZenithDB}

-- ---------------------------------------------------------------------------
-- The invariant
-- ---------------------------------------------------------------------------

/-- The levels keep the order of age, and everything in them comes from the memtables
that were flushed. -/
structure Aged (ids : List NodeID) (key : Bytes) (calls : List Manifest.Call) (mts : List MemTable)
    (db : ZenithDB) : Prop where
  shelved : Shelved ids key calls db
  sorted : ∀ level ∈ db.layout, level.Pairwise fun a b => a.minKey ≤ b.minKey
  flushed : ∀ l, ∀ v ∈ addedVersions key db.disk.files calls l,
    ∃ mt ∈ mts, ∃ u, Version mt key u ∧ v ≤ u
  underWay : UnderWay key db db.worker

variable {calls : List Manifest.Call} {events : List NameEvent} {mts : List MemTable}

theorem aged_fresh (nodeId : NodeID) (counter : ℕ) : Aged ids key [] [] (fresh nodeId counter) := by
  -- the manifest is empty, so no level has a version
  have hnone : ∀ l, addedVersions key (fresh nodeId counter).disk.files [] l = ∅ := by
    intro l
    refine Set.eq_empty_of_forall_notMem ?_
    rintro v ⟨f, hf, -⟩
    exact absurd hf List.not_mem_nil
  have hlayout : ∀ l, (fresh nodeId counter).layout.getD l [] = [] := by
    intro l
    rw [show (fresh nodeId counter).layout = List.replicate 7 [] from rfl,
      List.getD_eq_getElem?_getD, List.getElem?_replicate]
    split <;> rfl
  refine ⟨⟨fun e he => absurd he List.not_mem_nil, fun l fe hfe => ?_, ⟨?_, fun l u hu => ?_⟩,
    fun i j _ _ u hu => ?_⟩, fun level hlevel => ?_, fun l v hv => ?_, trivial⟩
  · rw [hlayout] at hfe
    exact absurd hfe List.not_mem_nil
  · rw [Set.iUnion_eq_empty.mpr hnone]
    exact IsChain.empty
  · rw [hnone] at hu
    exact absurd hu (Set.notMem_empty u)
  · obtain ⟨fe, hfe, -⟩ := hu
    rw [hlayout] at hfe
    exact absurd hfe List.not_mem_nil
  · rw [List.eq_of_mem_replicate hlevel]
    exact List.Pairwise.nil
  · rw [hnone] at hv
    exact absurd hv (Set.notMem_empty v)

/-- A step that changes neither levels nor files. -/
theorem Aged.frame (h : Aged ids key calls mts db) (hfiles : db'.disk.files = db.disk.files)
    (hlayout : db'.layout = db.layout) (hworker : UnderWay key db' db'.worker) :
    Aged ids key calls mts db' :=
  ⟨h.shelved.frame hfiles hlayout, by rw [hlayout]; exact h.sorted, by rw [hfiles]; exact h.flushed,
    hworker⟩

/-- A step that leaves files and layout alone leaves the compaction under way alone. -/
theorem UnderWay.frame {worker : Worker} (h : UnderWay key db worker)
    (hfiles : db'.disk.files = db.disk.files) (hlayout : db'.layout = db.layout) :
    UnderWay key db' worker := by
  cases worker with
  | flushing => trivial
  | planning => trivial
  | executing task => exact ⟨by rw [hlayout]; exact h.1, h.2⟩
  | applying task =>
    refine ⟨by rw [hlayout]; exact h.1, fun sst hsst => ?_⟩
    obtain ⟨hwritten, hcovered, hnewest⟩ := h.2 sst hsst
    exact ⟨by rw [hfiles]; exact hwritten, by rw [hlayout]; exact hcovered,
      by rw [hlayout]; exact hnewest⟩

/-- A write changes neither. -/
theorem Aged.storeRecord (h : Aged ids key calls mts db) (clock : VectorClock) (usage : ℕ)
    (k serialized : Bytes) :
    Aged ids key calls mts ({ db with localClock := clock }.storeRecord usage k serialized) := by
  unfold ZenithDB.storeRecord
  split
  · exact h.frame rfl rfl (h.underWay.frame rfl rfl)
  · exact h.frame rfl rfl (h.underWay.frame rfl rfl)

-- ---------------------------------------------------------------------------
-- The worker
-- ---------------------------------------------------------------------------

/-- Nothing is left to write. -/
theorem unflushed_of_all {nodes : List ImmNode} (h : nodes.all (·.flushed) = true) :
    unflushed nodes = [] := by
  unfold unflushed
  rw [List.map_eq_nil_iff, List.filter_eq_nil_iff]
  intro node hnode
  simp [List.all_eq_true.mp h node hnode]

/-- **A flush** of newer versions. -/
theorem Aged.flush (h : Aged ids key calls mts db) {time : ℕ → ℕ} {mid : ZenithDB}
    (hfresh : ∀ n ∈ flushNamings time db.counter db.immut, ∀ l, n.name ∉ addedTo l calls)
    (hlevels : 0 < db.levelsMeta.length)
    (hrows : ∀ node ∈ db.immut, Rows (Held ids) node.mt.sortedEntries)
    (hcount : ∀ mt ∈ unflushed db.immut, CountFits mt.sortedEntries)
    (hsucceeds : Succeeds key mts (unflushed db.immut))
    (hflush : db.immut.foldlM (flushNode time) db = .ok mid)
    (hfiles : db'.disk.files = mid.disk.files) (hlayout : db'.layout = sortAllLevels p mid.layout)
    (hworker : db'.worker = .planning) :
    Aged ids key (calls ++ flushCalls time db.counter db.immut) (mts ++ unflushed db.immut) db' := by
  -- what was added comes from memtables that what is flushed now is newer than
  have hnewer : ∀ mt ∈ unflushed db.immut, ∀ v, Version mt key v → ∀ l,
      ∀ u ∈ addedVersions key db.disk.files calls l, u ≤ v := by
    intro mt hmt v hv l u hu
    obtain ⟨old, hold, w, hw, hle⟩ := h.flushed l u hu
    exact hle.trans (hsucceeds.newer mt hmt v hv old hold w hw)
  have hrows' : ∀ mt ∈ unflushed db.immut, Rows (Held ids) mt.sortedEntries := by
    intro mt hmt
    obtain ⟨node, hnode, rfl⟩ := List.mem_map.mp hmt
    exact hrows node (List.mem_of_mem_filter hnode)
  obtain ⟨hmid, hadded⟩ := h.shelved.flushNodes hfresh hlevels hrows' hcount
    (fun mt hmt v hv l u hu => .inl (hnewer mt hmt v hv l u hu))
    (fun mt hmt v hv l _ u hu => hnewer mt hmt v hv l u hu) hsucceeds.comparable hflush
  refine ⟨hmid.sort p hfiles hlayout, by rw [hlayout]; exact sorted_sort p _, ?_, ?_⟩
  · rw [hfiles]
    intro l v hv
    rcases hadded l v hv with hold | ⟨mt, hmt, hv⟩
    · obtain ⟨mt, hmt, u, hu, hle⟩ := h.flushed l v hold
      exact ⟨mt, List.mem_append_left _ hmt, u, hu, hle⟩
    · exact ⟨mt, List.mem_append_right _ hmt, v, hv, le_refl v⟩
  · rw [hworker]
    trivial

/-- **One step of the worker.** -/
theorem Aged.work (h : Aged ids key calls mts db) (hnames : NamesTaken calls events db)
    (hstores : Stores (Held ids) db) {time : ℕ → ℕ} (hapart : Apart events db (.act (.work time)))
    (hcount : WorkerCounts db db.worker)
    (hsucceeds : Succeeds key mts (flushedBy db (.act (.work time))))
    (hwork : db.work p time = .ok db') :
    Aged ids key (calls ++ manifestCalls db (.work time)) (mts ++ flushedBy db (.act (.work time)))
      db' := by
  have hfresh : ∀ n ∈ namings db (.act (.work time)), ∀ l, n.name ∉ addedTo l calls :=
    fun n hn => hnames.unlisted ((namings_ids db _).1 n hn) (hapart n hn)
  have hunder := h.underWay
  rw [manifestCalls, flushedBy]
  rw [flushedBy] at hsucceeds
  unfold namings at hfresh
  cases work_cases hwork with
  | rested hworker hall =>
    simp only [hworker]
    rw [if_pos hall, unflushed_of_all hall, List.append_nil, List.append_nil]
    exact h.frame rfl rfl trivial
  -- the flushed memtables are newer than everything on disk, and go to the topmost level
  | flushed hworker hall hlast =>
    simp only [hworker] at hcount hsucceeds hfresh ⊢
    rw [if_neg hall] at hfresh ⊢
    exact h.flush hfresh (by rw [hnames.logged.levelCount]; decide) hstores.settled.frozen hcount
      hsucceeds hlast rfl rfl rfl
  | idle hworker hplan =>
    simp only [hworker]
    rw [List.append_nil, List.append_nil]
    exact h.frame rfl rfl trivial
  | planned hworker hplan =>
    simp only [hworker]
    rw [List.append_nil, List.append_nil]
    obtain ⟨-, -, htables, hnone⟩ := planCompaction_eq_some hplan
    exact h.frame rfl rfl ⟨htables, hnone⟩
  | @executed task task' mid hworker hexec =>
    simp only [hworker] at hcount ⊢
    rw [List.append_nil, List.append_nil]
    rw [hworker] at hunder
    obtain ⟨htask, hnone⟩ := hunder
    have hunlisted := (hnames.pending task (.inl hworker)).2
    -- the output is written under a name that nothing lists, so no level changes
    obtain ⟨hmid, hlayout, hadded, hunder'⟩ :=
      h.shelved.executeCompaction htask hnone hunlisted hcount hexec
    refine ⟨hmid.frame rfl rfl, ?_, ?_, hunder'.frame rfl rfl⟩
    · show ∀ level ∈ mid.layout, _
      rw [hlayout]
      exact h.sorted
    · show ∀ l, ∀ v ∈ addedVersions key mid.disk.files calls l, _
      rw [hadded]
      exact h.flushed
  | @applied task hworker =>
    simp only [hworker]
    rw [List.append_nil]
    rw [hworker] at hunder
    obtain ⟨htask, houtput⟩ := hunder
    obtain ⟨hmid, hadded⟩ := h.shelved.applyCompaction htask houtput
      (hnames.logged.applying task hworker).output.2
    refine ⟨hmid.sort p rfl rfl, sorted_sort p _, fun l v hv => ?_, trivial⟩
    have hfiles : (db.applyCompaction task).disk.files = db.disk.files := by
      unfold applyCompaction
      cases task.outputSst <;> rfl
    change v ∈ addedVersions key (db.applyCompaction task).disk.files _ l at hv
    rw [hfiles] at hv
    -- the output is no newer than what was there before
    obtain ⟨l', w, hw, hle⟩ := hadded l v hv
    obtain ⟨mt, hmt, u, hu, hle'⟩ := h.flushed l' w hw
    exact ⟨mt, hmt, u, hu, hle.trans hle'⟩

-- ---------------------------------------------------------------------------
-- Runs
-- ---------------------------------------------------------------------------

/-- Names, sizes and ages, after the steps. -/
structure Aging (ids : List NodeID) (key : Bytes) (steps : List (ZenithDB × LifeAction))
    (db : ZenithDB) : Prop where
  names : NamesTaken (callsIn steps) (eventsIn steps) db
  stores : Stores (Held ids) db
  aged : Aged ids key (callsIn steps) (flushedIn steps) db

/-- The predicate on rows is kept by every step of the lives of a directory. -/
theorem Stores.lifeStep (h : Stores (Held ids) db) {a : LifeAction} (hsizes : SizesFit ids p db a)
    (hstep : ZenithDB.lifeStep p db a = .ok db') : Stores (Held ids) db' := by
  cases a with
  | reopen counter wal =>
    have hfiles : ∀ e ∈ ({ db.disk with wal := wal } : Disk).files.toList, FileHolds (Held ids) e.2 :=
      h.files
    obtain ⟨next, hopen, hnext, -⟩ := Stores.openDB mergeable_held hfiles hsizes db.nodeId counter
    obtain rfl := Except.ok.inj (hopen.symm.trans hstep)
    exact hnext
  | act a =>
    have hrecords : Rows (Held ids) (stored db a) := by
      cases a with
      | put usage k value => exact hsizes
      | putCrdt usage k incoming => exact hsizes
      | work time => exact fun e he => absurd he List.not_mem_nil
      | otherNames n => exact fun e he => absurd he List.not_mem_nil
    exact (h.step mergeable_held p hrecords).result hstep

/-- **One step** of the lives of a directory. -/
theorem Aging.step (h : Aging ids key steps db) {a : LifeAction}
    (hsuccessive : Successive ids p key steps db a) (hstep : lifeStep p db a = .ok db') :
    Aging ids key (steps ++ [(db, a)]) db' := by
  obtain ⟨hsucceeds, hapart, hsizes⟩ := hsuccessive
  have hcalls : callsIn (steps ++ [(db, a)]) = callsIn steps ++ lifeCalls db a := by
    simp [callsIn]
  have hevents : eventsIn (steps ++ [(db, a)]) = eventsIn steps ++ nameEvents db a := by
    simp [eventsIn]
  have hflushed : flushedIn (steps ++ [(db, a)]) = flushedIn steps ++ flushedBy db a := by
    simp [flushedIn]
  have hnames := (h.names.step hapart hstep).1
  refine ⟨by rwa [hcalls, hevents], h.stores.lifeStep hsizes hstep, ?_⟩
  rw [hcalls, hflushed]
  cases a with
  | reopen counter wal =>
    -- reopening names nothing and flushes nothing
    obtain ⟨hshelved, hfiles⟩ := h.aged.shelved.openDB h.names.logged hstep
    rw [lifeCalls, flushedBy, List.append_nil, List.append_nil]
    change ZenithDB.openDB p db.nodeId { db.disk with wal := wal } counter = .ok db' at hstep
    unfold ZenithDB.openDB at hstep
    obtain ⟨⟨layout, nextAddr⟩, -, hstep⟩ := Except.bind_eq_ok_iff.mp hstep
    obtain rfl := Except.ok.inj hstep
    exact ⟨hshelved, sorted_sort p _, h.aged.flushed, trivial⟩
  | act a =>
    cases a with
    | put usage k value =>
      obtain rfl := Except.ok.inj hstep
      rw [lifeCalls, manifestCalls, flushedBy, List.append_nil, List.append_nil]
      exact h.aged.storeRecord _ usage k _
    | putCrdt usage k incoming =>
      obtain ⟨existing, -, hstep⟩ := Except.bind_eq_ok_iff.mp hstep
      obtain rfl := Except.ok.inj hstep
      rw [lifeCalls, manifestCalls, flushedBy, List.append_nil, List.append_nil]
      exact h.aged.storeRecord _ usage k _
    | otherNames n =>
      obtain rfl := Except.ok.inj hstep
      rw [lifeCalls, manifestCalls, flushedBy, List.append_nil, List.append_nil]
      exact h.aged.frame rfl rfl (h.aged.underWay.frame rfl rfl)
    -- only the worker flushes and compacts
    | work time => exact h.aged.work h.names h.stores hapart hsizes hsucceeds hstep

/-- What a search over such levels returns: the version in front of the topmost level, which
absorbs those of all levels. -/
theorem Aged.found (h : Aged ids key calls mts db) (hfront : NewestInFront key db.layout) :
    ∃ raw v, lookupLevels key db.layout = .ok (some raw) ∧ LWWRegister.deserialize raw = .ok v ∧
      (∃ fe ∈ db.layout.flatten, fe.sst.table.Version key v) ∧
      ∀ fe ∈ db.layout.flatten, ∀ u, fe.sst.table.Version key u → v.Absorbs u := by
  obtain ⟨above, level, below, hlayout, habove, hfront⟩ := hfront
  have hgetD : ∀ l (hl : l < db.layout.length), db.layout.getD l [] = db.layout[l] := by
    intro l hl
    rw [List.getD_eq_getElem?_getD, List.getElem?_eq_getElem hl]
    rfl
  -- every table of the layout was opened over a file that can be read
  have hlegible : AllFiles (FileEntry.Legible ids) db.layout := by
    intro lv hlv fe hfe
    obtain ⟨l, hl, rfl⟩ := List.mem_iff_getElem.mp hlv
    exact h.shelved.legible (l := l) (by rwa [hgetD l hl])
  have hsorted : level.Pairwise fun a b => a.minKey ≤ b.minKey := by
    refine h.sorted level ?_
    rw [hlayout]
    exact List.mem_append_right _ (List.mem_cons_self ..)
  rw [hlayout] at hlegible
  obtain ⟨raw, v, hlookup, hread, hgreatest⟩ := lookupLevels_front hlegible hsorted habove hfront
  rw [← hlayout] at hlookup
  -- the level in which the search ends has the newest version of all levels
  have hshown : shownVersions key db.layout above.length = levelVersions key level := by
    rw [shownVersions, hlayout, List.getD_eq_getElem?_getD, List.getElem?_append_right (le_refl _),
      Nat.sub_self]
    rfl
  -- and the levels above have none
  have hempty : ∀ j < above.length, shownVersions key db.layout j = ∅ := by
    intro j hj
    refine Set.eq_empty_of_forall_notMem ?_
    rintro u ⟨fe, hfe, hu⟩
    rw [hlayout, List.getD_eq_getElem?_getD, List.getElem?_append_left hj,
      List.getElem?_eq_getElem hj] at hfe
    exact habove _ (List.getElem_mem hj) fe hfe u hu
  rw [← hshown] at hgreatest
  have hbounds := h.shelved.shown.bounds hgreatest hempty
  refine ⟨raw, v, hlookup, hread, ?_, fun fe hfe u hu => ?_⟩
  · obtain ⟨fe, hfe, hv⟩ := hgreatest.1
    exact ⟨fe, Levels.mem_flatten hfe, hv⟩
  · obtain ⟨lv, hlv, hfe⟩ := List.mem_flatten.mp hfe
    obtain ⟨l, hl, rfl⟩ := List.mem_iff_getElem.mp hlv
    exact hbounds l ⟨fe, by rwa [hgetD l hl], hu⟩

/-- **The newest version wins on disk**: for a key that is in no memtable, a point read
returns the newest version that any table has, or nothing if that is a removal.

Hypotheses:
* `hsuccessive` — the run, which starts in an empty directory and may restart, flushes newer
  versions of the key only, under names that are free, and with sizes that fit;
* `hrun` — the state is one that it reaches, by any flushes, compactions and restarts;
* `hmem` — the key is in no memtable;
* `hfront` — in the topmost level that has the key, the newest version is in front.

The last is on the layout, and it is what the code does not keep: a level is sorted by its
smallest keys, which says nothing about age. -/
theorem newest_version_found {nodeId : NodeID} {counter : ℕ} {as : List LifeAction}
    (hsuccessive : (stepSystem p).Along (Successive ids p key) [] (fresh nodeId counter) as)
    (hrun : (stepSystem p).run (fresh nodeId counter) as = .ok db)
    (hmem : ∀ mt ∈ db.memtables, mt.get key = none) (hfront : NewestInFront key db.layout) :
    ∃ v, (∃ fe ∈ db.layout.flatten, fe.sst.table.Version key v) ∧
      (∀ fe ∈ db.layout.flatten, ∀ u, fe.sst.table.Version key u → v.Absorbs u) ∧
      db.getCrdt key = .ok (if v.value = [] then none else some v) := by
  have haging : Aging ids key ([] ++ (stepSystem p).trace (fresh nodeId counter) as) db :=
    System.run_invariant (P := Aging ids key) (fun steps d a d' h hcond hstep => h.step hcond hstep)
      ⟨namesTaken_fresh nodeId counter, stores_fresh nodeId counter, aged_fresh nodeId counter⟩
      hsuccessive hrun
  obtain ⟨raw, v, hlookup, hread, hv, hnewest⟩ := haging.aged.found hfront
  refine ⟨v, hv, hnewest, ?_⟩
  have hnone : db.lookupMem key = none := by
    refine List.findSome?_eq_none_iff.mpr fun mt hmt => ?_
    rw [MemTable.probe_eq, hmem mt hmt]
    rfl
  unfold ZenithDB.getCrdt ZenithDB.lookup
  rw [hnone]
  dsimp only
  rw [hlookup, Except.ok_bind, readRegister, hread]
  rfl

-- ---------------------------------------------------------------------------
-- Two overlapping tables
-- ---------------------------------------------------------------------------

instance : DecidableLE LWWRegister := fun u v => inferInstanceAs (Decidable (v.Absorbs u))

instance (ids : List NodeID) (key raw : Bytes) : Decidable (Held ids key raw) :=
  decidable_of_iff (∃ r, LWWRegister.deserialize raw = .ok r ∧
      (raw = r.serialize ∧ r.clock.Within ids ∧ Fits ids key r.value))
    ⟨fun ⟨r, _, h⟩ => ⟨r, h⟩, Held.read⟩

theorem forall_version {mt : MemTable} {key : Bytes} {P : LWWRegister → Prop} :
    (∀ v, Version mt key v → P v) ↔
      ∀ raw ∈ mt.get key, ∀ v, LWWRegister.deserialize raw = .ok v → P v := by
  constructor
  · exact fun h raw hraw v hread => h v ⟨raw, SortedMap.get?_eq_some_iff.mp hraw, hread⟩
  · rintro h v ⟨raw, hraw, hread⟩
    exact h raw (SortedMap.get?_eq_some_iff.mpr hraw) v hread

instance (mt : MemTable) (key : Bytes) (P : LWWRegister → Prop) [DecidablePred P] :
    Decidable (∀ v, Version mt key v → P v) := decidable_of_iff _ forall_version.symm

instance (t : SSTable) (key : Bytes) (P : LWWRegister → Prop) [DecidablePred P] :
    Decidable (∀ v, t.Version key v → P v) :=
  decidable_of_iff (∀ rows, t.scan [] key = .ok rows →
      ∀ e ∈ rows, e.1 = key → ∀ v, LWWRegister.deserialize e.2 = .ok v → P v)
    ⟨fun h v ⟨rows, hrows, e, he, hkey, hread⟩ => h rows hrows e he hkey v hread,
      fun h rows hrows e he hkey v hread => h v ⟨rows, hrows, e, he, hkey, hread⟩⟩

instance (t : SSTable) (key : Bytes) (P : LWWRegister → Prop) [DecidablePred P] :
    Decidable (∃ v, t.Version key v ∧ P v) :=
  decidable_of_iff (∃ rows, t.scan [] key = .ok rows ∧
      ∃ e ∈ rows, e.1 = key ∧ ∃ v, LWWRegister.deserialize e.2 = .ok v ∧ P v)
    ⟨fun ⟨rows, hrows, e, he, hkey, v, hread, hv⟩ => ⟨v, ⟨rows, hrows, e, he, hkey, hread⟩, hv⟩,
      fun ⟨v, ⟨rows, hrows, e, he, hkey, hread⟩, hv⟩ => ⟨rows, hrows, e, he, hkey, v, hread, hv⟩⟩

instance (key : Bytes) (earlier new : List MemTable) : Decidable (Succeeds key earlier new) :=
  decidable_of_iff ((∀ mt ∈ new, ∀ v, Version mt key v →
      ∀ old ∈ earlier, ∀ u, Version old key u → u ≤ v) ∧
      ∀ a ∈ new, ∀ u, Version a key u → ∀ b ∈ new, ∀ v, Version b key v → u ≤ v ∨ v ≤ u)
    ⟨fun h => ⟨h.1, h.2⟩, fun h => ⟨h.newer, h.comparable⟩⟩

instance (entries : List Entry) : Decidable (CountFits entries) :=
  inferInstanceAs (Decidable (_ < _))

instance (db : ZenithDB) : ∀ w, Decidable (WorkerCounts db w)
  | .flushing => inferInstanceAs (Decidable (∀ mt ∈ unflushed db.immut, CountFits mt.sortedEntries))
  | .planning => isTrue trivial
  | .executing task =>
    inferInstanceAs (Decidable (∀ merged, task.inputSsts.foldlM compactTable SortedMap.empty = .ok merged →
      CountFits merged.toList))
  | .applying _ => isTrue trivial

instance (ids : List NodeID) (rows : List Entry) : Decidable (Rows (Held ids) rows) :=
  inferInstanceAs (Decidable (∀ e ∈ rows, Held ids e.1 e.2))

instance (ids : List NodeID) (p : Platform) (db : ZenithDB) : ∀ a, Decidable (SizesFit ids p db a)
  | .act (.work _) => inferInstanceAs (Decidable (WorkerCounts db db.worker))
  | .act (.put usage k value) => inferInstanceAs (Decidable (Rows (Held ids) (stored db (.put usage k value))))
  | .act (.putCrdt usage k r) => inferInstanceAs (Decidable (Rows (Held ids) (stored db (.putCrdt usage k r))))
  | .act (.otherNames n) => inferInstanceAs (Decidable (Rows (Held ids) (stored db (.otherNames n))))
  | .reopen _ wal =>
    inferInstanceAs (Decidable (Rows (Held ids) (replayLog p { db.disk with wal := wal }).sortedEntries))

instance (ids : List NodeID) (p : Platform) (key : Bytes) (steps : List (ZenithDB × LifeAction))
    (db : ZenithDB) (a : LifeAction) : Decidable (Successive ids p key steps db a) :=
  decidable_of_iff (Succeeds key (flushedIn steps) (flushedBy db a) ∧ Apart (eventsIn steps) db a ∧
      SizesFit ids p db a)
    ⟨fun h => ⟨h.1, h.2.1, h.2.2⟩, fun h => ⟨h.succeeds, h.apart, h.sizes⟩⟩

/-- Two flushes of a key, and a restart without the log. Other writes may come before
each of the two. -/
def twoFlushes (first second : List LifeAction) : List LifeAction :=
  first ++ [.act (.put 200000 [107] [118]), .act (.work fun _ => 5), .act (.work fun _ => 5)] ++
    second ++ [.act (.put 200000 [107] [119]), .act (.work fun _ => 5)] ++ [.reopen 0 []]

/-- The second table starts with a smaller key, so it is asked first. -/
theorem newest_version_found_in_front :
    ∃ db, (stepSystem .stable).run (fresh [65] 0) (twoFlushes [] [.act (.put 0 [97] [120])]) = .ok db ∧
      ∃ v, v.value = [119] ∧ db.getCrdt [107] = .ok (some v) := by
  have hsuccessive : (stepSystem .stable).Along (Successive [[65]] .stable [107]) [] (fresh [65] 0)
      (twoFlushes [] [.act (.put 0 [97] [120])]) := by
    decide +kernel
  -- what the run leaves, in a form that evaluates
  have hrun : ∃ db, (stepSystem .stable).run (fresh [65] 0)
        (twoFlushes [] [.act (.put 0 [97] [120])]) = .ok db ∧
      (∀ mt ∈ db.memtables, mt.get [107] = none) ∧ ∃ fe ∈ (db.layout.headD []).head?,
        (∃ found, fe.sst.table.get [107] = .ok found ∧ found ≠ none) ∧
        ∃ v, fe.sst.table.Version [107] v ∧ ∀ lv ∈ db.layout, ∀ fe' ∈ lv, ∀ u,
          fe'.sst.table.Version [107] u → u ≤ v ∧ (v ≤ u → u.value = [119]) := by
    decide +kernel
  obtain ⟨db, hdb, hmem, fe, hfe, ⟨found, hget, hfound⟩, v, hv, hnewest⟩ := hrun
  obtain ⟨level, below, hlayout⟩ : ∃ level below, db.layout = level :: below := by
    refine List.exists_cons_of_ne_nil ?_
    rintro hnil
    rw [hnil] at hfe
    exact absurd hfe (by simp)
  rw [hlayout] at hfe
  obtain ⟨after, rfl⟩ := List.head?_eq_some_iff.mp hfe
  have hlevelMem : fe :: after ∈ db.layout := by
    rw [hlayout]
    exact List.mem_cons_self ..
  -- its first table holds the newest version
  have hfront : NewestInFront [107] db.layout := by
    refine ⟨[], fe :: after, below, hlayout, fun l hl => absurd hl List.not_mem_nil, [], fe, after, v,
      rfl, fun b hb => absurd hb List.not_mem_nil, hv, ?_, ?_⟩
    · rintro u ⟨fe', hfe', hu⟩
      exact (hnewest _ hlevelMem fe' hfe' u hu).1
    · rw [hget]
      exact fun hnone => hfound (Except.ok.inj hnone)
  obtain ⟨w, ⟨fe', hfe', hw⟩, habsorbs, hread⟩ := newest_version_found hsuccessive hdb hmem hfront
  obtain ⟨lv, hlv, hfe'⟩ := List.mem_flatten.mp hfe'
  have hvalue : w.value = [119] := by
    refine (hnewest lv hlv fe' hfe' w hw).2 (habsorbs fe ?_ v hv)
    exact List.mem_flatten.mpr ⟨_, hlevelMem, List.mem_cons_self ..⟩
  refine ⟨db, hdb, w, hvalue, ?_⟩
  rw [hread, if_neg (by rw [hvalue]; exact List.cons_ne_nil _ _)]

/-- The first table starts with a smaller key, and its older version is returned. -/
theorem older_version_found :
    (stepSystem .stable).Along (Successive [[65]] .stable [107]) [] (fresh [65] 0)
        (twoFlushes [.act (.put 0 [97] [120])] []) ∧
      ∃ db, (stepSystem .stable).run (fresh [65] 0) (twoFlushes [.act (.put 0 [97] [120])] []) = .ok db ∧
        (∀ mt ∈ db.memtables, mt.get [107] = none) ∧
        ∃ v, db.getCrdt [107] = .ok v ∧ ∃ old ∈ v, old.value = [118] ∧
          ∃ fe ∈ db.layout.flatten, ∃ new, fe.sst.table.Version [107] new ∧ new.value = [119] ∧
            old.clock < new.clock := by
  decide +kernel

end ZenithDB

end Zenith
