import Zenith.DB.FileNames
import Zenith.DB.Retirement
import Zenith.DB.TableVersions

/-!
# Zenith — the ages of the tables

`get_crdt` takes the first version of a key that it finds on disk, so it relies on where a
version is for how old it is. A flush puts new versions in level 0, and a compaction moves
what is newest in a level one level down. So a level that has the key has a version that
absorbs all versions in the levels below it (`Layered`), as long as flushes bring nothing
older than what is there.

A compaction only hides its inputs: the directory keeps their files, and opening it lists
every file ever added again. What was added to a level is therefore kept in view next to
what the level shows (`Accumulated`). The inputs that come back at a restart stand in front
of the merge that took their place one level down; that does no harm, because the merge of a
chain is no newer than the newest of its inputs. All versions are comparable, and for each
version that was added to a level there is one in the level above that is as new; both
survive a restart.

Sets of versions by level, and what flushes and compactions do to them, are the subject of
`Zenith.Lib.Layers`, which knows nothing of tables. The work here is to show that
`shownVersions` and `addedVersions` change in those ways: a table that joins a level adds
the versions of its rows, a compaction empties a level, a restart shows everything that was
added.

Assumptions on the versions are hypotheses of each step here (`hcomparable`, `hnewer`); the
run that discharges them is in `Zenith.DB.NewestVersion`.

`Shelved` is the invariant. Main results: `Shelved.flushNodes`, `Shelved.executeCompaction`,
`Shelved.applyCompaction` and `Shelved.openDB`.
-/

namespace Zenith

open Bytes Layers

namespace ZenithDB

-- ---------------------------------------------------------------------------
-- Versions by level
-- ---------------------------------------------------------------------------

variable {ids : List NodeID} {key : Bytes}

/-- The versions of the key in the tables of a level. -/
def shownVersions (key : Bytes) (layout : Layout) (l : ℕ) : Set LWWRegister :=
  levelVersions key (layout.getD l [])

/-- The versions of the key in the files that were ever added to a level. -/
def addedVersions (key : Bytes) (files : SortedMap Bytes Bytes) (calls : List Manifest.Call) (l : ℕ) :
    Set LWWRegister :=
  {v | ∃ f ∈ addedTo l calls, ∃ file t, files.get? f = some file ∧ SSTable.openFile file = .ok t ∧
    t.Version key v}

/-- The versions of the key in one table: at most one. -/
def tableVersions (key : Bytes) (t : SSTable) : Set LWWRegister := {v | t.Version key v}

/-- A table holds a key once. -/
theorem isChain_tableVersions {t : SSTable} {es : List Entry} (ht : t.Legible ids es) :
    IsChain (· ≤ ·) (tableVersions key t) :=
  Set.Subsingleton.isChain fun _ hu _ hv => ht.version_unique hu hv

section Added

variable {files files' : SortedMap Bytes Bytes} {calls more : List Manifest.Call}

/-- More calls add the versions of their own files, when the old files stay as they are. -/
theorem addedVersions_append (hsame : ∀ l, ∀ f ∈ addedTo l calls, files'.get? f = files.get? f)
    (l : ℕ) : addedVersions key files' (calls ++ more) l =
      addedVersions key files calls l ∪ addedVersions key files' more l := by
  ext v
  constructor
  · rintro ⟨f, hf, file, t, hget, hrest⟩
    rw [addedTo_append] at hf
    rcases List.mem_append.mp hf with hold | hnew
    · rw [hsame l f hold] at hget
      exact .inl ⟨f, hold, file, t, hget, hrest⟩
    · exact .inr ⟨f, hnew, file, t, hget, hrest⟩
  · rintro (⟨f, hf, file, t, hget, hrest⟩ | ⟨f, hf, hrest⟩)
    · rw [← hsame l f hf] at hget
      exact ⟨f, by rw [addedTo_append]; exact List.mem_append_left _ hf, file, t, hget, hrest⟩
    · exact ⟨f, by rw [addedTo_append]; exact List.mem_append_right _ hf, hrest⟩

/-- Files that were not added do not matter. -/
theorem addedVersions_congr (hsame : ∀ l, ∀ f ∈ addedTo l calls, files'.get? f = files.get? f) :
    addedVersions key files' calls = addedVersions key files calls := by
  funext l
  ext v
  constructor
  · rintro ⟨f, hf, file, t, hget, hrest⟩
    exact ⟨f, hf, file, t, by rw [← hsame l f hf, hget], hrest⟩
  · rintro ⟨f, hf, file, t, hget, hrest⟩
    exact ⟨f, hf, file, t, by rw [hsame l f hf, hget], hrest⟩

/-- A file with a name of its own changes no other. -/
theorem get?_insert_fresh (files : SortedMap Bytes Bytes) {name : Bytes} (file : Bytes)
    (hfresh : ∀ l, name ∉ addedTo l calls) :
    ∀ l, ∀ f ∈ addedTo l calls, (files.insert name file).get? f = files.get? f := by
  intro l f hf
  rw [SortedMap.get?_insert, if_neg]
  rintro rfl
  exact hfresh l hf

/-- One file is added. -/
theorem addedVersions_addSstable {level : ℕ} {name file : Bytes} {t : SSTable} (hne : name ≠ [])
    (hget : files.get? name = some file) (hopen : SSTable.openFile file = .ok t) (l : ℕ) :
    addedVersions key files [.addSstable level name] l = only level (tableVersions key t) l := by
  ext v
  constructor
  · rintro ⟨f, hf, file', t', hget', hopen', hv⟩
    rw [addedTo, List.flatMap_singleton, Manifest.Call.added] at hf
    split at hf
    · next hl =>
      obtain rfl := List.mem_singleton.mp hf
      obtain rfl := Option.some.inj (hget'.symm.trans hget)
      obtain rfl := Except.ok.inj (hopen'.symm.trans hopen)
      exact ⟨hl.1, hv⟩
    · exact absurd hf List.not_mem_nil
  · rintro ⟨rfl, hv⟩
    refine ⟨name, ?_, file, t, hget, hopen, hv⟩
    rw [addedTo, List.flatMap_singleton, Manifest.Call.added, if_pos ⟨rfl, hne⟩]
    exact List.mem_singleton_self name

end Added

-- ---------------------------------------------------------------------------
-- Files and tables
-- ---------------------------------------------------------------------------

/-- A file for these entries has no more blocks than an index can count. -/
def CountFits (entries : List Entry) : Prop := (SSTable.blocksOf entries).length < 2 ^ 32

/-- A file over rows that fit, with no more blocks than its index can count. -/
def FileLegible (ids : List NodeID) (file : Bytes) : Prop :=
  ∃ es, SSTable.create es = .ok file ∧ (es.Pairwise fun a b => a.1 < b.1) ∧ Rows (Held ids) es ∧
    CountFits es

/-- Registers that fit can be merged, and the merge fits. -/
theorem mergeable_held : Mergeable (Held ids) where
  fits _ _ h := h.entryFits
  merge key a b ha hb := by
    obtain ⟨r, hr, -, hrids, hrfits⟩ := ha.read
    obtain ⟨o, ho, -, hoids, hofits⟩ := hb.read
    obtain ⟨hids, hfits⟩ := fits_merge hrids hoids hrfits hofits
    exact ⟨r, o, hr, ho, _, rfl, hids, hfits⟩

/-- What is written can be opened and read. -/
theorem legible_of_create {es : List Entry} {file : Bytes} (hcreate : SSTable.create es = .ok file)
    (hsorted : es.Pairwise fun a b => a.1 < b.1) (hrows : Rows (Held ids) es) (hcount : CountFits es) :
    ∃ t, SSTable.openFile file = .ok t ∧ openWritten file = .ok (some t) ∧ t.Legible ids es := by
  obtain ⟨t, hopen, ht⟩ := SSTable.openFile_create hcreate hsorted
    (SSTable.blocksFit_of_entries fun e he => (hrows e he).entryFits)
  refine ⟨t, hopen, ?_, ht, hrows, hcount⟩
  unfold openWritten
  rw [hopen]

/-- Such a file can be opened and read. -/
theorem FileLegible.openFile {file : Bytes} (h : FileLegible ids file) :
    ∃ t es, SSTable.openFile file = .ok t ∧ openWritten file = .ok (some t) ∧ t.Legible ids es := by
  obtain ⟨es, hcreate, hsorted, hrows, hcount⟩ := h
  obtain ⟨t, ht⟩ := legible_of_create hcreate hsorted hrows hcount
  exact ⟨t, es, ht⟩

/-- One more legible file. -/
theorem files_insert {files : SortedMap Bytes Bytes} {name file : Bytes}
    (h : ∀ e ∈ files.toList, FileLegible ids e.2) (hfile : FileLegible ids file) :
    ∀ e ∈ (files.insert name file).toList, FileLegible ids e.2 := by
  intro e he
  rcases SortedMap.mem_insertEntry he with rfl | hold
  · exact hfile
  · exact h e hold

/-- A table of the layout is open over a file that was added to its level. -/
def BackedBy (files : SortedMap Bytes Bytes) (names : List Bytes) (fe : FileEntry) : Prop :=
  fe = entryOf fe.sst ∧
    ∃ f ∈ names, ∃ file, files.get? f = some file ∧ SSTable.openFile file = .ok fe.sst.table

/-- More names, and the same files under the old ones. -/
theorem BackedBy.mono {files files' : SortedMap Bytes Bytes} {names names' : List Bytes}
    {fe : FileEntry} (h : BackedBy files names fe) (hsub : names ⊆ names')
    (hsame : ∀ f ∈ names, files'.get? f = files.get? f) : BackedBy files' names' fe := by
  obtain ⟨heq, f, hf, file, hget, hopen⟩ := h
  exact ⟨heq, f, hsub hf, file, by rw [hsame f hf, hget], hopen⟩

/-- What the directory and the layout hold: legible files, over which the tables of the
layout are open, with versions in both orders of age. -/
structure Shelved (ids : List NodeID) (key : Bytes) (calls : List Manifest.Call) (db : ZenithDB) :
    Prop where
  files : ∀ e ∈ db.disk.files.toList, FileLegible ids e.2
  backed : ∀ l, ∀ fe ∈ db.layout.getD l [], BackedBy db.disk.files (addedTo l calls) fe
  added : Accumulated (addedVersions key db.disk.files calls)
  shown : Layered (shownVersions key db.layout)

variable {calls : List Manifest.Call} {db db' : ZenithDB}

/-- A table of the layout can be read. -/
theorem Shelved.legible (h : Shelved ids key calls db) {l : ℕ} {fe : FileEntry}
    (hfe : fe ∈ db.layout.getD l []) : fe.Legible ids := by
  obtain ⟨heq, f, -, file, hget, hopen⟩ := h.backed l fe hfe
  obtain ⟨t, es, hopen', -, ht⟩ := (h.files (f, file) (SortedMap.get?_eq_some_iff.mp hget)).openFile
  obtain rfl := Except.ok.inj (hopen'.symm.trans hopen)
  exact ⟨heq, es, ht⟩

/-- What a level shows was added to it. -/
theorem Shelved.shown_subset (h : Shelved ids key calls db) (l : ℕ) :
    shownVersions key db.layout l ⊆ addedVersions key db.disk.files calls l := by
  rintro v ⟨fe, hfe, hv⟩
  obtain ⟨-, f, hf, file, hget, hopen⟩ := h.backed l fe hfe
  exact ⟨f, hf, file, _, hget, hopen, hv⟩

/-- A step that changes no level and no file. -/
theorem Shelved.frame (h : Shelved ids key calls db) (hfiles : db'.disk.files = db.disk.files)
    (hlayout : db'.layout = db.layout) : Shelved ids key calls db' :=
  ⟨by rw [hfiles]; exact h.files, by rw [hfiles, hlayout]; exact h.backed,
    by rw [hfiles]; exact h.added, by rw [hlayout]; exact h.shown⟩

/-- A level has the same files after sorting. -/
theorem mem_sortAllLevels {p : Platform} {layout : Layout} {l : ℕ} {fe : FileEntry} :
    fe ∈ (sortAllLevels p layout).getD l [] ↔ fe ∈ layout.getD l [] := by
  rw [sortAllLevels, List.getD_eq_getElem?_getD, List.getD_eq_getElem?_getD, List.getElem?_map]
  cases layout[l]? with
  | none => exact Iff.rfl
  | some level => exact (p.sortFiles_perm level).mem_iff

/-- New levels show nothing. -/
theorem getD_grow {α : Type} (n : ℕ) (levels : List (List α)) (l : ℕ) :
    (grow n levels).getD l [] = levels.getD l [] := by
  rw [grow, List.getD_eq_getElem?_getD, List.getD_eq_getElem?_getD]
  rcases Nat.lt_or_ge l levels.length with hlt | hge
  · rw [List.getElem?_append_left hlt]
  · rw [List.getElem?_append_right hge, List.getElem?_eq_none hge, List.getElem?_replicate]
    split <;> rfl

/-- Sorting the levels moves no version to another level. -/
theorem Shelved.sort (h : Shelved ids key calls db) (p : Platform)
    (hfiles : db'.disk.files = db.disk.files) (hlayout : db'.layout = sortAllLevels p db.layout) :
    Shelved ids key calls db' := by
  have hshown : shownVersions key db'.layout = shownVersions key db.layout := by
    funext l
    ext v
    simp only [shownVersions, levelVersions, hlayout, mem_sortAllLevels]
  refine ⟨by rw [hfiles]; exact h.files, fun l fe hfe => ?_, by rw [hfiles]; exact h.added,
    by rw [hshown]; exact h.shown⟩
  rw [hlayout, mem_sortAllLevels] at hfe
  rw [hfiles]
  exact h.backed l fe hfe

-- ---------------------------------------------------------------------------
-- Flushes
-- ---------------------------------------------------------------------------

/-- Where the table of a flush goes. -/
theorem mem_attachFlush (name file : Bytes) (t : SSTable) (hlevels : 0 < db.levelsMeta.length)
    (l : ℕ) (fe : FileEntry) :
    fe ∈ ((db.recordFlush name file).attachFlush t).layout.getD l [] ↔
      fe ∈ db.layout.getD l [] ∨ 0 = l ∧ fe = entryOf ⟨db.nextAddr, t⟩ := by
  have hlen : 0 < (grow (db.recordFlush name file).levelsMeta.length db.layout).length := by
    have hmeta : (db.recordFlush name file).levelsMeta.length = db.levelsMeta.length :=
      List.length_modify ..
    rw [grow, List.length_append, List.length_replicate, hmeta]
    omega
  unfold attachFlush
  dsimp only
  rw [show (db.recordFlush name file).layout = db.layout from rfl, Levels.getD_modify, getD_grow]
  by_cases hl : 0 = l
  · rw [if_pos ⟨hl, by rwa [← hl]⟩, List.mem_append, List.mem_singleton, and_iff_right hl]
    exact Iff.rfl
  · rw [if_neg fun hpos => hl hpos.1, or_iff_left fun hpos => hl hpos.1]

/-- What a level shows when a table joins it. -/
theorem shownVersions_join (key : Bytes) {layout layout' : Layout} {sst : TableRef} {level : ℕ} {l : ℕ}
    (h : ∀ fe, fe ∈ layout'.getD l [] ↔ fe ∈ layout.getD l [] ∨ level = l ∧ fe = entryOf sst) :
    shownVersions key layout' l =
      shownVersions key layout l ∪ only level (tableVersions key sst.table) l := by
  ext v
  constructor
  · rintro ⟨fe, hfe, hv⟩
    rcases (h fe).mp hfe with hold | ⟨hl, rfl⟩
    · exact .inl ⟨fe, hold, hv⟩
    · exact .inr ⟨hl, hv⟩
  · rintro (⟨fe, hfe, hv⟩ | ⟨hl, hv⟩)
    · exact ⟨fe, (h fe).mpr (.inl hfe), hv⟩
    · exact ⟨entryOf sst, (h _).mpr (.inr ⟨hl, rfl⟩), hv⟩

/-- The file of a memtable whose rows fit is written, opened and attached. -/
theorem flushNode_legible {time : ℕ → ℕ} {node : ImmNode}
    (hskip : ¬ (node.flushed = true ∨ node.mt.sortedEntries = []))
    (hrows : Rows (Held ids) node.mt.sortedEntries) (hcount : CountFits node.mt.sortedEntries)
    (hflush : ZenithDB.flushNode time db node = .ok db') :
    ∃ file t, FileLegible ids file ∧ SSTable.openFile file = .ok t ∧
      t.Legible ids node.mt.sortedEntries ∧
      db' = (db.recordFlush (newFilename 0 (time db.counter) db.counter) file).attachFlush t := by
  obtain ⟨hskip', -⟩ | ⟨-, file, opened, hcreate, hopened, rfl⟩ := flushNode_cases hflush
  · exact absurd hskip' hskip
  · obtain ⟨t, hopen, hwritten, ht⟩ := legible_of_create hcreate node.mt.table.sorted hrows hcount
    obtain rfl := Except.ok.inj (hwritten.symm.trans hopened)
    exact ⟨file, t, ⟨_, hcreate, node.mt.table.sorted, hrows, hcount⟩, hopen, ht, rfl⟩

/-- The version of the key in a memtable. -/
def memVersions (key : Bytes) (mt : MemTable) : Set LWWRegister := {v | Version mt key v}

/-- **One memtable is flushed** whose version is comparable with what was added before,
and newer than what is below level 0. -/
theorem Shelved.flushNode (h : Shelved ids key calls db) {time : ℕ → ℕ} {node : ImmNode}
    (hskip : ¬ (node.flushed = true ∨ node.mt.sortedEntries = []))
    (hfresh : ∀ l, newFilename 0 (time db.counter) db.counter ∉ addedTo l calls)
    (hlevels : 0 < db.levelsMeta.length) (hrows : Rows (Held ids) node.mt.sortedEntries)
    (hcount : CountFits node.mt.sortedEntries)
    (hcomparable : ∀ v, Version node.mt key v → ∀ l, ∀ u ∈ addedVersions key db.disk.files calls l,
      u ≤ v ∨ v ≤ u)
    (hnewer : ∀ v, Version node.mt key v → ∀ l, l ≠ 0 →
      ∀ u ∈ addedVersions key db.disk.files calls l, u ≤ v)
    (hflush : ZenithDB.flushNode time db node = .ok db') :
    let calls' := calls ++ [.addSstable 0 (newFilename 0 (time db.counter) db.counter)]
    Shelved ids key calls' db' ∧ db'.counter = db.counter + 1 ∧
      db'.levelsMeta.length = db.levelsMeta.length ∧
      ∀ l, addedVersions key db'.disk.files calls' l =
        addedVersions key db.disk.files calls l ∪ only 0 (memVersions key node.mt) l := by
  obtain ⟨file, t, hfile, hopen, ht, rfl⟩ := flushNode_legible hskip hrows hcount hflush
  have hne := newFilename_ne_nil 0 (time db.counter) db.counter
  generalize newFilename 0 (time db.counter) db.counter = name at hfresh hne ⊢
  intro calls'
  -- the name is new, so the files of the entries stay as they are
  have hsame := get?_insert_fresh db.disk.files file hfresh
  have hget : (db.disk.files.insert name file).get? name = some file := by
    rw [SortedMap.get?_insert, if_pos rfl]
  -- the new table has the versions of the memtable
  have hversions : tableVersions key t = memVersions key node.mt := Set.ext fun _ => ht.version_iff
  have hadded : ∀ l, addedVersions key (db.disk.files.insert name file) calls' l =
      addedVersions key db.disk.files calls l ∪ only 0 (memVersions key node.mt) l := by
    intro l
    rw [addedVersions_append hsame, addedVersions_addSstable hne hget hopen, hversions]
  have hlayout := fun l => mem_attachFlush name file t hlevels l
  have hshown := fun l => shownVersions_join key (hlayout l)
  refine ⟨⟨files_insert h.files hfile, fun l fe hfe => ?_, ?_, ?_⟩, rfl, List.length_modify .., hadded⟩
  · rcases (hlayout l fe).mp hfe with hold | ⟨rfl, rfl⟩
    · refine (h.backed l fe hold).mono (fun f hf => ?_) (hsame l)
      rw [addedTo_append]
      exact List.mem_append_left _ hf
    · refine ⟨rfl, name, ?_, file, hget, hopen⟩
      rw [addedTo_append, addedTo, addedTo, List.flatMap_singleton, Manifest.Call.added,
        if_pos ⟨rfl, hne⟩]
      exact List.mem_append_right _ (List.mem_singleton_self name)
  · -- they are comparable with all others
    exact h.added.add hadded (hversions ▸ isChain_tableVersions ht) hcomparable
      fun l hl => absurd hl (by omega)
  · -- and newer than the levels below
    refine h.shown.add hshown fun w hw l hl u hu => ?_
    exact hnewer w (ht.version_iff.mp hw) l hl u (h.shown_subset l hu)

/-- The memtables that a flush writes. -/
def unflushed (nodes : List ImmNode) : List MemTable :=
  (nodes.filter fun node => !node.flushed).map (·.mt)

/-- A memtable that was flushed is passed over. -/
theorem unflushed_cons (node : ImmNode) (nodes : List ImmNode) :
    unflushed (node :: nodes) =
      if node.flushed = true then unflushed nodes else node.mt :: unflushed nodes := by
  unfold unflushed
  cases hflushed : node.flushed <;> simp [hflushed]

/-- **All frozen memtables**, newest first, by induction on them: each is newer than what
is below level 0, and level 0 is no obstacle. -/
theorem Shelved.flushNodes {time : ℕ → ℕ} {nodes : List ImmNode} (h : Shelved ids key calls db)
    (hfresh : ∀ n ∈ flushNamings time db.counter nodes, ∀ l, n.name ∉ addedTo l calls)
    (hlevels : 0 < db.levelsMeta.length)
    (hrows : ∀ mt ∈ unflushed nodes, Rows (Held ids) mt.sortedEntries)
    (hcount : ∀ mt ∈ unflushed nodes, CountFits mt.sortedEntries)
    (hcomparable : ∀ mt ∈ unflushed nodes, ∀ v, Version mt key v →
      ∀ l, ∀ u ∈ addedVersions key db.disk.files calls l, u ≤ v ∨ v ≤ u)
    (hnewer : ∀ mt ∈ unflushed nodes, ∀ v, Version mt key v →
      ∀ l, l ≠ 0 → ∀ u ∈ addedVersions key db.disk.files calls l, u ≤ v)
    (hpairs : ∀ a ∈ unflushed nodes, ∀ u, Version a key u → ∀ b ∈ unflushed nodes, ∀ v,
      Version b key v → u ≤ v ∨ v ≤ u)
    (hflush : nodes.foldlM (ZenithDB.flushNode time) db = .ok db') :
    let calls' := calls ++ flushCalls time db.counter nodes
    Shelved ids key calls' db' ∧ ∀ l, ∀ v ∈ addedVersions key db'.disk.files calls' l,
      v ∈ addedVersions key db.disk.files calls l ∨ ∃ mt ∈ unflushed nodes, Version mt key v := by
  induction nodes generalizing calls db with
  | nil =>
    obtain rfl := Except.ok.inj hflush
    rw [flushCalls, List.append_nil]
    exact ⟨h, fun l v hv => .inl hv⟩
  | cons node nodes ih =>
    rw [List.foldlM_cons] at hflush
    obtain ⟨mid, hnode, hrest⟩ := Except.bind_eq_ok_iff.mp hflush
    have hsub : unflushed nodes ⊆ unflushed (node :: nodes) := by
      rw [unflushed_cons]
      split
      · exact List.Subset.refl _
      · exact List.subset_cons_self ..
    rw [flushCalls]
    rw [flushNamings] at hfresh
    by_cases hskip : node.flushed = true ∨ node.mt.sortedEntries = []
    · -- nothing is written for this one
      rw [if_pos hskip] at hfresh ⊢
      obtain ⟨-, rfl⟩ | ⟨hwrites, -⟩ := flushNode_cases hnode
      case inr => exact absurd hskip hwrites
      obtain ⟨hlast, hadded⟩ := ih h hfresh hlevels (fun mt hmt => hrows mt (hsub hmt))
        (fun mt hmt => hcount mt (hsub hmt)) (fun mt hmt => hcomparable mt (hsub hmt))
        (fun mt hmt => hnewer mt (hsub hmt))
        (fun a ha u hu b hb => hpairs a (hsub ha) u hu b (hsub hb)) hrest
      refine ⟨hlast, fun l v hv => (hadded l v hv).imp_right ?_⟩
      rintro ⟨mt, hmt, hv⟩
      exact ⟨mt, hsub hmt, hv⟩
    · rw [if_neg hskip] at hfresh ⊢
      obtain ⟨hname, hfresh⟩ := List.forall_mem_cons.mp hfresh
      -- this one is written first; what is asked of the others has to hold of its version as
      -- well
      have hself : node.mt ∈ unflushed (node :: nodes) := by
        rw [unflushed_cons, if_neg fun hflushed => hskip (.inl hflushed)]
        exact List.mem_cons_self ..
      obtain ⟨hmid, hcounter, hlength, hover⟩ := h.flushNode hskip hname hlevels
        (hrows _ hself) (hcount _ hself) (hcomparable _ hself) (hnewer _ hself) hnode
      rw [List.append_cons, ← hcounter]
      -- the names of the rest are not the one just added
      have hfresh' : ∀ n ∈ flushNamings time mid.counter nodes, ∀ l, n.name ∉
          addedTo l (calls ++ [.addSstable 0 (newFilename 0 (time db.counter) db.counter)]) := by
        intro n hn l hadded
        rw [hcounter] at hn
        rw [addedTo_append] at hadded
        rcases List.mem_append.mp hadded with hold | hone
        · exact hfresh n hn l hold
        · rw [addedTo, List.flatMap_singleton, Manifest.Call.added] at hone
          split at hone
          · obtain ⟨-, -, hid⟩ := newFilename_inj (List.mem_singleton.mp hone)
            have := ((flushNamings_ids time (db.counter + 1) nodes).1 n hn).1
            omega
          · exact absurd hone List.not_mem_nil
      obtain ⟨hlast, hadded⟩ := ih hmid hfresh' (by omega) (fun mt hmt => hrows mt (hsub hmt))
        (fun mt hmt => hcount mt (hsub hmt))
        (fun mt hmt v hv l u hu => by
          rw [hover l] at hu
          rcases hu with hold | ⟨-, hu⟩
          · exact hcomparable mt (hsub hmt) v hv l u hold
          · exact hpairs _ hself u hu mt (hsub hmt) v hv)
        (fun mt hmt v hv l hl u hu => by
          rw [hover l] at hu
          rcases hu with hold | ⟨hzero, -⟩
          · exact hnewer mt (hsub hmt) v hv l hl u hold
          · exact absurd hzero.symm hl)
        (fun a ha u hu b hb => hpairs a (hsub ha) u hu b (hsub hb)) hrest
      refine ⟨hlast, fun l v hv => ?_⟩
      rcases hadded l v hv with hold | ⟨mt, hmt, hv⟩
      · rw [hover l] at hold
        rcases hold with hold | ⟨-, hv⟩
        · exact .inl hold
        · exact .inr ⟨node.mt, hself, hv⟩
      · exact .inr ⟨mt, hsub hmt, hv⟩

-- ---------------------------------------------------------------------------
-- Compactions
-- ---------------------------------------------------------------------------

/-- A task with all tables of its level as inputs. -/
def TakesLevel (layout : Layout) (task : CompactionTask) : Prop :=
  task.inputSsts = (layout.getD task.level []).map (·.sst)

/-- The output of a task: open over the file of its name, and with what is newest in
its level. -/
structure Output (key : Bytes) (db : ZenithDB) (task : CompactionTask) (sst : TableRef) : Prop where
  written : ∃ file, db.disk.files.get? task.outputFilename = some file ∧
    SSTable.openFile file = .ok sst.table
  covered : ∀ v, sst.table.Version key v → ∃ w ∈ shownVersions key db.layout task.level, v ≤ w
  newest : ∀ v, sst.table.Version key v → ∀ u ∈ shownVersions key db.layout task.level, u ≤ v

/-- What the worker is at. Nobody else changes levels, so a task keeps its level whole. -/
def UnderWay (key : Bytes) (db : ZenithDB) : Worker → Prop
  | .flushing => True
  | .planning => True
  | .executing task => TakesLevel db.layout task ∧ task.outputSst = none
  | .applying task =>
    TakesLevel db.layout task ∧ ∀ sst, task.outputSst = some sst → Output key db task sst

variable {task task' : CompactionTask}

theorem TakesLevel.inputVersions (h : TakesLevel db.layout task) :
    inputVersions key task.inputSsts = shownVersions key db.layout task.level := by
  ext v
  rw [h]
  constructor
  · rintro ⟨sst, hsst, hv⟩
    obtain ⟨fe, hfe, rfl⟩ := List.mem_map.mp hsst
    exact ⟨fe, hfe, hv⟩
  · rintro ⟨fe, hfe, hv⟩
    exact ⟨fe.sst, List.mem_map_of_mem hfe, hv⟩

/-- **The output of a compaction** has the newest version of its level. -/
theorem Shelved.output (h : Shelved ids key calls db) (htask : TakesLevel db.layout task)
    {merged : SortedMap Bytes Bytes} {file : Bytes}
    (hmerged : task.inputSsts.foldlM compactTable SortedMap.empty = .ok merged)
    (hcount : CountFits merged.toList) (hcreate : SSTable.create merged.toList = .ok file) :
    FileLegible ids file ∧ ∃ t, SSTable.openFile file = .ok t ∧ openWritten file = .ok (some t) ∧
      ∀ v, t.Version key v → (∃ w ∈ shownVersions key db.layout task.level, v ≤ w) ∧
        v ∈ upperBounds (shownVersions key db.layout task.level) := by
  have hinputs : ∀ sst ∈ task.inputSsts, ∃ es, sst.table.Legible ids es := by
    rw [htask]
    intro sst hsst
    obtain ⟨fe, hfe, rfl⟩ := List.mem_map.mp hsst
    exact (h.legible hfe).2
  have hrows : Rows (Held ids) merged.toList := by
    obtain ⟨merged', hmerged', hrows⟩ := compactTables_spec mergeable_held fun sst hsst => by
      obtain ⟨es, hes⟩ := hinputs sst hsst
      exact ⟨es, hes.opened, hes.held⟩
    obtain rfl := Except.ok.inj (hmerged'.symm.trans hmerged)
    exact hrows
  obtain ⟨t, hopen, hwritten, ht⟩ := legible_of_create hcreate merged.sorted hrows hcount
  refine ⟨⟨_, hcreate, merged.sorted, hrows, hcount⟩, t, hopen, hwritten, fun v hv => ?_⟩
  have hadded : inputVersions key task.inputSsts ⊆ ⋃ l, addedVersions key db.disk.files calls l := by
    rw [htask.inputVersions]
    exact (h.shown_subset task.level).trans (Set.subset_iUnion _ task.level)
  -- the version of the output is the merge of a chain
  obtain ⟨raw, hraw, hread⟩ := ht.version_iff.mp hv
  obtain ⟨o, ho, hcovered, hnewest⟩ := compacted_version hinputs
    (fun u hu w hw => h.added.chain.total (hadded hu) (hadded hw)) hmerged hraw
  obtain rfl := Except.ok.inj (ho.symm.trans hread)
  rw [htask.inputVersions] at hcovered hnewest
  exact ⟨hcovered, hnewest⟩

/-- **A compaction is executed**: a file is written that is not added yet. -/
theorem Shelved.executeCompaction (h : Shelved ids key calls db) (htask : TakesLevel db.layout task)
    (hnone : task.outputSst = none) (hfresh : ∀ l, task.outputFilename ∉ addedTo l calls)
    (hcount : ∀ merged, task.inputSsts.foldlM compactTable SortedMap.empty = .ok merged →
      CountFits merged.toList)
    (hexec : db.executeCompaction task = .ok (db', task')) :
    Shelved ids key calls db' ∧ db'.layout = db.layout ∧
      addedVersions key db'.disk.files calls = addedVersions key db.disk.files calls ∧
      UnderWay key db' (.applying task') := by
  obtain ⟨merged, hmerged, ⟨rfl, rfl⟩ | ⟨file, opened, hcreate, hopened, rfl, rfl⟩⟩ :=
    executeCompaction_cases hexec
  · exact ⟨h, rfl, rfl, htask, fun sst hsst => absurd (hnone.symm.trans hsst) (by simp)⟩
  · obtain ⟨hfile, t, hopen, hwritten, hversion⟩ := h.output htask hmerged (hcount merged hmerged) hcreate
    obtain rfl := Except.ok.inj (hwritten.symm.trans hopened)
    have hsame := get?_insert_fresh db.disk.files file hfresh
    have hadded : addedVersions key (db.disk.files.insert task.outputFilename file) calls =
        addedVersions key db.disk.files calls := addedVersions_congr hsame
    refine ⟨⟨files_insert h.files hfile, fun l fe hfe => ?_, hadded ▸ h.added, h.shown⟩, rfl, hadded,
      htask, fun sst hsst => ?_⟩
    · exact (h.backed l fe hfe).mono (List.Subset.refl _) (hsame l)
    · obtain rfl := Option.some.inj hsst
      refine ⟨⟨file, ?_, hopen⟩, fun v hv => (hversion v hv).1, fun v hv u hu => (hversion v hv).2 hu⟩
      show (db.disk.files.insert task.outputFilename file).get? task.outputFilename = _
      rw [SortedMap.get?_insert, if_pos rfl]

/-- What a compaction leaves in the levels: its inputs are gone, and its output is one
level down. -/
theorem mem_applyCompaction (htask : TakesLevel db.layout task) (l : ℕ) (fe : FileEntry) :
    fe ∈ (db.applyCompaction task).layout.getD l [] ↔
      (l ≠ task.level ∧ fe ∈ db.layout.getD l []) ∨
        ∃ sst ∈ task.outputSst, task.level + 1 = l ∧ fe = entryOf sst := by
  -- the inputs are the whole level
  have hempty : (db.layout.modify task.level fun files =>
      files.filter fun fe => !(task.inputSsts.map (·.addr)).contains fe.sst.addr) =
      db.layout.modify task.level fun _ => [] := by
    refine Levels.modify_congr (List.filter_eq_nil_iff.mpr fun fe hfe => ?_)
    rw [htask, List.map_map]
    simp only [Bool.not_eq_true', Bool.not_eq_false, List.contains_eq_mem, decide_eq_true_eq]
    exact List.mem_map_of_mem (f := fun fe : FileEntry => fe.sst.addr) hfe
  have hkept : fe ∈ (db.layout.modify task.level fun _ => []).getD l [] ↔
      l ≠ task.level ∧ fe ∈ db.layout.getD l [] := by
    rw [Levels.getD_modify]
    by_cases hl : task.level = l
    · subst hl
      -- the level taken, whether it exists or not
      have hnone : fe ∉ if task.level = task.level ∧ task.level < db.layout.length then []
          else db.layout.getD task.level [] := by
        split
        · exact List.not_mem_nil
        · next hlt =>
          rw [List.getD_eq_getElem?_getD, List.getElem?_eq_none (by simpa using hlt)]
          exact List.not_mem_nil
      exact iff_of_false hnone fun h => h.1 rfl
    · rw [if_neg fun h => hl h.1, and_iff_right (Ne.symm hl)]
  unfold applyCompaction
  cases task.outputSst with
  | none =>
    dsimp only
    rw [hempty, hkept]
    simp
  | some sst =>
    dsimp only
    rw [hempty, Levels.getD_modify, getD_grow]
    -- the next level exists once the vector has grown
    by_cases hl : task.level + 1 = l
    · rw [if_pos ⟨hl, by rw [grow, List.length_append, List.length_replicate]; omega⟩,
        List.mem_append, List.mem_singleton, hkept]
      simp [hl]
    · rw [if_neg fun h => hl h.1, hkept]
      simp [hl]

/-- The version of the key in the output of a task. -/
def outputVersions (key : Bytes) (task : CompactionTask) : Set LWWRegister :=
  {v | ∃ sst ∈ task.outputSst, sst.table.Version key v}

/-- What the levels show after a compaction. -/
theorem shownVersions_applyCompaction (htask : TakesLevel db.layout task) :
    shownVersions key (db.applyCompaction task).layout =
      sunk (shownVersions key db.layout) task.level (outputVersions key task) := by
  funext l
  ext v
  constructor
  · rintro ⟨fe, hfe, hv⟩
    rcases (mem_applyCompaction htask l fe).mp hfe with ⟨hl, hold⟩ | ⟨sst, hsst, hl, rfl⟩
    · exact .inl ⟨hl, fe, hold, hv⟩
    · exact .inr ⟨hl, sst, hsst, hv⟩
  · rintro (⟨hl, fe, hfe, hv⟩ | ⟨hl, sst, hsst, hv⟩)
    · exact ⟨fe, (mem_applyCompaction htask l fe).mpr (.inl ⟨hl, hfe⟩), hv⟩
    · exact ⟨entryOf sst, (mem_applyCompaction htask l _).mpr (.inr ⟨sst, hsst, hl, rfl⟩), hv⟩

/-- A removal adds nothing. -/
theorem addedVersions_replace (files : SortedMap Bytes Bytes) (level : ℕ) (oldFiles : List Bytes)
    (l : ℕ) : addedVersions key files [.replace level oldFiles []] l = ∅ := by
  refine Set.eq_empty_of_forall_notMem ?_
  rintro v ⟨f, hf, -⟩
  rw [addedTo, List.flatMap_singleton, Manifest.Call.added] at hf
  split at hf
  · exact List.not_mem_nil hf
  · exact List.not_mem_nil hf

/-- A compaction adds its output, if there is one. -/
theorem addedVersions_compactionCalls (houtput : ∀ sst ∈ task.outputSst, Output key db task sst)
    (hne : task.outputFilename ≠ []) (l : ℕ) :
    addedVersions key db.disk.files (compactionCalls task) l =
      only (task.level + 1) (outputVersions key task) l := by
  unfold compactionCalls
  rw [addedVersions_append fun _ _ _ => rfl, addedVersions_replace, Set.union_empty]
  cases hout : task.outputSst with
  | none =>
    ext v
    simp [addedVersions, addedTo, only, outputVersions, hout]
  | some sst =>
    obtain ⟨file, hget, hopen⟩ := (houtput sst hout).written
    rw [if_pos Option.isSome_some, addedVersions_addSstable hne hget hopen]
    ext v
    simp [only, outputVersions, hout, tableVersions]

/-- **A compaction is applied**: the level sinks into the next one. -/
theorem Shelved.applyCompaction (h : Shelved ids key calls db) (htask : TakesLevel db.layout task)
    (houtput : ∀ sst ∈ task.outputSst, Output key db task sst) (hne : task.outputFilename ≠ []) :
    Shelved ids key (calls ++ compactionCalls task) (db.applyCompaction task) ∧
      ∀ l, ∀ v ∈ addedVersions key db.disk.files (calls ++ compactionCalls task) l,
        ∃ l', ∃ w ∈ addedVersions key db.disk.files calls l', v ≤ w := by
  have hfiles : (db.applyCompaction task).disk.files = db.disk.files := by
    unfold ZenithDB.applyCompaction
    cases task.outputSst <;> rfl
  have hadded : ∀ l, addedVersions key db.disk.files (calls ++ compactionCalls task) l =
      addedVersions key db.disk.files calls l ∪ only (task.level + 1) (outputVersions key task) l := by
    intro l
    rw [addedVersions_append fun _ _ _ => rfl, addedVersions_compactionCalls houtput hne]
  have hcovered : IsCofinalFor (outputVersions key task) (shownVersions key db.layout task.level) := by
    rintro v ⟨sst, hsst, hv⟩
    exact (houtput sst hsst).covered v hv
  have hnewest : ∀ v ∈ outputVersions key task,
      v ∈ upperBounds (shownVersions key db.layout task.level) := by
    rintro v ⟨sst, hsst, hv⟩ u hu
    exact (houtput sst hsst).newest v hv u hu
  -- at most one table is written, and it holds a key once
  have hchain : IsChain (· ≤ ·) (outputVersions key task) := by
    refine Set.Subsingleton.isChain ?_
    rintro u ⟨sst, hsst, hu⟩ v ⟨sst', hsst', hv⟩
    obtain rfl := Option.mem_unique hsst hsst'
    obtain ⟨file, hget, hopen⟩ := (houtput sst hsst).written
    obtain ⟨t, es, hopen', -, ht⟩ := (h.files (_, file) (SortedMap.get?_eq_some_iff.mp hget)).openFile
    obtain rfl := Except.ok.inj (hopen'.symm.trans hopen)
    exact ht.version_unique hu hv
  -- the level below the output had all of these versions
  have hsunk : IsCofinalFor (outputVersions key task)
      (addedVersions key db.disk.files calls task.level) :=
    IsCofinalFor.mono_right (h.shown_subset task.level) hcovered
  refine ⟨⟨by rw [hfiles]; exact h.files, fun l fe hfe => ?_, ?_, ?_⟩, fun l v hv => ?_⟩
  · -- entries: the old ones keep their file, the output has the one just written
    rw [hfiles]
    rcases (mem_applyCompaction htask l fe).mp hfe with ⟨-, hold⟩ | ⟨sst, hsst, rfl, rfl⟩
    · refine (h.backed l fe hold).mono (fun f hf => ?_) fun _ _ => rfl
      rw [addedTo_append]
      exact List.mem_append_left _ hf
    · obtain ⟨file, hget, hopen⟩ := (houtput sst hsst).written
      refine ⟨rfl, task.outputFilename, ?_, file, hget, hopen⟩
      rw [addedTo_append]
      refine List.mem_append_right _ ?_
      unfold compactionCalls
      rw [if_pos (Option.isSome_iff_exists.mpr ⟨sst, hsst⟩), addedTo_append]
      refine List.mem_append_left _ ?_
      rw [addedTo, List.flatMap_singleton, Manifest.Call.added, if_pos ⟨rfl, hne⟩]
      exact List.mem_singleton_self _
  · rw [hfiles]
    refine h.added.add hadded hchain (fun v hv l u hu => ?_) fun l hl => ?_
    · -- the output is as new as the version that covers it, which is comparable with all
      obtain ⟨w, hw, hle⟩ := hcovered hv
      have hback := hnewest v hv hw
      rcases h.added.total hu (h.shown_subset _ hw) with hbelow | habove
      · exact .inl (hbelow.trans hback)
      · exact .inr (hle.trans habove)
    · obtain rfl : task.level = l := by omega
      exact hsunk
  · -- the levels shown: the compacted one sinks into the next
    rw [shownVersions_applyCompaction htask]
    exact h.shown.sink hcovered hnewest
  · -- nothing newer than before is listed
    rw [hadded l] at hv
    rcases hv with hv | ⟨-, hv⟩
    · exact ⟨l, v, hv, le_refl v⟩
    · exact ⟨task.level, hsunk hv⟩

-- ---------------------------------------------------------------------------
-- Restarts
-- ---------------------------------------------------------------------------

/-- The tables that open over the files of one level. -/
theorem openFiles_backed {files : SortedMap Bytes Bytes} {names : List Bytes} {nextAddr next : ℕ}
    {level : List FileEntry} (h : openFiles files nextAddr names = .ok (level, next)) :
    (∀ fe ∈ level, BackedBy files names fe) ∧ ∀ f ∈ names, ∀ file t, files.get? f = some file →
      SSTable.openFile file = .ok t → ∃ fe ∈ level, fe.sst.table = t := by
  induction names generalizing nextAddr next level with
  | nil =>
    obtain ⟨rfl, -⟩ := Prod.mk.inj (Except.ok.inj h)
    exact ⟨fun fe hfe => absurd hfe List.not_mem_nil, fun f hf => absurd hf List.not_mem_nil⟩
  | cons name names ih =>
    rw [openFiles] at h
    -- the first file is passed over
    have hskip : ∀ {next}, openFiles files nextAddr names = .ok (level, next) →
        (∀ file t, files.get? name = some file → SSTable.openFile file ≠ .ok t) →
        (∀ fe ∈ level, BackedBy files (name :: names) fe) ∧ ∀ f ∈ name :: names, ∀ file t,
          files.get? f = some file → SSTable.openFile file = .ok t → ∃ fe ∈ level, fe.sst.table = t := by
      intro next hrest hclosed
      obtain ⟨hbacked, hopened⟩ := ih hrest
      refine ⟨fun fe hfe => (hbacked fe hfe).mono (List.subset_cons_self ..) fun _ _ => rfl, ?_⟩
      refine List.forall_mem_cons.mpr ⟨fun file t hget hopen => ?_, hopened⟩
      exact absurd hopen (hclosed file t hget)
    -- a name without a file, or whose file does not open, has no table
    cases hget : files.get? name with
    | none =>
      rw [hget] at h
      exact hskip h fun file t hget' => absurd (hget.symm.trans hget') (by simp)
    | some file =>
      rw [hget] at h
      obtain ⟨opened, hopened, h⟩ := Except.bind_eq_ok_iff.mp h
      cases opened with
      | none =>
        refine hskip h fun file' t hget' hopen => ?_
        obtain rfl := Option.some.inj (hget.symm.trans hget')
        unfold openWritten at hopened
        rw [hopen] at hopened
        exact absurd (Except.ok.inj hopened) (by simp)
      | some t =>
        obtain ⟨⟨entries, last⟩, hrest, h⟩ := Except.bind_eq_ok_iff.mp h
        obtain ⟨rfl, -⟩ := Prod.mk.inj (Except.ok.inj h)
        obtain ⟨hbacked, hothers⟩ := ih hrest
        have hopen := openFile_of_openWritten hopened
        constructor
        · refine List.forall_mem_cons.mpr ⟨⟨rfl, name, List.mem_cons_self .., file, hget, hopen⟩, ?_⟩
          exact fun fe hfe => (hbacked fe hfe).mono (List.subset_cons_self ..) fun _ _ => rfl
        -- the file that opened is the first table, and the others are behind it
        · refine List.forall_mem_cons.mpr ⟨fun file' t' hget' hopen' => ?_, ?_⟩
          · obtain rfl := Option.some.inj (hget.symm.trans hget')
            exact ⟨_, List.mem_cons_self .., Except.ok.inj (hopen.symm.trans hopen')⟩
          · intro f hf file' t' hget' hopen'
            obtain ⟨fe, hfe, heq⟩ := hothers f hf file' t' hget' hopen'
            exact ⟨fe, List.mem_cons_of_mem _ hfe, heq⟩

/-- Level by level, by induction on the lists of names. -/
theorem openLevels_getD {files : SortedMap Bytes Bytes} {levels : List (List Bytes)}
    {nextAddr next : ℕ} {layout : Layout}
    (h : openLevels files nextAddr levels = .ok (layout, next)) (l : ℕ) :
    ∃ first last, openFiles files first (levels.getD l []) = .ok (layout.getD l [], last) := by
  induction levels generalizing nextAddr next layout l with
  | nil =>
    obtain ⟨rfl, -⟩ := Prod.mk.inj (Except.ok.inj h)
    exact ⟨0, 0, rfl⟩
  | cons names levels ih =>
    obtain ⟨⟨level, mid⟩, hlevel, h⟩ := Except.bind_eq_ok_iff.mp h
    obtain ⟨⟨rest, last⟩, hrest, h⟩ := Except.bind_eq_ok_iff.mp h
    obtain ⟨rfl, -⟩ := Prod.mk.inj (Except.ok.inj h)
    cases l with
    | zero => exact ⟨nextAddr, mid, hlevel⟩
    | succ l => exact ih hrest l

/-- **The directory is opened again**: every file that was ever added is in its level
again, the inputs of all compactions included. -/
theorem Shelved.openDB {p : Platform} {counter : ℕ} {wal : Bytes} (h : Shelved ids key calls db)
    (hlogged : Logged calls db)
    (hopen : ZenithDB.openDB p db.nodeId { db.disk with wal := wal } counter = .ok db') :
    Shelved ids key calls db' ∧ db'.disk.files = db.disk.files := by
  unfold ZenithDB.openDB at hopen
  obtain ⟨⟨layout, nextAddr⟩, hlevels, hopen⟩ := Except.bind_eq_ok_iff.mp hopen
  obtain rfl := Except.ok.inj hopen
  -- the names that the manifest of this history lists
  have hload : ∀ l, (loadedLevels p { db.disk with wal := wal }).getD l [] =
      if l < 7 then addedTo l calls else [] := by
    intro l
    rw [show loadedLevels p { db.disk with wal := wal } = loadedLevels p db.disk from rfl,
      hlogged.loadedLevels p, List.getD_eq_getElem?_getD, List.getElem?_map]
    by_cases hl : l < 7
    · rw [List.getElem?_range hl, if_pos hl]
      rfl
    · rw [List.getElem?_eq_none (by simpa using hl), if_neg hl]
      rfl
  have hlevel : ∀ l, ∃ first last, openFiles db.disk.files first
      (if l < 7 then addedTo l calls else []) = .ok (layout.getD l [], last) := by
    intro l
    rw [← hload l]
    exact openLevels_getD hlevels l
  refine ⟨⟨h.files, fun l fe hfe => ?_, h.added, ?_⟩, rfl⟩
  · -- an entry opened is an entry of the listed files
    obtain ⟨first, last, hfiles⟩ := hlevel l
    refine ((openFiles_backed hfiles).1 fe (mem_sortAllLevels.mp hfe)).mono ?_ fun _ _ => rfl
    split
    · exact List.Subset.refl _
    · exact List.nil_subset _
  · -- levels descend as the levels of the calls do
    refine h.added.descends.layered 7 (fun l hl => ?_) fun l hl => ?_
    · -- the seven levels of the manifest
      obtain ⟨first, last, hfiles⟩ := hlevel l
      rw [if_pos hl] at hfiles
      obtain ⟨hbacked, hopened⟩ := openFiles_backed hfiles
      ext v
      constructor
      · rintro ⟨fe, hfe, hv⟩
        obtain ⟨-, f, hf, file, hget, hopen⟩ := hbacked fe (mem_sortAllLevels.mp hfe)
        exact ⟨f, hf, file, _, hget, hopen, hv⟩
      · rintro ⟨f, hf, file, t, hget, hopen, hv⟩
        obtain ⟨fe, hfe, rfl⟩ := hopened f hf file t hget hopen
        exact ⟨fe, mem_sortAllLevels.mpr hfe, hv⟩
    · -- nothing is loaded behind them
      obtain ⟨first, last, hfiles⟩ := hlevel l
      rw [if_neg (by omega)] at hfiles
      refine Set.eq_empty_of_forall_notMem ?_
      rintro v ⟨fe, hfe, -⟩
      obtain ⟨-, f, hf, -⟩ := (openFiles_backed hfiles).1 fe (mem_sortAllLevels.mp hfe)
      exact absurd hf List.not_mem_nil

end ZenithDB

end Zenith
