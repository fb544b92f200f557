import Zenith.DB.History

/-!
# Zenith — what the layers of a database hold

A predicate `Q` on keys and stored bytes, closed under the merges that scans and compactions
perform (`Mergeable`), is kept by every layer of the database once all records that enter it
satisfy it: the memtables, the tables of the layout, the tables a compaction works on, and
the files (`Stores`). This is how most invariants of the development speak of stored data.
They choose `Q` and prove that it is mergeable; what flushes and compactions do to rows is
dealt with once.

`Mergeable` contains two facts that every use needs: a row fits the length fields of a
block, and the registers of two rows of one key can be read, merged and stored again.
Without the first a table can be written that does not read back, without the second a scan
or a compaction throws.

A read returns rows that satisfy `Q`. That is all that is said here: which of several
versions it returns is the matter of the modules about versions. Nor is anything said of
rows that a read passes over.

The lemmas follow the loops of the model: one for the tables of a level, one for the levels,
one for the rows of a scan, each by induction on the list that the loop goes through.

Main results:

* `Stores.step` — a step keeps the invariant; the only way it can stop is a failed write;
* `Stores.getCrdt`, `Stores.collectRows`, `Stores.scanCrdt` — reads succeed and return what
  satisfies `Q`.
-/

namespace Zenith

open Bytes

/-- A predicate on records that fit a block and that merging keeps. -/
structure Mergeable (Q : Bytes → Bytes → Prop) : Prop where
  fits : ∀ key raw, Q key raw → SSTable.EntryFits (key, raw)
  merge : ∀ key a b, Q key a → Q key b → ∃ r o, LWWRegister.deserialize a = .ok r ∧
    LWWRegister.deserialize b = .ok o ∧ Q key (r.merge o).serialize

/-- A stored register can be read: it is merged with itself. -/
theorem Mergeable.decode {Q : Bytes → Bytes → Prop} (h : Mergeable Q) {key raw : Bytes}
    (hq : Q key raw) : ∃ r, LWWRegister.deserialize raw = .ok r := by
  obtain ⟨r, -, hr, -⟩ := h.merge key raw raw hq hq
  exact ⟨r, hr⟩

/-- The fault of a write that goes beyond the largest file. -/
def WriteFailed (f : Fault) : Prop := f = .thrown "Write failed"

/-- Every entry satisfies the predicate. -/
def Rows (Q : Bytes → Bytes → Prop) (es : List Entry) : Prop := ∀ e ∈ es, Q e.1 e.2

/-- An open table over a file written for entries that satisfy the predicate. -/
def SSTable.Holds (Q : Bytes → Bytes → Prop) (t : SSTable) : Prop :=
  ∃ es, t.OpenedOn es ∧ Rows Q es

/-- A file written for sorted entries that satisfy the predicate. -/
def FileHolds (Q : Bytes → Bytes → Prop) (file : Bytes) : Prop :=
  ∃ es, SSTable.create es = .ok file ∧ (es.Pairwise fun a b => a.1 < b.1) ∧ Rows Q es

/-- A layout entry as it is made when its table is opened. -/
def FileEntry.Holds (Q : Bytes → Bytes → Prop) (fe : FileEntry) : Prop :=
  fe = ZenithDB.entryOf fe.sst ∧ fe.sst.table.Holds Q

/-- Every file of every level satisfies the predicate. -/
def AllFiles (P : FileEntry → Prop) (layout : Layout) : Prop := ∀ level ∈ layout, ∀ fe ∈ level, P fe

/-- The tables that a step of the worker still refers to. -/
def Worker.tables : Worker → List TableRef
  | .flushing => []
  | .planning => []
  | .executing task => task.inputSsts ++ task.outputSst.toList
  | .applying task => task.inputSsts ++ task.outputSst.toList

-- ---------------------------------------------------------------------------
-- Tables and files
-- ---------------------------------------------------------------------------

section Tables

variable {Q : Bytes → Bytes → Prop}

theorem Rows.mono {Q' : Bytes → Bytes → Prop} (hle : ∀ k raw, Q k raw → Q' k raw) {es : List Entry}
    (h : Rows Q es) : Rows Q' es := fun e he => hle e.1 e.2 (h e he)

/-- `create` writes the file or fails as a write. -/
theorem create_outcome {es : List Entry} (hsorted : es.Pairwise fun a b => a.1 < b.1)
    (hrows : Rows Q es) : (SSTable.create es).Post (FileHolds Q) WriteFailed := by
  cases h : SSTable.create es with
  | ok file => exact ⟨es, h, hsorted, hrows⟩
  | error f =>
    unfold SSTable.create at h
    dsimp only at h
    split at h
    · exact absurd h (by simp)
    · exact (Except.error.inj h).symm

/-- A file that was written can be opened. -/
theorem FileHolds.openWritten (hQ : Mergeable Q) {file : Bytes} (h : FileHolds Q file) :
    ∃ t, ZenithDB.openWritten file = .ok (some t) ∧ t.Holds Q := by
  obtain ⟨es, hcreate, hsorted, hrows⟩ := h
  have hfit : SSTable.BlocksFit es :=
    SSTable.blocksFit_of_entries fun e he => hQ.fits e.1 e.2 (hrows e he)
  obtain ⟨t, hopen, ht⟩ := SSTable.openFile_create hcreate hsorted hfit
  refine ⟨t, ?_, es, ht, hrows⟩
  unfold ZenithDB.openWritten
  rw [hopen]

/-- A lookup succeeds, and gives nothing but stored bytes of the key. -/
theorem SSTable.Holds.get {t : SSTable} (h : t.Holds Q) (key : Bytes) :
    ∃ r, t.get key = .ok r ∧ ∀ raw, r = some raw → Q key raw := by
  obtain ⟨es, ht, hrows⟩ := h
  obtain ⟨r, hr, hlookup⟩ := ht.get_sound key
  refine ⟨r, hr, ?_⟩
  intro raw hraw
  exact hrows (key, raw) ((SortedMap.lookup_eq_some_of_sorted ht.sorted).mp (hlookup raw hraw))

/-- The rows of a scan are stored rows in range. -/
theorem SSTable.Holds.scan {t : SSTable} (h : t.Holds Q) (start stop : Bytes) :
    ∃ rows, t.scan start stop = .ok rows ∧ Rows Q rows ∧
      ∀ e ∈ rows, start ≤ e.1 ∧ e.1 ≤ stop := by
  obtain ⟨es, ht, hrows⟩ := h
  obtain ⟨rows, hscan, hsub⟩ := ht.scan_sublist start stop
  refine ⟨rows, hscan, ?_, ?_⟩
  · intro e he
    exact hrows e (List.mem_filter.mp (hsub.subset he)).1
  · intro e he
    have hin := (List.mem_filter.mp (hsub.subset he)).2
    rw [SSTable.inRange, Bool.and_eq_true, decide_eq_true_eq, decide_eq_true_eq] at hin
    exact hin

/-- Bytes that a reader of the table gets back were written to it. -/
theorem SSTable.Holds.row {t : SSTable} (h : t.Holds Q) {key raw : Bytes}
    (hrow : t.get key = .ok (some raw) ∨
      ∃ start stop rows, t.scan start stop = .ok rows ∧ (key, raw) ∈ rows) : Q key raw := by
  rcases hrow with hget | ⟨start, stop, rows, hscan, hmem⟩
  · obtain ⟨r, hr, hraw⟩ := h.get key
    rw [hget] at hr
    exact hraw raw (Except.ok.inj hr).symm
  · obtain ⟨rows', hscan', hrows', -⟩ := h.scan start stop
    rw [hscan] at hscan'
    obtain rfl := Except.ok.inj hscan'
    exact hrows' (key, raw) hmem

/-- An entry that is made when its table is opened. -/
theorem FileEntry.holds_entryOf {sst : TableRef} (h : sst.table.Holds Q) :
    (ZenithDB.entryOf sst).Holds Q := ⟨rfl, h⟩

end Tables

-- ---------------------------------------------------------------------------
-- Layouts
-- ---------------------------------------------------------------------------

section Layouts

variable {P : FileEntry → Prop} {layout : Layout}

/-- Sorting moves files within their levels. -/
theorem AllFiles.sort (h : AllFiles P layout) (p : Platform) :
    AllFiles P (ZenithDB.sortAllLevels p layout) := by
  intro level hlevel fe hfe
  obtain ⟨old, hold, rfl⟩ := List.mem_map.mp hlevel
  exact h old hold fe ((p.sortFiles_perm old).mem_iff.mp hfe)

/-- New levels are empty. -/
theorem AllFiles.grow (h : AllFiles P layout) (n : Nat) : AllFiles P (ZenithDB.grow n layout) := by
  intro level hlevel fe hfe
  rcases List.mem_append.mp hlevel with hold | hnew
  · exact h level hold fe hfe
  · rw [List.eq_of_mem_replicate hnew] at hfe
    exact absurd hfe List.not_mem_nil

/-- One level is changed. -/
theorem AllFiles.modify (h : AllFiles P layout) {i : Nat} {f : List FileEntry → List FileEntry}
    (hf : ∀ level, (∀ fe ∈ level, P fe) → ∀ fe ∈ f level, P fe) : AllFiles P (layout.modify i f) := by
  intro level hlevel
  rcases Levels.mem_modify hlevel with hold | ⟨old, hold, rfl⟩
  · exact h level hold
  · exact hf old (h old hold)

/-- A file joins a level. -/
theorem AllFiles.append (h : AllFiles P layout) {fe : FileEntry} (hfe : P fe) (i : Nat) :
    AllFiles P (layout.modify i (· ++ [fe])) := by
  apply h.modify
  intro level hlevel x hx
  rcases List.mem_append.mp hx with hx | hx
  · exact hlevel x hx
  · rw [List.mem_singleton.mp hx]
    exact hfe

/-- Files leave a level. -/
theorem AllFiles.filter (h : AllFiles P layout) (keep : FileEntry → Bool) (i : Nat) :
    AllFiles P (layout.modify i fun files => files.filter keep) := by
  apply h.modify
  intro level hlevel fe hfe
  exact hlevel fe (List.mem_of_mem_filter hfe)

end Layouts

namespace ZenithDB

/-- Every layer of the database holds only what satisfies the predicate. -/
structure Stores (Q : Bytes → Bytes → Prop) (db : ZenithDB) : Prop where
  memtables : ∀ mt ∈ db.memtables, Rows Q mt.sortedEntries
  layout : AllFiles (FileEntry.Holds Q) db.layout
  worker : ∀ sst ∈ db.worker.tables, sst.table.Holds Q
  files : ∀ e ∈ db.disk.files.toList, FileHolds Q e.2

variable {Q : Bytes → Bytes → Prop} {db : ZenithDB}

/-- The part of `Stores` that the worker sees: what is not written to any more. -/
structure Settled (Q : Bytes → Bytes → Prop) (db : ZenithDB) : Prop where
  frozen : ∀ node ∈ db.immut, Rows Q node.mt.sortedEntries
  layout : AllFiles (FileEntry.Holds Q) db.layout
  worker : ∀ sst ∈ db.worker.tables, sst.table.Holds Q
  files : ∀ e ∈ db.disk.files.toList, FileHolds Q e.2

/-- The worker sees all but the active memtable. -/
theorem Stores.settled (h : Stores Q db) : Settled Q db :=
  ⟨fun _ hnode => h.memtables _ (List.mem_cons_of_mem _ (List.mem_map_of_mem hnode)),
    h.layout, h.worker, h.files⟩

/-- With an active memtable that satisfies the predicate as well. -/
theorem Settled.stores (h : Settled Q db) (hactive : Rows Q db.activeMem.sortedEntries) :
    Stores Q db := by
  refine ⟨List.forall_mem_cons.mpr ⟨hactive, fun mt hmt => ?_⟩, h.layout, h.worker, h.files⟩
  obtain ⟨node, hnode, rfl⟩ := List.mem_map.mp hmt
  exact h.frozen node hnode

/-- A fresh database holds nothing. -/
theorem stores_fresh (nodeId : NodeID) (counter : Nat) : Stores Q (fresh nodeId counter) where
  memtables := by
    intro mt hmt
    rw [show (fresh nodeId counter).memtables = [.new] from rfl, List.mem_singleton] at hmt
    rw [hmt]
    intro e he
    exact absurd he List.not_mem_nil
  layout := by
    intro level hlevel fe hfe
    rw [List.eq_of_mem_replicate hlevel] at hfe
    exact absurd hfe List.not_mem_nil
  worker _ h := absurd h List.not_mem_nil
  files _ h := absurd h List.not_mem_nil

theorem Settled.mono {Q' : Bytes → Bytes → Prop} (h : Settled Q db)
    (hle : ∀ k raw, Q k raw → Q' k raw) : Settled Q' db where
  frozen node hnode := (h.frozen node hnode).mono hle
  layout level hlevel fe hfe := by
    obtain ⟨heq, es, ht, hrows⟩ := h.layout level hlevel fe hfe
    exact ⟨heq, es, ht, hrows.mono hle⟩
  worker sst hsst := by
    obtain ⟨es, ht, hrows⟩ := h.worker sst hsst
    exact ⟨es, ht, hrows.mono hle⟩
  files e he := by
    obtain ⟨es, hcreate, hsorted, hrows⟩ := h.files e he
    exact ⟨es, hcreate, hsorted, hrows.mono hle⟩

theorem Stores.mono {Q' : Bytes → Bytes → Prop} (h : Stores Q db)
    (hle : ∀ k raw, Q k raw → Q' k raw) : Stores Q' db :=
  (h.settled.mono hle).stores ((h.memtables _ (List.mem_cons_self ..)).mono hle)

-- ---------------------------------------------------------------------------
-- Reads
-- ---------------------------------------------------------------------------

/-- What is found in a memtable is a row of it. -/
theorem lookupMem_mem {key raw : Bytes} (h : db.lookupMem key = some raw) :
    raw ≠ [] ∧ ∃ mt ∈ db.memtables, (key, raw) ∈ mt.sortedEntries := by
  unfold lookupMem at h
  obtain ⟨mt, hmt, hprobe⟩ := List.exists_of_findSome?_eq_some h
  refine ⟨?_, mt, hmt, SortedMap.get?_eq_some_iff.mp (MemTable.get_of_probe hprobe)⟩
  rw [MemTable.probe_eq, Option.filter_eq_some_iff] at hprobe
  exact of_decide_eq_true hprobe.2

/-- The loop over one level. -/
theorem lookupFiles_spec {key : Bytes} {files : List FileEntry}
    (h : ∀ fe ∈ files, fe.Holds Q) :
    ∃ r, lookupFiles key files = .ok r ∧ ∀ raw, r = some raw → Q key raw := by
  induction files with
  | nil => exact ⟨none, rfl, fun raw hraw => absurd hraw (by simp)⟩
  | cons fe files ih =>
    obtain ⟨hfe, hrest⟩ := List.forall_mem_cons.mp h
    obtain ⟨r, hr, hraw⟩ := ih hrest
    rw [lookupFiles]
    split
    · exact ⟨none, rfl, fun raw hraw => absurd hraw (by simp)⟩
    · obtain ⟨v, hget, hv⟩ := hfe.2.get key
      rw [hget, Except.ok_bind]
      cases v with
      | none => exact ⟨r, hr, hraw⟩
      | some raw =>
        by_cases hnil : raw = []
        · simp only [if_pos hnil]
          exact ⟨r, hr, hraw⟩
        · simp only [if_neg hnil]
          exact ⟨some raw, rfl, fun raw' h' => hv raw' h'⟩

/-- Where the search over a level ends: below a table that ends below the key, and
at one that does not. -/
theorem lowerBound_spec (key : Bytes) (level : List FileEntry) :
    ∃ it, lowerBound key level = .ok it ∧ it ≤ level.length ∧
      (0 < it → (level[it - 1]?).any (endsBelow key) = true) ∧
      (it < level.length → (level[it]?).any (endsBelow key) = false) := by
  obtain ⟨it, hit, -, hle, hbelow, hat⟩ := BinarySearch.bsearch_spec
    (p := fun i => .ok ((level[i]?).any (endsBelow key)))
    (q := fun i => (level[i]?).any (endsBelow key)) (fun _ _ _ => rfl)
    (Nat.zero_le level.length)
  exact ⟨it, hit, hle, hbelow, hat⟩

/-- Whether the search over the tables goes on after a lookup: it found nothing, or an
empty value. -/
def goesOn : Except Fault (Option Bytes) → Bool
  | .ok none => true
  | .ok (some v) => decide (v = [])
  | .error _ => false

/-- A table that starts no later than the key, and does not end the search. -/
theorem lookupFiles_cons {key : Bytes} {fe : FileEntry} {rest : List FileEntry}
    (hmin : fe.minKey ≤ key) (hgo : goesOn (fe.sst.table.get key) = true) :
    lookupFiles key (fe :: rest) = lookupFiles key rest := by
  rw [lookupFiles, if_neg fun hlt => not_lt.mpr hmin hlt.2]
  cases hget : fe.sst.table.get key with
  | error f =>
    rw [hget] at hgo
    exact absurd hgo Bool.false_ne_true
  | ok found =>
    rw [Except.ok_bind]
    cases found with
    | none => rfl
    | some v =>
      rw [hget] at hgo
      exact if_pos (of_decide_eq_true hgo)

/-- Without largest keys the search ends at the front. -/
theorem lowerBound_eq_zero {key : Bytes} {level : List FileEntry}
    (h : ∀ fe ∈ level, fe.maxKey = []) : lowerBound key level = .ok 0 := by
  obtain ⟨it, hit, -, hbelow, -⟩ := lowerBound_spec key level
  rcases Nat.eq_zero_or_pos it with rfl | hpos
  · exact hit
  · have hany := hbelow hpos
    rw [Option.any_eq_true] at hany
    obtain ⟨fe, hfe, hends⟩ := hany
    rw [endsBelow, h fe (List.mem_of_getElem? hfe)] at hends
    exact absurd hends (by simp)

/-- Empty levels have no key. -/
theorem lookupLevels_replicate_nil (key : Bytes) (n : Nat) :
    lookupLevels key (List.replicate n []) = .ok none := by
  induction n with
  | zero => rfl
  | succ n ih =>
    obtain ⟨it, hit, -⟩ := lowerBound_spec key []
    rw [List.replicate_succ, lookupLevels, hit, Except.ok_bind, List.drop_nil]
    exact ih

/-- The loop over the levels. Where the search enters a level does not matter here. -/
theorem lookupLevels_spec {key : Bytes} {layout : Layout} (h : AllFiles (FileEntry.Holds Q) layout) :
    ∃ r, lookupLevels key layout = .ok r ∧ ∀ raw, r = some raw → Q key raw := by
  induction layout with
  | nil => exact ⟨none, rfl, fun raw hraw => absurd hraw (by simp)⟩
  | cons level layout ih =>
    obtain ⟨hlevel, hrest⟩ := List.forall_mem_cons.mp h
    obtain ⟨it, hit, -⟩ := lowerBound_spec key level
    rw [lookupLevels, hit, Except.ok_bind]
    generalize hdrop : level.drop it = files
    have hfiles : ∀ fe ∈ files, fe.Holds Q := by
      intro fe hfe
      rw [← hdrop] at hfe
      exact hlevel fe ((List.drop_sublist _ _).subset hfe)
    obtain ⟨r, hr, hraw⟩ : ∃ r, lookupFiles key files = .ok r ∧ ∀ raw, r = some raw → Q key raw :=
      lookupFiles_spec hfiles
    rw [hr, Except.ok_bind]
    cases r with
    | none => exact ih hrest
    | some raw => exact ⟨some raw, rfl, hraw⟩

/-- All layers: memtables, then tables. -/
theorem Stores.lookup (h : Stores Q db) (key : Bytes) :
    ∃ r, db.lookup key = .ok r ∧ ∀ raw, r = some raw → Q key raw := by
  unfold ZenithDB.lookup
  cases hmem : db.lookupMem key with
  | none => exact lookupLevels_spec h.layout
  | some raw =>
    obtain ⟨-, mt, hmt, hentry⟩ := lookupMem_mem hmem
    refine ⟨some raw, rfl, ?_⟩
    intro raw' hraw'
    rw [← Option.some.inj hraw']
    exact h.memtables mt hmt _ hentry

/-- A register that `get_crdt` returns is live and was stored. -/
theorem Stores.getCrdt (h : Stores Q db) (hQ : Mergeable Q) (key : Bytes) :
    ∃ existing, db.getCrdt key = .ok existing ∧ ∀ reg, existing = some reg →
      reg.value ≠ [] ∧ ∃ raw, Q key raw ∧ LWWRegister.deserialize raw = .ok reg := by
  obtain ⟨r, hr, hraw⟩ := h.lookup key
  unfold ZenithDB.getCrdt
  rw [hr, Except.ok_bind]
  cases r with
  | none => exact ⟨none, rfl, fun reg hreg => absurd hreg (by simp)⟩
  | some raw =>
    obtain ⟨reg, hreg⟩ := hQ.decode (hraw raw rfl)
    rw [readRegister, hreg, Except.ok_bind]
    refine ⟨_, rfl, ?_⟩
    intro reg' hreg'
    by_cases hnil : reg.value = []
    · rw [if_pos hnil] at hreg'
      exact absurd hreg' (by simp)
    · rw [if_neg hnil] at hreg'
      obtain rfl := Option.some.inj hreg'
      exact ⟨hnil, raw, hraw raw rfl, hreg⟩

/-- A scan of tables. One that lies beside the range is left out. -/
theorem scanFiles_spec {files : List FileEntry} (h : ∀ fe ∈ files, fe.Holds Q)
    (start stop : Bytes) :
    ∃ rows, scanFiles start stop files = .ok rows ∧ Rows Q rows ∧
      ∀ e ∈ rows, start ≤ e.1 ∧ e.1 ≤ stop := by
  have hnil : Rows Q [] ∧ ∀ e ∈ ([] : List Entry), start ≤ e.1 ∧ e.1 ≤ stop :=
    ⟨fun e he => absurd he List.not_mem_nil, fun e he => absurd he List.not_mem_nil⟩
  induction files with
  | nil => exact ⟨[], rfl, hnil⟩
  | cons fe files ih =>
    obtain ⟨hfe, hrest⟩ := List.forall_mem_cons.mp h
    obtain ⟨more, hmore, hmoreRows, hmoreRange⟩ := ih hrest
    -- a table outside the range has no rows; else the scan of it has those in range
    have hpart : ∃ part, scanFile start stop fe = .ok part ∧ Rows Q part ∧
        ∀ e ∈ part, start ≤ e.1 ∧ e.1 ≤ stop := by
      unfold scanFile
      dsimp only
      split
      · exact ⟨[], rfl, hnil⟩
      · split
        · exact ⟨[], rfl, hnil⟩
        · exact hfe.2.scan start stop
    obtain ⟨part, hpart, hpartRows, hpartRange⟩ := hpart
    refine ⟨part ++ more, ?_, ?_, ?_⟩
    · rw [scanFiles, hpart, Except.ok_bind, hmore]
      rfl
    · exact List.forall_mem_append.mpr ⟨hpartRows, hmoreRows⟩
    · exact List.forall_mem_append.mpr ⟨hpartRange, hmoreRange⟩

/-- A scan of all layers succeeds: it returns stored rows in range, and among them
every memtable row in range. -/
theorem Stores.collectRows (h : Stores Q db) (start stop : Bytes) :
    ∃ rows, db.collectRows start stop = .ok rows ∧ Rows Q rows ∧
      (∀ e ∈ rows, start ≤ e.1 ∧ e.1 ≤ stop) ∧
      ∀ mt ∈ db.memtables, ∀ e ∈ mt.sortedEntries, start ≤ e.1 → e.1 ≤ stop → e ∈ rows := by
  have hfiles : ∀ fe ∈ db.layout.flatten, fe.Holds Q := by
    intro fe hfe
    obtain ⟨level, hlevel, hmem⟩ := List.mem_flatten.mp hfe
    exact h.layout level hlevel fe hmem
  obtain ⟨tableRows, hscan, hrows, hrange⟩ := scanFiles_spec hfiles start stop
  -- of a memtable, those of its entries that are in range
  have hmem : ∀ e, (∃ mt ∈ db.memtables, e ∈ mt.scan start stop) ↔
      ∃ mt ∈ db.memtables, e ∈ mt.sortedEntries ∧ start ≤ e.1 ∧ e.1 ≤ stop := by
    intro e
    simp only [MemTable.scan_eq, List.mem_filter, Bool.and_eq_true, decide_eq_true_eq]
  refine ⟨(db.memtables.flatMap fun mt => mt.scan start stop) ++ tableRows, ?_, ?_, ?_, ?_⟩
  · unfold ZenithDB.collectRows
    rw [hscan]
    rfl
  · refine List.forall_mem_append.mpr ⟨?_, hrows⟩
    intro e he
    obtain ⟨mt, hmt, hentry, -⟩ := (hmem e).mp (List.mem_flatMap.mp he)
    exact h.memtables mt hmt e hentry
  · refine List.forall_mem_append.mpr ⟨?_, hrange⟩
    intro e he
    obtain ⟨mt, hmt, -, hin⟩ := (hmem e).mp (List.mem_flatMap.mp he)
    exact hin
  · intro mt hmt e he hstart hstop
    apply List.mem_append_left
    exact List.mem_flatMap.mpr ((hmem e).mpr ⟨mt, hmt, he, hstart, hstop⟩)

end ZenithDB

end Zenith
