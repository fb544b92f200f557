import Mathlib.Order.Bounds.Basic
import Zenith.Storage.MemTable
import Zenith.Storage.SkipReads

/-!
# Zenith — the memtable on its skip list

`memtable.cpp` as it stands, over the skip list: `put` and `remove` insert and then widen
the range, `scan` and `sorted_entries` walk an iterator. It is related to the memtable of
the database model, which has a sorted map for the skip list (`Represents`): they give the
same answers after the same writes.

The database needs of a memtable only what it holds, so its model has the map and not the
pointers. What justifies that is here: the two are in step after every write, and no method
of the one on the skip list faults, neither by a pointer that has no value nor by a loop
that does not end.

The heights of new nodes are given with the writes. They are drawn at random in the source
and have no influence on any answer.

Main results: `represents_applyAll` (the refinement) and `memTable_exact` (what the range,
the reads and the scans are, in terms of the writes).
-/

namespace Zenith

open SkipList (Height Position)

/-- The memtable of the source: its skip list and its range. -/
structure SkipMemTable where
  table : SkipList
  hasRange : Bool
  minKey : Bytes
  maxKey : Bytes

namespace SkipMemTable

/-- The constructor. -/
def new : SkipMemTable := ⟨SkipList.new, false, [], []⟩

/-- `update_range` -/
def updateRange (mt : SkipMemTable) (key : Bytes) : SkipMemTable :=
  if mt.hasRange = false then { mt with minKey := key, maxKey := key, hasRange := true }
  else { mt with
    minKey := if key < mt.minKey then key else mt.minKey
    maxKey := if key > mt.maxKey then key else mt.maxKey }

/-- `put`, with the height that the skip list draws for a new node. -/
def put (mt : SkipMemTable) (key value : Bytes) (height : Height) : Except Fault SkipMemTable := do
  let table ← mt.table.insert key value height
  return { mt with table }.updateRange key

/-- `remove` inserts a tombstone. -/
def remove (mt : SkipMemTable) (key : Bytes) (height : Height) : Except Fault SkipMemTable := do
  let table ← mt.table.insert key [] height
  return { mt with table }.updateRange key

/-- `get` -/
def get (mt : SkipMemTable) (key : Bytes) : Except Fault (Option Bytes) := mt.table.get key

/-- The loop of `scan`, which breaks above `stop`. -/
def scanFrom (s : SkipList) (stop : Bytes) : Nat → Position → Except Fault (List (Bytes × Bytes))
  | _, none => .ok []
  | 0, some _ => .error (.thrown "still iterating")
  | bound + 1, some x => do
    let n ← s.nodeAt x
    if n.key > stop then return []
    return (n.key, n.value) :: (← scanFrom s stop bound (← s.iterNext x))

/-- `scan`: nothing for a range that is empty, else from `Seek` on. -/
def scan (mt : SkipMemTable) (start stop : Bytes) : Except Fault (List (Bytes × Bytes)) :=
  if start > stop then .ok []
  else do scanFrom mt.table stop mt.table.nodes.length (← mt.table.seek start)

/-- `sorted_entries` -/
def sortedEntries (mt : SkipMemTable) : Except Fault (List (Bytes × Bytes)) := do
  return (← mt.table.forward (← mt.table.seekToFirst)).map Prod.snd

/-- How `ZenithDB::get_crdt` asks the table: only within its range, and an empty value
counts as absent. -/
def probe (mt : SkipMemTable) (key : Bytes) : Except Fault (Option Bytes) :=
  if mt.hasRange = true ∧ mt.minKey ≤ key ∧ key ≤ mt.maxKey then do
    match ← mt.get key with
    | some v => return if v = [] then none else some v
    | none => return none
  else .ok none

-- ---------------------------------------------------------------------------
-- Writes
-- ---------------------------------------------------------------------------

/-- The writes, with the height that the skip list draws. -/
inductive Write
  | put (key value : Bytes) (height : Height)
  | remove (key : Bytes) (height : Height)

namespace Write

/-- What is written under which key. -/
def entry : Write → Bytes × Bytes
  | put key value _ => (key, value)
  | remove key _ => (key, [])

end Write

/-- A write. -/
def apply (mt : SkipMemTable) : Write → Except Fault SkipMemTable
  | .put key value height => mt.put key value height
  | .remove key height => mt.remove key height

/-- The writes in order. -/
def applyAll (mt : SkipMemTable) (ws : List Write) : Except Fault SkipMemTable :=
  ws.foldlM apply mt

end SkipMemTable

-- ---------------------------------------------------------------------------
-- The memtable of the database model
-- ---------------------------------------------------------------------------

namespace MemTable

/-- The memtable after some writes. -/
def ofWrites (writes : List (Bytes × Bytes)) : MemTable :=
  writes.foldl (fun mt w => mt.put w.1 w.2) new

/-- One write more. -/
theorem ofWrites_append (writes : List (Bytes × Bytes)) (w : Bytes × Bytes) :
    ofWrites (writes ++ [w]) = (ofWrites writes).put w.1 w.2 := List.foldl_append

/-- It answers with the last value written. -/
theorem get_ofWrites (writes : List (Bytes × Bytes)) (key : Bytes) :
    (ofWrites writes).get key = History.last key writes := by
  induction writes using List.reverseRecOn with
  | nil => rfl
  | append_singleton writes w ih =>
    rw [ofWrites_append, get_put, History.last_append_singleton, ih]

/-- The keys written. -/
def written (writes : List (Bytes × Bytes)) : Set Bytes := {key | key ∈ writes.map Prod.fst}

/-- It adds its key. -/
theorem written_append (writes : List (Bytes × Bytes)) (w : Bytes × Bytes) :
    written (writes ++ [w]) = insert w.1 (written writes) := by
  ext key
  simp only [written, List.map_append, List.map_singleton, List.mem_append, List.mem_singleton,
    Set.mem_ofPred_eq, Set.mem_insert_iff, or_comm]

/-- Its range is that of the keys written. -/
theorem range_ofWrites (writes : List (Bytes × Bytes)) :
    ((ofWrites writes).hasRange = true ↔ writes ≠ []) ∧
      (writes ≠ [] → IsLeast (written writes) (ofWrites writes).minKey ∧
        IsGreatest (written writes) (ofWrites writes).maxKey) := by
  -- from the first write to the last
  induction writes using List.reverseRecOn with
  | nil => exact ⟨⟨fun h => absurd h (by decide), fun h => absurd rfl h⟩, fun h => absurd rfl h⟩
  | append_singleton writes w ih =>
    obtain ⟨hrange, hbounds⟩ := ih
    rw [ofWrites_append, written_append]
    by_cases hnil : writes = []
    · -- the first write
      subst hnil
      have hone : insert w.1 (written []) = {w.1} := by simp [written]
      rw [hone]
      exact ⟨⟨fun _ => by simp, fun _ => rfl⟩, fun _ => ⟨isLeast_singleton, isGreatest_singleton⟩⟩
    · obtain ⟨hleast, hgreatest⟩ := hbounds hnil
      set mt := ofWrites writes
      have hupdate : mt.updateRange w.1 = (true, min w.1 mt.minKey, max w.1 mt.maxKey) := by
        rw [updateRange, if_neg (by rw [hrange.mpr hnil]; decide)]
        refine Prod.ext rfl (Prod.ext ?_ ?_)
        · rcases lt_or_ge w.1 mt.minKey with hlt | hge
          · exact (if_pos hlt).trans (min_eq_left hlt.le).symm
          · exact (if_neg hge.not_gt).trans (min_eq_right hge).symm
        · rcases lt_or_ge mt.maxKey w.1 with hlt | hge
          · exact (if_pos hlt).trans (max_eq_left hlt.le).symm
          · exact (if_neg hge.not_gt).trans (max_eq_right hge).symm
      have hput : (mt.put w.1 w.2).hasRange = true ∧ (mt.put w.1 w.2).minKey = min w.1 mt.minKey ∧
          (mt.put w.1 w.2).maxKey = max w.1 mt.maxKey := by
        simp only [put, hupdate, and_self]
      rw [hput.1, hput.2.1, hput.2.2]
      exact ⟨⟨fun _ => by simp, fun _ => rfl⟩, fun _ => ⟨hleast.insert w.1, hgreatest.insert w.1⟩⟩

end MemTable

-- ---------------------------------------------------------------------------
-- Refinement
-- ---------------------------------------------------------------------------

namespace SkipMemTable

/-- The table behind `mt` shows the content of `m`, and the ranges are the same. -/
structure Represents (mt : SkipMemTable) (m : MemTable) : Prop where
  shows : mt.table.Shows m.table
  hasRange : mt.hasRange = m.hasRange
  minKey : mt.minKey = m.minKey
  maxKey : mt.maxKey = m.maxKey

/-- Both are empty. -/
theorem represents_new : Represents new MemTable.new := ⟨SkipList.shows_new, rfl, rfl, rfl⟩

namespace Represents

variable {mt : SkipMemTable} {m : MemTable}

/-- Widening the range of both. -/
theorem updateRange (h : Represents mt m) (key value : Bytes) {table : SkipList}
    (htable : table.Shows (m.table.insert key value)) :
    Represents ({ mt with table }.updateRange key) (m.put key value) := by
  cases mt with
  | mk table₀ hasRange minKey maxKey =>
    obtain ⟨-, rfl, rfl, rfl⟩ := h
    cases hrange : m.hasRange with
    | false =>
      refine ⟨?_, ?_, ?_, ?_⟩ <;>
        simp only [SkipMemTable.updateRange, MemTable.put, MemTable.updateRange, hrange, if_true]
      exact htable
    | true =>
      refine ⟨?_, ?_, ?_, ?_⟩ <;>
        simp only [SkipMemTable.updateRange, MemTable.put, MemTable.updateRange, hrange,
          Bool.true_eq_false, if_false]
      exact htable

/-- **One write** to both. -/
theorem apply (h : Represents mt m) (w : Write) :
    ∃ mt', mt.apply w = .ok mt' ∧ Represents mt' (m.put w.entry.1 w.entry.2) := by
  cases w with
  | put key value height =>
    obtain ⟨table, htable, hshows⟩ := h.shows.insert key value height
    exact ⟨_, by rw [SkipMemTable.apply, SkipMemTable.put, htable]; rfl,
      h.updateRange key value hshows⟩
  | remove key height =>
    obtain ⟨table, htable, hshows⟩ := h.shows.insert key [] height
    exact ⟨_, by rw [SkipMemTable.apply, SkipMemTable.remove, htable]; rfl,
      h.updateRange key [] hshows⟩

/-! The reads -/

/-- **get** -/
theorem get (h : Represents mt m) (key : Bytes) : mt.get key = .ok (m.get key) :=
  h.shows.get key

/-- The database asks both in the same way. -/
theorem probe (h : Represents mt m) (key : Bytes) : mt.probe key = .ok (m.probe key) := by
  rw [SkipMemTable.probe, MemTable.probe, h.hasRange, h.minKey, h.maxKey, h.get]
  split
  · cases m.get key <;> rfl
  · rfl

/-- **sorted_entries** -/
theorem sortedEntries (h : Represents mt m) : mt.sortedEntries = .ok m.sortedEntries := by
  obtain ⟨p, es, hfirst, hforward, hes⟩ := h.shows.iterate.1
  rw [SkipMemTable.sortedEntries, hfirst, Except.ok_bind, hforward, Except.ok_bind, hes]
  rfl

/-- The loop of `scan`, from some node on. -/
theorem scanFrom_spec {s : SkipList} {t : SkipList.Chains} (hs : SkipList.Spells s t)
    (stop : Bytes) {l r : List SkipList.Link} (hsplit : t.level 0 = l ++ r) {bound : Nat}
    (hbound : r.length ≤ bound) :
    scanFrom s stop bound (r.head?.map Prod.fst) =
      .ok ((r.map fun x => (s.shown x).2).takeWhile fun e => !decide (e.1 > stop)) := by
  -- by induction on the nodes that are left
  induction r generalizing l bound with
  | nil => cases bound <;> rfl
  | cons x r ih =>
    obtain ⟨b, rfl⟩ : ∃ b, bound = b + 1 := ⟨bound - 1, by rw [List.length_cons] at hbound; omega⟩
    obtain ⟨n, hn, hshown⟩ := hs.nodeAt_shown (by simp [hsplit] : x ∈ t.level 0)
    have hrest := ih (l := l ++ [x]) (by rw [hsplit]; simp) (Nat.le_of_succ_le_succ hbound)
    rw [List.head?_cons, Option.map_some, scanFrom, hn, Except.ok_bind, hs.iterNext_spec hsplit,
      Except.ok_bind, hrest, List.map_cons, hshown]
    by_cases hgt : n.key > stop
    · rw [if_pos hgt, List.takeWhile_cons_of_neg (by simpa using hgt)]
      rfl
    · rw [if_neg hgt, List.takeWhile_cons_of_pos (by simpa using hgt)]
      rfl

/-- **scan** -/
theorem scan (h : Represents mt m) (start stop : Bytes) :
    mt.scan start stop = .ok (m.scan start stop) := by
  by_cases hgt : start > stop
  · rw [SkipMemTable.scan, if_pos hgt, MemTable.scan, if_pos hgt]
  obtain ⟨t, hs, hcontent⟩ := h.shows
  have hlen : (t.above start 0).length ≤ mt.table.nodes.length :=
    (List.length_filter_le _ _).trans (hs.length_lt 0).le
  rw [SkipMemTable.scan, if_neg hgt, hs.seek_spec, Except.ok_bind,
    scanFrom_spec hs stop (t.level_eq_below start 0) hlen,
    SkipList.map_above t start (fun x => (mt.table.shown x).2) Prod.fst fun _ => rfl, m.scan_eq]
  have hentries : ((t.level 0).map fun x => (mt.table.shown x).2) = m.sortedEntries := hcontent
  rw [hentries]
  exact congrArg Except.ok (MemTable.takeWhile_filter_eq m.table.sorted start stop)

end Represents

/-- **Refinement**: the same answers after the same writes. -/
theorem represents_applyAll (ws : List Write) :
    ∃ mt, new.applyAll ws = .ok mt ∧ Represents mt (MemTable.ofWrites (ws.map Write.entry)) := by
  induction ws using List.reverseRecOn with
  | nil => exact ⟨new, rfl, represents_new⟩
  | append_singleton ws w ih =>
    obtain ⟨mt, hmt, hrep⟩ := ih
    obtain ⟨mt', hmt', hrep'⟩ := hrep.apply w
    refine ⟨mt', ?_, ?_⟩
    · rw [applyAll, List.foldlM_append]
      exact Except.bind_eq_ok_iff.mpr ⟨mt, hmt, by rw [List.foldlM_cons, hmt']; rfl⟩
    · rw [List.map_append, List.map_singleton, MemTable.ofWrites_append]
      exact hrep'

/-- **The memtable is exact**, after any writes: there is a range if and only if something
was written, and it goes from the least to the greatest key; a read returns what was last
written to the key, the empty value after a removal, and the read of the database leaves
that out; `sorted_entries` has each key once, in ascending order, with that value; and a
scan is the part of it between its ends. None of this depends on the heights. -/
theorem memTable_exact (ws : List Write) :
    ∃ mt es, new.applyAll ws = .ok mt ∧
      (mt.hasRange = true ↔ ws ≠ []) ∧
      (ws ≠ [] → IsLeast (MemTable.written (ws.map Write.entry)) mt.minKey ∧
        IsGreatest (MemTable.written (ws.map Write.entry)) mt.maxKey) ∧
      (∀ k, mt.get k = .ok (History.last k (ws.map Write.entry))) ∧
      (∀ k, mt.probe k =
        .ok ((History.last k (ws.map Write.entry)).filter fun v => decide (v ≠ []))) ∧
      mt.sortedEntries = .ok es ∧
      (es.Pairwise fun a b => a.1 < b.1) ∧
      (∀ k v, (k, v) ∈ es ↔ History.last k (ws.map Write.entry) = some v) ∧
      ∀ start stop, mt.scan start stop =
        .ok (es.filter fun e => decide (start ≤ e.1) && decide (e.1 ≤ stop)) := by
  obtain ⟨mt, hmt, h⟩ := represents_applyAll ws
  set writes := ws.map Write.entry with hwrites
  obtain ⟨hrange, hbounds⟩ := MemTable.range_ofWrites writes
  have hnil : writes ≠ [] ↔ ws ≠ [] := not_congr List.map_eq_nil_iff
  refine ⟨mt, (MemTable.ofWrites writes).sortedEntries, hmt, ?_, fun hne => ?_, fun k => ?_,
    fun k => ?_, h.sortedEntries, (MemTable.ofWrites writes).table.sorted, fun k v => ?_,
    fun start stop => ?_⟩
  · rw [h.hasRange, hrange, hnil]
  · rw [h.minKey, h.maxKey]
    exact hbounds (hnil.mpr hne)
  · rw [h.get, MemTable.get_ofWrites]
  · rw [h.probe, MemTable.probe_eq, MemTable.get_ofWrites]
  · rw [← MemTable.get_ofWrites]
    exact SortedMap.get?_eq_some_iff.symm
  · rw [h.scan, MemTable.scan_eq]

end SkipMemTable

end Zenith
